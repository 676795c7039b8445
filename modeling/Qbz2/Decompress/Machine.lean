/-
  File:      Qbz2/Decompress/Machine.lean
  Subject:   `BZ2_decompress` (`src/decompress.c`) and `BZ2_bzDecompress`, `BZ2_bzDecompressInit`,
             `BZ2_bzBuffToBuffDecompress` (`src/bzlib.c`).

  * `DState` -- the state of the decoder, with `Core` for all of it but the bit buffer;
  * `decompress` -- the parser with its input: `GET_BITS` with the 4-byte and the 1-byte refill,
    the table lookup, the bytes handed back at the end of the stream;
  * `bzDecompress` -- one call of the library.

  The two decoders share this text, as their sources do. The reference decoder has the 1-byte
  refill only, no lookup, and hands nothing back.
-/
import Qbz2.Decompress.Output

namespace Qbz2

/-! ## 1. State -/

/-- `DState` without the bit buffer and the label. -/
structure Core (μ : Type) where
  p : Parse
  store : Store μ
  out : Out
  calculatedCombinedCRC : Word32

/-- `BZ_X_IDLE`, `BZ_X_OUTPUT`, or a label of the parser. -/
inductive XState where
  | idle
  | output
  | parsing (l : Label)
  deriving DecidableEq

/-- `DState`. -/
structure DState (μ : Type) where
  state : XState
  bits : BitBuf
  core : Core μ
  small : Bool

section

variable {μ : Type} [MtfList μ]

namespace Core

/-- A stretch of the parser, and what it does to the block. -/
def absorb (small : Bool) (c : Core μ) (r : Parsed) : Core μ × Ctl :=
  ({ c with
      p := r.1
      store := r.2.1.foldl (Store.apply small r.1.seqToUnseq) c.store }, r.2.2)

/-- The code from a label on. -/
def resume (ver : Version) (small : Bool) (c : Core μ) (l : Label) (v : Nat) : Core μ × Ctl :=
  c.absorb small (c.p.resume ver l v)

/-- `100000 * blockSize100k`. -/
def limit (c : Core μ) : Nat := 100000 * c.p.blockSize100k

/-- What the output routines read. -/
def env (small : Bool) (c : Core μ) : OutEnv where
  next tPos := c.store.getByte small c.limit tPos
  randomised := c.p.blockRandomised
  nblock := c.p.nblock

/-- The vector of a block, and where the output starts in it. -/
def buildVector (small : Bool) (c : Core μ) : Option (Core μ) :=
  if small then
    (c.store.buildSmall c.p.nblock c.p.origPtr).map fun store =>
      { c with
        store
        out := { c.out with tPos := BitVec.ofNat 32 c.p.origPtr, nblockUsed := 0 } }
  else
    let store := c.store.buildFast c.p.nblock
    some
      { c with
        store
        out := { c.out with tPos := store.tt c.p.origPtr >>> 8, nblockUsed := 0 } }

/-- `BZ_RAND_INIT_MASK` in a randomised block, and the first `BZ_GET`. Its `return True` leaves
    `BZ_X_OUTPUT` behind like the `RETURN(BZ_OK)` after it. -/
def firstByte (small : Bool) (c : Core μ) : Core μ :=
  let out := if c.p.blockRandomised then { c.out with rNToGo := 0, rTPos := 0 } else c.out
  match out.get (c.env small) with
  | none => { c with out }
  | some (k0, out) => { c with out := { out with k0 } }

/-- From `EOB` to `RETURN(BZ_OK)`: a code where one of the checks fails, none where the state is
    `BZ_X_OUTPUT` now. -/
def endBlock (small : Bool) (c : Core μ) : Option (Core μ × Option Ret) :=
  if c.p.origPtr ≥ c.p.nblock then some (c, some .dataError)
  else if c.store.unzftabBad c.p.nblock then some (c, some .dataError)
  else
    let c := { c with store := c.store.makeCftab }
    if c.store.cftabBad c.p.nblock then some (c, some .dataError)
    else
      let c := { c with
        out := { c.out with
          stateOutLen := 0
          stateOutCh := 0
          calculatedBlockCRC := 0xffffffff } }
      (c.buildVector small).map fun c => (c.firstByte small, none)

/-- The end of the output of a block: its CRC checked and folded into the combined one; none where
    it is wrong. -/
def finishBlock (c : Core μ) : Core μ × Bool :=
  let crc := ~~~c.out.calculatedBlockCRC
  let c := { c with out := { c.out with calculatedBlockCRC := crc } }
  if crc ≠ c.p.storedBlockCRC then (c, false)
  else
    ({ c with
        calculatedCombinedCRC :=
          ((c.calculatedCombinedCRC <<< 1) ||| (c.calculatedCombinedCRC >>> 31)) ^^^ crc }, true)

end Core

/-! ## 2. Bits -/

/-- Four bytes into the buffer. -/
def refill4 (b : BitBuf) (strm : BzStream) : BitBuf × BzStream :=
  let m := strm.mem
  let a := strm.nextIn
  ({ bsBuff := (b.bsBuff <<< 32) ||| ((m a).setWidth 64 <<< 24) ||| ((m (a + 1)).setWidth 64 <<< 16) |||
        ((m (a + 2)).setWidth 64 <<< 8) ||| (m (a + 3)).setWidth 64
     bsLive := b.bsLive + 32 }, strm.skip4)

/-- One byte into the buffer; `bsBuff` has 64 bits, or 32 in the reference decoder. -/
def refill1 (ver : Version) (b : BitBuf) (strm : BzStream) : BitBuf × BzStream :=
  let buff := (b.bsBuff <<< 8) ||| (strm.mem strm.nextIn).setWidth 64
  ({ bsBuff := match ver with
      | .qbz2 => buff
      | .reference => (buff.setWidth 32).setWidth 64
     bsLive := b.bsLive + 8 }, strm.skipByte)

/-- The 4-byte refill is there, and applies. -/
def canRefill4 (ver : Version) (b : BitBuf) (strm : BzStream) : Bool :=
  match ver with
  | .qbz2 => decide (strm.availIn ≥ 4 ∧ b.bsLive ≤ 32)
  | .reference => false

/-! ## 3. `BZ2_decompress` -/

/-- Whole bytes still buffered go back to the input. -/
def giveBack (ver : Version) (d : DState μ) (strm : BzStream) : DState μ × BzStream :=
  match ver with
  | .qbz2 => ({ d with bits := ⟨0, 0⟩ }, strm.unread (d.bits.bsLive / 8))
  | .reference => (d, strm)

/-- After a literal: the refill and the lookup, and `GET_MTF_VAL` where the lookup finds
    nothing. -/
def fastDecode (ver : Version) (d : DState μ) (strm : BzStream) : DState μ × BzStream × Ctl :=
  let slow := fun (d : DState μ) (strm : BzStream) =>
    let (core, ctl) := d.core.absorb d.small (d.core.p.beginVal .literal)
    ({ d with core }, strm, ctl)
  match ver with
  | .reference => slow d strm
  | .qbz2 =>
    if d.core.p.groupPos > 0 then
      let (bits, strm) := if canRefill4 ver d.bits strm then refill4 d.bits strm else (d.bits, strm)
      let d := { d with bits }
      if d.bits.bsLive ≥ bzDecodeTableBits then
        match tableLookup d.core.p.group d.bits with
        | some (sym, k) =>
          let p := { d.core.p with nextSym := sym, groupPos := d.core.p.groupPos - 1 }
          let (core, ctl) := d.core.absorb d.small p.symbol
          ({ d with bits := d.bits.skip k, core }, strm, ctl)
        | none => slow d strm
      else slow d strm
    else slow d strm

/-- One step of `BZ2_decompress`: it goes on (left) or returns (right). `none` where the pointer
    reversal of the small mode does not end. -/
def decompressStep (ver : Version) (s : DState μ × BzStream × Ctl) :
    Option ((DState μ × BzStream × Ctl) ⊕ (Ret × DState μ × BzStream)) :=
  let (d, strm, ctl) := s
  match ctl with
  | .get l =>
    let d := { d with state := .parsing l }
    let n := l.nbits
    if n ≤ d.bits.bsLive then
      let v := d.bits.peek n
      let (core, ctl) := d.core.resume ver d.small l v
      some (.inl ({ d with state := .parsing (l.after v), bits := d.bits.skip n, core }, strm, ctl))
    else if canRefill4 ver d.bits strm then
      let (bits, strm) := refill4 d.bits strm
      some (.inl ({ d with bits }, strm, .get l))
    else if strm.availIn = 0 then some (.inr (.ok, d, strm))
    else
      let (bits, strm) := refill1 ver d.bits strm
      some (.inl ({ d with bits }, strm, .get l))
  | .fast => some (.inl (fastDecode ver d strm))
  | .block =>
    (d.core.endBlock d.small).map fun
      | (core, some r) => .inr (r, { d with core }, strm)
      | (core, none) => .inr (.ok, { d with core, state := .output }, strm)
  | .ret .streamEnd =>
    let (d, strm) := giveBack ver { d with state := .idle } strm
    some (.inr (.streamEnd, d, strm))
  | .ret r => some (.inr (r, d, strm))

/-- The steps of one call. -/
def decompressLoop (ver : Version) :
    Nat → DState μ × BzStream × Ctl → Option (Ret × DState μ × BzStream)
  | 0, _ => none
  | fuel + 1, s =>
    match decompressStep ver s with
    | none => none
    | some (.inl s) => decompressLoop ver fuel s
    | some (.inr r) => some r

/-- The bits at hand. -/
def bitsAvail (d : DState μ) (strm : BzStream) : Nat := d.bits.bsLive + 8 * strm.availIn

/-- `BZ2_decompress`, from the label saved in `state`. Every step but one in three reads a bit or
    a byte. -/
def decompress (ver : Version) (d : DState μ) (l : Label) (strm : BzStream) :
    Option (Ret × DState μ × BzStream) :=
  decompressLoop ver (3 * bitsAvail d strm + strm.availIn + 3) (d, strm, .get l)

/-! ## 4. `BZ2_bzDecompress` -/

/-- The loop of `BZ2_bzDecompress`. -/
def bzDecompressLoop [Build] (ver : Version) :
    Nat → DState μ → BzStream → Option (Ret × DState μ × BzStream)
  | 0, _, _ => none
  | fuel + 1, d, strm =>
    let parse := fun (d : DState μ) (l : Label) (strm : BzStream) =>
      match decompress ver d l strm with
      | none => none
      | some (.streamEnd, d, strm) =>
        if d.core.calculatedCombinedCRC ≠ d.core.p.storedCombinedCRC then
          some (.dataError, d, strm)
        else some (.streamEnd, d, strm)
      | some (r, d, strm) =>
        if d.state ≠ .output then some (r, d, strm) else bzDecompressLoop ver fuel d strm
    match d.state with
    | .idle => some (.sequenceError, d, strm)
    | .output =>
      match unRle ver d.small (d.core.env d.small) d.core.out strm with
      | none => none
      | some (corrupt, out, strm) =>
        let d := { d with core := { d.core with out } }
        if corrupt then some (.dataError, d, strm)
        else if out.nblockUsed = d.core.p.nblock + 1 ∧ out.stateOutLen = 0 then
          match d.core.finishBlock with
          | (core, false) => some (.dataError, { d with core }, strm)
          | (core, true) => parse { d with core, state := .parsing .blkhdr1 } .blkhdr1 strm
        else some (.ok, d, strm)
    | .parsing l => parse d l strm

/-- `BZ2_bzDecompress`. Every round but the first reads a block header. -/
def bzDecompress [Build] (ver : Version) (d : DState μ) (strm : BzStream) :
    Option (Ret × DState μ × BzStream) :=
  bzDecompressLoop ver (bitsAvail d strm + 2) d strm

/-- The `DState` of `BZ2_bzDecompressInit`. -/
def DState.init (small : Bool) : DState μ where
  state := .parsing .magic1
  bits := ⟨0, 0⟩
  core := { p := {}, store := { mtfa := MtfList.init }, out := {}, calculatedCombinedCRC := 0 }
  small

/-- The stream after `BZ2_bzDecompressInit`. -/
def BzStream.decompressInit (strm : BzStream) : BzStream :=
  { strm with totalInLo32 := 0, totalInHi32 := 0, totalOutLo32 := 0, totalOutHi32 := 0 }

/-- `BZ2_bzBuffToBuffDecompress`, its buffers present and its parameters in range: the code, what
    was written to `dest`, and `*destLen`. -/
def bzBuffToBuffDecompress [Build] (μ : Type) [MtfList μ] (ver : Version) (strm : BzStream)
    (small : Bool) : Option (Ret × List Byte × Nat) :=
  let destLen := strm.availOut
  match bzDecompress ver (DState.init small : DState μ) strm.decompressInit with
  | none => none
  | some (.ok, _, s) =>
    if s.availOut > 0 then some (.unexpectedEof, s.out, destLen) else some (.outbuffFull, s.out, destLen)
  | some (.streamEnd, _, s) => some (.ok, s.out, destLen - s.availOut)
  | some (r, _, s) => some (r, s.out, destLen)

end

end Qbz2
