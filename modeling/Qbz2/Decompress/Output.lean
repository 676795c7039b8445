/-
  File:      Qbz2/Decompress/Output.lean
  Subject:   `unRLE_obuf_to_output_FAST` and `unRLE_obuf_to_output_SMALL` (`src/bzlib.c`): from the
             vector to the caller's buffer, undoing the run-length coding.

  * `Out` -- where the output stands within the block; `OutEnv` -- the block it is taken from;
  * `Out.get` -- `BZ_GET_FAST` or `BZ_GET_SMALL`, with the mask of randomised blocks;
  * `unRleSlow` -- byte by byte: the small mode, and randomised blocks in both modes;
  * `unRleFast` -- normal mode: whole runs, with the state cached in locals.

  `True` is `corrupt`. The cached variant of the reference decoder differs in `fastRun` alone,
  which writes a run byte by byte.
-/
import Qbz2.Decompress.Store
import Qbz2.Crc.Update

namespace Qbz2

/-! ## 1. State -/

/-- The fields of `DState` the output routines change. -/
structure Out where
  stateOutCh : Byte := 0
  stateOutLen : Nat := 0
  nblockUsed : Nat := 0
  k0 : Byte := 0
  tPos : Word32 := 0
  rNToGo : Nat := 0
  rTPos : Nat := 0
  calculatedBlockCRC : Word32 := 0

/-- What they only read: a step along the vector, `blockRandomised`, `save_nblock`. -/
structure OutEnv where
  next : Word32 → Option (Byte × Word32)
  randomised : Bool
  nblock : Nat

namespace Out

/-- `BZ_RAND_UPD_MASK`. -/
def updMask (o : Out) : Out :=
  let o :=
    if o.rNToGo = 0 then
      { o with
        rNToGo := bz2RNums.getD o.rTPos 0
        rTPos := if o.rTPos + 1 = 512 then 0 else o.rTPos + 1 }
    else o
  { o with rNToGo := o.rNToGo - 1 }

/-- `BZ_RAND_MASK`. -/
def mask (o : Out) : Byte := if o.rNToGo = 1 then 1 else 0

/-- `BZ_GET_..(k); nblock_used++`, with `BZ_RAND_UPD_MASK; k ^= BZ_RAND_MASK` in a randomised
    block. -/
def get (e : OutEnv) (o : Out) : Option (Byte × Out) :=
  match e.next o.tPos with
  | none => none
  | some (k, tPos) =>
    let o := { o with tPos }
    if e.randomised then
      let o := o.updMask
      some (k ^^^ o.mask, { o with nblockUsed := o.nblockUsed + 1 })
    else some (k, { o with nblockUsed := o.nblockUsed + 1 })

/-- One byte of a run given out. -/
def emit (o : Out) : Out :=
  { o with
    calculatedBlockCRC := updateCrc o.calculatedBlockCRC o.stateOutCh
    stateOutLen := o.stateOutLen - 1 }

end Out

/-! ## 2. Byte by byte -/

/-- The next run, `state_out_len` and `state_out_ch`, and whether a `BZ_GET` failed. -/
def fetchSlow (e : OutEnv) (o : Out) : Bool × Out :=
  let o := { o with stateOutLen := 1, stateOutCh := o.k0 }
  match o.get e with
  | none => (true, o)
  | some (k1, o) =>
    if o.nblockUsed = e.nblock + 1 then (false, o)
    else if k1 ≠ o.k0 then (false, { o with k0 := k1 })
    else
      let o := { o with stateOutLen := 2 }
      match o.get e with
      | none => (true, o)
      | some (k1, o) =>
        if o.nblockUsed = e.nblock + 1 then (false, o)
        else if k1 ≠ o.k0 then (false, { o with k0 := k1 })
        else
          let o := { o with stateOutLen := 3 }
          match o.get e with
          | none => (true, o)
          | some (k1, o) =>
            if o.nblockUsed = e.nblock + 1 then (false, o)
            else if k1 ≠ o.k0 then (false, { o with k0 := k1 })
            else
              match o.get e with
              | none => (true, o)
              | some (k1, o) =>
                let o := { o with stateOutLen := k1.toNat + 4 }
                match o.get e with
                | none => (true, o)
                | some (k0, o) => (false, { o with k0 })

/-- The inner loop, `avail_out` being `n`: whether it ended because the buffer is full. -/
def drainSlow : Nat → Out → BzStream → Bool × Out × BzStream
  | 0, o, strm => (true, o, strm)
  | n + 1, o, strm =>
    if o.stateOutLen = 0 then (false, o, strm)
    else drainSlow n o.emit (strm.putByte o.stateOutCh)

/-- The outer loop. -/
def unRleSlowLoop (e : OutEnv) : Nat → Out → BzStream → Option (Bool × Out × BzStream)
  | 0, _, _ => none
  | fuel + 1, o, strm =>
    match drainSlow strm.availOut o strm with
    | (true, o, strm) => some (false, o, strm)
    | (false, o, strm) =>
      if o.nblockUsed = e.nblock + 1 then some (false, o, strm)
      else if o.nblockUsed > e.nblock + 1 then some (true, o, strm)
      else
        match fetchSlow e o with
        | (true, o) => some (true, o, strm)
        | (false, o) => unRleSlowLoop e fuel o strm

/-- `unRLE_obuf_to_output_SMALL`, and the randomised half of `.._FAST`. Every round but the first
    writes a byte. -/
def unRleSlow (e : OutEnv) (o : Out) (strm : BzStream) : Option (Bool × Out × BzStream) :=
  unRleSlowLoop e (strm.availOut + 1) o strm

/-! ## 3. Whole runs -/

/-- The locals of the fast routine: the cached state, the bytes stored through `cs_next_out`, and
    `cs_avail_out`. -/
structure Cached where
  o : Out
  written : List Byte
  avail : Nat

/-- `n` bytes of the run at once. -/
def Cached.batch [Build] (nextOut : Int) (c : Cached) (n : Nat) : Cached :=
  let bytes := List.replicate n c.o.stateOutCh
  { o := { c.o with
      calculatedBlockCRC :=
        bz2Crc32Update (nextOut + c.written.length) c.o.calculatedBlockCRC bytes
      stateOutLen := c.o.stateOutLen - n }
    written := c.written ++ bytes
    avail := c.avail - n }

/-- One byte stored. -/
def Cached.one (c : Cached) : Cached :=
  { o := { c.o with calculatedBlockCRC := updateCrc c.o.calculatedBlockCRC c.o.stateOutCh }
    written := c.written ++ [c.o.stateOutCh]
    avail := c.avail - 1 }

/-- The inner loop, up to the last byte of the run: whether it ended because the buffer is
    full. -/
def fastRun [Build] (ver : Version) (nextOut : Int) : Nat → Cached → Option (Bool × Cached)
  | 0, _ => none
  | fuel + 1, c =>
    if c.avail = 0 then some (true, c)
    else if c.o.stateOutLen = 1 then some (false, c)
    else
      match ver with
      | .qbz2 =>
        let n := c.o.stateOutLen - 1
        let n := if n > c.avail then c.avail else n
        fastRun ver nextOut fuel (c.batch nextOut n)
      | .reference =>
        let c := c.one
        fastRun ver nextOut fuel { c with o := { c.o with stateOutLen := c.o.stateOutLen - 1 } }

/-- Where the fast routine goes from the end of a run. -/
inductive FastNext where
  | corrupt
  | notr (o : Out)
  | eqOne (o : Out)
  | top (o : Out)

/-- From the end of a run to the start of the next. -/
def fetchFast (e : OutEnv) (o : Out) : FastNext :=
  if o.nblockUsed > e.nblock + 1 then .corrupt
  else if o.nblockUsed = e.nblock + 1 then .notr { o with stateOutLen := 0 }
  else
    let o := { o with stateOutCh := o.k0 }
    match o.get e with
    | none => .corrupt
    | some (k1, o) =>
      if k1 ≠ o.k0 then .eqOne { o with k0 := k1 }
      else if o.nblockUsed = e.nblock + 1 then .eqOne o
      else
        let o := { o with stateOutLen := 2 }
        match o.get e with
        | none => .corrupt
        | some (k1, o) =>
          if o.nblockUsed = e.nblock + 1 then .top o
          else if k1 ≠ o.k0 then .top { o with k0 := k1 }
          else
            let o := { o with stateOutLen := 3 }
            match o.get e with
            | none => .corrupt
            | some (k1, o) =>
              if o.nblockUsed = e.nblock + 1 then .top o
              else if k1 ≠ o.k0 then .top { o with k0 := k1 }
              else
                match o.get e with
                | none => .corrupt
                | some (k1, o) =>
                  let o := { o with stateOutLen := k1.toNat + 4 }
                  match o.get e with
                  | none => .corrupt
                  | some (k0, o) => .top { o with k0 }

/-- How the fast routine ends: `return True`, with nothing saved, or at `return_notr`. -/
inductive FastEnd where
  | corrupt
  | notr (c : Cached)

/-- The loop, entered at its top or (`eqOne`) at `s_state_out_len_eq_one`. -/
def unRleFastLoop [Build] (ver : Version) (e : OutEnv) (nextOut : Int) :
    Nat → Bool → Cached → Option FastEnd
  | 0, _, _ => none
  | fuel + 1, eqOne, c => do
    let (full, c) ←
      if eqOne then pure (false, c)
      else if c.o.stateOutLen > 0 then fastRun ver nextOut (c.avail + 1) c
      else pure (false, c)
    if full then return .notr c
    -- `s_state_out_len_eq_one`, skipped where there was no run
    if (eqOne || c.o.stateOutLen > 0) && c.avail = 0 then
      return .notr { c with o := { c.o with stateOutLen := 1 } }
    let c := if eqOne || c.o.stateOutLen > 0 then c.one else c
    match fetchFast e c.o with
    | .corrupt => return .corrupt
    | .notr o => return .notr { c with o }
    | .eqOne o => unRleFastLoop ver e nextOut fuel true { c with o }
    | .top o => unRleFastLoop ver e nextOut fuel false { c with o }

/-- `unRLE_obuf_to_output_FAST` for a block that is not randomised. -/
def unRleFast [Build] (ver : Version) (e : OutEnv) (o : Out) (strm : BzStream) :
    Option (Bool × Out × BzStream) :=
  match unRleFastLoop ver e strm.nextOut (strm.availOut + 2) false ⟨o, [], strm.availOut⟩ with
  | none => none
  | some .corrupt => some (true, o, strm)
  | some (.notr c) => some (false, c.o, strm.putBytes c.written)

/-- The routine a block is drained by. -/
def unRle [Build] (ver : Version) (small : Bool) (e : OutEnv) (o : Out) (strm : BzStream) :
    Option (Bool × Out × BzStream) :=
  if small || e.randomised then unRleSlow e o strm else unRleFast ver e o strm

end Qbz2
