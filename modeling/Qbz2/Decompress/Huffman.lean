/-
  File:      Qbz2/Decompress/Huffman.lean
  Subject:   The decoding tables of one Huffman group (`huffman.c`, and the table construction
             and lookup of `decompress.c`), as the source computes them.

  * `BitBuf` -- `bsBuff` with its `bsLive` valid bits;
  * `hbCreateDecodeTables` -- `limit`, `base`, `perm`;
  * `fastStep`, `fastTable` -- the two-level table, its overflow area and its abandon path;
  * `tableLookup` -- the lookup; `mtfVal`, `getMtfVal` -- `GET_MTF_VAL`.

  All the `Int32`s here are small: shifts are multiplications and divisions by powers of two.
-/
import Qbz2.Types
import Qbz2.Lib.Cells
import Qbz2.Lib.Loop

namespace Qbz2

open Loop (forUpto)

/-! ## 1. The bit buffer -/

/-- `bsBuff`, `bsLive`: the low `bsLive` bits are still to be read, the highest of them first. -/
structure BitBuf where
  bsBuff : Word64
  bsLive : Nat

namespace BitBuf

/-- `(bsBuff >> shift) & ((1 << n) - 1)`. -/
def field (b : BitBuf) (shift n : Nat) : Nat :=
  ((b.bsBuff >>> shift) &&& BitVec.ofNat 64 (2 ^ n - 1)).toNat

/-- The next `n` bits. -/
def peek (b : BitBuf) (n : Nat) : Nat := b.field (b.bsLive - n) n

/-- `bsLive -= n`. -/
def skip (b : BitBuf) (n : Nat) : BitBuf := { b with bsLive := b.bsLive - n }

/-- `GET_BITS` when the buffer holds enough. -/
def getBits (b : BitBuf) (n : Nat) : Option (Nat × BitBuf) :=
  if n ≤ b.bsLive then some (b.peek n, b.skip n) else none

end BitBuf

/-! ## 2. Constants and the record of one group -/

/-- `BZ_MAX_CODE_LEN`. -/
def bzMaxCodeLen : Nat := 23

/-- `BZ_DECODE_TABLE_BITS`. -/
def bzDecodeTableBits : Nat := 11

/-- The entries of `decode_overflow[t]`. -/
def overflowSize : Nat := 512

/-- What `DState` keeps for group `t`: `minLens[t]`, `limit[t]`, `base[t]`, `perm[t]`,
    `decode_fast[t]`, `decode_overflow[t]`. -/
structure HuffTables where
  minLen : Int
  limit : Cells Int
  base : Cells Int
  perm : Cells Int
  decodeFast : Cells Int
  decodeOverflow : Cells Int

/-! ## 3. `BZ2_hbCreateDecodeTables` -/

/-- `for (j = 0; j < alphaSize; j++) if (length[j] == i) { perm[pp] = j; pp++; }`. -/
def permRow (length : Int → Int) (alphaSize : Nat) (i : Int) (s : Cells Int × Int) :
    Cells Int × Int :=
  forUpto alphaSize
    (fun j s => if length j = i then (s.1.set s.2 j, s.2 + 1) else s) s

/-- The symbols in the order of their code lengths. -/
def permTable (length : Int → Int) (alphaSize : Nat) (minLen maxLen : Int) (perm : Cells Int) :
    Cells Int :=
  (forUpto (maxLen + 1 - minLen).toNat
    (fun k s => permRow length alphaSize (minLen + k) s) (perm, 0)).1

/-- `base` before it is adjusted: `base[i]` symbols have a code shorter than `i`. -/
def baseCounts (length : Int → Int) (alphaSize : Nat) (base : Cells Int) : Cells Int :=
  let base := base.fill 0 bzMaxCodeLen 0
  let base := forUpto alphaSize
    (fun i base => base.set (length i + 1) (base (length i + 1) + 1)) base
  forUpto (bzMaxCodeLen - 1) (fun i base => base.set (i + 1) (base (i + 1) + base i)) base

/-- One round of `for (i = minLen; i <= maxLen; i++)`: `vec += base[i+1] - base[i];
    limit[i] = vec - 1; vec <<= 1`. -/
def limitStep (base : Cells Int) (i : Int) (s : Cells Int × Int) : Cells Int × Int :=
  let vec := s.2 + (base (i + 1) - base i)
  (s.1.set i (vec - 1), vec * 2)

/-- `limit`. -/
def limitTable (base : Cells Int) (minLen maxLen : Int) (limit : Cells Int) : Cells Int :=
  (forUpto (maxLen + 1 - minLen).toNat
    (fun k s => limitStep base (minLen + k) s) (limit.fill 0 bzMaxCodeLen 0, 0)).1

/-- `for (i = minLen + 1; i <= maxLen; i++) base[i] = ((limit[i-1] + 1) << 1) - base[i]`. -/
def baseAdjust (limit : Cells Int) (minLen maxLen : Int) (base : Cells Int) : Cells Int :=
  forUpto (maxLen - minLen).toNat
    (fun k base => base.set (minLen + 1 + k) ((limit (minLen + k) + 1) * 2 - base (minLen + 1 + k)))
    base

/-- `BZ2_hbCreateDecodeTables`. -/
def hbCreateDecodeTables (length : Int → Int) (minLen maxLen : Int) (alphaSize : Nat)
    (g : HuffTables) : HuffTables :=
  let perm := permTable length alphaSize minLen maxLen g.perm
  let base := baseCounts length alphaSize g.base
  let limit := limitTable base minLen maxLen g.limit
  { g with
    limit
    base := baseAdjust limit minLen maxLen base
    perm }

/-! ## 4. The two-level table -/

/-- The locals of the table construction. -/
structure FastState where
  tbl : Cells Int
  ovf : Cells Int
  codeVal : Int
  curLen : Int
  ovfUsed : Int

/-- `while (cur_len < sym_len) { code_val <<= 1; cur_len++; }`. -/
def raiseLen (symLen : Int) (s : FastState) : FastState :=
  forUpto (symLen - s.curLen).toNat
    (fun _ s => { s with codeVal := s.codeVal * 2, curLen := s.curLen + 1 }) s

/-- `(sym_len << 16) | sym`. -/
def packEntry (symLen sym : Int) : Int := symLen * 65536 + sym

/-- A code of at most 11 bits fills its stretch of the primary table. An error here and below is
    `goto abandon_fast_table`, with the tables as far as they got. -/
def fillPrimary (symLen sym : Int) (s : FastState) : Except FastState FastState :=
  let pad := (bzDecodeTableBits - symLen).toNat
  let baseIdx := s.codeVal * 2 ^ pad
  let fillCount := 2 ^ pad
  if baseIdx < 0 ∨ baseIdx + (fillCount : Nat) > 2 ^ bzDecodeTableBits then .error s
  else .ok { s with tbl := s.tbl.fill baseIdx fillCount (packEntry symLen sym) }

/-- The overflow sub-table of a prefix, allocated where it has none; `none` where the overflow
    area is full. -/
def overflowSlot (maxLen pfx : Int) (s : FastState) : Option FastState :=
  if s.tbl pfx = 0 then
    let maxExtra := if maxLen - bzDecodeTableBits ≤ 0 then 1 else maxLen - bzDecodeTableBits
    let subSize := 2 ^ maxExtra.toNat
    if s.ovfUsed + (subSize : Nat) > overflowSize then none
    else some
      { s with
        tbl := s.tbl.set pfx (-(1 + s.ovfUsed * 16 + maxExtra))
        ovf := s.ovf.fill s.ovfUsed subSize 0
        ovfUsed := s.ovfUsed + (subSize : Nat) }
  else some s

/-- The entry of a longer code, in the sub-table of its prefix. -/
def fillOverflow (symLen sym pfx suffix extra : Int) (s : FastState) :
    Except FastState FastState :=
  let marker := -(s.tbl pfx + 1)
  let subExtra := marker % 16
  let subOffset := marker / 16
  let pad2 := subExtra - extra
  if pad2 < 0 then .error s
  else
    let baseIdx2 := suffix * 2 ^ pad2.toNat
    let fill2 := 2 ^ pad2.toNat
    if subOffset + baseIdx2 + (fill2 : Nat) > overflowSize then .error s
    else .ok { s with ovf := s.ovf.fill (subOffset + baseIdx2) fill2 (packEntry symLen sym) }

/-- `code_val++`. -/
def FastState.next (s : FastState) : FastState := { s with codeVal := s.codeVal + 1 }

/-- One symbol of the table construction. -/
def fastStep (length : Int → Int) (perm : Cells Int) (maxLen : Int) (pp2 : Nat) (s : FastState) :
    Except FastState FastState :=
  let sym := perm pp2
  let symLen := length sym
  let s := raiseLen symLen s
  if symLen ≤ bzDecodeTableBits then
    (fillPrimary symLen sym s).map FastState.next
  else
    let extra := symLen - bzDecodeTableBits
    let pfx := s.codeVal / 2 ^ extra.toNat
    let suffix := s.codeVal % 2 ^ extra.toNat
    if pfx < 0 ∨ pfx ≥ 2 ^ bzDecodeTableBits then .error s
    else
      match overflowSlot maxLen pfx s with
      | none => .ok s.next   -- overflow area full: this code stays with the slow path
      | some s => (fillOverflow symLen sym pfx suffix extra s).map FastState.next

/-- The construction, over the first `n` symbols. -/
def fastLoop (length : Int → Int) (perm : Cells Int) (maxLen : Int) :
    Nat → FastState → Except FastState FastState
  | 0, s => .ok s
  | n + 1, s => (fastLoop length perm maxLen n s).bind (fastStep length perm maxLen n)

/-- The tables of a group: `tbl` cleared, filled, and cleared again when abandoned. -/
def fastTable (length : Int → Int) (minLen maxLen : Int) (alphaSize : Nat) (g : HuffTables) :
    HuffTables :=
  let tbl := g.decodeFast.fill 0 (2 ^ bzDecodeTableBits) 0
  match fastLoop length g.perm maxLen alphaSize ⟨tbl, g.decodeOverflow, 0, minLen, 0⟩ with
  | .ok s => { g with decodeFast := s.tbl, decodeOverflow := s.ovf }
  | .error s =>
    { g with decodeFast := s.tbl.fill 0 (2 ^ bzDecodeTableBits) 0, decodeOverflow := s.ovf }

/-- `minLen` and `maxLen` of a group. -/
def lenRange (length : Int → Int) (alphaSize : Nat) : Int × Int :=
  forUpto alphaSize
    (fun i m =>
      (if length i < m.1 then length i else m.1, if length i > m.2 then length i else m.2))
    (32, 0)

/-- All the tables of one group, from its code lengths. -/
def buildTables (length : Int → Int) (alphaSize : Nat) (g : HuffTables) : HuffTables :=
  let (minLen, maxLen) := lenRange length alphaSize
  fastTable length minLen maxLen alphaSize
    { hbCreateDecodeTables length minLen maxLen alphaSize g with minLen }

/-! ## 5. Decoding one symbol -/

/-- What the loop of `GET_MTF_VAL` decides on `zn` and `zvec`. -/
inductive MtfVal where
  | error
  | more
  | symbol (sym : Int)
  deriving DecidableEq

/-- The loop of `GET_MTF_VAL`, up to its next `GET_BIT`. -/
def mtfVal (g : HuffTables) (zn zvec : Int) : MtfVal :=
  if zn > 20 then .error
  else if zvec ≤ g.limit zn then
    if zvec - g.base zn < 0 ∨ zvec - g.base zn ≥ bzMaxAlphaSize then .error
    else .symbol (g.perm (zvec - g.base zn))
  else .more

/-- The loop of `GET_MTF_VAL` on buffered bits; `none` where the buffer runs out. -/
def getMtfLoop (g : HuffTables) : Nat → Int → Int → BitBuf → Option (Option Int × BitBuf)
  | 0, _, _, _ => none
  | fuel + 1, zn, zvec, b =>
    match mtfVal g zn zvec with
    | .error => some (none, b)
    | .symbol sym => some (some sym, b)
    | .more => (b.getBits 1).bind fun r => getMtfLoop g fuel (zn + 1) (zvec * 2 + r.1) r.2

/-- `GET_MTF_VAL` on buffered bits: a symbol, or `none` for `BZ_DATA_ERROR`. No code is longer
    than 20 bits, so 21 rounds are enough. -/
def getMtfVal (g : HuffTables) (b : BitBuf) : Option (Option Int × BitBuf) :=
  (b.getBits g.minLen.toNat).bind fun r => getMtfLoop g 21 g.minLen r.1 r.2

/-- The two-level lookup, with `bsLive >= BZ_DECODE_TABLE_BITS`: the symbol, and its length. -/
def tableLookup (g : HuffTables) (b : BitBuf) : Option (Int × Nat) :=
  let entry := g.decodeFast (b.peek bzDecodeTableBits)
  if entry > 0 then some (entry % 65536, (entry / 65536).toNat)
  else if entry < 0 then
    let marker := -(entry + 1)
    let extra := (marker % 16).toNat
    let offset := marker / 16
    let totalBits := bzDecodeTableBits + extra
    if totalBits ≤ b.bsLive then
      let extraVal := b.field (b.bsLive - totalBits) extra
      let entry2 := g.decodeOverflow (offset + extraVal)
      if entry2 > 0 then some (entry2 % 65536, (entry2 / 65536).toNat) else none
    else none
  else none

end Qbz2
