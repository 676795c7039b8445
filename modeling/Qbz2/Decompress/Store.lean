/-
  File:      Qbz2/Decompress/Store.lean
  Subject:   The block under construction and the vector built from it (`src/decompress.c`,
             `src/qbz2_internal.h`): `mtfa`, `unzftab`, `tt`, `ll16`, `ll4`, `cftab`.

  * `MtfList` -- what the parser asks of the MTF list; `flatMtf` is the flat array with `memmove`;
  * `Store.apply` -- an operation of the parser on the block;
  * `buildFast`, `buildSmall` -- the vector, in both modes;
  * `getFast`, `getSmall` -- `BZ_GET_FAST`, `BZ_GET_SMALL`, one step along the vector.
-/
import Qbz2.Decompress.Parser
import Qbz2.Decompress.RandTable

namespace Qbz2

open Loop (forUpto)

/-! ## 1. The MTF list -/

/-- An MTF list: its initial state, the byte at the front, and moving the byte of index `nn` to
    the front. -/
class MtfList (μ : Type) where
  init : μ
  front : μ → Byte
  moveFront : μ → Nat → Byte × μ

/-- `mtfa[0..255]`, flat. -/
abbrev FlatMtf := List Byte

/-- `uc = mtfa[nn]; memmove(mtfa + 1, mtfa, nn); mtfa[0] = uc`. -/
instance flatMtf : MtfList FlatMtf where
  init := (List.range 256).map (BitVec.ofNat 8)
  front l := l.getD 0 0
  moveFront l nn := (l.getD nn 0, l.getD nn 0 :: (l.take nn ++ l.drop (nn + 1)))

/-! ## 2. The block -/

/-- The arrays of `DState` that hold the block. Memory from the allocator is taken as zero. No cell
    of it is read before it is written, but for `ll4`: `SET_LL4` keeps the other nibble of a byte,
    which is itself written before anything takes its value. -/
structure Store (μ : Type) where
  mtfa : μ
  unzftab : Cells Int := .ofFn fun _ => 0
  tt : Cells Word32 := .ofFn fun _ => 0
  ll16 : Cells (BitVec 16) := .ofFn fun _ => 0
  ll4 : Cells Byte := .ofFn fun _ => 0
  cftab : Cells Int := .ofFn fun _ => 0
  cftabCopy : Cells Int := .ofFn fun _ => 0

namespace Store

variable {μ : Type} [MtfList μ]

/-- `ll16[pos..] = uc` or `tt[pos..] = uc`, `n` times. -/
def write (small : Bool) (s : Store μ) (pos n : Nat) (uc : Byte) : Store μ :=
  if small then { s with ll16 := s.ll16.fill pos n (uc.setWidth 16) }
  else { s with tt := s.tt.fill pos n (uc.setWidth 32) }

/-- `seqToUnseq[mtf]`. -/
def unseq (seqToUnseq : List Byte) (uc : Byte) : Byte := seqToUnseq.getD uc.toNat 0

/-- `unzftab[uc] += es`. -/
def addCount (s : Store μ) (uc : Byte) (es : Nat) : Store μ :=
  { s with unzftab := s.unzftab.set uc.toNat (s.unzftab uc.toNat + es) }

/-- An operation of the parser. -/
def apply (small : Bool) (seqToUnseq : List Byte) (s : Store μ) : Op → Store μ
  | .start => { s with unzftab := s.unzftab.fill 0 256 0, mtfa := MtfList.init }
  | .count es => s.addCount (unseq seqToUnseq (MtfList.front s.mtfa)) es
  | .put pos es => s.write small pos es (unseq seqToUnseq (MtfList.front s.mtfa))
  | .literal pos nn =>
    let (uc, mtfa) := MtfList.moveFront s.mtfa nn
    let s := { s with mtfa }
    (s.addCount (unseq seqToUnseq uc) 1).write small pos 1 (unseq seqToUnseq uc)

/-! ## 3. The end of a block: the frequency table -/

/-- `unzftab[i] < 0 || unzftab[i] > nblock` for some `i`. -/
def unzftabBad (s : Store μ) (nblock : Nat) : Bool :=
  (List.range 256).any fun i => s.unzftab i < 0 || s.unzftab i > nblock

/-- `cftab` from `unzftab`. -/
def makeCftab (s : Store μ) : Store μ :=
  let cftab := s.cftab.set 0 0
  let cftab := forUpto 256 (fun i c => c.set (i + 1) (s.unzftab i)) cftab
  { s with cftab := forUpto 256 (fun i c => c.set (i + 1) (c (i + 1) + c i)) cftab }

/-- The range check and the monotonicity check of `cftab`. -/
def cftabBad (s : Store μ) (nblock : Nat) : Bool :=
  ((List.range 257).any fun i => s.cftab i < 0 || s.cftab i > nblock) ||
    (List.range 256).any fun i => s.cftab i > s.cftab (i + 1)

/-! ## 4. Normal mode -/

/-- One round of `T^(-1)`: `tt[cftab[uc]] |= i << 8; cftab[uc]++`. -/
def ttStep (i : Nat) (s : Store μ) : Store μ :=
  let uc : Byte := (s.tt i).setWidth 8
  let at' := s.cftab uc.toNat
  { s with
    tt := s.tt.set at' (s.tt at' ||| (BitVec.ofNat 32 i <<< 8))
    cftab := s.cftab.set uc.toNat (at' + 1) }

/-- `T^(-1)`, interleaved with the bytes. -/
def buildFast (s : Store μ) (nblock : Nat) : Store μ := forUpto nblock ttStep s

/-- `BZ_GET_FAST`; `none` is its `return True`. -/
def getFast (s : Store μ) (limit : Nat) (tPos : Word32) : Option (Byte × Word32) :=
  if tPos.toNat ≥ limit then none
  else
    let t := s.tt tPos.toNat
    some (t.setWidth 8, t >>> 8)

/-! ## 5. Small mode -/

/-- `SET_LL4`. -/
def setLL4 (s : Store μ) (i : Nat) (n : Byte) : Store μ :=
  if i % 2 = 0 then
    { s with ll4 := s.ll4.set (i / 2 : Nat) ((s.ll4 (i / 2 : Nat) &&& 0xf0#8) ||| n) }
  else
    { s with ll4 := s.ll4.set (i / 2 : Nat) ((s.ll4 (i / 2 : Nat) &&& 0x0f#8) ||| (n <<< 4)) }

/-- `SET_LL`. -/
def setLL (s : Store μ) (i n : Nat) : Store μ :=
  { s with ll16 := s.ll16.set i (BitVec.ofNat 16 n) }.setLL4 i (BitVec.ofNat 8 (n / 65536))

/-- `GET_LL4`. -/
def getLL4 (s : Store μ) (i : Nat) : Nat :=
  (s.ll4 (i / 2 : Nat)).toNat / 2 ^ (i * 4 % 8) % 16

/-- `GET_LL`. -/
def getLL (s : Store μ) (i : Nat) : Nat := (s.ll16 i).toNat ||| (s.getLL4 i * 65536)

/-- One round of the `T` vector: `SET_LL(i, cftabCopy[uc]); cftabCopy[uc]++`. -/
def llStep (i : Nat) (s : Store μ) : Store μ :=
  let uc : Byte := (s.ll16 i).setWidth 8
  let at' := s.cftabCopy uc.toNat
  { s.setLL i at'.toNat with cftabCopy := s.cftabCopy.set uc.toNat (at' + 1) }

/-- The pointer reversal: `do { tmp = GET_LL(j); SET_LL(j, i); i = j; j = tmp; }
    while (i != origPtr)`. `none` where it goes on. -/
def reverseLoop (origPtr : Nat) : Nat → Nat → Nat → Store μ → Option (Store μ)
  | 0, _, _, _ => none
  | fuel + 1, i, j, s =>
    let tmp := s.getLL j
    let s := s.setLL j i
    if j = origPtr then some s else reverseLoop origPtr fuel j tmp s

/-- The `T` vector, and from it `T^(-1)` by pointer reversal; no cycle is longer than the
    block. -/
def buildSmall (s : Store μ) (nblock origPtr : Nat) : Option (Store μ) :=
  let s := { s with cftabCopy := forUpto 257 (fun i c => c.set i (s.cftab i)) s.cftabCopy }
  let s := forUpto nblock llStep s
  reverseLoop origPtr nblock origPtr (s.getLL origPtr) s

/-- The loop of `BZ2_indexIntoF`. -/
def indexLoop (indx : Int) (cftab : Cells Int) : Nat → Nat → Nat → Nat
  | 0, nb, _ => nb
  | fuel + 1, nb, na =>
    let mid := (nb + na) / 2
    let (nb, na) := if indx ≥ cftab mid then (mid, na) else (nb, mid)
    if na - nb = 1 then nb else indexLoop indx cftab fuel nb na

/-- `BZ2_indexIntoF`: 256 halves to 1 in eight rounds. -/
def indexIntoF (indx : Int) (cftab : Cells Int) : Nat := indexLoop indx cftab 8 0 256

/-- `BZ_GET_SMALL`; `none` is its `return True`. -/
def getSmall (s : Store μ) (limit : Nat) (tPos : Word32) : Option (Byte × Word32) :=
  if tPos.toNat ≥ limit then none
  else
    some (BitVec.ofNat 8 (indexIntoF tPos.toNat s.cftab), BitVec.ofNat 32 (s.getLL tPos.toNat))

/-- One step along the vector, in either mode. -/
def getByte (small : Bool) (s : Store μ) (limit : Nat) (tPos : Word32) : Option (Byte × Word32) :=
  if small then s.getSmall limit tPos else s.getFast limit tPos

end Store

end Qbz2
