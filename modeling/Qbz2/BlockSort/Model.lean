/-
  File:      Qbz2/BlockSort/Model.lean
  Subject:   `src/blocksort.c`: the two block sorters and the entry point that picks one.

  Indices and the `Int32` locals are integers (a segment may be empty, `hi = lo - 1`). Loops the
  source ends by a `break` run with fuel (`Loop.iter`); running out is `Halt.diverge`, a failed
  `AssertH` is `Halt.assertH`, and neither returns to the caller.

  * `fallbackSimpleSort`, `fallbackQSort3`, `fallbackSort` -- exponential radix sort, the block
    being read through `eclass8` first, overwritten as `eclass`, and rebuilt at the end;
  * `saisBwt` -- the suffix array of the doubled block, filtered. What `malloc` and `libsais`
    answer is a `SaisEnv`;
  * `bz2BlockSort` -- `BZ2_blockSort`, on the fields of `EState` it touches (`SortState`).
-/
import Qbz2.Lib.Cells
import Qbz2.Lib.Loop
import Qbz2.Types

namespace Qbz2

open Loop

/-- Why a function never returns to its caller. -/
inductive Halt where
  | assertH (errcode : Nat)
  | diverge
  deriving DecidableEq, Repr

/-- The result of a function that may not return. -/
abbrev Run := Except Halt

/-- `AssertH(cond, errcode)`. -/
def assertH (cond : Bool) (errcode : Nat) : Run Unit :=
  if cond then .ok () else .error (.assertH errcode)

/-! ## 1. `fallbackSimpleSort` -/

/-- The inner loop of both passes: cells move down by `gap` while their class is smaller. At most
    `hi - j + 1` rounds. -/
def shiftLoop (gap : Int) (eclass : Cells Int) (hi ecTmp : Int) :
    Nat → Cells Int → Int → Cells Int × Int
  | 0, fmap, j => (fmap, j)
  | n + 1, fmap, j =>
    if j ≤ hi ∧ ecTmp > eclass (fmap j) then
      shiftLoop gap eclass hi ecTmp n (fmap.set (j - gap) (fmap j)) (j + gap)
    else (fmap, j)

/-- One pass, `for (i = hi - gap; i >= lo; i--)`, with `n` the number of rounds. -/
def insertPass (gap : Int) (eclass : Cells Int) (hi : Int) :
    Nat → Cells Int → Int → Cells Int
  | 0, fmap, _ => fmap
  | n + 1, fmap, i =>
    let tmp := fmap i
    let ecTmp := eclass tmp
    let (fmap, j) := shiftLoop gap eclass hi ecTmp (hi - i).toNat fmap (i + gap)
    insertPass gap eclass hi n (fmap.set (j - gap) tmp) (i - 1)

/-- `fallbackSimpleSort`. -/
def fallbackSimpleSort (fmap eclass : Cells Int) (lo hi : Int) : Cells Int :=
  if lo = hi then fmap
  else
    let fmap :=
      if hi - lo > 3 then insertPass 4 eclass hi (hi - 4 - lo + 1).toNat fmap (hi - 4) else fmap
    insertPass 1 eclass hi (hi - 1 - lo + 1).toNat fmap (hi - 1)

/-! ## 2. `fallbackQSort3` -/

/-- `fswap(fmap[a], fmap[b])`. -/
def fswap (fmap : Cells Int) (a b : Int) : Cells Int :=
  (fmap.set a (fmap b)).set b (fmap a)

/-- `fvswap`. -/
def fvswap (fmap : Cells Int) (p1 p2 : Int) : Nat → Cells Int
  | 0 => fmap
  | n + 1 => fvswap (fswap fmap p1 p2) (p1 + 1) (p2 + 1) n

/-- The first inner loop: equal classes go to the low end; stops at a greater one. At most
    `unHi - unLo + 1` rounds. -/
def scanLo (eclass : Cells Int) (med unHi : Int) :
    Nat → Cells Int → Int → Int → Cells Int × Int × Int
  | 0, fmap, unLo, ltLo => (fmap, unLo, ltLo)
  | k + 1, fmap, unLo, ltLo =>
    if unLo > unHi then (fmap, unLo, ltLo)
    else
      let n := eclass (fmap unLo) - med
      if n = 0 then scanLo eclass med unHi k (fswap fmap unLo ltLo) (unLo + 1) (ltLo + 1)
      else if n > 0 then (fmap, unLo, ltLo)
      else scanLo eclass med unHi k fmap (unLo + 1) ltLo

/-- The second inner loop: equal classes go to the high end; stops at a smaller one. -/
def scanHi (eclass : Cells Int) (med unLo : Int) :
    Nat → Cells Int → Int → Int → Cells Int × Int × Int
  | 0, fmap, unHi, gtHi => (fmap, unHi, gtHi)
  | k + 1, fmap, unHi, gtHi =>
    if unLo > unHi then (fmap, unHi, gtHi)
    else
      let n := eclass (fmap unHi) - med
      if n = 0 then scanHi eclass med unLo k (fswap fmap unHi gtHi) (unHi - 1) (gtHi - 1)
      else if n < 0 then (fmap, unHi, gtHi)
      else scanHi eclass med unLo k fmap (unHi - 1) gtHi

/-- The cursors of the partition loop. -/
structure Part where
  fmap : Cells Int
  unLo : Int
  unHi : Int
  ltLo : Int
  gtHi : Int

/-- One round of the partition loop: two scans, then an exchange. -/
def partStep (eclass : Cells Int) (med : Int) (p : Part) : Run (Part ⊕ Part) :=
  let (fmap, unLo, ltLo) :=
    scanLo eclass med p.unHi (p.unHi - p.unLo + 1).toNat p.fmap p.unLo p.ltLo
  let (fmap, unHi, gtHi) :=
    scanHi eclass med unLo (p.unHi - unLo + 1).toNat fmap p.unHi p.gtHi
  if unLo > unHi then .ok (.inr ⟨fmap, unLo, unHi, ltLo, gtHi⟩)
  else .ok (.inl ⟨fswap fmap unLo unHi, unLo + 1, unHi - 1, ltLo, gtHi⟩)

/-- The main loop's state: the array, the pivot generator and the stack, top first. -/
structure QSort where
  fmap : Cells Int
  r : Int
  stack : List (Int × Int)

/-- `fmin(a, b)`. -/
def fmin (a b : Int) : Int := if a < b then a else b

/-- The pivot's class, picked by `r % 3`. -/
def pickMed (fmap eclass : Cells Int) (r lo hi : Int) : Int :=
  let r3 := r % 3
  if r3 = 0 then eclass (fmap lo)
  else if r3 = 1 then eclass (fmap ((lo + hi) / 2))
  else eclass (fmap hi)

/-- What follows a partition: equal runs swapped to the middle, the larger part pushed first. -/
def qsortSplit (q : QSort) (r lo hi : Int) (p : Part) : QSort :=
  if p.gtHi < p.ltLo then { q with fmap := p.fmap, r := r }
  else
    let n := fmin (p.ltLo - lo) (p.unLo - p.ltLo)
    let fmap := fvswap p.fmap lo (p.unLo - n) n.toNat
    let m := fmin (hi - p.gtHi) (p.gtHi - p.unHi)
    let fmap := fvswap fmap p.unLo (hi - m + 1) m.toNat
    let n := lo + p.unLo - p.ltLo - 1
    let m := hi - (p.gtHi - p.unHi) + 1
    if n - lo > hi - m then ⟨fmap, r, (m, hi) :: (lo, n) :: q.stack⟩
    else ⟨fmap, r, (lo, n) :: (m, hi) :: q.stack⟩

/-- One round of the main loop: pop a segment, sort it or split it. -/
def qsortStep (eclass : Cells Int) (q : QSort) : Run (QSort ⊕ (Cells Int)) :=
  match q.stack with
  | [] => .ok (.inr q.fmap)
  | (lo, hi) :: rest => do
    assertH (q.stack.length < 99) 1004
    if hi - lo < 10 then
      .ok (.inl { q with fmap := fallbackSimpleSort q.fmap eclass lo hi, stack := rest })
    else
      let r := (q.r * 7621 + 1) % 32768
      let med := pickMed q.fmap eclass r lo hi
      let p ← iter Halt.diverge (partStep eclass med) (hi - lo + 3).toNat ⟨q.fmap, lo, hi, lo, hi⟩
      .ok (.inl (qsortSplit { q with stack := rest } r lo hi p))

/-- `fallbackQSort3`. -/
def fallbackQSort3 (fmap eclass : Cells Int) (loSt hiSt : Int) : Run (Cells Int) :=
  iter Halt.diverge (qsortStep eclass) (2 * (hiSt - loSt + 1) + 3).toNat ⟨fmap, 0, [(loSt, hiSt)]⟩

/-! ## 3. `fallbackSort` -/

/-- `SET_BH`. -/
def setBH (bhtab : Cells Word32) (zz : Int) : Cells Word32 :=
  bhtab.set (zz / 32) (bhtab (zz / 32) ||| (1#32 <<< (zz % 32).toNat))

/-- `CLEAR_BH`. -/
def clearBH (bhtab : Cells Word32) (zz : Int) : Cells Word32 :=
  bhtab.set (zz / 32) (bhtab (zz / 32) &&& ~~~(1#32 <<< (zz % 32).toNat))

/-- `ISSET_BH`. -/
def issetBH (bhtab : Cells Word32) (zz : Int) : Bool :=
  bhtab (zz / 32) &&& (1#32 <<< (zz % 32).toNat) != 0#32

/-- `WORD_BH`. -/
def wordBH (bhtab : Cells Word32) (zz : Int) : Word32 := bhtab (zz / 32)

/-- `UNALIGNED_BH`. -/
def unalignedBH (zz : Int) : Bool := zz % 32 != 0

/-- `while (cond k) k += d`. -/
def advance (cond : Int → Bool) (d : Int) (fuel : Nat) (k : Int) : Run Int :=
  iter Halt.diverge (fun k => if cond k then .ok (.inl (k + d)) else .ok (.inr k)) fuel k

/-- Skipping over header bits, a word at a time where it can: `p k` while bit `k` is to be skipped,
    `full k` while the whole word of bit `k` is. -/
def skipRun (p full : Int → Bool) (fuel : Nat) (k : Int) : Run Int := do
  let k ← advance (fun k => p k && unalignedBH k) 1 fuel k
  if p k then
    let k ← advance full 32 fuel k
    advance p 1 fuel k
  else .ok k

/-- `while (ISSET_BH(k) && UNALIGNED_BH(k)) k++; ...` -/
def skipSet (bhtab : Cells Word32) (fuel : Nat) (k : Int) : Run Int :=
  skipRun (fun k => issetBH bhtab k) (fun k => wordBH bhtab k == 0xffffffff#32) fuel k

/-- `while (!ISSET_BH(k) && UNALIGNED_BH(k)) k++; ...` -/
def skipClear (bhtab : Cells Word32) (fuel : Nat) (k : Int) : Run Int :=
  skipRun (fun k => !issetBH bhtab k) (fun k => wordBH bhtab k == 0x00000000#32) fuel k

/-- The header bits at the class changes of a sorted bucket, `for (i = l; i <= r; i++)`. -/
def markChanges (fmap eclass : Cells Int) : Nat → Int → Int → Cells Word32 → Cells Word32
  | 0, _, _, bhtab => bhtab
  | n + 1, i, cc, bhtab =>
    let cc1 := eclass (fmap i)
    if cc ≠ cc1 then markChanges fmap eclass n (i + 1) cc1 (setBH bhtab i)
    else markChanges fmap eclass n (i + 1) cc bhtab

/-- The state of the bucket scan at one depth. -/
structure Scan where
  fmap : Cells Int
  bhtab : Cells Word32
  r : Int
  nNotDone : Int

/-- One round of the bucket scan: find the next non-singleton bucket and sort it. -/
def scanStep (eclass : Cells Int) (nblock : Int) (s : Scan) : Run (Scan ⊕ Scan) := do
  let fuel := (nblock + 70).toNat
  let k ← skipSet s.bhtab fuel (s.r + 1)
  let l := k - 1
  if l ≥ nblock then .ok (.inr s)
  else
    let k ← skipClear s.bhtab fuel k
    let r := k - 1
    if r ≥ nblock then .ok (.inr { s with r := r })
    else if r > l then
      let fmap ← fallbackQSort3 s.fmap eclass l r
      let bhtab := markChanges fmap eclass (r - l + 1).toNat l (-1) s.bhtab
      .ok (.inl ⟨fmap, bhtab, r, s.nNotDone + (r - l + 1)⟩)
    else .ok (.inl { s with r := r })

/-- `eclass[k] = j` for every rotation: the start of the bucket of the rotation `H` further on. -/
def classes (fmap : Cells Int) (bhtab : Cells Word32) (nblock h : Int) (eclass : Cells Int) :
    Cells Int :=
  (forUpto nblock.toNat
    (fun i (s : Int × Cells Int) =>
      let j := if issetBH bhtab i then (i : Int) else s.1
      let k := fmap i - h
      let k := if k < 0 then k + nblock else k
      (j, s.2.set k j))
    (0, eclass)).2

/-- The state between two depths. -/
structure Depth where
  fmap : Cells Int
  eclass : Cells Int
  bhtab : Cells Word32
  h : Int

/-- One depth: classes, then the bucket scan, then `H *= 2`. -/
def depthStep (nblock : Int) (d : Depth) : Run (Depth ⊕ Depth) := do
  let eclass := classes d.fmap d.bhtab nblock d.h d.eclass
  let s ← iter Halt.diverge (scanStep eclass nblock) (nblock + 2).toNat ⟨d.fmap, d.bhtab, -1, 0⟩
  let h := d.h * 2
  if h > nblock ∨ s.nNotDone = 0 then .ok (.inr ⟨s.fmap, eclass, s.bhtab, h⟩)
  else .ok (.inl ⟨s.fmap, eclass, s.bhtab, h⟩)

/-- The counts, cumulated: `ftab[b]` one past the last cell of bucket `b`. -/
def radixCounts (eclass8 : Cells Byte) (nblock : Int) : Cells Int :=
  forUpto nblock.toNat
    (fun i ftab => ftab.set (eclass8 i).toNat (ftab (eclass8 i).toNat + 1)) (Cells.ofFn fun _ => 0)

/-- `for (i = 1; i < 257; i++) ftab[i] += ftab[i-1]`. -/
def radixSums (ftab : Cells Int) : Cells Int :=
  forUpto 256 (fun i ftab => ftab.set (i + 1) (ftab (i + 1) + ftab i)) ftab

/-- The first distribution: rotations by their first byte. Returns `fmap` and `ftab`. -/
def radixPass (eclass8 : Cells Byte) (nblock : Int) (fmap ftab : Cells Int) :
    Cells Int × Cells Int :=
  forUpto nblock.toNat
    (fun i s =>
      let j := (eclass8 i).toNat
      let k := s.2 j - 1
      (s.1.set k i, s.2.set j k))
    (fmap, ftab)

/-- The header bits after the first distribution, with the sentinels past the block. -/
def initBH (ftab : Cells Int) (nblock : Int) (bhtab : Cells Word32) : Cells Word32 :=
  let nBhtab := 2 + nblock / 32
  let bhtab := forUpto nBhtab.toNat (fun i bhtab => bhtab.set i 0#32) bhtab
  let bhtab := forUpto 256 (fun i bhtab => setBH bhtab (ftab i)) bhtab
  forUpto 32 (fun i bhtab => clearBH (setBH bhtab (nblock + 2 * i)) (nblock + 2 * i + 1)) bhtab

/-- The `UInt32` cells laid over the bytes of the block. -/
def cellsOf (eclass8 : Cells Byte) : Cells Int :=
  Cells.ofFn fun i =>
    (eclass8 (4 * i + 3) ++ eclass8 (4 * i + 2) ++ eclass8 (4 * i + 1) ++ eclass8 (4 * i)).toNat

/-- The bytes under the `UInt32` cells. -/
def bytesOf (eclass : Cells Int) : Cells Byte :=
  Cells.ofFn fun k => BitVec.ofInt 8 (eclass (k / 4) / 256 ^ (k % 4).toNat)

/-- `while (ftabCopy[j] == 0) j++`. -/
def nextByte (ftabCopy : Cells Int) (j : Int) : Run Int :=
  advance (fun j => ftabCopy j == 0) 1 257 j

/-- One round of the rebuilding loop, on `i`, `j`, `ftabCopy` and `eclass8`: a sorted rotation's
    first byte, stored where it came from. -/
def rebuildStep (fmap : Cells Int) (nblock : Int) :
    Int × Int × Cells Int × Cells Byte →
      Run ((Int × Int × Cells Int × Cells Byte) ⊕ (Cells Byte × Int))
  | (i, j, ftabCopy, eclass8) =>
    if i < nblock then do
      let j ← nextByte ftabCopy j
      .ok (.inl (i + 1, j, ftabCopy.set j (ftabCopy j - 1),
        eclass8.set (fmap i) (BitVec.ofInt 8 j)))
    else .ok (.inr (eclass8, j))

/-- The block rebuilt, and the last `j`. -/
def rebuild (fmap : Cells Int) (nblock : Int) (ftabCopy : Cells Int) (eclass8 : Cells Byte) :
    Run (Cells Byte × Int) :=
  iter Halt.diverge (rebuildStep fmap nblock) (nblock + 1).toNat (0, 0, ftabCopy, eclass8)

/-- `fallbackSort`: from the block's bytes and the old contents of `fmap` and `bhtab` to the
    sorted `fmap`, the bytes left in the block and the header bits. -/
def fallbackSort (fmap : Cells Int) (eclass8 : Cells Byte) (bhtab : Cells Word32)
    (nblock : Int) : Run (Cells Int × Cells Byte × Cells Word32) := do
  let ftab := radixCounts eclass8 nblock
  let ftabCopy := ftab
  let ftab := radixSums ftab
  let (fmap, ftab) := radixPass eclass8 nblock fmap ftab
  let bhtab := initBH ftab nblock bhtab
  let d ← iter Halt.diverge (depthStep nblock) (nblock + 2).toNat
    ⟨fmap, cellsOf eclass8, bhtab, 1⟩
  let (eclass8, j) ← rebuild d.fmap nblock ftabCopy (bytesOf d.eclass)
  assertH (decide (j < 256)) 1005
  .ok (d.fmap, eclass8, d.bhtab)

/-! ## 4. `sais_bwt` -/

/-- What the two `malloc` calls and `libsais` answer: the return code, and the array `SA` after
    the call. -/
structure SaisEnv where
  mallocDoubled : Bool
  mallocSA : Bool
  libsais : List Byte → Int × Cells Int

/-- The locals of the filter loop, with `*origPtr`. -/
structure Filter where
  ptr : Cells Int
  origPtr : Int
  j : Int

/-- One round of the filter loop: entries below `nblock` are kept. -/
def filterStep (sa : Cells Int) (nblock : Int) (i : Nat) (s : Filter) : Filter :=
  if sa i < nblock then
    { ptr := s.ptr.set s.j (sa i)
      origPtr := if sa i = 0 then s.j else s.origPtr
      j := s.j + 1 }
  else s

/-- The block twice, the text `libsais` gets. -/
def doubled (block : Cells Byte) (nblock : Int) : List Byte :=
  bytesAt block 0 nblock.toNat ++ bytesAt block 0 nblock.toNat

/-- `sais_bwt`: the new contents of `ptr` and of `*origPtr`. -/
def saisBwt (env : SaisEnv) (block : Cells Byte) (ptr : Cells Int) (nblock origPtr : Int) :
    Cells Int × Int :=
  let dlen := 2 * nblock
  if !env.mallocDoubled || !env.mallocSA then (ptr, origPtr)
  else
    let (ret, sa) := env.libsais (doubled block nblock)
    -- left before `*origPtr = -1`
    if ret ≠ 0 then (ptr, origPtr)
    else
      let s := forUpto dlen.toNat (filterStep sa nblock) ⟨ptr, -1, 0⟩
      (s.ptr, s.origPtr)

/-! ## 5. `BZ2_blockSort` -/

/-- The fields of `EState` the sorters read and write. `ptr` is `arr1`, `block` is `arr2`. -/
structure SortState where
  ptr : Cells Int
  block : Cells Byte
  ftab : Cells Word32
  nblock : Int
  origPtr : Int

/-- `for (i = 0; i < nblock; i++) if (ptr[i] == 0) { origPtr = i; break; }`, from `-1`. -/
def findRow (ptr : Cells Int) : Nat → Int → Int
  | 0, _ => -1
  | n + 1, i => if ptr i = 0 then i else findRow ptr n (i + 1)

/-- `BZ2_blockSort`. -/
def bz2BlockSort (env : SaisEnv) (s : SortState) : Run SortState :=
  if s.nblock < 10000 then do
    let (ptr, block, ftab) ← fallbackSort s.ptr s.block s.ftab s.nblock
    let origPtr := findRow ptr s.nblock.toNat 0
    assertH (decide (origPtr ≠ -1)) 1003
    .ok { s with ptr := ptr, block := block, ftab := ftab, origPtr := origPtr }
  else do
    let (ptr, origPtr) := saisBwt env s.block s.ptr s.nblock s.origPtr
    assertH (decide (origPtr ≠ -1)) 1003
    .ok { s with ptr := ptr, origPtr := origPtr }

end Qbz2
