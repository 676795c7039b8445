/-
  File:      Qbz2/Reference/Model.lean
  Subject:   The string sort of the reference implementation, `reference/bzip2/blocksort.c`:
             `BZ2_blockSort` with `mainSort` and all it calls.

  * `mainGtU` -- two rotations compared by their bytes and, further on, by their quadrants;
  * `mainSimpleSort` -- a shell sort with that comparison, which gives up when the budget is used up;
  * `mainQSort3` -- a quicksort by the byte at a depth. The two scans, the partition loop and the
    exchanges of equal runs are those of `fallbackQSort3`, read through the block;
  * `mainSort` -- the distribution by pairs of bytes (`countPairs`, `overshoot`, `sumPairs`,
    `placePairs`), and for each big bucket of `runningOrder` the three steps `sortSmall`, `scanBig`
    and `closeBig`;
  * `refBlockSort` -- `BZ2_blockSort`.

  `quadrant` is an array of its own: it lies behind the block and its overshoot in `arr2`, where
  nothing else is read while the sort runs.
-/
import Qbz2.BlockSort.Model

namespace Qbz2

open Loop

/-- `BZ_N_OVERSHOOT`. -/
def bzNOvershoot : Nat := 34

/-! ## 1. `mainGtU` -/

/-- `n` comparisons of bytes: the answer, or where both rotations go on. -/
def gtBytes (block : Cells Byte) : Nat → Int → Int → Bool ⊕ (Int × Int)
  | 0, i1, i2 => .inr (i1, i2)
  | n + 1, i1, i2 =>
    let c1 := block i1
    let c2 := block i2
    if c1 ≠ c2 then .inl (decide (c1.toNat > c2.toNat)) else gtBytes block n (i1 + 1) (i2 + 1)

/-- `n` comparisons of bytes and quadrants. -/
def gtQuadrants (block : Cells Byte) (quadrant : Cells (BitVec 16)) :
    Nat → Int → Int → Bool ⊕ (Int × Int)
  | 0, i1, i2 => .inr (i1, i2)
  | n + 1, i1, i2 =>
    let c1 := block i1
    let c2 := block i2
    if c1 ≠ c2 then .inl (decide (c1.toNat > c2.toNat))
    else
      let s1 := quadrant i1
      let s2 := quadrant i2
      if s1 ≠ s2 then .inl (decide (s1.toNat > s2.toNat))
      else gtQuadrants block quadrant n (i1 + 1) (i2 + 1)

/-- `do { ... } while (k >= 0)`, in so many rounds: eight comparisons, then around the end of the
    block. -/
def gtLoop (block : Cells Byte) (quadrant : Cells (BitVec 16)) (nblock : Int) :
    Nat → Int → Int → Word32 → Bool × Word32
  | 0, _, _, budget => (false, budget)
  | rounds + 1, i1, i2, budget =>
    match gtQuadrants block quadrant 8 i1 i2 with
    | .inl gt => (gt, budget)
    | .inr (i1, i2) =>
      let i1 := if i1 ≥ nblock then i1 - nblock else i1
      let i2 := if i2 ≥ nblock then i2 - nblock else i2
      gtLoop block quadrant nblock rounds i1 i2 (budget - 1)

/-- `mainGtU`, with `*budget` after it. `k` goes from `nblock + 8` down by 8 while it is not below
    zero. -/
def mainGtU (i1 i2 : Int) (block : Cells Byte) (quadrant : Cells (BitVec 16)) (nblock : Int)
    (budget : Word32) : Bool × Word32 :=
  match gtBytes block 12 i1 i2 with
  | .inl gt => (gt, budget)
  | .inr (i1, i2) => gtLoop block quadrant nblock ((nblock + 8) / 8 + 1).toNat i1 i2 budget

/-! ## 2. `mainSimpleSort` -/

/-- `incs`. A block has less than a million cells: the search for an increment of at least their
    number does not come to the end of the array, nor `lo + hi` to that of the range of `Int32`. -/
def incs : List Int :=
  [1, 4, 13, 40, 121, 364, 1093, 3280, 9841, 29524, 88573, 265720, 797161, 2391484]

section Insertion

variable {β : Type}

/-- `while (gt(a[j-h], v)) { a[j] = a[j-h]; j = j - h; if (j <= (lo + h - 1)) break; }`, the test
    having a state of its own. -/
def insertLoop (gt : Int → β → Bool × β) (h lo : Int) :
    Nat → Cells Int → Int → β → Cells Int × Int × β
  | 0, a, j, b => (a, j, b)
  | fuel + 1, a, j, b =>
    let (greater, b) := gt (a (j - h)) b
    if greater then
      let a := a.set j (a (j - h))
      let j := j - h
      if j ≤ lo + h - 1 then (a, j, b) else insertLoop gt h lo fuel a j b
    else (a, j, b)

/-- `v = a[i]; j = i; while (...) ...; a[j] = v`. -/
def insertAt (gt : Int → Int → β → Bool × β) (h lo : Int) (a : Cells Int) (i : Int) (b : β) :
    Cells Int × β :=
  let v := a i
  let (a, j, b) := insertLoop (fun x => gt x v) h lo (i - lo).toNat a i b
  (a.set j v, b)

end Insertion

/-- The array of a pass, the budget and `i`. -/
structure SimplePass where
  ptr : Cells Int
  budget : Word32
  i : Int

section MainSorts

variable (block : Cells Byte) (quadrant : Cells (BitVec 16)) (nblock : Int)

/-- The test of the insertions, on the rotations `d` bytes further on. -/
def gtAt (d : Int) (x v : Int) (budget : Word32) : Bool × Word32 :=
  mainGtU (x + d) (v + d) block quadrant nblock budget

/-- One of the three copies in the body: none where `i > hi`. -/
def copyOne (h lo hi d : Int) (s : SimplePass) : Option SimplePass :=
  if s.i > hi then none
  else
    let (ptr, budget) := insertAt (gtAt block quadrant nblock d) h lo s.ptr s.i s.budget
    some ⟨ptr, budget, s.i + 1⟩

/-- `while (True)` of a pass, and whether it left the function: three insertions, then a look at the
    budget. -/
def simplePass (h lo hi d : Int) : Nat → SimplePass → SimplePass × Bool
  | 0, s => (s, false)
  | fuel + 1, s =>
    match copyOne block quadrant nblock h lo hi d s with
    | none => (s, false)
    | some s =>
      match copyOne block quadrant nblock h lo hi d s with
      | none => (s, false)
      | some s =>
        match copyOne block quadrant nblock h lo hi d s with
        | none => (s, false)
        | some s =>
          if s.budget.slt 0 then (s, true) else simplePass h lo hi d fuel s

/-- `for (; hp >= 0; hp--)`, over the increments to come. -/
def simplePasses (lo hi d : Int) : List Int → Cells Int × Word32 → Cells Int × Word32
  | [], s => s
  | h :: hs, (ptr, budget) =>
    let (s, left) :=
      simplePass block quadrant nblock h lo hi d (hi - lo + 1).toNat ⟨ptr, budget, lo + h⟩
    if left then (s.ptr, s.budget) else simplePasses lo hi d hs (s.ptr, s.budget)

/-- `mainSimpleSort`: `ptr` and `*budget` after it. -/
def mainSimpleSort (ptr : Cells Int) (lo hi d : Int) (budget : Word32) : Cells Int × Word32 :=
  let bigN := hi - lo + 1
  if bigN < 2 then (ptr, budget)
  else
    -- `while (incs[hp] < bigN) hp++; hp--`
    simplePasses block quadrant nblock lo hi d (incs.takeWhile (· < bigN)).reverse (ptr, budget)

/-! ## 3. `mainQSort3` -/

/-- `block[p + d]`, of which the partition takes the order. -/
def keysAt (d : Nat) : Cells Int := .ofFn fun p => ((block (p + d)).toNat : Int)

/-- `mmed3`. -/
def mmed3 (a b c : Int) : Int :=
  let (a, b) := if a > b then (b, a) else (a, b)
  if b > c then (if a > c then a else c) else b

/-- A segment and the depth it is to be sorted from: `stackLo`, `stackHi`, `stackD`. -/
structure MainSegment where
  lo : Int
  hi : Int
  d : Nat

/-- `mnextsize`. -/
def MainSegment.size (s : MainSegment) : Int := s.hi - s.lo

/-- `if (mnextsize(a) < mnextsize(b)) mnextswap(a,b)`. -/
def largerFirst (a b : MainSegment) : MainSegment × MainSegment :=
  if a.size < b.size then (b, a) else (a, b)

/-- The three parts pushed, the largest first. -/
def pushParts (next0 next1 next2 : MainSegment) (stack : List MainSegment) : List MainSegment :=
  let (next0, next1) := largerFirst next0 next1
  let (next1, next2) := largerFirst next1 next2
  let (next0, next1) := largerFirst next0 next1
  next2 :: next1 :: next0 :: stack

/-- The array, the budget and the stack, top first. -/
structure MainQSort where
  ptr : Cells Int
  budget : Word32
  stack : List MainSegment

/-- What follows a partition. -/
def mainSplit (q : MainQSort) (lo hi : Int) (d : Nat) (p : Part) : MainQSort :=
  if p.gtHi < p.ltLo then { q with ptr := p.fmap, stack := ⟨lo, hi, d + 1⟩ :: q.stack }
  else
    let n := fmin (p.ltLo - lo) (p.unLo - p.ltLo)
    let ptr := fvswap p.fmap lo (p.unLo - n) n.toNat
    let m := fmin (hi - p.gtHi) (p.gtHi - p.unHi)
    let ptr := fvswap ptr p.unLo (hi - m + 1) m.toNat
    let n := lo + p.unLo - p.ltLo - 1
    let m := hi - (p.gtHi - p.unHi) + 1
    { q with
      ptr := ptr
      stack := pushParts ⟨lo, n, d⟩ ⟨m, hi, d⟩ ⟨n + 1, m - 1, d + 1⟩ q.stack }

/-- One round of the main loop: pop a segment, sort it or split it. -/
def mainQsortStep (q : MainQSort) : Run (MainQSort ⊕ (Cells Int × Word32)) :=
  match q.stack with
  | [] => .ok (.inr (q.ptr, q.budget))
  | ⟨lo, hi, d⟩ :: rest => do
    assertH (decide (q.stack.length < 98)) 1001
    if hi - lo < 20 ∨ d > 14 then
      let (ptr, budget) := mainSimpleSort block quadrant nblock q.ptr lo hi d q.budget
      if budget.slt 0 then .ok (.inr (ptr, budget)) else .ok (.inl ⟨ptr, budget, rest⟩)
    else
      let keys := keysAt block d
      let med := mmed3 (keys (q.ptr lo)) (keys (q.ptr hi)) (keys (q.ptr ((lo + hi) / 2)))
      let p ← iter Halt.diverge (partStep keys med) (hi - lo + 3).toNat ⟨q.ptr, lo, hi, lo, hi⟩
      .ok (.inl (mainSplit { q with stack := rest } lo hi d p))

/-- `mainQSort3`: `ptr` and `*budget` after it. -/
def mainQSort3 (ptr : Cells Int) (loSt hiSt : Int) (dSt : Nat) (budget : Word32) :
    Run (Cells Int × Word32) :=
  iter Halt.diverge (mainQsortStep block quadrant nblock) (51 * (hiSt - loSt + 1) + 3).toNat
    ⟨ptr, budget, [⟨loSt, hiSt, dSt⟩]⟩

end MainSorts

/-! ## 4. `mainSort`: the small buckets -/

/-- `(j >> 8) | (b << 8)`: the pair of a byte and the first byte of the pair after it. -/
def shiftPair (j : Nat) (b : Byte) : Nat := (j >>> 8) ||| (b.toNat <<< 8)

/-- The counting loop's state: `j`, `ftab`, `quadrant`. -/
structure PairCount where
  j : Nat
  ftab : Cells Word32
  quadrant : Cells (BitVec 16)

/-- `quadrant[i] = 0; j = (j >> 8) | (block[i] << 8); ftab[j]++`. -/
def countPair (block : Cells Byte) (i : Nat) (s : PairCount) : PairCount :=
  let j := shiftPair s.j (block i)
  ⟨j, s.ftab.set j (s.ftab j + 1), s.quadrant.set i 0⟩

/-- The 2-byte frequency table, from the end of the block to its start. -/
def countPairs (block : Cells Byte) (nblock : Nat) (ftab : Cells Word32)
    (quadrant : Cells (BitVec 16)) : PairCount :=
  fourByFour (countPair block) nblock ⟨(block 0).toNat <<< 8, ftab.fill 0 65537 0, quadrant⟩

/-- `block[nblock+i] = block[i]; quadrant[nblock+i] = 0`, for the overshoot. -/
def overshoot (block : Cells Byte) (nblock : Nat) (quadrant : Cells (BitVec 16)) :
    Cells Byte × Cells (BitVec 16) :=
  forUpto bzNOvershoot
    (fun i s => (s.1.set (nblock + i : Nat) (s.1 i), s.2.set (nblock + i : Nat) 0))
    (block, quadrant)

/-- `for (i = 1; i <= 65536; i++) ftab[i] += ftab[i-1]`. -/
def sumPairs (ftab : Cells Word32) : Cells Word32 :=
  forUpto 65536 (fun i ftab => ftab.set (i + 1 : Nat) (ftab (i + 1 : Nat) + ftab i)) ftab

/-- The distribution's state: `s`, `ftab`, `ptr`. -/
structure PairPlace where
  s : Nat
  ftab : Cells Word32
  ptr : Cells Int

/-- `s = (s >> 8) | (block[i] << 8); j = ftab[s] - 1; ftab[s] = j; ptr[j] = i`. -/
def placePair (block : Cells Byte) (i : Nat) (t : PairPlace) : PairPlace :=
  let s := shiftPair t.s (block i)
  let j := t.ftab s - 1
  ⟨s, t.ftab.set s j, t.ptr.set j.toNat i⟩

/-- The initial radix sort, from the end of the block to its start. -/
def placePairs (block : Cells Byte) (nblock : Nat) (ftab : Cells Word32) (ptr : Cells Int) :
    PairPlace :=
  fourByFour (placePair block) nblock ⟨(block 0).toNat <<< 8, ftab, ptr⟩

/-! ## 5. `mainSort`: the order of the big buckets -/

/-- `BIGFREQ`. -/
def bigFreq (ftab : Cells Word32) (b : Int) : Word32 := ftab ((b + 1) * 256) - ftab (b * 256)

/-- The test of the shell sort of `runningOrder`. -/
def gtFreq (ftab : Cells Word32) (x v : Int) (b : Unit) : Bool × Unit :=
  (decide ((bigFreq ftab x).toNat > (bigFreq ftab v).toNat), b)

/-- `for (i = h; i <= 255; i++)`. -/
def orderPass (ftab : Cells Word32) (h : Int) (order : Cells Int) : Cells Int :=
  forUpto (256 - h).toNat (fun k order => (insertAt (gtFreq ftab) h 0 order (h + k) ()).1) order

/-- `runningOrder`: the big buckets from the least full on, by a shell sort. `h` goes up to 364, and
    comes down by thirds. -/
def runningOrder (ftab : Cells Word32) : Cells Int :=
  let order := .ofFn fun i => i
  orderPass ftab 1 (orderPass ftab 4 (orderPass ftab 13 (orderPass ftab 40
    (orderPass ftab 121 order))))

/-! ## 6. `mainSort`: the big buckets -/

/-- `SETMASK`. -/
def setMask : Word32 := 1#32 <<< 21

/-- `CLEARMASK`. -/
def clearMask : Word32 := ~~~setMask

/-- What the main loop changes. -/
structure MainState where
  ptr : Cells Int
  quadrant : Cells (BitVec 16)
  ftab : Cells Word32
  bigDone : Cells Bool
  budget : Word32

/-- `ftab[sb] & CLEARMASK`. -/
def MainState.start (s : MainState) (sb : Int) : Int := (s.ftab sb &&& clearMask).toNat

/-- `ftab[sb] |= SETMASK`. -/
def MainState.mark (s : MainState) (sb : Int) : MainState :=
  { s with ftab := s.ftab.set sb (s.ftab sb ||| setMask) }

section Big

variable (block : Cells Byte) (nblock : Int)

/-- Step 1, for one `j`: the small bucket `[ss, j]` is sorted if it is not yet. -/
def sortSmall (ss : Int) (j : Nat) (s : MainState) : Run (MainState ⊕ MainState) :=
  if (j : Int) ≠ ss then
    let sb := ss * 256 + j
    if s.ftab sb &&& setMask = 0 then
      let lo := s.start sb
      let hi := s.start (sb + 1) - 1
      if hi > lo then do
        let (ptr, budget) ← mainQSort3 block s.quadrant nblock s.ptr lo hi 2 s.budget
        let s := { s with ptr := ptr, budget := budget }
        if budget.slt 0 then .ok (.inr s) else .ok (.inl (s.mark sb))
      else .ok (.inl (s.mark sb))
    else .ok (.inl (s.mark sb))
  else .ok (.inl s)

/-- The variables of a scan: `ptr`, `copyStart` or `copyEnd`, and `j`. -/
structure BucketScan where
  ptr : Cells Int
  copy : Cells Int
  j : Int

/-- One round of a scan of the big bucket `ss`, upwards (`dir = 1`, `copyStart`) or downwards
    (`dir = -1`, `copyEnd`): the rotation before the one at `j` goes into its small bucket. -/
def bucketScanStep (bigDone : Cells Bool) (ss dir : Int) (s : BucketScan) :
    Run (BucketScan ⊕ BucketScan) :=
  if 0 < dir * (s.copy ss - s.j) then
    let k := s.ptr s.j - 1
    let k := if k < 0 then k + nblock else k
    let c1 := ((block k).toNat : Int)
    if !bigDone c1 then
      .ok (.inl ⟨s.ptr.set (s.copy c1) k, s.copy.set c1 (s.copy c1 + dir), s.j + dir⟩)
    else .ok (.inl { s with j := s.j + dir })
  else .ok (.inr s)

/-- A scan, from `j` on. -/
def scanBucket (bigDone : Cells Bool) (ss dir : Int) (ptr copy : Cells Int) (j : Int) :
    Run BucketScan :=
  iter Halt.diverge (bucketScanStep block nblock bigDone ss dir) (nblock + 1).toNat ⟨ptr, copy, j⟩

/-- Step 2: the scans of the big bucket `ss` sort the small buckets `[t, ss]`, `[ss, ss]` too. -/
def scanBig (ss : Int) (s : MainState) : Run MainState := do
  let copyStart := .ofFn fun j => s.start (j * 256 + ss)
  let copyEnd := .ofFn fun j => s.start (j * 256 + ss + 1) - 1
  let up ← scanBucket block nblock s.bigDone ss 1 s.ptr copyStart (s.start (ss * 256))
  let down ← scanBucket block nblock s.bigDone ss (-1) up.ptr copyEnd (s.start ((ss + 1) * 256) - 1)
  assertH (decide (up.copy ss - 1 = down.copy ss ∨ up.copy ss = 0 ∧ down.copy ss = nblock - 1)) 1007
  .ok (forUpto 256 (fun j (s : MainState) => s.mark (j * 256 + ss)) { s with ptr := down.ptr })

/-- `while ((bbSize >> shifts) > 65534) shifts++`. -/
def shiftsFor (bbSize : Nat) : Nat → Nat → Nat
  | 0, shifts => shifts
  | fuel + 1, shifts =>
    if bbSize >>> shifts > 65534 then shiftsFor bbSize fuel (shifts + 1) else shifts

/-- One round of the update of the quadrants: `quadrant[a2update] = qVal`, in the overshoot too. -/
def setQuadrant (ptr : Cells Int) (bbStart : Int) (shifts j : Nat) (quadrant : Cells (BitVec 16)) :
    Cells (BitVec 16) :=
  let a2update := ptr (bbStart + j)
  let qVal := BitVec.ofNat 16 (j >>> shifts)
  let quadrant := quadrant.set a2update qVal
  if a2update < bzNOvershoot then quadrant.set (a2update + nblock) qVal else quadrant

/-- The update for a big bucket, the `bbSize` cells of `ptr` from `bbStart` on. -/
def updateQuadrants (ptr : Cells Int) (bbStart : Int) (bbSize : Nat)
    (quadrant : Cells (BitVec 16)) : Run (Cells (BitVec 16)) := do
  let shifts := shiftsFor bbSize 32 0
  let quadrant := countdown (setQuadrant nblock ptr bbStart shifts) bbSize quadrant
  assertH (decide ((bbSize - 1) >>> shifts ≤ 65535)) 1002
  .ok quadrant

/-- Step 3: the big bucket is done, and its order goes into the quadrants. -/
def closeBig (ss : Int) (last : Bool) (s : MainState) : Run MainState :=
  let s := { s with bigDone := s.bigDone.set ss true }
  if last then .ok s
  else do
    let bbStart := s.start (ss * 256)
    let bbSize := (s.start ((ss + 1) * 256) - bbStart).toNat
    let quadrant ← updateQuadrants nblock s.ptr bbStart bbSize s.quadrant
    .ok { s with quadrant := quadrant }

/-- One round of the main sorting loop, over the big bucket `ss`, the `i`-th. -/
def sortBig (order : Cells Int) (i : Nat) (s : MainState) : Run (MainState ⊕ MainState) := do
  let ss := order i
  match ← forReturn 256 (sortSmall block nblock ss) s with
  | .inr s => .ok (.inr s)
  | .inl s => do
    assertH (!s.bigDone ss) 1006
    let s ← scanBig block nblock ss s
    let s ← closeBig nblock ss (decide (255 ≤ i)) s
    .ok (.inl s)

end Big

/-- `mainSort`: `ptr`, the block with its overshoot, `ftab` and `*budget` after it. -/
def mainSort (ptr : Cells Int) (block : Cells Byte) (quadrant : Cells (BitVec 16))
    (ftab : Cells Word32) (nblock : Nat) (budget : Word32) :
    Run (Cells Int × Cells Byte × Cells Word32 × Word32) := do
  let c := countPairs block nblock ftab quadrant
  let (block, quadrant) := overshoot block nblock c.quadrant
  let p := placePairs block nblock (sumPairs c.ftab) ptr
  let order := runningOrder p.ftab
  let s : MainState := ⟨p.ptr, quadrant, p.ftab, .ofFn fun _ => false, budget⟩
  match ← forReturn 256 (sortBig block nblock order) s with
  | .inl s => .ok (s.ptr, block, s.ftab, s.budget)
  | .inr s => .ok (s.ptr, block, s.ftab, s.budget)

/-! ## 7. `BZ2_blockSort` -/

/-- `BZ2_blockSort` of the reference implementation; `wfact` is `s->workFactor`, and `quadrant` what
    lies behind the block. -/
def refBlockSort (wfact : Int) (quadrant : Cells (BitVec 16)) (s : SortState) : Run SortState := do
  let (ptr, block, ftab) ←
    if s.nblock < 10000 then fallbackSort s.ptr s.block s.ftab s.nblock
    else do
      let wfact := if wfact < 1 then 1 else wfact
      let wfact := if wfact > 100 then 100 else wfact
      let budgetInit := BitVec.ofInt 32 (s.nblock * ((wfact - 1) / 3))
      let (ptr, block, ftab, budget) ←
        mainSort s.ptr s.block quadrant s.ftab s.nblock.toNat budgetInit
      if budget.slt 0 then fallbackSort ptr block ftab s.nblock else .ok (ptr, block, ftab)
  let origPtr := findRow ptr s.nblock.toNat 0
  assertH (decide (origPtr ≠ -1)) 1003
  .ok { s with ptr := ptr, block := block, ftab := ftab, origPtr := origPtr }

end Qbz2
