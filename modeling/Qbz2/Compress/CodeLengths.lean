/-
  File:      Qbz2/Compress/CodeLengths.lean
  Subject:   `src/huffman.c`: `BZ2_hbMakeCodeLengths`.

  The three arrays live on the stack and hold anything at first. Reading or writing past one of
  them is the failure `bounds`, a value that does not fit in an `Int32` is `overflow`: C gives
  neither a meaning, so a run that returns has done neither. Weights are never negative; the low
  8 bits of one are a depth.

  * `weightOf`, `depthOf`, `addWeights` -- the packed weights;
  * `upheap`, `downheap` -- the heap moves, `heap[0]` being a sentinel of weight 0;
  * `pushLeaves`, `mergeStep`, `climb`, `codeLengths`, `halve` -- the parts of one round;
  * `hbMakeCodeLengths` -- rounds until no length exceeds `maxLen`.
-/
import Qbz2.Lib.Cells
import Qbz2.Lib.Loop
import Qbz2.Types

namespace Qbz2

open Loop

/-- Why the function does not return. -/
inductive HuffHalt where
  | assertH (errcode : Nat)
  | diverge
  | bounds
  | overflow
  deriving DecidableEq, Repr

/-- The result of a function that may not return. -/
abbrev HuffRun := Except HuffHalt

/-- `a[i]`, for an array of `size` cells. -/
def load {α : Type} (size : Nat) (a : Cells α) (i : Nat) : HuffRun α :=
  if i < size then .ok (a i) else .error .bounds

/-- `a[i] = v`, for an array of `size` cells. -/
def store {α : Type} (size : Nat) (a : Cells α) (i : Nat) (v : α) : HuffRun (Cells α) :=
  if i < size then .ok (a.set i v) else .error .bounds

/-- The value of an `Int32` expression. -/
def int32 (v : Nat) : HuffRun Nat := if v < 2 ^ 31 then .ok v else .error .overflow

/-- The size of `heap`. -/
def heapSize : Nat := bzMaxAlphaSize + 2

/-- The size of `weight` and of `parent`. -/
def nodeSize : Nat := bzMaxAlphaSize * 2

/-! ## 1. Packed weights -/

/-- `WEIGHTOF`. -/
def weightOf (zz0 : Nat) : Nat := zz0 &&& 0xffffff00

/-- `DEPTHOF`. -/
def depthOf (zz1 : Nat) : Nat := zz1 &&& 0x000000ff

/-- `MYMAX`. -/
def myMax (zz2 zz3 : Nat) : Nat := if zz2 > zz3 then zz2 else zz3

/-- `ADDWEIGHTS`. -/
def addWeights (zw1 zw2 : Nat) : HuffRun Nat := do
  let w ← int32 (weightOf zw1 + weightOf zw2)
  .ok (w ||| (1 + myMax (depthOf zw1) (depthOf zw2)))

/-! ## 2. The heap -/

/-- One round of `UPHEAP`, on `heap` and `zz`. -/
def upheapStep (weight : Cells Nat) (tmp : Nat) (s : Cells Nat × Nat) :
    HuffRun ((Cells Nat × Nat) ⊕ Cells Nat) := do
  let (heap, zz) := s
  let p ← load heapSize heap (zz / 2)
  let wt ← load nodeSize weight tmp
  let wp ← load nodeSize weight p
  if wt < wp then
    let heap ← store heapSize heap zz p
    .ok (.inl (heap, zz / 2))
  else
    let heap ← store heapSize heap zz tmp
    .ok (.inr heap)

/-- `UPHEAP(z)`. -/
def upheap (weight heap : Cells Nat) (z : Nat) : HuffRun (Cells Nat) := do
  let tmp ← load heapSize heap z
  iter .diverge (upheapStep weight tmp) (z + 1) (heap, z)

/-- `if (yy < nHeap && weight[heap[yy+1]] < weight[heap[yy]]) yy++`. -/
def lighterChild (weight heap : Cells Nat) (nHeap yy : Nat) : HuffRun Nat :=
  if yy < nHeap then do
    let a ← load heapSize heap (yy + 1)
    let b ← load heapSize heap yy
    let wa ← load nodeSize weight a
    let wb ← load nodeSize weight b
    .ok (if wa < wb then yy + 1 else yy)
  else .ok yy

/-- One round of `DOWNHEAP`, on `heap` and `zz`. -/
def downheapStep (weight : Cells Nat) (nHeap tmp : Nat) (s : Cells Nat × Nat) :
    HuffRun ((Cells Nat × Nat) ⊕ Cells Nat) := do
  let (heap, zz) := s
  if 2 * zz > nHeap then
    let heap ← store heapSize heap zz tmp
    .ok (.inr heap)
  else
    let yy ← lighterChild weight heap nHeap (2 * zz)
    let y ← load heapSize heap yy
    let wt ← load nodeSize weight tmp
    let wy ← load nodeSize weight y
    if wt < wy then
      let heap ← store heapSize heap zz tmp
      .ok (.inr heap)
    else
      let heap ← store heapSize heap zz y
      .ok (.inl (heap, yy))

/-- `DOWNHEAP(z)`. -/
def downheap (weight heap : Cells Nat) (nHeap z : Nat) : HuffRun (Cells Nat) := do
  let tmp ← load heapSize heap z
  iter .diverge (downheapStep weight nHeap tmp) (nHeap + 1) (heap, z)

/-! ## 3. One round -/

/-- The arrays and counters of a round. -/
structure Merge where
  heap : Cells Nat
  weight : Cells Nat
  parent : Cells Int
  nHeap : Nat
  nNodes : Nat

/-- `parent[i] = -1; nHeap++; heap[nHeap] = i; UPHEAP(nHeap)`, for the symbol `i + 1`. -/
def pushLeaf (i : Nat) (m : Merge) : HuffRun Merge := do
  let parent ← store nodeSize m.parent (i + 1) (-1)
  let nHeap := m.nHeap + 1
  let heap ← store heapSize m.heap nHeap (i + 1)
  let heap ← upheap m.weight heap nHeap
  .ok { m with heap := heap, parent := parent, nHeap := nHeap }

/-- The start of a round: the sentinel, then every symbol. -/
def pushLeaves (alphaSize : Nat) (heap weight : Cells Nat) (parent : Cells Int) :
    HuffRun Merge := do
  let heap ← store heapSize heap 0 0
  let weight ← store nodeSize weight 0 0
  let parent ← store nodeSize parent 0 (-2)
  forTry alphaSize pushLeaf ⟨heap, weight, parent, 0, alphaSize⟩

/-- `n1 = heap[1]; heap[1] = heap[nHeap]; nHeap--; DOWNHEAP(1)`. -/
def popRoot (m : Merge) : HuffRun (Nat × Merge) := do
  let n1 ← load heapSize m.heap 1
  let last ← load heapSize m.heap m.nHeap
  let heap ← store heapSize m.heap 1 last
  let nHeap := m.nHeap - 1
  let heap ← downheap m.weight heap nHeap 1
  .ok (n1, { m with heap := heap, nHeap := nHeap })

/-- One round of `while (nHeap > 1)`. -/
def mergeStep (m : Merge) : HuffRun (Merge ⊕ Merge) :=
  if m.nHeap > 1 then do
    let (n1, m) ← popRoot m
    let (n2, m) ← popRoot m
    let nNodes := m.nNodes + 1
    let parent ← store nodeSize m.parent n2 nNodes
    let parent ← store nodeSize parent n1 nNodes
    let w1 ← load nodeSize m.weight n1
    let w2 ← load nodeSize m.weight n2
    let w ← addWeights w1 w2
    let weight ← store nodeSize m.weight nNodes w
    let parent ← store nodeSize parent nNodes (-1)
    let nHeap := m.nHeap + 1
    let heap ← store heapSize m.heap nHeap nNodes
    let heap ← upheap weight heap nHeap
    .ok (.inl ⟨heap, weight, parent, nHeap, nNodes⟩)
  else .ok (.inr m)

/-- One round of `while (parent[k] >= 0)`, on `k` and `j`. -/
def climbStep (parent : Cells Int) (s : Nat × Nat) : HuffRun ((Nat × Nat) ⊕ Nat) := do
  let (k, j) := s
  let p ← load nodeSize parent k
  if p ≥ 0 then .ok (.inl (p.toNat, j + 1)) else .ok (.inr j)

/-- The number of links from node `i` to the root. -/
def climb (parent : Cells Int) (i : Nat) : HuffRun Nat :=
  iter .diverge (climbStep parent) nodeSize (i, 0)

/-- `len[i-1] = j; if (j > maxLen) tooLong = True`, for the symbol `i + 1`. -/
def setLength (parent : Cells Int) (maxLen i : Nat) (s : Cells Nat × Bool) :
    HuffRun (Cells Nat × Bool) := do
  let (len, tooLong) := s
  let j ← climb parent (i + 1)
  .ok (len.set i (j % 256), tooLong || decide (j > maxLen))

/-- The lengths of a round, and `tooLong`. -/
def codeLengths (parent : Cells Int) (alphaSize maxLen : Nat) (len : Cells Nat) :
    HuffRun (Cells Nat × Bool) :=
  forTry alphaSize (setLength parent maxLen) (len, false)

/-- `j = weight[i] >> 8; j = 1 + (j / 2); weight[i] = j << 8`, for the symbol `i + 1`. -/
def halveWeight (i : Nat) (weight : Cells Nat) : HuffRun (Cells Nat) := do
  let w ← load nodeSize weight (i + 1)
  let j := w >>> 8
  let j := 1 + (j / 2)
  let v ← int32 (j <<< 8)
  store nodeSize weight (i + 1) v

/-! ## 4. The rounds -/

/-- What the rounds hand on: the three arrays and the lengths. -/
structure Rounds where
  heap : Cells Nat
  weight : Cells Nat
  parent : Cells Int
  len : Cells Nat

/-- The joining of the trees, to the end. -/
def mergeLoop (m : Merge) : HuffRun Merge := iter .diverge mergeStep (m.nHeap + 1) m

/-- One round: the tree for the present weights, its lengths, and halved weights if one is too
    long. -/
def roundStep (alphaSize maxLen : Nat) (s : Rounds) : HuffRun (Rounds ⊕ Cells Nat) := do
  let m ← pushLeaves alphaSize s.heap s.weight s.parent
  if ¬ m.nHeap < bzMaxAlphaSize + 2 then .error (.assertH 2001)
  else
    let m ← mergeLoop m
    if ¬ m.nNodes < bzMaxAlphaSize * 2 then .error (.assertH 2002)
    else
      let (len, tooLong) ← codeLengths m.parent alphaSize maxLen s.len
      if ¬ tooLong then .ok (.inr len)
      else
        let weight ← forTry alphaSize halveWeight m.weight
        .ok (.inl ⟨m.heap, weight, m.parent, len⟩)

/-- `weight[i+1] = (freq[i] == 0 ? 1 : freq[i]) << 8`. -/
def firstWeight (freq : Cells Nat) (i : Nat) (weight : Cells Nat) : HuffRun (Cells Nat) := do
  let v ← int32 ((if freq i = 0 then 1 else freq i) <<< 8)
  store nodeSize weight (i + 1) v

/-- The arrays before the first round. -/
def firstRound (heap weight : Cells Nat) (parent : Cells Int) (len freq : Cells Nat)
    (alphaSize : Nat) : HuffRun Rounds := do
  let weight ← forTry alphaSize (firstWeight freq) weight
  .ok ⟨heap, weight, parent, len⟩

/-- `BZ2_hbMakeCodeLengths`: the new contents of `len`. `heap`, `weight` and `parent` are what the
    stack held. A weight sum is below `2 ^ 24`, and each round makes it smaller. -/
def hbMakeCodeLengths (heap weight : Cells Nat) (parent : Cells Int) (len freq : Cells Nat)
    (alphaSize maxLen : Nat) : HuffRun (Cells Nat) := do
  let s ← firstRound heap weight parent len freq alphaSize
  iter .diverge (roundStep alphaSize maxLen) (2 ^ 24) s

end Qbz2
