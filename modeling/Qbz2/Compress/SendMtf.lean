/-
  File:      Qbz2/Compress/SendMtf.lean
  Subject:   `sendMTFValues` (`src/compress.c`) and `BZ2_hbAssignCodes` (`src/huffman.c`).

  * `seedLoop` -- the first tables; `iteration` -- one refinement: a table for every group of 50
    symbols, then new code lengths;
  * `selectorMtfs`, `hbAssignCodes` -- the coded selectors, the codes;
  * `mappingWrites`, `selectorWrites`, `lengthWrites`, `dataWrites` -- the calls of `bsW`, in their
    order;
  * `sendMTFValues`.

  `len`, `rfreq` and `code` have one row a table. What only the verbose output reads (`fave`,
  `totc`, `nBytes`) is left out; the locals of `BZ2_hbMakeCodeLengths` hold zeros at first.
-/
import Qbz2.Compress.BitWriter
import Qbz2.Compress.CodeLengths
import Qbz2.Compress.MtfValues

namespace Qbz2

open Loop (forUpto)

/-- `BZ_N_GROUPS`. -/
def bzNGroups : Nat := 6

/-- `BZ_N_ITERS`. -/
def bzNIters : Nat := 4

/-- `BZ_LESSER_ICOST`. -/
def bzLesserIcost : Nat := 0

/-- `BZ_GREATER_ICOST`. -/
def bzGreaterIcost : Nat := 15

/-- `a[i]`, for an array nobody has written to. -/
def zeros : Cells Nat := .ofFn fun _ => 0

/-- Row `t` of a table. -/
def rowAt (rows : List (Cells Nat)) (t : Nat) : Cells Nat := rows.getD t zeros

/-- `AssertH(cond, errcode)`. -/
def huffAssert (cond : Bool) (errcode : Nat) : HuffRun Unit :=
  if cond then .ok () else .error (.assertH errcode)

/-! ## 1. The first tables -/

/-- The number of tables for `nMTF` symbols. -/
def nGroupsFor (nMTF : Nat) : Nat :=
  if nMTF < 200 then 2
  else if nMTF < 600 then 3
  else if nMTF < 1200 then 4
  else if nMTF < 2400 then 5
  else 6

/-- `while (aFreq < tFreq && ge < alphaSize-1) { ge++; aFreq += s->mtfFreq[ge]; }`. -/
def growPart (mtfFreq : Cells Int) (alphaSize tFreq : Int) : Nat → Int → Int → Int × Int
  | 0, ge, aFreq => (ge, aFreq)
  | fuel + 1, ge, aFreq =>
    if aFreq < tFreq ∧ ge < alphaSize - 1 then
      growPart mtfFreq alphaSize tFreq fuel (ge + 1) (aFreq + mtfFreq (ge + 1))
    else (ge, aFreq)

/-- The row of a part: cheap from `gs` to `ge`, dear elsewhere. -/
def seedRow (alphaSize : Nat) (gs ge : Int) (row : Cells Nat) : Cells Nat :=
  forUpto alphaSize
    (fun v row => row.set v (if (v : Int) ≥ gs ∧ (v : Int) ≤ ge then bzLesserIcost
      else bzGreaterIcost)) row

/-- `while (nPart > 0)`: the alphabet in parts of about the same frequency, the last table first. -/
def seedLoop (mtfFreq : Cells Int) (alphaSize nGroups : Nat) :
    Nat → Int → Int → List (Cells Nat) → List (Cells Nat)
  | 0, _, _, len => len
  | n + 1, gs, remF, len =>
    let nPart := n + 1
    let tFreq := remF.tdiv nPart
    let (ge, aFreq) := growPart mtfFreq alphaSize tFreq alphaSize (gs - 1) 0
    let (ge, aFreq) :=
      if ge > gs ∧ nPart ≠ nGroups ∧ nPart ≠ 1 ∧ (nGroups - nPart) % 2 = 1 then
        (ge - 1, aFreq - mtfFreq ge)
      else (ge, aFreq)
    seedLoop mtfFreq alphaSize nGroups n (ge + 1) (remF - aFreq)
      (len.set n (seedRow alphaSize gs ge (rowAt len n)))

/-! ## 2. A refinement -/

/-- The symbols in groups of `BZ_G_SIZE`. -/
def groupsOf : Nat → List Nat → List (List Nat)
  | 0, _ => []
  | fuel + 1, mtfv =>
    if mtfv = [] then [] else mtfv.take bzGSize :: groupsOf fuel (mtfv.drop bzGSize)

/-- `len_pack[v][k]`: two lengths in one word. -/
def lenPack (len : List (Cells Nat)) (v k : Nat) : Word32 :=
  (BitVec.ofNat 32 (rowAt len (2 * k + 1) v) <<< 16) ||| BitVec.ofNat 32 (rowAt len (2 * k) v)

/-- The unrolled path: six costs, two by two. -/
def packedCosts (len : List (Cells Nat)) (grp : List Nat) : List (BitVec 16) :=
  let cost := fun k =>
    (List.range 50).foldl (fun (c : Word32) nn => c + lenPack len (grp.getD nn 0) k) 0
  let cost01 := cost 0
  let cost23 := cost 1
  let cost45 := cost 2
  [(cost01 &&& 0xffff).setWidth 16, (cost01 >>> 16).setWidth 16,
    (cost23 &&& 0xffff).setWidth 16, (cost23 >>> 16).setWidth 16,
    (cost45 &&& 0xffff).setWidth 16, (cost45 >>> 16).setWidth 16]

/-- The general path. -/
def generalCosts (nGroups : Nat) (len : List (Cells Nat)) (grp : List Nat) : List (BitVec 16) :=
  (List.range nGroups).map fun t =>
    grp.foldl (fun (c : BitVec 16) (icv : Nat) => c + BitVec.ofNat 16 (rowAt len t icv)) 0

/-- `cost[0..nGroups-1]` for a group. -/
def costs (nGroups : Nat) (len : List (Cells Nat)) (grp : List Nat) : List (BitVec 16) :=
  if nGroups = 6 ∧ 50 = grp.length then packedCosts len grp else generalCosts nGroups len grp

/-- `if (cost[t] < bc) { bc = cost[t]; bt = t; }`, for every table. -/
def pickTable (cost : List (BitVec 16)) : Nat × Int :=
  cost.zipIdx.foldl (fun s x => if x.1.toNat < s.1 then (x.1.toNat, x.2) else s) (999999999, -1)

/-- `s->rfreq[bt][mtfv[i]]++`, for the symbols of a group. -/
def countGroup (grp : List Nat) (row : Cells Nat) : Cells Nat :=
  grp.foldl (fun (row : Cells Nat) (v : Nat) => row.set v (row v + 1)) row

/-- The same, unrolled. -/
def countGroupUnrolled (grp : List Nat) (row : Cells Nat) : Cells Nat :=
  (List.range 50).foldl
    (fun (row : Cells Nat) nn => row.set (grp.getD nn 0 : Nat) (row (grp.getD nn 0 : Nat) + 1)) row

/-- One group: its table is chosen and its symbols are counted there. -/
def chooseTable (nGroups : Nat) (len : List (Cells Nat)) (s : List Byte × List (Cells Nat))
    (grp : List Nat) : List Byte × List (Cells Nat) :=
  let bt := (pickTable (costs nGroups len grp)).2
  let row := rowAt s.2 bt.toNat
  (s.1 ++ [BitVec.ofInt 8 bt],
    s.2.set bt.toNat
      (if nGroups = 6 ∧ 50 = grp.length then countGroupUnrolled grp row else countGroup grp row))

/-- New lengths for the tables from `t` on. -/
def remakeLengths (alphaSize : Nat) (rfreq : List (Cells Nat)) :
    Nat → List (Cells Nat) → HuffRun (List (Cells Nat))
  | _, [] => .ok []
  | t, row :: rows => do
    let row ← hbMakeCodeLengths zeros zeros (.ofFn fun _ => 0) row (rowAt rfreq t) alphaSize 17
    let rows ← remakeLengths alphaSize rfreq (t + 1) rows
    .ok (row :: rows)

/-- One refinement: the selectors, and the new lengths. -/
def iteration (nGroups alphaSize : Nat) (groups : List (List Nat)) (len : List (Cells Nat)) :
    HuffRun (List Byte × List (Cells Nat)) := do
  let (selector, rfreq) :=
    groups.foldl (chooseTable nGroups len) ([], List.replicate nGroups zeros)
  let len ← remakeLengths alphaSize rfreq 0 (len.take nGroups)
  .ok (selector, len)

/-- `for (iter = 0; iter < BZ_N_ITERS; iter++)`; the last selectors count. -/
def iterations (nGroups alphaSize : Nat) (groups : List (List Nat)) :
    Nat → List Byte × List (Cells Nat) → HuffRun (List Byte × List (Cells Nat))
  | 0, s => .ok s
  | n + 1, s => do
    let s ← iteration nGroups alphaSize groups s.2
    iterations nGroups alphaSize groups n s

/-! ## 3. Selectors and codes -/

/-- The MTF coding of the selectors, `pos` being the list. -/
def selectorMtfs (pos : List Byte) : List Byte → List Nat
  | [] => []
  | sel :: selector =>
    let (pos, tmp, j) := rotateLoop sel pos.length pos (pos.getD 0 0) 0
    j :: selectorMtfs (pos.set 0 tmp) selector

/-- `minLen` and `maxLen` of a row. -/
def lenBounds (alphaSize : Nat) (row : Cells Nat) : Nat × Nat :=
  forUpto alphaSize
    (fun i (s : Nat × Nat) =>
      (if row i < s.1 then row i else s.1, if row i > s.2 then row i else s.2)) (32, 0)

/-- `BZ2_hbAssignCodes`, on `code` and `vec`; `count` lengths from `n` on. -/
def assignLoop (length : Cells Nat) (alphaSize : Nat) :
    Nat → Nat → Cells Nat × Nat → Cells Nat × Nat
  | 0, _, s => s
  | count + 1, n, s =>
    let s := forUpto alphaSize
      (fun i (s : Cells Nat × Nat) => if length i = n then (s.1.set i s.2, s.2 + 1) else s) s
    assignLoop length alphaSize count (n + 1) (s.1, s.2 <<< 1)

/-- `BZ2_hbAssignCodes`. -/
def hbAssignCodes (code length : Cells Nat) (minLen maxLen alphaSize : Nat) : Cells Nat :=
  (assignLoop length alphaSize (maxLen + 1 - minLen) minLen (code, 0)).1

/-- The codes of every table. -/
def assignAll (alphaSize : Nat) : List (Cells Nat) → HuffRun (List (Cells Nat))
  | [] => .ok []
  | row :: rows => do
    let (minLen, maxLen) := lenBounds alphaSize row
    huffAssert (!decide (maxLen > 17)) 3004
    huffAssert (!decide (minLen < 1)) 3005
    let code := hbAssignCodes zeros row minLen maxLen alphaSize
    let codes ← assignAll alphaSize rows
    .ok (code :: codes)

/-! ## 4. The calls of `bsW` -/

/-- `bsW(s,1,1)` or `bsW(s,1,0)`. -/
def writeFlag (b : Bool) : Nat × Word32 := if b then (1, 1) else (1, 0)

/-- `inUse16[i]`. -/
def inUse16 (inUse : Cells Bool) (i : Nat) : Bool :=
  (List.range 16).any fun j : Nat => inUse (i * 16 + j : Nat)

/-- The symbol mapping table. -/
def mappingWrites (inUse : Cells Bool) : List (Nat × Word32) :=
  ((List.range 16).map fun i => writeFlag (inUse16 inUse i)) ++
    (List.range 16).flatMap fun i =>
      if inUse16 inUse i then
        (List.range 16).map fun j : Nat => writeFlag (inUse (i * 16 + j : Nat))
      else []

/-- The selectors, each in unary. -/
def selectorWrites (nGroups : Nat) (selectorMtf : List Nat) : List (Nat × Word32) :=
  (3, BitVec.ofNat 32 nGroups) :: (15, BitVec.ofNat 32 selectorMtf.length) ::
    selectorMtf.flatMap fun j => List.replicate j (1, 1) ++ [(1, 0)]

/-- From the length `curr` to the length `l`. -/
def deltaWrites (curr l : Nat) : List (Nat × Word32) :=
  List.replicate (l - curr) (2, 2) ++ List.replicate (curr - l) (2, 3) ++ [(1, 0)]

/-- The lengths of the symbols from `i` on, each after the one before it. -/
def rowWrites (row : Cells Nat) : Nat → Nat → Nat → List (Nat × Word32)
  | 0, _, _ => []
  | n + 1, i, curr => deltaWrites curr (row i) ++ rowWrites row n (i + 1) (row i)

/-- The coding tables. -/
def lengthWrites (alphaSize : Nat) (len : List (Cells Nat)) : List (Nat × Word32) :=
  len.flatMap fun row => (5, BitVec.ofNat 32 (row 0)) :: rowWrites row alphaSize 0 (row 0)

/-- One group of symbols in the code of its table: unrolled, or in the general loop. -/
def groupWrites (nGroups : Nat) (len code : Cells Nat) (grp : List Nat) : List (Nat × Word32) :=
  if nGroups = 6 ∧ 50 = grp.length then
    (List.range 50).map fun nn =>
      (len (grp.getD nn 0), BitVec.ofNat 32 (code (grp.getD nn 0)))
  else grp.map fun v : Nat => (len v, BitVec.ofNat 32 (code v))

/-- The compressed data: the groups with their selectors, and how many there were. -/
def dataWrites (nGroups : Nat) (len code : List (Cells Nat)) :
    List (List Nat) → List Byte → HuffRun (List (Nat × Word32) × Nat)
  | [], _ => .ok ([], 0)
  | grp :: groups, selector => do
    let sel := (selector.getD 0 0).toNat
    huffAssert (decide (sel < nGroups)) 3006
    let (writes, selCtr) ← dataWrites nGroups len code groups (selector.drop 1)
    .ok (groupWrites nGroups (rowAt len sel) (rowAt code sel) grp ++ writes, selCtr + 1)

/-! ## 5. `sendMTFValues` -/

/-- `sendMTFValues`: the calls of `bsW` for a block whose symbols are `mtfv`. -/
def sendMTFValues (mtfv : List Nat) (mtfFreq : Cells Int) (nInUse : Nat) (inUse : Cells Bool) :
    HuffRun (List (Nat × Word32)) := do
  let alphaSize := nInUse + 2
  let nMTF := mtfv.length
  huffAssert (decide (nMTF > 0)) 3001
  let nGroups := nGroupsFor nMTF
  let len := List.replicate bzNGroups (.ofFn fun _ => bzGreaterIcost)
  let len := seedLoop mtfFreq alphaSize nGroups nGroups 0 nMTF len
  let groups := groupsOf nMTF mtfv
  let (selector, len) ← iterations nGroups alphaSize groups bzNIters ([], len)
  let nSelectors := selector.length
  huffAssert (decide (nGroups < 8)) 3002
  huffAssert (decide (nSelectors < 32768 ∧ nSelectors ≤ bzMaxSelectors)) 3003
  let selectorMtf := selectorMtfs ((List.range nGroups).map (BitVec.ofNat 8)) selector
  let code ← assignAll alphaSize len
  let (writes, selCtr) ← dataWrites nGroups len code groups selector
  huffAssert (decide (selCtr = nSelectors)) 3007
  .ok (mappingWrites inUse ++ selectorWrites nGroups selectorMtf ++ lengthWrites alphaSize len ++
    writes)

end Qbz2
