/-
  File:      Qbz2/Compress/MtfValues.lean
  Subject:   `makeMaps_e` and `generateMTFValues` (`src/compress.c`): from the sorted block to its
             symbols.

  * `MtfArrays` -- the arrays `ptr` and `mtfv`; `Arr1` is the one memory both lie in;
  * `MtfValues` -- the fields of `EState` the two functions write;
  * `sse2Step`, `scalarStep` -- the search for a byte and its move to the front, in both builds;
  * `generateMTFValues`.
-/
import Qbz2.Types
import Qbz2.Lib.Cells
import Qbz2.Lib.Loop

namespace Qbz2

open Loop (forUpto)

/-! ## 1. The arrays -/

/-- The arrays `ptr` (32-bit cells) and `mtfv` (16-bit cells). -/
class MtfArrays (M : Type) where
  ptr : M → Int → Int
  mtfv : M → Int → BitVec 16
  putMtfv : M → Int → BitVec 16 → M

/-- `arr1`, in 16-bit cells. -/
structure Arr1 where
  cells : Cells (BitVec 16)

/-- `mtfv` and `ptr` both point to `arr1`; `ptr[i]` is two cells, the low half first. -/
instance overlaid : MtfArrays Arr1 where
  ptr a i := (a.cells (2 * i)).toNat + 65536 * (a.cells (2 * i + 1)).toNat
  mtfv a i := a.cells i
  putMtfv a i v := ⟨a.cells.set i v⟩

/-- `arr1` holding the entries of `ptr`. -/
def Arr1.ofPtr (ptr : Cells Int) : Arr1 where
  cells := .ofFn fun k =>
    if k % 2 = 0 then BitVec.ofInt 16 (ptr (k / 2)) else BitVec.ofInt 16 (ptr (k / 2) / 65536)

/-- The fields of `EState` that hold the symbols of a block. -/
structure MtfValues (M : Type) where
  arrays : M
  unseqToSeq : Cells Byte
  nInUse : Nat
  mtfFreq : Cells Int
  nMTF : Nat

/-! ## 2. `makeMaps_e` -/

/-- One round: `if (s->inUse[i]) { s->unseqToSeq[i] = s->nInUse; s->nInUse++; }`. -/
def makeMapsStep {M : Type} (inUse : Cells Bool) (i : Nat) (s : MtfValues M) : MtfValues M :=
  if inUse i then
    { s with unseqToSeq := s.unseqToSeq.set i (BitVec.ofNat 8 s.nInUse), nInUse := s.nInUse + 1 }
  else s

/-- `makeMaps_e`. -/
def makeMapsE {M : Type} (inUse : Cells Bool) (s : MtfValues M) : MtfValues M :=
  forUpto 256 (makeMapsStep inUse) { s with nInUse := 0 }

/-! ## 3. The move to the front -/

/-- The search of the SSE2 build: sixteen bytes at a time, the first that are equal. -/
def chunkSearch (yy : List Byte) (ll : Byte) : Nat → Nat → Nat
  | 0, pos => pos
  | fuel + 1, pos =>
    let chunk := (yy.drop pos).take 16
    if ll ∈ chunk then pos + chunk.idxOf ll else chunkSearch yy ll fuel (pos + 16)

/-- `memmove(yy + 1, yy, pos); yy[0] = ll_i; j = pos`. The 272 bytes are 17 chunks. -/
def sse2Step (yy : List Byte) (ll : Byte) : List Byte × Nat :=
  let pos := chunkSearch yy ll 17 0
  (ll :: (yy.take pos ++ yy.drop (pos + 1)), pos)

/-- `while (rll_i != rtmp) { ryy_j++; rtmp2 = rtmp; rtmp = *ryy_j; *ryy_j = rtmp2; }`. -/
def rotateLoop (ll : Byte) : Nat → List Byte → Byte → Nat → List Byte × Byte × Nat
  | 0, yy, rtmp, j => (yy, rtmp, j)
  | fuel + 1, yy, rtmp, j =>
    if ll ≠ rtmp then rotateLoop ll fuel (yy.set (j + 1) rtmp) (yy.getD (j + 1) 0) (j + 1)
    else (yy, rtmp, j)

/-- The search and the rotation of the other builds in one. -/
def scalarStep (yy : List Byte) (ll : Byte) : List Byte × Nat :=
  let rtmp := yy.getD 1 0
  let (yy, rtmp, j) := rotateLoop ll yy.length (yy.set 1 (yy.getD 0 0)) rtmp 1
  (yy.set 0 rtmp, j)

/-- The step of a build, `sse2` being whether `__SSE2__` is defined. -/
def mtfStep (sse2 : Bool) (yy : List Byte) (ll : Byte) : List Byte × Nat :=
  if sse2 then sse2Step yy ll else scalarStep yy ll

/-! ## 4. `generateMTFValues` -/

/-- The variables of the loop. -/
structure MtfLoop (M : Type) where
  arrays : M
  mtfFreq : Cells Int
  yy : List Byte
  zPend : Nat
  wr : Nat

section

variable {M : Type} [MtfArrays M]

/-- `mtfv[wr] = v; wr++; s->mtfFreq[v]++`. -/
def MtfLoop.put (v : Int) (l : MtfLoop M) : MtfLoop M :=
  { l with
    arrays := MtfArrays.putMtfv l.arrays l.wr (BitVec.ofInt 16 v)
    wr := l.wr + 1
    mtfFreq := l.mtfFreq.set v (l.mtfFreq v + 1) }

/-- `while (True) { ...; if (zPend < 2) break; zPend = (zPend - 2) / 2; }`. -/
def putRun : Nat → Nat → MtfLoop M → MtfLoop M
  | 0, _, l => l
  | fuel + 1, zPend, l =>
    let l := if zPend % 2 = 1 then l.put bzRunB else l.put bzRunA
    if zPend < 2 then l else putRun fuel ((zPend - 2) / 2) l

/-- `if (zPend > 0) { zPend--; ...; zPend = 0; }`. -/
def MtfLoop.flushRun (l : MtfLoop M) : MtfLoop M :=
  if l.zPend > 0 then { putRun l.zPend (l.zPend - 1) l with zPend := 0 } else l

/-- The body of the loop over the block. -/
def mtfBody (sse2 : Bool) (block : Cells Byte) (nblock : Nat) (unseqToSeq : Cells Byte) (i : Nat)
    (l : MtfLoop M) : MtfLoop M :=
  let j := MtfArrays.ptr l.arrays i - 1
  let j := if j < 0 then j + nblock else j
  let ll := unseqToSeq (block j).toNat
  if l.yy.getD 0 0 = ll then { l with zPend := l.zPend + 1 }
  else
    let l := l.flushRun
    let (yy, j) := mtfStep sse2 l.yy ll
    { l with yy }.put (j + 1)

/-- `yy`: the sequence numbers in use, then `0xFF` up to 272. -/
def mtfInit (nInUse : Nat) : List Byte :=
  (List.range nInUse).map (BitVec.ofNat 8) ++ List.replicate (272 - nInUse) 0xff

/-- `generateMTFValues`. -/
def generateMTFValues (sse2 : Bool) (block : Cells Byte) (nblock : Nat) (inUse : Cells Bool)
    (s : MtfValues M) : MtfValues M :=
  let s := makeMapsE inUse s
  let eob := s.nInUse + 1
  let l : MtfLoop M :=
    { arrays := s.arrays
      mtfFreq := s.mtfFreq.fill 0 (eob + 1) 0
      yy := mtfInit s.nInUse
      zPend := 0
      wr := 0 }
  let l := forUpto nblock (mtfBody sse2 block nblock s.unseqToSeq) l
  let l := l.flushRun
  let l := l.put eob
  { s with arrays := l.arrays, mtfFreq := l.mtfFreq, nMTF := l.wr }

/-- The symbols written: `mtfv[0..nMTF-1]`. -/
def MtfValues.symbols (s : MtfValues M) : List Nat :=
  (List.range s.nMTF).map fun w : Nat => (MtfArrays.mtfv s.arrays w).toNat

end

end Qbz2
