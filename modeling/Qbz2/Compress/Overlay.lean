/-
  File:      Qbz2/Compress/Overlay.lean
  Subject:   `generateMTFValues` (`src/compress.c`) on one array instead of two.

  * `SeparateArrays` -- `ptr` and `mtfv` as arrays of their own;
  * `Mirrors` -- what the loops on two kinds of arrays have in common. The symbols written never
    run ahead of the round: a run of length `z` is written in at most `z` symbols, and only after it
    has been counted;
  * **`generateMTFValues_overlay`** -- the function writes the same symbols into the overlaid arrays
    as into separate ones, and no entry of `ptr` is written over before it has been read.
-/
import Qbz2.Compress.MtfSymbols

namespace Qbz2

open Loop

/-! ## 1. Two arrays -/

/-- `ptr` and `mtfv`, each in its own memory. -/
structure SeparateArrays where
  ptr : Cells Int
  mtfv : Cells (BitVec 16)

instance separated : MtfArrays SeparateArrays where
  ptr a i := a.ptr i
  mtfv a i := a.mtfv i
  putMtfv a i v := { a with mtfv := a.mtfv.set i v }

instance lawful_separated : LawfulMtfArrays SeparateArrays where
  mtfv_put a w k v := Cells.get_set a.mtfv w v k
  ptr_put _ _ _ _ _ := rfl

/-! ## 2. The rounds -/

section

variable {M M' : Type} [MtfArrays M] [MtfArrays M']

/-- **Two loops side by side**: they have written the same symbols, and the entries of `ptr` that
    lie behind these are as they were in `a₀` and `a₀'`. -/
structure Mirrors (a₀ : M) (a₀' : M') (l : MtfLoop M) (l' : MtfLoop M') : Prop where
  yy : l.yy = l'.yy
  zPend : l.zPend = l'.zPend
  wr : l.wr = l'.wr
  freq : l.mtfFreq = l'.mtfFreq
  mtfv : ∀ w : Nat, w < l.wr → MtfArrays.mtfv l.arrays w = MtfArrays.mtfv l'.arrays w
  ptr : ∀ i : Nat, l.wr ≤ 2 * i → MtfArrays.ptr l.arrays i = MtfArrays.ptr a₀ i
  ptr' : ∀ i : Nat, l.wr ≤ 2 * i → MtfArrays.ptr l'.arrays i = MtfArrays.ptr a₀' i

namespace Mirrors

variable [LawfulMtfArrays M] [LawfulMtfArrays M'] {a₀ : M} {a₀' : M'} {l : MtfLoop M}
  {l' : MtfLoop M'}

theorem put (h : Mirrors a₀ a₀' l l') (v : Int) : Mirrors a₀ a₀' (l.put v) (l'.put v) where
  yy := h.yy
  zPend := h.zPend
  wr := congrArg (· + 1) h.wr
  freq := by
    unfold MtfLoop.put
    rw [h.freq]
  mtfv w hw := by
    unfold MtfLoop.put at hw ⊢
    dsimp only at hw ⊢
    rw [LawfulMtfArrays.mtfv_put, LawfulMtfArrays.mtfv_put, ← h.wr]
    by_cases e : (w : Int) = l.wr
    · rw [if_pos e, if_pos e]
    · rw [if_neg e, if_neg e, h.mtfv w (by omega)]
  ptr i hi := by
    unfold MtfLoop.put at hi ⊢
    dsimp only at hi ⊢
    rw [LawfulMtfArrays.ptr_put _ _ _ _ (by omega), h.ptr i (by omega)]
  ptr' i hi := by
    have hwr := h.wr
    unfold MtfLoop.put at hi ⊢
    dsimp only at hi ⊢
    rw [LawfulMtfArrays.ptr_put _ _ _ _ (by omega), h.ptr' i (by omega)]

/-- The digits of a run: at most as many as the run is long. -/
theorem putRun : ∀ (fuel z : Nat) {l : MtfLoop M} {l' : MtfLoop M'}, Mirrors a₀ a₀' l l' →
    z < fuel → Mirrors a₀ a₀' (Qbz2.putRun fuel z l) (Qbz2.putRun fuel z l') ∧
      (Qbz2.putRun fuel z l).wr ≤ l.wr + z + 1 := by
  intro fuel
  induction fuel with
  | zero => exact fun z _ _ _ h => absurd h (Nat.not_lt_zero z)
  | succ fuel ih =>
    intro z l l' h hz
    obtain ⟨v, hv, hv'⟩ : ∃ v : Int,
        (if z % 2 = 1 then l.put bzRunB else l.put bzRunA) = l.put v ∧
          (if z % 2 = 1 then l'.put bzRunB else l'.put bzRunA) = l'.put v := by
      by_cases h1 : z % 2 = 1
      · exact ⟨_, if_pos h1, if_pos h1⟩
      · exact ⟨_, if_neg h1, if_neg h1⟩
    unfold Qbz2.putRun
    dsimp only
    rw [hv, hv']
    have hwr : (l.put v).wr = l.wr + 1 := rfl
    by_cases h2 : z < 2
    · rw [if_pos h2, if_pos h2]
      exact ⟨h.put v, by omega⟩
    · rw [if_neg h2, if_neg h2]
      obtain ⟨hm, hle⟩ := ih ((z - 2) / 2) (h.put v) (by omega)
      exact ⟨hm, by omega⟩

theorem flushRun (h : Mirrors a₀ a₀' l l') : Mirrors a₀ a₀' l.flushRun l'.flushRun ∧
    l.flushRun.wr ≤ l.wr + l.zPend ∧ l.flushRun.zPend = 0 := by
  unfold MtfLoop.flushRun
  rw [← h.zPend]
  by_cases h0 : l.zPend > 0
  · obtain ⟨hm, hle⟩ := putRun l.zPend (l.zPend - 1) h (by omega)
    rw [if_pos h0, if_pos h0]
    exact ⟨⟨hm.yy, rfl, hm.wr, hm.freq, hm.mtfv, hm.ptr, hm.ptr'⟩, by dsimp only; omega, rfl⟩
  · rw [if_neg h0, if_neg h0]
    exact ⟨h, by omega, by omega⟩

/-- **A round.** It reads entry `i` of `ptr`, which is still there, and writes no further than
    cell `i`. -/
theorem body (h : Mirrors a₀ a₀' l l') {i : Nat} (hle : l.wr + l.zPend ≤ i)
    (hptr : MtfArrays.ptr a₀ i = MtfArrays.ptr a₀' i) (sse2 : Bool) (block : Cells Byte)
    (nblock : Nat) (unseqToSeq : Cells Byte) :
    Mirrors a₀ a₀' (mtfBody sse2 block nblock unseqToSeq i l)
        (mtfBody sse2 block nblock unseqToSeq i l') ∧
      (mtfBody sse2 block nblock unseqToSeq i l).wr +
        (mtfBody sse2 block nblock unseqToSeq i l).zPend ≤ i + 1 := by
  unfold mtfBody
  dsimp only
  rw [h.ptr i (by omega), h.ptr' i (by omega), hptr, ← h.yy]
  generalize unseqToSeq (block _).toNat = ll
  by_cases he : l.yy.getD 0 0 = ll
  · rw [if_pos he, if_pos he]
    exact ⟨⟨rfl, congrArg (· + 1) h.zPend, h.wr, h.freq, h.mtfv, h.ptr, h.ptr'⟩,
      by dsimp only; omega⟩
  · rw [if_neg he, if_neg he]
    obtain ⟨hm, hwr, hz⟩ := h.flushRun
    rw [← hm.yy]
    generalize mtfStep sse2 l.flushRun.yy ll = r
    have hmove : Mirrors a₀ a₀' { l.flushRun with yy := r.1 } { l'.flushRun with yy := r.1 } :=
      ⟨rfl, hm.zPend, hm.wr, hm.freq, hm.mtfv, hm.ptr, hm.ptr'⟩
    refine ⟨hmove.put _, ?_⟩
    show l.flushRun.wr + 1 + l.flushRun.zPend ≤ i + 1
    omega

end Mirrors

/-- The other fields, with other arrays. -/
def MtfValues.onto (s : MtfValues M) (arrays : M') : MtfValues M' where
  arrays
  unseqToSeq := s.unseqToSeq
  nInUse := s.nInUse
  mtfFreq := s.mtfFreq
  nMTF := s.nMTF

omit [MtfArrays M] [MtfArrays M'] in
theorem makeMapsE_onto (inUse : Cells Bool) (s : MtfValues M) (arrays : M') :
    makeMapsE inUse (s.onto arrays) = (makeMapsE inUse s).onto arrays := by
  unfold makeMapsE
  refine forUpto_rel (fun _ (a : MtfValues M') (b : MtfValues M) => a = b.onto arrays) ?_ 256
    fun i a b _ h => ?_
  · rfl
  rw [h]
  unfold makeMapsStep MtfValues.onto
  dsimp only
  split <;> rfl

variable [LawfulMtfArrays M] [LawfulMtfArrays M']

/-- **All rounds**, on two kinds of arrays that hold the same entries of `ptr`. -/
theorem mtfRounds_mirrors (sse2 : Bool) (block : Cells Byte) (nblock : Nat) (inUse : Cells Bool)
    (s : MtfValues M) (a : M')
    (hptr : ∀ i : Nat, i < nblock → MtfArrays.ptr s.arrays i = MtfArrays.ptr a i) {i : Nat}
    (hi : i ≤ nblock) :
    Mirrors (makeMapsE inUse s).arrays a (mtfRounds sse2 block nblock inUse s i)
        (mtfRounds sse2 block nblock inUse (s.onto a) i) ∧
      (mtfRounds sse2 block nblock inUse s i).wr + (mtfRounds sse2 block nblock inUse s i).zPend ≤
        i := by
  have harrays : (makeMapsE inUse s).arrays = s.arrays := by
    refine forUpto_inv (fun _ (t : MtfValues M) => t.arrays = s.arrays) ?_ 256 fun i t _ h => ?_
    · rfl
    unfold makeMapsStep
    split
    · exact h
    · exact h
  unfold mtfRounds
  rw [makeMapsE_onto]
  refine forUpto_rel (fun i (l : MtfLoop M) (l' : MtfLoop M') =>
    Mirrors (makeMapsE inUse s).arrays a l l' ∧ l.wr + l.zPend ≤ i) ?_ i
    fun j l l' hj ⟨hm, hle⟩ => ?_
  · exact ⟨⟨rfl, rfl, rfl, rfl, fun w hw => absurd hw (Nat.not_lt_zero w), fun _ _ => rfl,
      fun _ _ => rfl⟩, Nat.le_refl 0⟩
  exact hm.body hle (by rw [harrays]; exact hptr j (by omega)) sse2 block nblock _

end

/-! ## 3. Overlaid and separate -/

/-- **One array is as good as two.** Whatever the block and the entries of `ptr`, the function
    writes the same symbols, counts and number of symbols into `arr1` as into an array of its own;
    before each round, `mtfv` has been written up to cell `i` at most, so that entry `i` of `ptr`
    (cells `2i` and `2i + 1`) is what it was; and `EOB` is written to cell `nblock` at most. -/
theorem generateMTFValues_overlay (sse2 : Bool) (block : Cells Byte) (nblock : Nat)
    (inUse : Cells Bool) (s : MtfValues SeparateArrays)
    (hptr : ∀ i : Nat, i < nblock → 0 ≤ s.arrays.ptr i ∧ s.arrays.ptr i < 2 ^ 32) :
    let o := s.onto (Arr1.ofPtr s.arrays.ptr)
    (generateMTFValues sse2 block nblock inUse o).symbols =
        (generateMTFValues sse2 block nblock inUse s).symbols ∧
      (generateMTFValues sse2 block nblock inUse o).mtfFreq =
        (generateMTFValues sse2 block nblock inUse s).mtfFreq ∧
      (generateMTFValues sse2 block nblock inUse o).nMTF =
        (generateMTFValues sse2 block nblock inUse s).nMTF ∧
      (∀ i : Nat, i < nblock → (mtfRounds sse2 block nblock inUse o i).wr ≤ i ∧
        MtfArrays.ptr (mtfRounds sse2 block nblock inUse o i).arrays i = s.arrays.ptr i) ∧
      (generateMTFValues sse2 block nblock inUse o).nMTF ≤ nblock + 1 := by
  intro o
  have hsame : ∀ i : Nat, i < nblock → MtfArrays.ptr s.arrays i = MtfArrays.ptr o.arrays i :=
    fun i hi => (ptr_ofPtr s.arrays.ptr (hptr i hi).1 (hptr i hi).2).symm
  have hround : ∀ i : Nat, i ≤ nblock →
      Mirrors (makeMapsE inUse s).arrays o.arrays (mtfRounds sse2 block nblock inUse s i)
          (mtfRounds sse2 block nblock inUse o i) ∧
        (mtfRounds sse2 block nblock inUse s i).wr + (mtfRounds sse2 block nblock inUse s i).zPend ≤
          i :=
    fun i hi => mtfRounds_mirrors sse2 block nblock inUse s o.arrays hsame hi
  obtain ⟨hall, hlast⟩ := hround nblock (Nat.le_refl nblock)
  obtain ⟨hflush, hwr, -⟩ := hall.flushRun
  have heob := hflush.put (((makeMapsE inUse s).nInUse + 1 : Nat) : Int)
  have hn : (makeMapsE inUse o).nInUse = (makeMapsE inUse s).nInUse := by rw [makeMapsE_onto]; rfl
  rw [generateMTFValues_rounds, generateMTFValues_rounds, hn]
  refine ⟨?_, heob.freq.symm, heob.wr.symm, fun i hi => ?_, ?_⟩
  · unfold MtfValues.symbols
    dsimp only
    rw [← heob.wr]
    refine List.map_congr_left fun w hw => ?_
    rw [heob.mtfv w (List.mem_range.mp hw)]
  · obtain ⟨hm, hle⟩ := hround i (Nat.le_of_lt hi)
    have hwr' := hm.wr
    refine ⟨by omega, ?_⟩
    rw [hm.ptr' i (by omega), ← hsame i hi]
    rfl
  · have hle : (mtfRounds sse2 block nblock inUse s nblock).flushRun.wr + 1 ≤ nblock + 1 := by omega
    exact Nat.le_trans (Nat.le_of_eq heob.wr.symm) hle

/-- The block `ab`: the rows `ab`, `ba` are in order as they are. -/
theorem generateMTFValues_overlay_twoBytes :
    (generateMTFValues true (.ofFn fun i => if i = 0 then 97 else 98) 2
        (.ofFn fun i => decide (i = 97 ∨ i = 98))
        (⟨Arr1.ofPtr (.ofFn id), .ofFn fun _ => 0, 0, .ofFn fun _ => 0, 0⟩ : MtfValues Arr1)).symbols =
      (generateMTFValues true (.ofFn fun i => if i = 0 then 97 else 98) 2
        (.ofFn fun i => decide (i = 97 ∨ i = 98))
        (⟨⟨.ofFn id, .ofFn fun _ => 0⟩, .ofFn fun _ => 0, 0, .ofFn fun _ => 0, 0⟩ :
          MtfValues SeparateArrays)).symbols :=
  (generateMTFValues_overlay true _ 2 _ ⟨⟨.ofFn id, .ofFn fun _ => 0⟩, .ofFn fun _ => 0, 0,
    .ofFn fun _ => 0, 0⟩ fun i hi => by
      rw [Cells.get_ofFn]
      exact ⟨Int.natCast_nonneg i, by show (i : Int) < 2 ^ 32; omega⟩).1

end Qbz2
