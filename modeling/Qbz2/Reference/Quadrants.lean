/-
  File:      Qbz2/Reference/Quadrants.lean
  Subject:   The meaning of the quadrants, before the sort and after each big bucket.

  * `overshoot_spec` -- before the sort the overshoot repeats the block, and no quadrant says anything;
  * `InOrder` -- a big bucket that is done; `Updating` -- the update, so far;
  * **`updateQuadrants_spec`** -- the update succeeds and keeps the meaning.
-/
import Qbz2.Reference.Comparison

namespace Qbz2

open Loop Segment Rotation

variable {block : Cells Byte} {quadrant : Cells (BitVec 16)} {n : Int}

/-! ## 1. Before the sort -/

theorem overshoot_get (block : Cells Byte) (nblock : Nat) (quadrant : Cells (BitVec 16))
    (h0 : ∀ x : Int, 0 ≤ x → x < nblock → quadrant x = 0) (k : Nat) :
    ∀ s, forUpto k
        (fun i s => (s.1.set (nblock + i : Nat) (s.1 i), s.2.set (nblock + i : Nat) 0))
        (block, quadrant) = s → k ≤ nblock →
      (∀ x : Int, x < nblock → s.1 x = block x) ∧
      (∀ i : Nat, i < k → s.1 (nblock + i : Nat) = block i) ∧
      ∀ x : Int, 0 ≤ x → x < nblock + k → s.2 x = 0 := by
  induction k with
  | zero =>
    rintro s rfl _
    exact ⟨fun x _ => rfl, fun i hi => absurd hi (Nat.not_lt_zero i), fun x hx0 hx1 =>
      h0 x hx0 (by omega)⟩
  | succ k ih =>
    rintro s rfl hk
    obtain ⟨h1, h2, h3⟩ := ih _ rfl (by omega)
    rw [forUpto_succ]
    dsimp only
    refine ⟨fun x hx => ?_, fun i hi => ?_, fun x h0 hx => ?_⟩
    · rw [Cells.get_set_of_ne _ (by omega)]
      exact h1 x hx
    · rcases Nat.lt_succ_iff_lt_or_eq.mp hi with hlt | rfl
      · rw [Cells.get_set_of_ne _ (by omega)]
        exact h2 i hlt
      · rw [Cells.get_set_self]
        exact h1 i (by omega)
    · rw [Cells.get_set]
      split
      · rfl
      · exact h3 x h0 (by omega)

/-- **Before the sort.** -/
theorem overshoot_spec (block : Cells Byte) (nblock : Nat) (hn : bzNOvershoot < nblock)
    {quadrant : Cells (BitVec 16)} (h0 : ∀ x : Int, 0 ≤ x → x < nblock → quadrant x = 0) :
    (∀ x : Int, x < nblock → (overshoot block nblock quadrant).1 x = block x) ∧
      Overshot (overshoot block nblock quadrant).1 nblock ∧
      Quadrants (overshoot block nblock quadrant).1 nblock (overshoot block nblock quadrant).2 := by
  obtain ⟨h1, h2, h3⟩ := overshoot_get block nblock quadrant h0 bzNOvershoot _ rfl (by omega)
  have hz : ∀ x : Int, 0 ≤ x → x < nblock + bzNOvershoot →
      (overshoot block nblock quadrant).2 x = 0 := h3
  refine ⟨h1, fun i h0 hi => ?_, fun i h0 hi => ?_, fun x y hx0 hx1 hy0 hy1 _ hlt => ?_⟩
  · rcases emod_cases (by omega) h0 hi with ⟨_, e⟩ | ⟨e, hlt⟩
    · rw [e]
    · -- a cell of the overshoot holds the byte at its rest
      have h0' : 0 ≤ i % nblock := Int.emod_nonneg _ (by omega)
      obtain ⟨k, hk⟩ := Int.eq_ofNat_of_zero_le h0'
      have hover := h2 k (by omega)
      have hin := h1 k (by omega)
      unfold sym
      rw [hk, e, hk]
      exact congrArg BitVec.toNat (hin.trans (by rw [← hover]; congr 1))
  · rw [hz _ (by omega) (by omega), hz _ h0 (by omega)]
  · rw [hz x hx0 (by omega), hz y hy0 (by omega)] at hlt
    exact absurd hlt (Nat.lt_irrefl _)

/-! ## 2. The update -/

theorem shiftsFor_le (bbSize : Nat) : ∀ (fuel shifts : Nat), bbSize >>> (shifts + fuel) ≤ 65534 →
    bbSize >>> shiftsFor bbSize fuel shifts ≤ 65534 := by
  intro fuel
  induction fuel with
  | zero => exact fun shifts h => h
  | succ fuel ih =>
    intro shifts h
    unfold shiftsFor
    split
    · exact ih (shifts + 1) (by rwa [Nat.add_assoc, Nat.add_comm 1 fuel])
    · omega

/-- **A big bucket that is done**: the `size` cells from `start` on are the rotations with one first
    byte, in order. -/
structure InOrder (block : Cells Byte) (n : Int) (ptr : Cells Int) (start : Int) (size : Nat)
    (ss : Nat) : Prop where
  cell : ∀ k : Nat, k < size → 0 ≤ ptr (start + k) ∧ ptr (start + k) < n ∧
    sym block (ptr (start + k)) = ss
  all : ∀ x, 0 ≤ x → x < n → sym block x = ss → ∃ k : Nat, k < size ∧ ptr (start + k) = x
  inj : ∀ k l : Nat, k < size → l < size → ptr (start + k) = ptr (start + l) → k = l
  ord : ∀ k l : Nat, k ≤ l → l < size →
    rot (sym block) n (ptr (start + k)) ≤ rot (sym block) n (ptr (start + l))

section Update

variable {ptr : Cells Int} {start : Int} {size ss shifts : Nat}

/-- The update so far, with the cells from `i` on done. -/
structure Updating (block : Cells Byte) (n : Int) (ptr : Cells Int) (start : Int) (size ss shifts : Nat)
    (q₀ : Cells (BitVec 16)) (i : Nat) (q : Cells (BitVec 16)) : Prop where
  done : ∀ k : Nat, i ≤ k → k < size → q (ptr (start + k)) = BitVec.ofNat 16 (k >>> shifts)
  behind : ∀ x : Int, 0 ≤ x → x < bzNOvershoot → q (n + x) = q x
  rest : ∀ x, 0 ≤ x → x < n → sym block x ≠ ss → q x = q₀ x

/-- What a round writes. -/
theorem get_setQuadrant (j : Nat) (q : Cells (BitVec 16)) (x : Int) :
    (setQuadrant n ptr start shifts j q) x =
      if x = ptr (start + j) ∨ ptr (start + j) < bzNOvershoot ∧ x = ptr (start + j) + n then
        BitVec.ofNat 16 (j >>> shifts) else q x := by
  unfold setQuadrant
  dsimp only
  by_cases hlt : ptr (start + j) < bzNOvershoot
  · rw [if_pos hlt, Cells.get_set, Cells.get_set]
    by_cases h1 : x = ptr (start + j) + n
    · rw [if_pos h1, if_pos (.inr ⟨hlt, h1⟩)]
    · rw [if_neg h1]
      by_cases h2 : x = ptr (start + j)
      · rw [if_pos h2, if_pos (.inl h2)]
      · rw [if_neg h2, if_neg (by rintro (h | ⟨-, h⟩) <;> contradiction)]
  · rw [if_neg hlt, Cells.get_set]
    by_cases h2 : x = ptr (start + j)
    · rw [if_pos h2, if_pos (.inl h2)]
    · rw [if_neg h2, if_neg (by rintro (h | ⟨h, -⟩) <;> contradiction)]

/-- **One round.** -/
theorem Updating.step (hn : bzNOvershoot < n) (hB : InOrder block n ptr start size ss)
    {q₀ q : Cells (BitVec 16)} {j : Nat} (hj : j < size)
    (h : Updating block n ptr start size ss shifts q₀ (j + 1) q) :
    Updating block n ptr start size ss shifts q₀ j (setQuadrant n ptr start shifts j q) := by
  obtain ⟨h0, h1, hs⟩ := hB.cell j hj
  refine ⟨fun k hjk hk => ?_, fun x hx0 hx1 => ?_, fun x hx0 hx1 hne => ?_⟩
  · rw [get_setQuadrant]
    rcases Nat.lt_or_eq_of_le hjk with hlt | rfl
    · obtain ⟨k0, k1, -⟩ := hB.cell k hk
      have hne : ptr (start + k) ≠ ptr (start + j) := fun e => by
        have := hB.inj k j hk hj e
        omega
      rw [if_neg (by rintro (e | ⟨-, e⟩) <;> omega)]
      exact h.done k hlt hk
    · rw [if_pos (.inl rfl)]
  · rw [get_setQuadrant, get_setQuadrant]
    by_cases e : x = ptr (start + j)
    · rw [if_pos (.inr ⟨by omega, by omega⟩), if_pos (.inl e)]
    · rw [if_neg (by rintro (e' | ⟨-, e'⟩) <;> omega), if_neg (by rintro (e' | ⟨-, e'⟩) <;> omega)]
      exact h.behind x hx0 hx1
  · have e : x ≠ ptr (start + j) := fun e => hne (by rw [e]; exact hs)
    rw [get_setQuadrant, if_neg (by rintro (e' | ⟨-, e'⟩) <;> omega)]
    exact h.rest x hx0 hx1 hne

/-- **The update** of a big bucket in order succeeds, and keeps the meaning of the quadrants. -/
theorem updateQuadrants_spec (hn : bzNOvershoot < n) (hq : Quadrants block n quadrant)
    (hB : InOrder block n ptr start size ss) (hsize : size < 2 ^ 32) :
    ∃ q, updateQuadrants n ptr start size quadrant = .ok q ∧ Quadrants block n q := by
  have hle : size >>> shiftsFor size 32 0 ≤ 65534 := by
    refine shiftsFor_le size 32 0 ?_
    rw [Nat.shiftRight_eq_div_pow, Nat.div_eq_of_lt hsize]
    exact Nat.zero_le _
  have hsmall : ∀ k, k ≤ size → k >>> shiftsFor size 32 0 ≤ 65534 := fun k hk => by
    rw [Nat.shiftRight_eq_div_pow] at hle ⊢
    exact (Nat.div_le_div_right hk).trans hle
  have hend : Updating block n ptr start size ss (shiftsFor size 32 0) quadrant 0
      (countdown (setQuadrant n ptr start (shiftsFor size 32 0)) size quadrant) := by
    refine countdown_inv (Updating block n ptr start size ss (shiftsFor size 32 0) quadrant) ?_
      fun i t hi h => h.step hn hB hi
    exact ⟨fun k h1 h2 => by omega, hq.behind, fun x _ _ _ => rfl⟩
  refine ⟨_, ?_, hend.behind, fun x y hx0 hx1 hy0 hy1 he hlt => ?_⟩
  · have h65 : (size - 1) >>> shiftsFor size 32 0 ≤ 65535 :=
      (hsmall (size - 1) (Nat.sub_le _ _)).trans (by decide)
    unfold updateQuadrants
    simp only [assertH, h65, decide_true, if_true]
    rfl
  · by_cases hss : sym block x = ss
    · -- both are in the bucket, at places in the order of their quadrants
      obtain ⟨k, hk, rfl⟩ := hB.all x hx0 hx1 hss
      obtain ⟨l, hl, rfl⟩ := hB.all y hy0 hy1 (he.symm.trans hss)
      rw [hend.done k (Nat.zero_le _) hk, hend.done l (Nat.zero_le _) hl, BitVec.toNat_ofNat,
        BitVec.toNat_ofNat] at hlt
      have hk' := hsmall k (by omega)
      have hl' := hsmall l (by omega)
      rw [Nat.mod_eq_of_lt (by omega), Nat.mod_eq_of_lt (by omega), Nat.shiftRight_eq_div_pow,
        Nat.shiftRight_eq_div_pow] at hlt
      refine hB.ord k l ?_ hl
      by_contra hlk
      exact absurd (Nat.div_le_div_right (Nat.le_of_not_le hlk)) (Nat.not_le_of_lt hlt)
    · rw [hend.rest x hx0 hx1 hss, hend.rest y hy0 hy1 (fun e => hss (he.trans e))] at hlt
      exact hq.ord x y hx0 hx1 hy0 hy1 he hlt

end Update

end Qbz2
