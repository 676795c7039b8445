/-
  File:      Qbz2/BlockSort/SimpleSort.lean
  Subject:   `fallbackSimpleSort` sorts its segment by class and moves nothing else.

  * `shiftLoop_perm`, `insertPass_perm` -- with the removed cell put back at the gap, every round
    is an exchange, whatever the gap; this is all the pass with gap 4 has to give;
  * `Hole`, `shiftLoop_ord`, `insertPass_ord` -- the pass with gap 1 leaves the segment in order;
  * **`fallbackSimpleSort_spec`**.
-/
import Qbz2.BlockSort.Model
import Qbz2.Lib.Segment

namespace Qbz2

open Segment

variable {eclass fmap : Cells Int} {lo hi : Int}

/-! ## 1. Every pass permutes -/

/-- Shifting keeps the contents, the cell `tmp` counted at the gap. -/
theorem shiftLoop_perm {gap ecTmp : Int} (tmp : Int) (hg : 1 ≤ gap) :
    ∀ (n : Nat) (fmap : Cells Int) (j : Int), lo ≤ j - gap → j - gap ≤ hi →
      ∀ r, shiftLoop gap eclass hi ecTmp n fmap j = r →
        PermOn lo hi (fmap.set (j - gap) tmp) (r.1.set (r.2 - gap) tmp) ∧
          lo ≤ r.2 - gap ∧ r.2 - gap ≤ hi := by
  intro n
  induction n with
  | zero =>
    rintro fmap j hl hh r rfl
    exact ⟨PermOn.refl _ _ _, hl, hh⟩
  | succ n ih =>
    rintro fmap j hl hh r rfl
    unfold shiftLoop
    by_cases hc : j ≤ hi ∧ ecTmp > eclass (fmap j)
    · rw [if_pos hc]
      obtain ⟨hp, hl', hh'⟩ :=
        ih (fmap.set (j - gap) (fmap j)) (j + gap) (by omega) (by omega) _ rfl
      refine ⟨PermOn.trans ?_ hp, hl', hh'⟩
      have e : j + gap - gap = j := by omega
      have hne : j ≠ j - gap := by omega
      refine PermOn.swap (a := j - gap) (b := j) ⟨hl, hh⟩ ⟨by omega, hc.1⟩ fun i => ?_
      simp only [e, Cells.get_set, hne, if_true, if_false]
      split
      · rfl
      · split <;> rfl
    · rw [if_neg hc]
      exact ⟨PermOn.refl _ _ _, hl, hh⟩

/-- Putting a cell back where it was taken from changes nothing. -/
theorem permOn_set_self (fmap : Cells Int) (i : Int) :
    PermOn lo hi fmap (fmap.set i (fmap i)) := by
  refine ⟨Equiv.refl Int, fun _ _ => rfl, fun k => ?_⟩
  rw [Cells.get_set, Equiv.refl_apply]
  split
  · rename_i h
    rw [h]
  · rfl

theorem insertPass_succ (gap : Int) (eclass : Cells Int) (hi : Int) (n : Nat) (fmap : Cells Int)
    (i : Int) :
    insertPass gap eclass hi (n + 1) fmap i =
      insertPass gap eclass hi n
        ((shiftLoop gap eclass hi (eclass (fmap i)) (hi - i).toNat fmap (i + gap)).1.set
          ((shiftLoop gap eclass hi (eclass (fmap i)) (hi - i).toNat fmap (i + gap)).2 - gap)
          (fmap i)) (i - 1) := rfl

/-- One insertion permutes the segment. -/
theorem insert_perm {gap : Int} (hg : 1 ≤ gap) {i : Int} (hl : lo ≤ i) (hh : i ≤ hi) (n : Nat)
    (ecTmp : Int) {r : Cells Int × Int} (hr : shiftLoop gap eclass hi ecTmp n fmap (i + gap) = r) :
    PermOn lo hi fmap (r.1.set (r.2 - gap) (fmap i)) := by
  have e : i + gap - gap = i := by omega
  have h : PermOn lo hi (fmap.set (i + gap - gap) (fmap i)) (r.1.set (r.2 - gap) (fmap i)) :=
    (shiftLoop_perm (fmap i) hg n fmap (i + gap) (by omega) (by omega) r hr).1
  rw [e] at h
  exact (permOn_set_self fmap i).trans h

theorem insertPass_perm {gap : Int} (hg : 1 ≤ gap) :
    ∀ (n : Nat) (fmap : Cells Int) (i : Int), lo ≤ i - n + 1 → i ≤ hi →
      PermOn lo hi fmap (insertPass gap eclass hi n fmap i) := by
  intro n
  induction n with
  | zero => exact fun fmap i _ _ => PermOn.refl _ _ _
  | succ n ih =>
    intro fmap i hl hh
    rw [insertPass_succ]
    exact (insert_perm hg (by omega) hh _ _ rfl).trans (ih _ (i - 1) (by omega) (by omega))

/-! ## 2. The pass with gap 1 sorts -/

/-- The cells `i..hi` are in order apart from the hole at `j - 1`, and those below the hole are
    not above the class of the removed cell. -/
structure Hole (eclass : Cells Int) (i hi ecTmp j : Int) (fmap : Cells Int) : Prop where
  le : ∀ a, i ≤ a → a < j - 1 → eclass (fmap a) ≤ ecTmp
  ord : ∀ a b, i ≤ a → a ≤ b → b ≤ hi → a ≠ j - 1 → b ≠ j - 1 →
    eclass (fmap a) ≤ eclass (fmap b)

/-- The hole moves up by one cell. -/
theorem Hole.step {i ecTmp j : Int} (h : Hole eclass i hi ecTmp j fmap) (hij : i < j)
    (hj : j ≤ hi) (hc : ecTmp > eclass (fmap j)) :
    Hole eclass i hi ecTmp (j + 1) (fmap.set (j - 1) (fmap j)) := by
  refine ⟨fun a hl hh => ?_, fun a b hl hab hh ha hb => ?_⟩
  · rw [Cells.get_set]
    split
    · omega
    · exact h.le a hl (by omega)
  · rw [Cells.get_set, Cells.get_set]
    split
    · split
      · exact Int.le_refl _
      · exact h.ord j b (by omega) (by omega) hh (by omega) (by omega)
    · split
      · exact h.ord a j hl (by omega) hj (by omega) (by omega)
      · exact h.ord a b hl hab hh (by omega) (by omega)

/-- **Filling the hole** where the next cell is not below the removed one. -/
theorem Hole.fill {i tmp j : Int} (h : Hole eclass i hi (eclass tmp) j fmap)
    (hc : j ≤ hi → eclass tmp ≤ eclass (fmap j)) :
    OrdOn eclass.get i hi (fmap.set (j - 1) tmp) := by
  intro a b hl hab hh
  rw [Cells.get_set, Cells.get_set]
  split
  · split
    · exact Int.le_refl _
    · by_cases hbj : b = j
      · subst hbj
        exact hc hh
      · exact Int.le_trans (hc (by omega)) (h.ord j b (by omega) (by omega) hh (by omega) (by omega))
  · split
    · exact h.le a hl (by omega)
    · exact h.ord a b hl hab hh (by omega) (by omega)

theorem shiftLoop_ord {i tmp : Int} :
    ∀ (n : Nat) (fmap : Cells Int) (j : Int), i < j → hi - j + 1 ≤ n →
      Hole eclass i hi (eclass tmp) j fmap →
      ∀ r, shiftLoop 1 eclass hi (eclass tmp) n fmap j = r →
        OrdOn eclass.get i hi (r.1.set (r.2 - 1) tmp) := by
  intro n
  induction n with
  | zero =>
    rintro fmap j hij hn h r rfl
    exact h.fill fun hj => by omega
  | succ n ih =>
    rintro fmap j hij hn h r rfl
    unfold shiftLoop
    by_cases hc : j ≤ hi ∧ eclass tmp > eclass (fmap j)
    · rw [if_pos hc]
      exact ih _ (j + 1) (by omega) (by omega) (h.step hij hc.1 hc.2) _ rfl
    · rw [if_neg hc]
      refine h.fill fun hj => ?_
      by_contra hlt
      exact hc ⟨hj, by omega⟩

theorem insertPass_ord :
    ∀ (n : Nat) (fmap : Cells Int) (i : Int), OrdOn eclass.get (i + 1) hi fmap →
      OrdOn eclass.get (i + 1 - n) hi (insertPass 1 eclass hi n fmap i) := by
  intro n
  induction n with
  | zero =>
    intro fmap i h
    simpa [insertPass] using h
  | succ n ih =>
    intro fmap i h
    rw [insertPass_succ]
    have hole : Hole eclass i hi (eclass (fmap i)) (i + 1) fmap :=
      ⟨fun a hl hh => by omega,
        fun a b hl hab hh ha hb => h a b (by omega) hab hh⟩
    have hord := shiftLoop_ord (hi - i).toNat fmap (i + 1) (by omega) (by omega) hole _ rfl
    have e : i = i - 1 + 1 := by omega
    rw [e] at hord
    have := ih _ (i - 1) hord
    have e' : i - 1 + 1 - (n : Int) = i + 1 - ((n + 1 : Nat) : Int) := by omega
    rw [e'] at this
    rw [← e] at this
    exact this

/-- **`fallbackSimpleSort`** permutes the segment and leaves it in order. -/
theorem fallbackSimpleSort_spec (fmap eclass : Cells Int) (lo hi : Int) :
    PermOn lo hi fmap (fallbackSimpleSort fmap eclass lo hi) ∧
      OrdOn eclass.get lo hi (fallbackSimpleSort fmap eclass lo hi) := by
  unfold fallbackSimpleSort
  by_cases heq : lo = hi
  · rw [if_pos heq]
    refine ⟨PermOn.refl _ _ _, fun i j hl hij hh => ?_⟩
    have e : i = j := by omega
    exact Int.le_of_eq (by rw [e])
  · rw [if_neg heq]
    -- an empty segment: neither pass has a round
    by_cases hlt : hi < lo
    · have e1 : ¬ hi - lo > 3 := by omega
      have e2 : (hi - 1 - lo + 1).toNat = 0 := by omega
      simp only [e1, if_false, e2, insertPass]
      exact ⟨PermOn.refl _ _ _, fun i j hl hij hh => by omega⟩
    · have h4 : PermOn lo hi fmap
          ((if hi - lo > 3 then insertPass 4 eclass hi (hi - 4 - lo + 1).toNat fmap (hi - 4)
            else fmap : Cells Int)) := by
        split
        · exact insertPass_perm (by omega) (hi - 4 - lo + 1).toNat _ (hi - 4) (by omega)
            (by omega)
        · exact PermOn.refl _ _ _
      refine ⟨h4.trans ?_, ?_⟩
      · exact insertPass_perm (by omega) (hi - 1 - lo + 1).toNat _ (hi - 1) (by omega) (by omega)
      · have hone : OrdOn eclass.get (hi - 1 + 1) hi
            ((if hi - lo > 3 then insertPass 4 eclass hi (hi - 4 - lo + 1).toNat fmap (hi - 4)
              else fmap : Cells Int)) := by
          intro i j hl hij hh
          have e : i = j := by omega
          exact Int.le_of_eq (by rw [e])
        have := insertPass_ord (hi - 1 - lo + 1).toNat _ (hi - 1) hone
        have e : hi - 1 + 1 - ((hi - 1 - lo + 1).toNat : Int) = lo := by omega
        rw [e] at this
        exact this

end Qbz2
