/-
  File:      Qbz2/Lib/LastColumn.lean
  Subject:   The last column of the sorted rotations of a block gives the block back.

  * `lastColumn T n f` -- the symbols before the rotations `f` lists;
  * `rotSort_back` -- a stable sort of the last column lists the rotations one symbol further back,
    and these are in order again, however `f` orders equal rotations;
  * **`symbol_walk`** -- so going from a row to the row sorted there steps through the block.
-/
import Qbz2.Lib.Counting
import Qbz2.Lib.Rotation

namespace Rotation

open Counting Segment

variable {T : Int → Nat} {n : Int} {f : Int → Int}

/-- The symbol before each rotation. -/
def lastColumn (T : Int → Nat) (n : Int) (f : Int → Int) (i : Int) : Nat := T ((f i - 1) % n)

/-- The row a stable sort of the last column puts at `p`. -/
def sourceRow (T : Int → Nat) (n : Int) (f : Int → Int) (p : Nat) : Nat :=
  unplace (lastColumn T n f) n.toNat p

/-- One back, around the start. -/
theorem emod_pred {x : Int} (h0 : 0 ≤ x) (h1 : x ≤ n - 1) :
    (x - 1) % n = if x = 0 then n - 1 else x - 1 := by
  by_cases hx : x = 0
  · rw [if_pos hx, hx, ← Int.add_emod_right, Int.emod_eq_of_lt (by omega) (by omega)]
    omega
  · rw [if_neg hx, Int.emod_eq_of_lt (by omega) (by omega)]

/-- **Sorting the last column** lists the rotations in order again, each one symbol further
    back. -/
theorem rotSort_back (h : RotSort T n f) :
    RotSort T n (fun p => (f (sourceRow T n f p.toNat) - 1) % n) := by
  have hrow : ∀ p : Int, 0 ≤ p → p ≤ n - 1 → sourceRow T n f p.toNat < n.toNat := fun p h0 h1 =>
    unplace_lt (by omega)
  refine ⟨fun p q hp0 hp1 hq0 hq1 e => ?_, fun p hp0 hp1 => ?_, fun p q hp0 hpq hq1 => ?_⟩
  · have h1 := hrow p hp0 hp1
    have h2 := hrow q hq0 hq1
    have r1 := h.range _ (show 0 ≤ (sourceRow T n f p.toNat : Int) by omega) (by omega)
    have r2 := h.range _ (show 0 ≤ (sourceRow T n f q.toNat : Int) by omega) (by omega)
    have e1 : f (sourceRow T n f p.toNat) = f (sourceRow T n f q.toNat) := by
      rw [emod_pred r1.1 r1.2, emod_pred r2.1 r2.2] at e
      split at e <;> split at e <;> omega
    have e3 := h.inj _ _ (by omega) (by omega) (by omega) (by omega) e1
    have := unplace_inj (s := lastColumn T n f) (show p.toNat < n.toNat by omega)
      (show q.toNat < n.toNat by omega) (by unfold sourceRow at e3; omega)
    omega
  · have h0 := Int.emod_nonneg (f (sourceRow T n f p.toNat) - 1) (show n ≠ 0 by omega)
    have h1 := Int.emod_lt_of_pos (f (sourceRow T n f p.toNat) - 1) (show 0 < n by omega)
    omega
  · have hn : n.toNat = (n - 1).toNat + 1 := by omega
    have h1 := hrow p hp0 (by omega)
    have h2 := hrow q (by omega) hq1
    obtain ⟨i, hi⟩ : ∃ i, i = sourceRow T n f p.toNat := ⟨_, rfl⟩
    obtain ⟨j, hj⟩ : ∃ j, j = sourceRow T n f q.toNat := ⟨_, rfl⟩
    have hpi : place (lastColumn T n f) n.toNat i = p.toNat := by
      rw [hi]
      exact place_unplace (by omega)
    have hqj : place (lastColumn T n f) n.toNat j = q.toNat := by
      rw [hj]
      exact place_unplace (by omega)
    -- the rotation one symbol back: that symbol, then the rotation less its last symbol
    have hback : ∀ i : Nat, pre T n n.toNat ((f i - 1) % n) =
        lastColumn T n f i :: pre T n (n - 1).toNat (f i) := by
      intro i
      have e : f i - 1 + 1 = f i := by omega
      rw [pre_congr T n n.toNat (Int.emod_emod_of_dvd (f i - 1) (Int.dvd_refl n)), hn, pre, e]
      rfl
    rw [← hi] at h1
    rw [← hj] at h2
    rw [← hi, ← hj, hback, hback]
    rcases Nat.lt_trichotomy (lastColumn T n f i) (lastColumn T n f j) with hlt | heq | hgt
    · exact le_of_lt (List.Lex.rel hlt)
    · rw [heq]
      refine List.cons_le_cons _ (pre_le_mono (show (n - 1).toNat ≤ n.toNat by omega)
        (h.ord i j (by omega) ?_ (by omega)))
      by_contra hij
      have := place_lt_place_of_eq (m := n.toNat) heq.symm (show j < i by omega)
      omega
    · have := place_lt_place_of_lt h2 h1 hgt
      omega

/-- **The row sorted to `p`** holds the rotation one symbol further on, or one equal to it. -/
theorem pre_sourceRow (h : RotSort T n f) {p : Nat} (hp : (p : Int) < n) :
    pre T n n.toNat (f (sourceRow T n f p)) = pre T n n.toNat (f p + 1) := by
  have hu := h.pre_unique (rotSort_back h) (show 0 ≤ (p : Int) by omega) (by omega)
  rw [Int.toNat_natCast, pre_congr T n n.toNat (Int.emod_emod_of_dvd _ (Int.dvd_refl n))] at hu
  refine pre_eq_of_symbols fun k _ => ?_
  have := symbol_eq_of_period (by omega) hu (k + 1)
  have e1 : f p + ((k : Int) + 1) = f p + 1 + k := by omega
  have e2 : f (sourceRow T n f p) - 1 + ((k : Int) + 1) = f (sourceRow T n f p) + k := by omega
  rw [e1, e2] at this
  exact this.symm

/-- The rotation in the `k`-th row of the walk from rotation 0. -/
theorem pre_walk (h : RotSort T n f) {o : Nat} (ho : (o : Int) < n) (h0 : f o = 0) (k : Nat) :
    pre T n n.toNat (f ((sourceRow T n f)^[k] o : Nat)) = pre T n n.toNat k := by
  induction k with
  | zero =>
    rw [Function.iterate_zero_apply, h0]
    rfl
  | succ k ih =>
    have hlt : (sourceRow T n f)^[k] o < n.toNat :=
      (unplace_perm (lastColumn T n f) n.toNat).iterate_lt (by omega) k
    rw [Function.iterate_succ_apply', pre_sourceRow h (by omega)]
    refine pre_eq_of_symbols fun i _ => ?_
    have := symbol_eq_of_period (by omega) ih (i + 1)
    have e1 : ∀ x : Int, x + ((i : Int) + 1) = x + 1 + i := fun x => by omega
    have e2 : ((k + 1 : Nat) : Int) = (k : Int) + 1 := by omega
    rw [e1, e1] at this
    rw [e2]
    exact this

/-- **Going from a row to the row sorted there** steps through the block, symbol by symbol. -/
theorem symbol_walk (h : RotSort T n f) {o : Nat} (ho : (o : Int) < n) (h0 : f o = 0) (k : Nat) :
    lastColumn T n f ((sourceRow T n f)^[k + 1] o : Nat) = T (k % n) := by
  have := symbol_eq_of_period (by omega) (pre_walk h ho h0 (k + 1)) (-1)
  have e : ((k + 1 : Nat) : Int) + -1 = k := by omega
  rw [e] at this
  exact this

end Rotation
