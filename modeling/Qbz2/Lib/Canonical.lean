/-
  File:      Qbz2/Lib/Canonical.lean
  Subject:   Canonical prefix codes, for any assignment of lengths, over-subscribed ones included.

  * `countEq`, `countLt` -- how many symbols have a code of, or below, a given length;
  * `firstCode` -- the least code of a length;
  * `rank` -- the place of a symbol in the order by length, then by symbol;
  * `At q L` -- place `q` holds a code of length `L`, namely `codeOf q L`;
  * `codeOf_mono` -- codes of later places lie past all extensions of earlier ones;
  * `kraft_eq` -- the code one past the last is the Kraft sum.
-/
import Mathlib.Algebra.BigOperators.Ring.Finset
import Mathlib.Tactic.Ring

namespace Canonical

variable (len : Nat → Nat)

/-! ## 1. Counting -/

/-- Symbols below `n` with a code of length `L`. -/
def countEq (L : Nat) : Nat → Nat
  | 0 => 0
  | n + 1 => countEq L n + if len n = L then 1 else 0

/-- Symbols below `n` with a code shorter than `L`. -/
def countLt (L : Nat) : Nat → Nat
  | 0 => 0
  | n + 1 => countLt L n + if len n < L then 1 else 0

variable {len} {n L : Nat}

theorem countLt_succ (L n : Nat) : countLt len (L + 1) n = countLt len L n + countEq len L n := by
  induction n with
  | zero => rfl
  | succ n ih =>
    simp only [countLt, countEq, ih]
    split <;> split <;> split <;> omega

theorem countLt_eq_zero (h : ∀ j, j < n → L ≤ len j) : countLt len L n = 0 := by
  induction n with
  | zero => rfl
  | succ n ih =>
    have hn := h n (by omega)
    rw [countLt, ih fun j hj => h j (by omega), if_neg (by omega)]

theorem countLt_eq_self (h : ∀ j, j < n → len j < L) : countLt len L n = n := by
  induction n with
  | zero => rfl
  | succ n ih => rw [countLt, ih fun j hj => h j (by omega), if_pos (h n (by omega))]

theorem countEq_eq_zero (h : ∀ j, j < n → len j ≠ L) : countEq len L n = 0 := by
  induction n with
  | zero => rfl
  | succ n ih => rw [countEq, ih fun j hj => h j (by omega), if_neg (h n (by omega))]

theorem countLt_le (L n : Nat) : countLt len L n ≤ n := by
  induction n with
  | zero => exact Nat.le_refl _
  | succ n ih =>
    rw [countLt]
    split <;> omega

theorem countLt_mono {L L' : Nat} (h : L ≤ L') (n : Nat) : countLt len L n ≤ countLt len L' n := by
  induction L', h using Nat.le_induction with
  | base => exact Nat.le_refl _
  | succ k _ ih =>
    rw [countLt_succ]
    exact Nat.le_trans ih (Nat.le_add_right _ _)

theorem countEq_le_of_le {m n : Nat} (L : Nat) (h : m ≤ n) : countEq len L m ≤ countEq len L n := by
  induction n, h using Nat.le_induction with
  | base => exact Nat.le_refl _
  | succ k _ ih =>
    rw [countEq]
    exact Nat.le_trans ih (Nat.le_add_right _ _)

/-! ## 2. Codes -/

variable (len n)

/-- The least code of length `L`. -/
def firstCode : Nat → Nat
  | 0 => 0
  | L + 1 => 2 * (firstCode L + countEq len L n)

/-- The place of `s` among all symbols. -/
def rank (s : Nat) : Nat := countLt len (len s) n + countEq len (len s) s

/-- Place `q` belongs to length `L`. -/
def At (q L : Nat) : Prop := countLt len L n ≤ q ∧ q < countLt len (L + 1) n

/-- The code of place `q`, which is of length `L`. -/
def codeOf (q L : Nat) : Nat := firstCode len n L + (q - countLt len L n)

variable {len n}

theorem firstCode_eq_zero (h : ∀ j, j < n → L ≤ len j) : firstCode len n L = 0 := by
  induction L with
  | zero => rfl
  | succ L ih =>
    have h0 : countEq len L n = 0 := countEq_eq_zero fun j hj e => by
      have hj := h j hj
      omega
    rw [firstCode, ih fun j hj => by have hj := h j hj; omega, h0]

/-- Every code of a shorter length is exhausted by a longer one. -/
theorem firstCode_ge {z L : Nat} (h : z < L) :
    (firstCode len n z + countEq len z n) * 2 ^ (L - z) ≤ firstCode len n L := by
  induction L, h using Nat.le_induction with
  | base =>
    have e : z.succ - z = 1 := by omega
    rw [e, firstCode, Nat.pow_one, Nat.mul_comm]
  | succ L hL ih =>
    have hL' : z + 1 ≤ L := hL
    have e : L + 1 - z = L - z + 1 := by omega
    calc (firstCode len n z + countEq len z n) * 2 ^ (L + 1 - z)
        = 2 * ((firstCode len n z + countEq len z n) * 2 ^ (L - z)) := by rw [e]; ring
      _ ≤ 2 * firstCode len n L := Nat.mul_le_mul_left 2 ih
      _ ≤ 2 * (firstCode len n L + countEq len L n) := by omega

theorem codeOf_lt {q L : Nat} (h : At len n q L) :
    codeOf len n q L + 1 ≤ firstCode len n L + countEq len L n := by
  obtain ⟨hl, hu⟩ := h
  rw [countLt_succ] at hu
  unfold codeOf
  omega

theorem At.le_of_le {q q' L L' : Nat} (h : At len n q L) (h' : At len n q' L') (hq : q ≤ q') :
    L ≤ L' := by
  by_contra hlt
  have hm : countLt len (L' + 1) n ≤ countLt len L n := countLt_mono (by omega) n
  have := h.1
  have := h'.2
  omega

/-- **Later codes lie past the extensions of earlier ones.** -/
theorem codeOf_mono {q q' L L' : Nat} (h : At len n q L) (h' : At len n q' L') (hq : q < q') :
    (codeOf len n q L + 1) * 2 ^ (L' - L) ≤ codeOf len n q' L' := by
  have hL : L ≤ L' := h.le_of_le h' (by omega)
  rcases Nat.lt_or_eq_of_le hL with hlt | rfl
  · calc (codeOf len n q L + 1) * 2 ^ (L' - L)
        ≤ (firstCode len n L + countEq len L n) * 2 ^ (L' - L) :=
          Nat.mul_le_mul_right _ (codeOf_lt h)
      _ ≤ firstCode len n L' := firstCode_ge hlt
      _ ≤ codeOf len n q' L' := Nat.le_add_right _ _
  · have h1 := h.1
    rw [Nat.sub_self, Nat.pow_zero, Nat.mul_one]
    unfold codeOf
    omega

/-- The prefixes of a code at shorter lengths are past all codes of those lengths. -/
theorem codeOf_before {q z L : Nat} (hz : z < L) :
    firstCode len n z + countEq len z n ≤ codeOf len n q L / 2 ^ (L - z) := by
  rw [Nat.le_div_iff_mul_le (Nat.two_pow_pos _)]
  exact Nat.le_trans (firstCode_ge hz) (Nat.le_add_right _ _)

/-! ## 3. The order of the symbols -/

theorem rank_at {s : Nat} (hs : s < n) : At len n (rank len n s) (len s) := by
  have h1 : countEq len (len s) (s + 1) ≤ countEq len (len s) n := countEq_le_of_le _ hs
  have h2 : countEq len (len s) (s + 1) = countEq len (len s) s + 1 := by
    rw [countEq, if_pos rfl]
  rw [At, rank, countLt_succ]
  omega

theorem rank_lt {s : Nat} (hs : s < n) : rank len n s < n := by
  have h : rank len n s < countLt len (len s + 1) n := (rank_at hs).2
  exact Nat.lt_of_lt_of_le h (countLt_le _ _)

theorem rank_inj {s t : Nat} (hs : s < n) (ht : t < n) (h : rank len n s = rank len n t) :
    s = t := by
  have hL : len s = len t :=
    Nat.le_antisymm ((rank_at hs).le_of_le (rank_at ht) (Nat.le_of_eq h))
      ((rank_at ht).le_of_le (rank_at hs) (Nat.le_of_eq h.symm))
  have hlt : ∀ {a b : Nat}, len a = len b → a < b → rank len n a < rank len n b := by
    intro a b hab hlt
    have h1 : countEq len (len a) (a + 1) ≤ countEq len (len a) b := countEq_le_of_le _ hlt
    have h2 : countEq len (len a) (a + 1) = countEq len (len a) a + 1 := by
      rw [countEq, if_pos rfl]
    rw [rank, rank, ← hab]
    omega
  rcases Nat.lt_trichotomy s t with hst | hst | hst
  · have := hlt hL hst
    omega
  · exact hst
  · have := hlt hL.symm hst
    omega

/-! ## 4. The Kraft sum -/

/-- **The code one past the last of length `L` is the Kraft sum up to `L`**, in units of
    `2 ^ -L`. -/
theorem kraft_le (L : Nat) : firstCode len n L + countEq len L n =
    ∑ j ∈ Finset.range n, if len j ≤ L then 2 ^ (L - len j) else 0 := by
  have count : ∀ (L m : Nat), countEq len L m =
      ∑ j ∈ Finset.range m, if len j = L then 1 else 0 := by
    intro L m
    induction m with
    | zero => rfl
    | succ m ih => rw [countEq, Finset.sum_range_succ, ih]
  induction L with
  | zero =>
    rw [firstCode, Nat.zero_add, count]
    refine Finset.sum_congr rfl fun j _ => ?_
    by_cases h : len j = 0
    · rw [if_pos h, if_pos (by omega), h, Nat.sub_zero, Nat.pow_zero]
    · rw [if_neg h, if_neg (by omega)]
  | succ L ih =>
    rw [firstCode, ih, count, Finset.mul_sum, ← Finset.sum_add_distrib]
    refine Finset.sum_congr rfl fun j _ => ?_
    rcases Nat.lt_trichotomy (len j) (L + 1) with h | h | h
    · have e : L + 1 - len j = L - len j + 1 := by omega
      rw [if_pos (by omega), if_neg (by omega), if_pos (by omega), e, Nat.pow_succ]
      ring
    · rw [if_neg (by omega), if_pos h, if_pos (by omega), h, Nat.sub_self, Nat.pow_zero,
        Nat.mul_zero]
    · rw [if_neg (by omega), if_neg (by omega), if_neg (by omega), Nat.mul_zero]

/-- With no code longer than `L`. -/
theorem kraft_eq (h : ∀ j, j < n → len j ≤ L) :
    firstCode len n L + countEq len L n = ∑ j ∈ Finset.range n, 2 ^ (L - len j) := by
  rw [kraft_le]
  exact Finset.sum_congr rfl fun j hj => if_pos (h j (Finset.mem_range.mp hj))

end Canonical
