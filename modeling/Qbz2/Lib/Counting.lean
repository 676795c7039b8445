/-
  File:      Qbz2/Lib/Counting.lean
  Subject:   Counting the symbols of a block, and the stable sort by symbol that the counts give.

  * `holding s m b`, `below s m b` -- how many of the first `m` cells hold `b`, hold less than `b`;
  * `place s m x` -- where a stable sort by symbol puts cell `x`; `place_lt`, `place_inj`,
    `exists_place`: it is a permutation of the first `m` cells;
  * `unplace s m` -- its inverse; `symbol_unplace` -- cell `p` of the sorted block holds the
    symbol whose stretch `p` lies in.
-/
import Mathlib.Data.Nat.Count
import Qbz2.Lib.Cycle

namespace Counting

/-! ## 1. Counts -/

/-- How many of the first `m` cells hold `b`. -/
def holding (s : Int → Nat) (m b : Nat) : Nat := Nat.count (fun x => s x = b) m

/-- How many of the first `m` cells hold less than `b`. -/
def below (s : Int → Nat) (m b : Nat) : Nat := Nat.count (fun x => s x < b) m

variable {s : Int → Nat}

theorem holding_succ (m b : Nat) :
    holding s (m + 1) b = holding s m b + if s m = b then 1 else 0 := Nat.count_succ ..

theorem holding_mono {i m : Nat} (h : i ≤ m) (b : Nat) : holding s i b ≤ holding s m b :=
  Nat.count_monotone _ h

theorem holding_congr {s' : Int → Nat} {m : Nat} (h : ∀ x : Nat, x < m → s x = s' x) (b : Nat) :
    holding s m b = holding s' m b := by
  induction m with
  | zero => rfl
  | succ m ih =>
    rw [holding_succ, holding_succ, ih fun x hx => h x (by omega), h m (by omega)]

theorem below_zero (m : Nat) : below s m 0 = 0 := by
  induction m with
  | zero => rfl
  | succ m ih =>
    have : below s (m + 1) 0 = below s m 0 + if s m < 0 then 1 else 0 := Nat.count_succ ..
    rw [this, ih]
    simp

theorem below_succ (m b : Nat) : below s m (b + 1) = below s m b + holding s m b := by
  induction m with
  | zero => rfl
  | succ m ih =>
    have h : ∀ c, below s (m + 1) c = below s m c + if s m < c then 1 else 0 :=
      fun c => Nat.count_succ ..
    rw [h, h, holding_succ, ih]
    by_cases h1 : s m < b
    · rw [if_pos (by omega), if_pos h1, if_neg (by omega)]
      omega
    · by_cases h2 : s m = b
      · rw [if_pos (by omega), if_neg h1, if_pos h2]
        omega
      · rw [if_neg (by omega), if_neg h1, if_neg h2]
        omega

theorem below_mono (m : Nat) {b c : Nat} (h : b ≤ c) : below s m b ≤ below s m c := by
  induction c with
  | zero => rw [Nat.le_zero.mp h]
  | succ c ih =>
    by_cases e : b = c + 1
    · rw [e]
    · have := ih (by omega)
      rw [below_succ]
      omega

theorem below_le (m b : Nat) : below s m b ≤ m := by
  induction m with
  | zero => exact Nat.le_of_eq rfl
  | succ m ih =>
    have h : below s (m + 1) b = below s m b + if s m < b then 1 else 0 := Nat.count_succ ..
    rw [h]
    split <;> omega

theorem below_eq_self {m b : Nat} (h : ∀ x : Nat, x < m → s x < b) : below s m b = m := by
  induction m with
  | zero => rfl
  | succ m ih =>
    have e : below s (m + 1) b = below s m b + if s m < b then 1 else 0 := Nat.count_succ ..
    rw [e, if_pos (h m (by omega)), ih fun x hx => h x (by omega)]

theorem holding_le (m b : Nat) : holding s m b ≤ m := by
  have h1 := below_succ (s := s) m b
  have h2 := below_le (s := s) m (b + 1)
  omega

/-- A cell not yet counted leaves room in its bucket. -/
theorem holding_lt {i m : Nat} (h : i < m) : holding s i (s i) < holding s m (s i) := by
  have h1 : holding s (i + 1) (s i) = holding s i (s i) + 1 := by
    rw [holding_succ, if_pos rfl]
  have h2 := holding_mono (s := s) (show i + 1 ≤ m by omega) (s i)
  omega

/-! ## 2. The stable sort -/

/-- Where a stable sort by symbol puts cell `x` of the first `m`. -/
def place (s : Int → Nat) (m x : Nat) : Nat := below s m (s x) + holding s x (s x)

/-- The place lies in the stretch of the symbol. -/
theorem place_range {x m : Nat} (h : x < m) :
    below s m (s x) ≤ place s m x ∧ place s m x < below s m (s x + 1) := by
  have := holding_lt (s := s) h
  have := below_succ (s := s) m (s x)
  unfold place
  omega

theorem place_lt {x m : Nat} (h : x < m) : place s m x < m :=
  Nat.lt_of_lt_of_le (place_range h).2 (below_le _ _)

/-- Smaller symbols come first. -/
theorem place_lt_place_of_lt {x y m : Nat} (hx : x < m) (hy : y < m) (h : s x < s y) :
    place s m x < place s m y :=
  Nat.lt_of_lt_of_le (place_range hx).2
    (Nat.le_trans (below_mono m h) (place_range hy).1)

/-- Equal symbols keep their order. -/
theorem place_lt_place_of_eq {x y m : Nat} (h : s x = s y) (hxy : x < y) :
    place s m x < place s m y := by
  have h1 : holding s (x + 1) (s x) = holding s x (s x) + 1 := by
    rw [holding_succ, if_pos rfl]
  have h2 := holding_mono (s := s) (show x + 1 ≤ y by omega) (s x)
  unfold place
  rw [← h]
  omega

theorem place_inj {x y m : Nat} (hx : x < m) (hy : y < m) (h : place s m x = place s m y) :
    x = y := by
  rcases Nat.lt_trichotomy (s x) (s y) with hlt | heq | hgt
  · have := place_lt_place_of_lt hx hy hlt
    omega
  · rcases Nat.lt_trichotomy x y with hxy | hxy | hxy
    · have := place_lt_place_of_eq (m := m) heq hxy
      omega
    · exact hxy
    · have := place_lt_place_of_eq (m := m) heq.symm hxy
      omega
  · have := place_lt_place_of_lt hy hx hgt
    omega

theorem exists_place {p m : Nat} (h : p < m) : ∃ x, x < m ∧ place s m x = p := by
  have himg : (Finset.range m).image (place s m) = Finset.range m := by
    refine Finset.eq_of_subset_of_card_le (fun y hy => ?_) ?_
    · obtain ⟨x, hx, rfl⟩ := Finset.mem_image.mp hy
      exact Finset.mem_range.mpr (place_lt (Finset.mem_range.mp hx))
    · rw [Finset.card_image_of_injOn]
      intro x hx y hy e
      exact place_inj (Finset.mem_range.mp hx) (Finset.mem_range.mp hy) e
  obtain ⟨x, hx, e⟩ := Finset.mem_image.mp (himg ▸ Finset.mem_range.mpr h)
  exact ⟨x, Finset.mem_range.mp hx, e⟩

/-- The cell a stable sort by symbol puts at `p`. -/
def unplace (s : Int → Nat) (m p : Nat) : Nat :=
  ((List.range m).find? fun x => place s m x == p).getD 0

theorem unplace_place {x m : Nat} (h : x < m) : unplace s m (place s m x) = x := by
  unfold unplace
  cases hf : (List.range m).find? fun y => place s m y == place s m x with
  | none =>
    have := List.find?_eq_none.mp hf x (List.mem_range.mpr h)
    simp at this
  | some y =>
    have hy := List.mem_range.mp (List.mem_of_find?_eq_some hf)
    have he : place s m y = place s m x := by simpa using List.find?_some hf
    exact place_inj hy h he

theorem unplace_lt {p m : Nat} (h : p < m) : unplace s m p < m := by
  obtain ⟨x, hx, rfl⟩ := exists_place (s := s) h
  rw [unplace_place hx]
  exact hx

theorem place_unplace {p m : Nat} (h : p < m) : place s m (unplace s m p) = p := by
  obtain ⟨x, hx, rfl⟩ := exists_place (s := s) h
  rw [unplace_place hx]

theorem unplace_inj {p q m : Nat} (hp : p < m) (hq : q < m) (h : unplace s m p = unplace s m q) :
    p = q := by
  rw [← place_unplace (s := s) hp, h, place_unplace hq]

/-- **Cell `p` of the sorted block** holds the symbol whose stretch `p` lies in. -/
theorem symbol_unplace {p m b : Nat} (h : p < m) (h1 : below s m b ≤ p)
    (h2 : p < below s m (b + 1)) : s (unplace s m p) = b := by
  have hr := place_range (s := s) (unplace_lt (s := s) h)
  rw [place_unplace h] at hr
  rcases Nat.lt_trichotomy (s (unplace s m p)) b with hlt | heq | hgt
  · have := below_mono (s := s) m (show s (unplace s m p) + 1 ≤ b by omega)
    omega
  · exact heq
  · have := below_mono (s := s) m (show b + 1 ≤ s (unplace s m p) by omega)
    omega

theorem place_perm (s : Int → Nat) (m : Nat) : Cycle.PermBelow m (place s m) :=
  ⟨fun _ => place_lt, fun _ _ => place_inj⟩

theorem unplace_perm (s : Int → Nat) (m : Nat) : Cycle.PermBelow m (unplace s m) :=
  ⟨fun _ => unplace_lt, fun _ _ => unplace_inj⟩

end Counting
