/-
  File:      Qbz2/Lib/Cycle.lean
  Subject:   The cycle of a permutation of `0..n-1` through one of its points.

  * `PermBelow n f` -- `f` permutes `0..n-1`; `iterate_sub`: points that meet later are as far
    apart as they are from the start;
  * **`exists_period`** -- at most `n` steps lead back, and fewer lead to distinct points.
-/
import Mathlib.Data.Finset.Card
import Mathlib.Data.Fintype.EquivFin

namespace Cycle

variable {n o : Nat} {f : Nat → Nat}

/-- `f` permutes `0..n-1`. -/
structure PermBelow (n : Nat) (f : Nat → Nat) : Prop where
  lt : ∀ x, x < n → f x < n
  inj : ∀ x y, x < n → y < n → f x = f y → x = y

theorem PermBelow.iterate_lt (hf : PermBelow n f) (ho : o < n) (k : Nat) : f^[k] o < n := by
  induction k with
  | zero => exact ho
  | succ k ih =>
    rw [Function.iterate_succ_apply']
    exact hf.lt _ ih

/-- Points that meet later are as far apart as they are from the start. -/
theorem PermBelow.iterate_sub (hf : PermBelow n f) (ho : o < n) {a b : Nat} (hab : a ≤ b)
    (h : f^[a] o = f^[b] o) : f^[b - a] o = o := by
  induction a generalizing b with
  | zero => exact h.symm
  | succ a ih =>
    obtain ⟨b, rfl⟩ : ∃ c, b = c + 1 := ⟨b - 1, by omega⟩
    rw [Function.iterate_succ_apply', Function.iterate_succ_apply'] at h
    have e : b + 1 - (a + 1) = b - a := by omega
    rw [e]
    exact ih (by omega) (hf.inj _ _ (hf.iterate_lt ho a) (hf.iterate_lt ho b) h)

/-- **Some `n` or fewer steps lead back.** -/
theorem PermBelow.exists_return (hf : PermBelow n f) (ho : o < n) :
    ∃ c, (0 < c ∧ f^[c] o = o) ∧ c ≤ n := by
  have hmaps : Set.MapsTo (fun k => f^[k] o) (Finset.range (n + 1) : Finset Nat)
      (Finset.range n : Finset Nat) := fun k _ => by
    simpa using hf.iterate_lt ho k
  obtain ⟨a, ha, b, hb, hne, he⟩ :=
    Finset.exists_ne_map_eq_of_card_lt_of_maps_to (by simp) hmaps
  rw [Finset.mem_range] at ha hb
  rcases Nat.lt_or_gt_of_ne hne with h | h
  · exact ⟨b - a, ⟨by omega, hf.iterate_sub ho (by omega) he⟩, by omega⟩
  · exact ⟨a - b, ⟨by omega, hf.iterate_sub ho (by omega) he.symm⟩, by omega⟩

/-- **The cycle**: its length, and its points, each met once. -/
theorem PermBelow.exists_period (hf : PermBelow n f) (ho : o < n) :
    ∃ c, 0 < c ∧ c ≤ n ∧ f^[c] o = o ∧
      ∀ a b, a < c → b < c → f^[a] o = f^[b] o → a = b := by
  obtain ⟨c, ⟨⟨hc0, hc⟩, hcn⟩, hmin⟩ :
      ∃ c, ((0 < c ∧ f^[c] o = o) ∧ c ≤ n) ∧ ∀ k, 0 < k → k < c → f^[k] o ≠ o := by
    classical
    refine ⟨Nat.find (hf.exists_return ho), Nat.find_spec (hf.exists_return ho),
      fun k hk hlt he => Nat.find_min (hf.exists_return ho) hlt ⟨⟨hk, he⟩, ?_⟩⟩
    have := (Nat.find_spec (hf.exists_return ho)).2
    omega
  refine ⟨c, hc0, hcn, hc, fun a b ha hb he => ?_⟩
  rcases Nat.lt_trichotomy a b with h | h | h
  · exact absurd (hf.iterate_sub ho (by omega) he) (hmin _ (by omega) (by omega))
  · exact h
  · exact absurd (hf.iterate_sub ho (by omega) he.symm) (hmin _ (by omega) (by omega))

end Cycle
