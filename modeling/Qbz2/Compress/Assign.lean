/-
  File:      Qbz2/Compress/Assign.lean
  Subject:   The codes of `BZ2_hbAssignCodes`.

  * `hbAssignCodes_spec` -- they are the canonical ones, like the tables of the decoder;
  * `code_fits` -- where the Kraft sum is at most 1, a code fits in its length;
  * `lenBounds_spec` -- every length lies between `minLen` and `maxLen`.
-/
import Mathlib.Algebra.Order.BigOperators.Group.Finset
import Qbz2.Compress.SendMtf
import Qbz2.Lib.Canonical

namespace Qbz2

open Canonical
open Loop (forUpto forUpto_succ)

section

variable {n : Nat} {len : Nat → Nat} {length : Cells Nat}

/-- A row: the symbols of length `L`, one after the other. -/
theorem assignRow_spec (hl : ∀ i, i < n → length i = len i) {L : Nat} {code : Cells Nat} :
    ∃ code' : Cells Nat,
      forUpto n (fun i (s : Cells Nat × Nat) =>
        if length i = L then (s.1.set i s.2, s.2 + 1) else s) (code, firstCode len n L) =
        (code', firstCode len n L + countEq len L n) ∧
      ∀ s : Nat, s < n → code' s =
        if len s = L then codeOf len n (rank len n s) (len s) else code s := by
  have key : ∀ j, j ≤ n → ∃ code' : Cells Nat,
      forUpto j (fun i (s : Cells Nat × Nat) =>
        if length i = L then (s.1.set i s.2, s.2 + 1) else s) (code, firstCode len n L) =
        (code', firstCode len n L + countEq len L j) ∧
      ∀ s : Nat, s < n → code' s =
        if len s = L ∧ s < j then codeOf len n (rank len n s) (len s) else code s := by
    intro j
    induction j with
    | zero => exact fun _ => ⟨code, rfl, fun s _ => by rw [if_neg (by omega)]⟩
    | succ j ih =>
      intro hj
      obtain ⟨code', he, hc⟩ := ih (by omega)
      rw [forUpto_succ, he, countEq]
      dsimp only
      by_cases hL : len j = L
      · rw [if_pos (by rw [hl j hj, hL]), if_pos hL]
        refine ⟨_, rfl, fun s hs => ?_⟩
        by_cases hsj : s = j
        · subst hsj
          rw [Cells.get_set_self, if_pos ⟨hL, Nat.lt_succ_self s⟩, codeOf, rank, hL]
          omega
        · rw [Cells.get_set_of_ne _ (by omega), hc s hs]
          by_cases hlt : len s = L ∧ s < j
          · rw [if_pos hlt, if_pos ⟨hlt.1, by omega⟩]
          · rw [if_neg hlt, if_neg fun h => hlt ⟨h.1, by omega⟩]
      · rw [if_neg (by rw [hl j hj]; exact hL), if_neg hL]
        refine ⟨code', rfl, fun s hs => ?_⟩
        rw [hc s hs]
        by_cases hlt : len s = L ∧ s < j
        · rw [if_pos hlt, if_pos ⟨hlt.1, by omega⟩]
        · rw [if_neg hlt, if_neg]
          rintro ⟨h1, h2⟩
          by_cases hsj : s = j
          · exact hL (hsj ▸ h1)
          · exact hlt ⟨h1, by omega⟩
  obtain ⟨code', he, hc⟩ := key n (Nat.le_refl n)
  refine ⟨code', he, fun s hs => ?_⟩
  rw [hc s hs]
  by_cases h : len s = L
  · rw [if_pos ⟨h, hs⟩, if_pos h]
  · rw [if_neg fun h' => h h'.1, if_neg h]

/-- **The codes of `BZ2_hbAssignCodes`** are the canonical ones. -/
theorem hbAssignCodes_spec {m M : Nat} (hl : ∀ i, i < n → length i = len i)
    (hlower : ∀ j, j < n → m ≤ len j) (hupper : ∀ j, j < n → len j ≤ M) (code : Cells Nat) {s : Nat}
    (hs : s < n) :
    hbAssignCodes code length m M n s = codeOf len n (rank len n s) (len s) := by
  have key : ∀ (count L : Nat) (code : Cells Nat), ∃ code' : Cells Nat, ∃ vec,
      assignLoop length n count L (code, firstCode len n L) = (code', vec) ∧
      ∀ s : Nat, s < n → code' s =
        if L ≤ len s ∧ len s < L + count then codeOf len n (rank len n s) (len s) else code s := by
    intro count
    induction count with
    | zero => exact fun L code => ⟨code, _, rfl, fun s _ => by rw [if_neg (by omega)]⟩
    | succ count ih =>
      intro L code
      obtain ⟨code₁, he, hc⟩ := @assignRow_spec n len length hl L code
      have hnext : (firstCode len n L + countEq len L n) <<< 1 = firstCode len n (L + 1) := by
        rw [Nat.shiftLeft_eq, Nat.pow_one, firstCode, Nat.mul_comm]
      obtain ⟨code', vec, he', hc'⟩ := ih (L + 1) code₁
      refine ⟨code', vec, ?_, fun s hs => ?_⟩
      · rw [assignLoop, he]
        dsimp only
        rw [hnext]
        exact he'
      · rw [hc' s hs, hc s hs]
        by_cases h1 : len s = L
        · rw [if_neg (by omega), if_pos h1, if_pos (by omega)]
        · by_cases h2 : L + 1 ≤ len s ∧ len s < L + 1 + count
          · rw [if_pos h2, if_pos (by omega)]
          · rw [if_neg h2, if_neg h1, if_neg (by omega)]
  obtain ⟨code', vec, he, hc⟩ := key (M + 1 - m) m code
  have h0 : firstCode len n m = 0 := firstCode_eq_zero hlower
  rw [h0] at he
  have h1 := hlower s hs
  have h2 := hupper s hs
  rw [hbAssignCodes, he, hc s hs, if_pos (by omega)]

/-- **A code fits in its length** where the Kraft sum is at most 1. -/
theorem code_fits {M : Nat} (hM : ∀ i, i < n → len i ≤ M)
    (hk : ∑ i ∈ Finset.range n, 2 ^ (M - len i) ≤ 2 ^ M) {s : Nat} (hs : s < n) :
    codeOf len n (rank len n s) (len s) < 2 ^ len s := by
  have hlt := codeOf_lt (@rank_at len n s hs)
  have hL := hM s hs
  have hscale : (∑ j ∈ Finset.range n, if len j ≤ len s then 2 ^ (len s - len j) else 0) *
      2 ^ (M - len s) ≤ ∑ i ∈ Finset.range n, 2 ^ (M - len i) := by
    rw [Finset.sum_mul]
    refine Finset.sum_le_sum fun j hj => ?_
    by_cases h : len j ≤ len s
    · rw [if_pos h, ← Nat.pow_add]
      exact Nat.pow_le_pow_right (by decide) (by omega)
    · rw [if_neg h, Nat.zero_mul]
      exact Nat.zero_le _
  rw [← kraft_le] at hscale
  have hM2 : 2 ^ M = 2 ^ len s * 2 ^ (M - len s) := by
    rw [← Nat.pow_add]
    congr 1
    omega
  have hle : firstCode len n (len s) + countEq len (len s) n ≤ 2 ^ len s := by
    refine Nat.le_of_mul_le_mul_right ?_ (Nat.two_pow_pos (M - len s))
    rw [← hM2]
    exact Nat.le_trans hscale hk
  omega

/-- Every length lies between the bounds. -/
theorem lenBounds_spec (n : Nat) (row : Cells Nat) :
    ∀ i : Nat, i < n → (lenBounds n row).1 ≤ row i ∧ row i ≤ (lenBounds n row).2 := by
  unfold lenBounds
  refine Loop.forUpto_inv (fun k (s : Nat × Nat) => ∀ i : Nat, i < k → s.1 ≤ row i ∧ row i ≤ s.2)
    (fun i hi => absurd hi (Nat.not_lt_zero i)) n fun k s hk hs i hi => ?_
  dsimp only
  rcases Nat.lt_succ_iff_lt_or_eq.mp hi with hlt | rfl
  · obtain ⟨h1, h2⟩ := hs i hlt
    exact ⟨by split <;> omega, by split <;> omega⟩
  · exact ⟨by split <;> omega, by split <;> omega⟩

end

end Qbz2
