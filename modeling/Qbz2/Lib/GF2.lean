/-
  File:      Qbz2/Lib/GF2.lean
  Subject:   Bit vectors as polynomials over GF(2), and the carry-less product.

  Bit `i` of a vector is the coefficient of `X ^ i` (`coeff_poly`). Exclusive or is addition,
  concatenation shifts, and `clmul` multiplies. Residues modulo a polynomial `P` are taken in
  `AdjoinRoot P` (`res`): two vectors below the degree of a monic `P` with one residue are one
  vector (`eq_of_res_eq`), and `eq_barrett` says when a quotient estimate is the exact one.
-/
import Mathlib.Algebra.Field.ZMod
import Mathlib.Algebra.Polynomial.Degree.Operations
import Mathlib.Algebra.Polynomial.RingDivision
import Mathlib.Data.ZMod.Basic
import Mathlib.RingTheory.AdjoinRoot

namespace GF2

open Polynomial

/-- The polynomial a bit vector denotes: bit `i` is the coefficient of `X ^ i`. -/
noncomputable def poly {w : Nat} (x : BitVec w) : (ZMod 2)[X] :=
  ∑ i ∈ Finset.range w, if x.getLsbD i then X ^ i else 0

/-- The carry-less product of the first `k` bits of `x` with `y`. -/
def clmulUpto {n m : Nat} (x : BitVec n) (y : BitVec m) : Nat → BitVec (n + m)
  | 0 => 0#(n + m)
  | k + 1 =>
    if x.getLsbD k then clmulUpto x y k ^^^ (y.setWidth (n + m) <<< k) else clmulUpto x y k

/-- The carry-less product. -/
def clmul {n m : Nat} (x : BitVec n) (y : BitVec m) : BitVec (n + m) := clmulUpto x y n

/-! ## 1. Coefficients -/

theorem coeff_poly {w : Nat} (x : BitVec w) (i : Nat) :
    (poly x).coeff i = if x.getLsbD i then 1 else 0 := by
  unfold poly
  rw [finsetSum_coeff]
  by_cases hi : i < w
  · rw [Finset.sum_eq_single i]
    · split <;> simp
    · intro j _ hj
      split
      · rw [coeff_X_pow, if_neg (Ne.symm hj)]
      · simp
    · intro h
      exact absurd (Finset.mem_range.mpr hi) h
  · have hz : x.getLsbD i = false := BitVec.getLsbD_of_ge x i (by omega)
    rw [hz]
    refine Finset.sum_eq_zero fun j hj => ?_
    have hj' : j < w := Finset.mem_range.mp hj
    split
    · rw [coeff_X_pow, if_neg (by omega)]
    · simp

theorem poly_injective {w : Nat} {x y : BitVec w} (h : poly x = poly y) : x = y := by
  apply BitVec.eq_of_getLsbD_eq
  intro i _
  have hc : (poly x).coeff i = (poly y).coeff i := by rw [h]
  rw [coeff_poly, coeff_poly] at hc
  cases hx : x.getLsbD i <;> cases hy : y.getLsbD i <;> simp_all

@[simp] theorem poly_zero (w : Nat) : poly (0#w) = 0 := by
  ext i
  simp [coeff_poly]

theorem poly_one (w : Nat) (hw : 0 < w) : poly (1#w) = 1 := by
  ext i
  rw [coeff_poly, coeff_one, BitVec.getLsbD_one]
  by_cases h : i = 0
  · simp [h, hw]
  · simp [h]

@[simp] theorem poly_xor {w : Nat} (x y : BitVec w) : poly (x ^^^ y) = poly x + poly y := by
  ext i
  rw [coeff_add, coeff_poly, coeff_poly, coeff_poly, BitVec.getLsbD_xor]
  cases x.getLsbD i <;> cases y.getLsbD i <;> simp
  decide

/-- Addition is exclusive or: every polynomial is its own negative. -/
theorem add_self (p : (ZMod 2)[X]) : p + p = 0 := by
  ext i
  rw [coeff_add, coeff_zero]
  generalize p.coeff i = c
  revert c
  decide

theorem poly_append {n m : Nat} (x : BitVec n) (y : BitVec m) :
    poly (x ++ y) = poly x * X ^ m + poly y := by
  ext i
  rw [coeff_add, coeff_mul_X_pow', coeff_poly, coeff_poly, BitVec.getLsbD_append]
  by_cases h : i < m
  · simp [h, show ¬ m ≤ i by omega, coeff_poly]
  · simp [h, show m ≤ i by omega, coeff_poly]

/-- Dropping or adding bits that are zero keeps the polynomial. -/
theorem poly_setWidth {w : Nat} (v : Nat) (x : BitVec w)
    (h : ∀ i, v ≤ i → x.getLsbD i = false) : poly (x.setWidth v) = poly x := by
  ext i
  rw [coeff_poly, coeff_poly, BitVec.getLsbD_setWidth]
  by_cases hi : i < v
  · simp [hi]
  · simp [hi, h i (by omega)]

theorem poly_setWidth_of_le {w v : Nat} (x : BitVec w) (h : w ≤ v) :
    poly (x.setWidth v) = poly x :=
  poly_setWidth v x fun i hi => BitVec.getLsbD_of_ge x i (by omega)

/-- A left shift that drops no set bit multiplies by a power of `X`. -/
theorem poly_shiftLeft {w : Nat} (x : BitVec w) (k : Nat)
    (h : ∀ i, w ≤ i + k → x.getLsbD i = false) : poly (x <<< k) = poly x * X ^ k := by
  ext i
  rw [coeff_mul_X_pow', coeff_poly, BitVec.getLsbD_shiftLeft]
  by_cases hk : k ≤ i
  · rw [if_pos hk, coeff_poly]
    by_cases hi : i < w
    · simp [hi, hk]
    · simp [hi, h (i - k) (by omega)]
  · simp [hk, show i < k by omega]

/-- A vector is its low `k` bits and the rest shifted up. -/
theorem poly_split {w : Nat} (x : BitVec w) (k a b : Nat) (hk : k ≤ a) (hb : w ≤ k + b) :
    poly x = poly ((x >>> k).setWidth b) * X ^ k + poly (x.setWidth k |>.setWidth a) := by
  ext i
  have hlo : (poly (x.setWidth k |>.setWidth a)).coeff i =
      if i < k ∧ x.getLsbD i then 1 else 0 := by
    rw [coeff_poly, BitVec.getLsbD_setWidth, BitVec.getLsbD_setWidth]
    by_cases h : i < k
    · simp [h, show i < a by omega]
    · simp [h]
  rw [coeff_add, coeff_mul_X_pow', coeff_poly, hlo]
  by_cases h : k ≤ i
  · rw [if_pos h, coeff_poly, BitVec.getLsbD_setWidth, BitVec.getLsbD_ushiftRight]
    have e : k + (i - k) = i := by omega
    rw [e]
    by_cases hi : i - k < b
    · simp [hi, show ¬ i < k by omega]
    · simp [hi, show ¬ i < k by omega, BitVec.getLsbD_of_ge x i (by omega)]
  · simp [h, show i < k by omega]

/-! ## 2. Degrees -/

/-- Bits from `k` on are clear exactly when the degree is below `k`. -/
theorem degree_poly_lt_iff {w : Nat} (x : BitVec w) (k : Nat) :
    (poly x).degree < k ↔ ∀ i, k ≤ i → x.getLsbD i = false := by
  rw [degree_lt_iff_coeff_zero]
  constructor
  · intro h i hi
    have hc := h i hi
    rw [coeff_poly] at hc
    cases hx : x.getLsbD i
    · rfl
    · simp [hx] at hc
  · intro h i hi
    rw [coeff_poly, h i hi]
    simp

theorem degree_poly_lt {w : Nat} (x : BitVec w) : (poly x).degree < w :=
  (degree_poly_lt_iff x w).mpr fun i hi => BitVec.getLsbD_of_ge x i hi

theorem degree_mul_lt {p q : (ZMod 2)[X]} {a b : Nat} (hp : p.degree < a) (hq : q.degree ≤ b) :
    (p * q).degree < ((a + b : Nat) : WithBot Nat) := by
  by_cases h0 : p = 0
  · rw [h0, zero_mul, degree_zero]
    exact WithBot.bot_lt_coe _
  by_cases h1 : q = 0
  · rw [h1, mul_zero, degree_zero]
    exact WithBot.bot_lt_coe _
  rw [degree_eq_natDegree h0] at hp
  rw [degree_eq_natDegree h1] at hq
  rw [degree_mul, degree_eq_natDegree h0, degree_eq_natDegree h1]
  have hp' : p.natDegree < a := by exact_mod_cast hp
  have hq' : q.natDegree ≤ b := by exact_mod_cast hq
  exact_mod_cast Nat.add_lt_add_of_lt_of_le hp' hq'

/-! ## 3. The carry-less product -/

theorem poly_clmulUpto {n m : Nat} (x : BitVec n) (y : BitVec m) (k : Nat) (hk : k ≤ n) :
    poly (clmulUpto x y k) =
      (∑ i ∈ Finset.range k, if x.getLsbD i then (X : (ZMod 2)[X]) ^ i else 0) * poly y := by
  induction k with
  | zero => simp [clmulUpto]
  | succ k ih =>
    have hs : poly (y.setWidth (n + m) <<< k) = poly y * X ^ k := by
      rw [poly_shiftLeft _ _ ?_, poly_setWidth_of_le y (by omega)]
      intro i hi
      rw [BitVec.getLsbD_setWidth, BitVec.getLsbD_of_ge y i (by omega), Bool.and_false]
    rw [clmulUpto, Finset.sum_range_succ]
    split
    · rw [poly_xor, ih (by omega), hs]
      ring
    · rw [ih (by omega), add_zero]

/-- **The carry-less product multiplies polynomials.** -/
theorem poly_clmul {n m : Nat} (x : BitVec n) (y : BitVec m) :
    poly (clmul x y) = poly x * poly y :=
  poly_clmulUpto x y n (Nat.le_refl n)

/-! ## 4. Residues -/

/-- The residue of a bit vector modulo `P`. -/
noncomputable def res (P : (ZMod 2)[X]) {w : Nat} (x : BitVec w) : AdjoinRoot P :=
  AdjoinRoot.mk P (poly x)

section Residues

variable {P : (ZMod 2)[X]}

theorem res_one (w : Nat) (hw : 0 < w) : res P (1#w) = 1 := by
  unfold res
  rw [poly_one w hw, map_one]

@[simp] theorem res_xor {w : Nat} (x y : BitVec w) : res P (x ^^^ y) = res P x + res P y := by
  unfold res
  rw [poly_xor, map_add]

theorem res_append {n m : Nat} (x : BitVec n) (y : BitVec m) :
    res P (x ++ y) = res P x * AdjoinRoot.root P ^ m + res P y := by
  unfold res
  rw [poly_append, map_add, map_mul, map_pow, AdjoinRoot.mk_X]

theorem res_clmul {n m : Nat} (x : BitVec n) (y : BitVec m) :
    res P (clmul x y) = res P x * res P y := by
  unfold res
  rw [poly_clmul, map_mul]

/-- In a ring of residues over GF(2) a sum cancels with itself. -/
theorem res_add_self (a : AdjoinRoot P) : a + a = 0 := by
  obtain ⟨p, rfl⟩ := AdjoinRoot.mk_surjective a
  rw [← map_add, add_self, map_zero]

/-- **Two vectors below the degree of a monic modulus with one residue are equal.** -/
theorem eq_of_res_eq {w : Nat} (hP : P.Monic) (hd : P.natDegree = w) {x y : BitVec w}
    (h : res P x = res P y) : x = y := by
  apply poly_injective
  have hdvd : P ∣ poly x - poly y := AdjoinRoot.mk_eq_mk.mp h
  have hlt : (poly x - poly y).degree < P.degree := by
    rw [degree_eq_natDegree hP.ne_zero, hd]
    exact lt_of_le_of_lt (degree_sub_le _ _) (max_lt (degree_poly_lt x) (degree_poly_lt y))
  exact sub_eq_zero.mp (eq_zero_of_dvd_of_degree_lt hdvd hlt)

/-- **Barrett's bound.** Let `mu * P` be `X ^ 2w` up to a remainder below degree `w`, let `Q` be
    the quotient of `T * mu` by `X ^ w`, and let `R = T * X ^ w + L` with `T` and `L` below degree
    `w`. Then `R - Q * P` is below degree `w`: the estimate `Q` is the exact quotient. -/
theorem degree_barrett_lt {w : Nat} {mu rho T L Q S : (ZMod 2)[X]}
    (hmu : mu * P = X ^ (2 * w) + rho) (hrho : rho.degree < w)
    (hP : P.degree ≤ w) (hQ : T * mu = Q * X ^ w + S) (hS : S.degree < w)
    (hT : T.degree < w) (hL : L.degree < w) :
    (T * X ^ w + L + Q * P).degree < (w : WithBot Nat) := by
  have key : (T * X ^ w + L + Q * P) * X ^ w = L * X ^ w + (T * rho + S * P) := by
    have h1 : T * (mu * P) = (T * mu) * P := by ring
    rw [hmu, hQ] at h1
    have h2 : Q * X ^ w * P = T * X ^ (2 * w) + T * rho - S * P := by
      linear_combination -h1
    have h3 : S * P + S * P = 0 := add_self _
    have h4 : T * X ^ (2 * w) + T * X ^ (2 * w) = 0 := add_self _
    calc (T * X ^ w + L + Q * P) * X ^ w
        = T * X ^ (2 * w) + L * X ^ w + Q * X ^ w * P := by ring
      _ = T * X ^ (2 * w) + L * X ^ w + (T * X ^ (2 * w) + T * rho - S * P) := by rw [h2]
      _ = L * X ^ w + (T * rho + S * P) := by linear_combination h4 - h3
  have hlt : (L * X ^ w + (T * rho + S * P)).degree < ((w + w : Nat) : WithBot Nat) := by
    refine lt_of_le_of_lt (degree_add_le _ _) (max_lt ?_ ?_)
    · exact degree_mul_lt hL (degree_X_pow_le _)
    · refine lt_of_le_of_lt (degree_add_le _ _) (max_lt ?_ ?_)
      · exact degree_mul_lt hT hrho.le
      · exact degree_mul_lt hS hP
  rw [← key] at hlt
  rw [degree_lt_iff_coeff_zero] at hlt ⊢
  intro i hi
  have := hlt (i + w) (by omega)
  rwa [coeff_mul_X_pow] at this

end Residues

end GF2
