/-
  File:      Qbz2/Reference/Comparison.lean
  Subject:   `mainGtU` compares rotations.

  * `rot T n x` -- a whole rotation; `rot_le_of_agree` -- rotations that begin alike compare as what
    follows;
  * `Overshot`, `Quadrants` -- the invariant of the block's overshoot and of the quadrants: of two
    rotations with the same first byte, the one with the smaller quadrant is not the greater;
  * **`mainGtU_spec`** -- the answer is right, of equal rotations either way, for every budget.
-/
import Qbz2.BlockSort.Radix
import Qbz2.Reference.Model

namespace Rotation

variable {α : Type*} {T : Int → α} {n : Int}

/-- A whole rotation. -/
abbrev rot (T : Int → α) (n x : Int) : List α := pre T n n.toNat x

theorem rot_congr {x y : Int} (h : x % n = y % n) : rot T n x = rot T n y := pre_congr T n _ h

variable [LinearOrder α]

/-- **Rotations that begin alike** compare as what follows. -/
theorem rot_le_of_agree {x y : Int} {m : Nat} (he : pre T n m x = pre T n m y)
    (h : rot T n (x + m) ≤ rot T n (y + m)) : rot T n x ≤ rot T n y := by
  rcases Nat.le_total m n.toNat with hm | hm
  · obtain ⟨k, hk⟩ := Nat.exists_eq_add_of_le hm
    unfold rot at h ⊢
    rw [hk, pre_add_le]
    exact .inr ⟨he, pre_le_mono (by omega) h⟩
  · exact pre_le_mono hm he.le

/-- Rotations that agree as far as the block is long are equal. -/
theorem rot_eq_of_agree {x y : Int} {m : Nat} (hm : n.toNat ≤ m)
    (he : pre T n m x = pre T n m y) : rot T n x = rot T n y :=
  le_antisymm (pre_le_mono hm he.le) (pre_le_mono hm he.ge)

/-- Rotations with different first symbols. -/
theorem rot_le_of_lt (hn : 0 < n) {x y : Int} (h : T (x % n) < T (y % n)) :
    rot T n x ≤ rot T n y := by
  obtain ⟨k, hk⟩ := Nat.exists_eq_succ_of_ne_zero (show n.toNat ≠ 0 by omega)
  unfold rot
  rw [hk, pre, pre]
  exact le_of_lt (List.Lex.rel h)

end Rotation

namespace Qbz2

open Loop Segment Rotation

variable {block : Cells Byte} {quadrant : Cells (BitVec 16)} {n : Int}

/-! ## 1. What the comparison reads -/

/-- The overshoot repeats the start of the block. -/
def Overshot (block : Cells Byte) (n : Int) : Prop :=
  ∀ i : Int, 0 ≤ i → i < n + bzNOvershoot → sym block (i % n) = sym block i

/-- **The meaning of the quadrants.** -/
structure Quadrants (block : Cells Byte) (n : Int) (quadrant : Cells (BitVec 16)) : Prop where
  behind : ∀ i : Int, 0 ≤ i → i < bzNOvershoot → quadrant (n + i) = quadrant i
  ord : ∀ x y, 0 ≤ x → x < n → 0 ≤ y → y < n → sym block x = sym block y →
    (quadrant x).toNat < (quadrant y).toNat → rot (sym block) n x ≤ rot (sym block) n y

/-- A cell of the overshoot, around the end of the block. -/
theorem emod_cases (hn : bzNOvershoot < n) {i : Int} (h0 : 0 ≤ i) (h1 : i < n + bzNOvershoot) :
    i < n ∧ i % n = i ∨ i = n + i % n ∧ i % n < bzNOvershoot := by
  rcases lt_or_ge i n with h | h
  · exact .inl ⟨h, Int.emod_eq_of_lt h0 h⟩
  · have e : i % n = i - n := by
      rw [← Int.sub_emod_right, Int.emod_eq_of_lt (by omega) (by omega)]
    exact .inr ⟨by omega, by omega⟩

/-- The quadrants of the overshoot mean the same. -/
theorem Quadrants.le (h : Quadrants block n quadrant) (hn : bzNOvershoot < n) (hb : Overshot block n)
    {x y : Int} (hx0 : 0 ≤ x) (hx1 : x < n + bzNOvershoot) (hy0 : 0 ≤ y)
    (hy1 : y < n + bzNOvershoot) (hs : sym block x = sym block y)
    (hq : (quadrant x).toNat < (quadrant y).toNat) : rot (sym block) n x ≤ rot (sym block) n y := by
  have hmod : ∀ z, 0 ≤ z → z < n + bzNOvershoot → quadrant (z % n) = quadrant z := by
    intro z h0 h1
    rcases emod_cases hn h0 h1 with ⟨-, e⟩ | ⟨e, hlt⟩
    · rw [e]
    · have := h.behind (z % n) (Int.emod_nonneg _ (by omega)) hlt
      rw [← e] at this
      exact this.symm
  have hpos : 0 < n := by omega
  rw [← hmod x hx0 hx1, ← hmod y hy0 hy1] at hq
  rw [← hb x hx0 hx1, ← hb y hy0 hy1] at hs
  have := h.ord (x % n) (y % n) (Int.emod_nonneg _ (by omega)) (Int.emod_lt_of_pos _ hpos)
    (Int.emod_nonneg _ (by omega)) (Int.emod_lt_of_pos _ hpos) hs hq
  rwa [rot_congr (Int.emod_emod x n), rot_congr (Int.emod_emod y n)] at this

/-- **The answer is right**: greater, or not greater, and of equal rotations either. -/
def Tells (block : Cells Byte) (n x y : Int) (gt : Bool) : Prop :=
  if gt then rot (sym block) n y ≤ rot (sym block) n x else rot (sym block) n x ≤ rot (sym block) n y

theorem Tells.of_agree {x y : Int} {m : Nat} {gt : Bool}
    (he : pre (sym block) n m x = pre (sym block) n m y) (h : Tells block n (x + m) (y + m) gt) :
    Tells block n x y gt := by
  unfold Tells at h ⊢
  cases gt with
  | true => exact rot_le_of_agree he.symm h
  | false => exact rot_le_of_agree he h

/-- Numbers that differ, compared. -/
theorem tells_of_ne {x y : Int} {a b : Nat} (hne : a ≠ b)
    (h : a < b → rot (sym block) n x ≤ rot (sym block) n y)
    (h' : b < a → rot (sym block) n y ≤ rot (sym block) n x) :
    Tells block n x y (decide (a > b)) := by
  unfold Tells
  by_cases hgt : a > b
  · rw [if_pos (decide_eq_true hgt)]
    exact h' hgt
  · rw [if_neg (by rw [decide_eq_false hgt]; decide)]
    exact h (by omega)

/-- What `m` comparisons come to: an answer, or `m` symbols alike. -/
def Compared (block : Cells Byte) (n : Int) (m : Nat) (x y : Int) (r : Bool ⊕ (Int × Int)) : Prop :=
  match r with
  | .inl gt => Tells block n x y gt
  | .inr (i1, i2) => i1 = x + m ∧ i2 = y + m ∧ pre (sym block) n m x = pre (sym block) n m y

section

variable (hn : bzNOvershoot < n) (hb : Overshot block n)

include hn hb

/-- Bytes that differ. -/
theorem tells_of_byte {x y : Int} (hx0 : 0 ≤ x) (hx1 : x < n + bzNOvershoot) (hy0 : 0 ≤ y)
    (hy1 : y < n + bzNOvershoot) (hne : block x ≠ block y) :
    Tells block n x y (decide ((block x).toNat > (block y).toNat)) := by
  have hpos : 0 < n := by omega
  refine tells_of_ne (fun e => hne (BitVec.eq_of_toNat_eq e)) (fun hlt => ?_) fun hlt => ?_
  · exact rot_le_of_lt hpos (by rw [hb x hx0 hx1, hb y hy0 hy1]; exact hlt)
  · exact rot_le_of_lt hpos (by rw [hb x hx0 hx1, hb y hy0 hy1]; exact hlt)

omit hn in
/-- A symbol alike, and what follows compared. -/
theorem Compared.cons {x y : Int} (hx0 : 0 ≤ x) (hx1 : x < n + bzNOvershoot) (hy0 : 0 ≤ y)
    (hy1 : y < n + bzNOvershoot) (he : block x = block y) {m : Nat} {r : Bool ⊕ (Int × Int)}
    (h : Compared block n m (x + 1) (y + 1) r) : Compared block n (m + 1) x y r := by
  have hone : pre (sym block) n 1 x = pre (sym block) n 1 y := by
    rw [pre, pre, pre, pre, hb x hx0 hx1, hb y hy0 hy1]
    exact congrArg (fun b : Byte => [b.toNat]) he
  cases r with
  | inl gt => exact Tells.of_agree (m := 1) hone h
  | inr p =>
    obtain ⟨i1, i2⟩ := p
    obtain ⟨h1, h2, h3⟩ := h
    refine ⟨by omega, by omega, ?_⟩
    rw [Nat.add_comm m 1, pre_add, pre_add, hone]
    exact congrArg _ h3

theorem gtBytes_spec : ∀ (m : Nat) (x y : Int), 0 ≤ x → x + m ≤ n + bzNOvershoot → 0 ≤ y →
    y + m ≤ n + bzNOvershoot → Compared block n m x y (gtBytes block m x y) := by
  intro m
  induction m with
  | zero => exact fun x y _ _ _ _ => ⟨by omega, by omega, rfl⟩
  | succ m ih =>
    intro x y hx0 hx1 hy0 hy1
    unfold gtBytes
    dsimp only
    by_cases hne : block x ≠ block y
    · rw [if_pos hne]
      exact tells_of_byte hn hb hx0 (by omega) hy0 (by omega) hne
    · rw [if_neg hne]
      exact Compared.cons hb hx0 (by omega) hy0 (by omega) (not_not.mp hne)
        (ih (x + 1) (y + 1) (by omega) (by omega) (by omega) (by omega))

theorem gtQuadrants_spec (hq : Quadrants block n quadrant) : ∀ (m : Nat) (x y : Int), 0 ≤ x →
    x + m ≤ n + bzNOvershoot → 0 ≤ y → y + m ≤ n + bzNOvershoot →
    Compared block n m x y (gtQuadrants block quadrant m x y) := by
  intro m
  induction m with
  | zero => exact fun x y _ _ _ _ => ⟨by omega, by omega, rfl⟩
  | succ m ih =>
    intro x y hx0 hx1 hy0 hy1
    unfold gtQuadrants
    dsimp only
    by_cases hne : block x ≠ block y
    · rw [if_pos hne]
      exact tells_of_byte hn hb hx0 (by omega) hy0 (by omega) hne
    · rw [if_neg hne]
      have he := not_not.mp hne
      have hs : sym block x = sym block y := congrArg BitVec.toNat he
      by_cases hqne : quadrant x ≠ quadrant y
      · rw [if_pos hqne]
        exact tells_of_ne (fun e => hqne (BitVec.eq_of_toNat_eq e))
          (hq.le hn hb hx0 (by omega) hy0 (by omega) hs)
          (hq.le hn hb hy0 (by omega) hx0 (by omega) hs.symm)
      · rw [if_neg hqne]
        exact Compared.cons hb hx0 (by omega) hy0 (by omega) he
          (ih (x + 1) (y + 1) (by omega) (by omega) (by omega) (by omega))

/-- **The loop**: the `m` symbols compared before it and those of its rounds are enough for the whole
    block. -/
theorem gtLoop_spec (hq : Quadrants block n quadrant) {x y : Int} : ∀ (rounds m : Nat) (i1 i2 : Int)
    (budget : Word32), n.toNat ≤ m + 8 * rounds → pre (sym block) n m x = pre (sym block) n m y →
    i1 % n = (x + m) % n → i2 % n = (y + m) % n → 0 ≤ i1 → i1 + 8 ≤ n + bzNOvershoot → 0 ≤ i2 →
    i2 + 8 ≤ n + bzNOvershoot →
    Tells block n x y (gtLoop block quadrant n rounds i1 i2 budget).1 := by
  intro rounds
  induction rounds with
  | zero =>
    intro m i1 i2 budget hm he _ _ _ _ _ _
    exact le_of_eq (rot_eq_of_agree (by omega) he)
  | succ rounds ih =>
    intro m i1 i2 budget hm he e1 e2 h10 h11 h20 h21
    have hnpos : bzNOvershoot = 34 := rfl
    have hc := gtQuadrants_spec hn hb hq 8 i1 i2 h10 h11 h20 h21
    unfold gtLoop
    cases hr : gtQuadrants block quadrant 8 i1 i2 with
    | inl gt =>
      rw [hr] at hc
      refine Tells.of_agree he ?_
      unfold Compared Tells at hc
      unfold Tells
      dsimp only
      rwa [rot_congr e1, rot_congr e2] at hc
    | inr p =>
      obtain ⟨j1, j2⟩ := p
      rw [hr] at hc
      obtain ⟨rfl, rfl, he8⟩ := hc
      have hagree : pre (sym block) n (m + 8) x = pre (sym block) n (m + 8) y := by
        rw [pre_add, pre_add, he, ← pre_congr (sym block) n 8 e1, ← pre_congr (sym block) n 8 e2, he8]
      have hwrap : ∀ i z : Int, i % n = (z + m) % n → 0 ≤ i → i + 8 ≤ n + bzNOvershoot →
          (if i + (8 : Nat) ≥ n then i + (8 : Nat) - n else i + (8 : Nat)) % n =
              (z + (m + 8 : Nat)) % n ∧
            0 ≤ (if i + (8 : Nat) ≥ n then i + (8 : Nat) - n else i + (8 : Nat)) ∧
            (if i + (8 : Nat) ≥ n then i + (8 : Nat) - n else i + (8 : Nat)) + 8 ≤
              n + bzNOvershoot := by
        intro i z e h0 h1
        have e8 : (i + (8 : Nat)) % n = (z + (m + 8 : Nat)) % n := by
          rw [Int.add_emod, e, ← Int.add_emod, Nat.cast_add, Int.add_assoc]
        split
        · exact ⟨by rw [Int.sub_emod_right, e8], by omega, by omega⟩
        · exact ⟨e8, by omega, by omega⟩
      obtain ⟨k1, k2, k3⟩ := hwrap i1 x e1 h10 h11
      obtain ⟨l1, l2, l3⟩ := hwrap i2 y e2 h20 h21
      exact ih (m + 8) _ _ _ (by omega) hagree k1 l1 k2 k3 l2 l3

/-- **`mainGtU`** tells which of two rotations comes first, whatever the budget. -/
theorem mainGtU_spec (hq : Quadrants block n quadrant) {x y : Int} (hx0 : 0 ≤ x) (hx1 : x < n + 15)
    (hy0 : 0 ≤ y) (hy1 : y < n + 15) (budget : Word32) :
    Tells block n x y (mainGtU x y block quadrant n budget).1 := by
  have h34 : bzNOvershoot = 34 := rfl
  have hc := gtBytes_spec hn hb 12 x y hx0 (by omega) hy0 (by omega)
  unfold mainGtU
  cases hr : gtBytes block 12 x y with
  | inl gt =>
    rw [hr] at hc
    exact hc
  | inr p =>
    obtain ⟨j1, j2⟩ := p
    rw [hr] at hc
    obtain ⟨rfl, rfl, he⟩ := hc
    exact gtLoop_spec hn hb hq _ 12 _ _ budget (by omega) he rfl rfl (by omega) (by omega) (by omega)
      (by omega)

end

end Qbz2
