/-
  File:      Qbz2/Lib/ZeroRun.lean
  Subject:   Move-to-front coding with the runs of index 0 written in bijective base 2.

  * `digits z` -- the numeral of `z` with digits 1 and 2 (here 0 and 1), low digit first;
    `value_digits` reads it back;
  * `toFront q c` -- the list with `c` moved to its front;
  * `coded q z cs` -- the symbols for the column `cs`, `z` zeros pending: a run as its digits, an
    index `j > 0` as `j + 1`; `length_coded`, `coded_le` -- how many there are, and how large.
-/
import Mathlib.Algebra.Group.Nat.Defs
import Mathlib.Data.List.Perm.Basic
import Mathlib.Data.List.Count

namespace ZeroRun

/-! ## 1. Runs -/

/-- The digits of `z`, low digit first: `0` stands for 1, `1` for 2; enough fuel is `z`. -/
def digitsAux : Nat → Nat → List Nat
  | 0, _ => []
  | fuel + 1, z => if z = 0 then [] else (z - 1) % 2 :: digitsAux fuel ((z - 1) / 2)

/-- The digits of `z`. -/
def digits (z : Nat) : List Nat := digitsAux z z

/-- The number some digits stand for. -/
def value : List Nat → Nat
  | [] => 0
  | d :: ds => (d + 1) + 2 * value ds

theorem digitsAux_eq : ∀ (fuel fuel' z : Nat), z ≤ fuel → z ≤ fuel' →
    digitsAux fuel z = digitsAux fuel' z := by
  intro fuel
  induction fuel with
  | zero =>
    intro fuel' z h _
    obtain rfl : z = 0 := by omega
    cases fuel' <;> rfl
  | succ fuel ih =>
    intro fuel' z h h'
    cases fuel' with
    | zero =>
      obtain rfl : z = 0 := by omega
      rfl
    | succ fuel' =>
      unfold digitsAux
      rw [ih fuel' _ (by omega) (by omega)]

@[simp] theorem digits_zero : digits 0 = [] := rfl

theorem digits_succ (z : Nat) : digits (z + 1) = z % 2 :: digits (z / 2) := by
  have h : digitsAux (z + 1) (z + 1) =
      if z + 1 = 0 then [] else (z + 1 - 1) % 2 :: digitsAux z ((z + 1 - 1) / 2) := rfl
  rw [digits, h, if_neg (by omega), Nat.add_sub_cancel, digits,
    digitsAux_eq z (z / 2) (z / 2) (Nat.div_le_self _ _) (Nat.le_refl _)]

/-- **A number is read back from its digits.** -/
theorem value_digits (z : Nat) : value (digits z) = z := by
  induction z using Nat.strongRecOn with
  | ind z ih =>
    cases z with
    | zero => rfl
    | succ z =>
      rw [digits_succ, value, ih (z / 2) (by omega)]
      omega

theorem length_digits_le (z : Nat) : (digits z).length ≤ z := by
  induction z using Nat.strongRecOn with
  | ind z ih =>
    cases z with
    | zero => exact Nat.le_refl _
    | succ z =>
      have := ih (z / 2) (by omega)
      rw [digits_succ, List.length_cons]
      omega

/-- A numeral of `k` digits stands for `2^k - 1` at least. -/
theorem two_pow_length_digits (z : Nat) : 2 ^ (digits z).length ≤ z + 1 := by
  induction z using Nat.strongRecOn with
  | ind z ih =>
    cases z with
    | zero => exact Nat.le_refl _
    | succ z =>
      have := ih (z / 2) (by omega)
      rw [digits_succ, List.length_cons, Nat.pow_succ]
      omega

theorem digits_lt (z : Nat) : ∀ d ∈ digits z, d < 2 := by
  induction z using Nat.strongRecOn with
  | ind z ih =>
    cases z with
    | zero => intro d hd; cases hd
    | succ z =>
      intro d hd
      rw [digits_succ] at hd
      cases List.mem_cons.mp hd with
      | inl h => omega
      | inr h => exact ih (z / 2) (by omega) d h

/-! ## 2. The list -/

variable {α : Type*} [DecidableEq α]

/-- `c` moved to the front. -/
def toFront (q : List α) (c : α) : List α := c :: q.erase c

theorem toFront_perm {q : List α} {c : α} (h : c ∈ q) : (toFront q c).Perm q :=
  (List.perm_cons_erase h).symm

theorem length_toFront {q : List α} {c : α} (h : c ∈ q) : (toFront q c).length = q.length :=
  (toFront_perm h).length_eq

theorem toFront_append {q : List α} {c : α} (h : c ∈ q) (r : List α) :
    toFront (q ++ r) c = toFront q c ++ r := by
  unfold toFront
  rw [List.erase_append_left r h]
  rfl

/-- Taking out the cell of `c` and putting `c` in front. -/
theorem toFront_eq_take_drop (q : List α) (c : α) :
    toFront q c = c :: (q.take (q.idxOf c) ++ q.drop (q.idxOf c + 1)) := by
  unfold toFront
  rw [← List.eraseIdx_eq_take_drop_succ, List.eraseIdx_idxOf_eq_erase]

/-! ## 3. The symbols of a column -/

/-- The symbols for the column `cs`, the list being `q` and `z` zeros pending. -/
def coded : List α → Nat → List α → List Nat
  | _, z, [] => digits z
  | q, z, c :: cs =>
    if q.head? = some c then coded q (z + 1) cs
    else digits z ++ (q.idxOf c + 1) :: coded (toFront q c) 0 cs

theorem coded_nil (q : List α) (z : Nat) : coded q z [] = digits z := rfl

theorem coded_cons (q : List α) (z : Nat) (c : α) (cs : List α) :
    coded q z (c :: cs) =
      if q.head? = some c then coded q (z + 1) cs
      else digits z ++ (q.idxOf c + 1) :: coded (toFront q c) 0 cs := rfl

theorem length_coded (cs : List α) : ∀ (q : List α) (z : Nat),
    (coded q z cs).length ≤ z + cs.length := by
  induction cs with
  | nil => intro q z; exact length_digits_le z
  | cons c cs ih =>
    intro q z
    unfold coded
    split
    · have := ih q (z + 1)
      rw [List.length_cons]
      omega
    · have h1 := ih (toFront q c) 0
      have h2 := length_digits_le z
      rw [List.length_append, List.length_cons, List.length_cons]
      omega

/-- An index not 0 is an index of the tail. -/
theorem idxOf_pos {q : List α} {c : α} (h : q.head? ≠ some c) (hm : c ∈ q) : 0 < q.idxOf c := by
  cases q with
  | nil => cases hm
  | cons a q =>
    have hne : a ≠ c := fun e => h (by rw [e]; rfl)
    rw [List.idxOf_cons_ne _ hne]
    omega

/-- **No symbol is larger than the list is long.** -/
theorem coded_le (cs : List α) : ∀ (q : List α) (z : Nat), (∀ c ∈ cs, c ∈ q) → 1 ≤ q.length →
    ∀ v ∈ coded q z cs, v ≤ q.length := by
  induction cs with
  | nil =>
    intro q z _ h1 v hv
    have := digits_lt z v hv
    omega
  | cons c cs ih =>
    intro q z hq h1 v hv
    have hc : c ∈ q := hq c List.mem_cons_self
    have hcs : ∀ d ∈ cs, d ∈ q := fun d hd => hq d (List.mem_cons_of_mem _ hd)
    unfold coded at hv
    split at hv
    · exact ih q (z + 1) hcs h1 v hv
    · cases List.mem_append.mp hv with
      | inl h =>
        have := digits_lt z v h
        omega
      | inr h =>
        cases List.mem_cons.mp h with
        | inl h =>
          have := List.idxOf_lt_length_of_mem hc
          omega
        | inr h =>
          have hl := length_toFront hc
          rw [← hl]
          exact ih _ 0 (fun d hd => (toFront_perm hc).mem_iff.mpr (hcs d hd)) (by omega) v h

end ZeroRun
