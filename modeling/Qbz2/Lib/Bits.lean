/-
  File:      Qbz2/Lib/Bits.lean
  Subject:   Numbers as strings of bits, most significant bit first.

  * `bitsOf n v` -- the low `n` bits of `v`; `bitsVal` -- the number a string stands for;
  * `bitsOf_add`, `bitsVal_append` -- both are additive in the length;
  * `bitsVal_bitsOf`, `bitsOf_bitsVal` -- they are inverse to each other;
  * `bytesBits` -- a list of bytes as one string.
-/
import Mathlib.Tactic.Ring

namespace Bits

/-- The low `n` bits of `v`. -/
def bitsOf : Nat → Nat → List Bool
  | 0, _ => []
  | n + 1, v => v.testBit n :: bitsOf n v

/-- The number a bit string stands for. -/
def bitsVal : List Bool → Nat
  | [] => 0
  | b :: t => b.toNat * 2 ^ t.length + bitsVal t

@[simp] theorem bitsOf_zero (v : Nat) : bitsOf 0 v = [] := rfl

@[simp] theorem length_bitsOf (n v : Nat) : (bitsOf n v).length = n := by
  induction n with
  | zero => rfl
  | succ n ih => rw [bitsOf, List.length_cons, ih]

/-- Only the low bits matter. -/
theorem bitsOf_congr {n v w : Nat} (h : v % 2 ^ n = w % 2 ^ n) : bitsOf n v = bitsOf n w := by
  induction n with
  | zero => rfl
  | succ n ih =>
    have hlow : v % 2 ^ n = w % 2 ^ n := by
      have hd : (2 : Nat) ^ n ∣ 2 ^ (n + 1) := ⟨2, Nat.pow_succ 2 n⟩
      rw [← Nat.mod_mod_of_dvd v hd, h, Nat.mod_mod_of_dvd w hd]
    have hbit : v.testBit n = w.testBit n := by
      have e : ∀ x : Nat, x.testBit n = (x % 2 ^ (n + 1)).testBit n := fun x => by
        rw [Nat.testBit_mod_two_pow]
        simp
      rw [e v, h, ← e w]
    rw [bitsOf, bitsOf, ih hlow, hbit]

/-- **The bits of a number, the upper ones first.** -/
theorem bitsOf_add (m n v : Nat) : bitsOf (m + n) v = bitsOf m (v / 2 ^ n) ++ bitsOf n v := by
  induction m with
  | zero => rw [Nat.zero_add]; rfl
  | succ m ih =>
    have e : m + 1 + n = m + n + 1 := by omega
    have hbit : v.testBit (m + n) = (v / 2 ^ n).testBit m := by
      rw [← Nat.shiftRight_eq_div_pow, Nat.testBit_shiftRight, Nat.add_comm]
    rw [e, bitsOf, bitsOf, ih, hbit]
    rfl

@[simp] theorem bitsVal_nil : bitsVal [] = 0 := rfl

theorem bitsVal_append (s t : List Bool) :
    bitsVal (s ++ t) = bitsVal s * 2 ^ t.length + bitsVal t := by
  induction s with
  | nil => simp
  | cons b s ih =>
    rw [List.cons_append, bitsVal, bitsVal, ih, List.length_append, Nat.pow_add]
    ring

theorem bitsVal_bitsOf (n v : Nat) : bitsVal (bitsOf n v) = v % 2 ^ n := by
  induction n with
  | zero => rw [bitsOf_zero, bitsVal_nil, Nat.pow_zero, Nat.mod_one]
  | succ n ih =>
    have hb : (v.testBit n).toNat = v / 2 ^ n % 2 := Nat.toNat_testBit v n
    rw [bitsOf, bitsVal, ih, length_bitsOf, hb, Nat.pow_succ, Nat.mod_mul]
    ring

theorem bitsVal_lt (t : List Bool) : bitsVal t < 2 ^ t.length := by
  induction t with
  | nil => exact Nat.one_pos
  | cons b t ih =>
    rw [bitsVal, List.length_cons, Nat.pow_succ]
    cases b with
    | false =>
      simp only [Bool.toNat_false, Nat.zero_mul]
      omega
    | true =>
      simp only [Bool.toNat_true, Nat.one_mul]
      omega

theorem bitsOf_bitsVal (t : List Bool) : bitsOf t.length (bitsVal t) = t := by
  induction t with
  | nil => rfl
  | cons b t ih =>
    have hlt := bitsVal_lt t
    have hlow : bitsOf t.length (bitsVal (b :: t)) = bitsOf t.length (bitsVal t) :=
      bitsOf_congr (by rw [bitsVal, Nat.mul_comm, Nat.mul_add_mod])
    have hbit : (bitsVal (b :: t)).testBit t.length = b := by
      rw [bitsVal, Nat.testBit_eq_decide_div_mod_eq, Nat.mul_comm,
        Nat.mul_add_div (Nat.two_pow_pos _), Nat.div_eq_of_lt hlt]
      cases b <;> rfl
    rw [List.length_cons, bitsOf, hlow, ih, hbit]

@[simp] theorem bitsVal_zeros (k : Nat) : bitsVal (List.replicate k false) = 0 := by
  induction k with
  | zero => rfl
  | succ k ih => rw [List.replicate_succ, bitsVal, ih, Bool.toNat_false, Nat.zero_mul]

/-- Bytes, one after the other. -/
def bytesBits (l : List (BitVec 8)) : List Bool := l.flatMap fun b => bitsOf 8 b.toNat

@[simp] theorem bytesBits_nil : bytesBits [] = [] := rfl

theorem bytesBits_cons (b : BitVec 8) (l : List (BitVec 8)) :
    bytesBits (b :: l) = bitsOf 8 b.toNat ++ bytesBits l := rfl

theorem bytesBits_append (l l' : List (BitVec 8)) :
    bytesBits (l ++ l') = bytesBits l ++ bytesBits l' := List.flatMap_append

@[simp] theorem length_bytesBits (l : List (BitVec 8)) : (bytesBits l).length = 8 * l.length := by
  induction l with
  | nil => rfl
  | cons b l ih =>
    rw [bytesBits_cons, List.length_append, length_bitsOf, ih, List.length_cons]
    omega

end Bits
