/-
  File:      Qbz2/Decompress/Tape.lean
  Subject:   The bits before the decoder: those in `bsBuff`, then those of the input not yet read.

  * `BitBuf.bits` -- the valid bits of the buffer; `peek` and `skip` take them from the front;
  * `tape` -- all bits at hand; a refill leaves them what they are (`tape_refill4`,
    `tape_refill1`).
-/
import Qbz2.Decompress.Machine
import Qbz2.Decompress.FastTable
import Qbz2.Lib.Bits

namespace Qbz2

open Bits

/-! ## 1. The buffer -/

namespace BitBuf

/-- The valid bits, in the order they are read. -/
def bits (b : BitBuf) : List Bool := bitsOf b.bsLive b.bsBuff.toNat

@[simp] theorem length_bits (b : BitBuf) : b.bits.length = b.bsLive := length_bitsOf _ _

/-- The buffer as the first `n` bits and the others. -/
theorem bits_split (b : BitBuf) {n : Nat} (h : n ≤ b.bsLive) :
    b.bits = bitsOf n (b.bsBuff.toNat / 2 ^ (b.bsLive - n)) ++ (b.skip n).bits := by
  have e : b.bsLive = n + (b.bsLive - n) := by omega
  rw [bits, bits, skip]
  dsimp only
  rw [← bitsOf_add, ← e]

theorem bits_skip (b : BitBuf) {n : Nat} (h : n ≤ b.bsLive) : (b.skip n).bits = b.bits.drop n := by
  rw [b.bits_split h, List.drop_left' (length_bitsOf _ _)]

theorem bitsVal_take (b : BitBuf) {n : Nat} (h : n ≤ b.bsLive) (h64 : n ≤ 64) :
    bitsVal (b.bits.take n) = b.peek n := by
  rw [b.bits_split h, List.take_left' (length_bitsOf _ _), bitsVal_bitsOf, peek, field_eq _ _ h64]

end BitBuf

/-- `bits` of a buffer that has been shifted to make room for `k` new ones. -/
theorem bits_push {b : BitBuf} {buff : Word64} {k w : Nat}
    (h : buff.toNat % 2 ^ (b.bsLive + k) = (b.bsBuff.toNat * 2 ^ k + w) % 2 ^ (b.bsLive + k))
    (hw : w < 2 ^ k) : (⟨buff, b.bsLive + k⟩ : BitBuf).bits = b.bits ++ bitsOf k w := by
  rw [BitBuf.bits, BitBuf.bits]
  dsimp only
  have hdiv : (b.bsBuff.toNat * 2 ^ k + w) / 2 ^ k = b.bsBuff.toNat := by
    rw [Nat.mul_comm, Nat.mul_add_div (Nat.two_pow_pos k), Nat.div_eq_of_lt hw, Nat.add_zero]
  have hmod : (b.bsBuff.toNat * 2 ^ k + w) % 2 ^ k = w % 2 ^ k := by
    rw [Nat.mul_comm, Nat.mul_add_mod]
  rw [bitsOf_congr h, bitsOf_add, hdiv, bitsOf_congr hmod]

/-! ## 2. The refills -/

/-- A shifted buffer with new low bits, as a number. -/
theorem toNat_shift_or (x y : Word64) {k : Nat} (hk : k ≤ 64) (hy : y.toNat < 2 ^ k) :
    ((x <<< k) ||| y).toNat = (x.toNat * 2 ^ k + y.toNat) % 2 ^ 64 := by
  have hd : 2 ^ k ∣ (2 : Nat) ^ 64 := Nat.pow_dvd_pow 2 hk
  have hshift : (x.toNat * 2 ^ k) % 2 ^ 64 = 2 ^ k * (x.toNat * 2 ^ k % 2 ^ 64 / 2 ^ k) := by
    refine (Nat.mul_div_cancel' ?_).symm
    exact (Nat.dvd_mod_iff hd).mpr (Nat.dvd_mul_left _ _)
  have hlt : 2 ^ k * (x.toNat * 2 ^ k % 2 ^ 64 / 2 ^ k) + y.toNat < 2 ^ 64 := by
    obtain ⟨c, hc⟩ := hd
    have hq : x.toNat * 2 ^ k % 2 ^ 64 / 2 ^ k < c := by
      rw [Nat.div_lt_iff_lt_mul (Nat.two_pow_pos k), Nat.mul_comm c, ← hc]
      exact Nat.mod_lt _ (Nat.two_pow_pos 64)
    calc 2 ^ k * (x.toNat * 2 ^ k % 2 ^ 64 / 2 ^ k) + y.toNat
        < 2 ^ k * (x.toNat * 2 ^ k % 2 ^ 64 / 2 ^ k) + 2 ^ k := by omega
      _ = 2 ^ k * (x.toNat * 2 ^ k % 2 ^ 64 / 2 ^ k + 1) := by rw [Nat.mul_succ]
      _ ≤ 2 ^ k * c := Nat.mul_le_mul_left _ hq
      _ = 2 ^ 64 := hc.symm
  rw [BitVec.toNat_or, BitVec.toNat_shiftLeft, Nat.shiftLeft_eq, Nat.add_mod,
    Nat.mod_eq_of_lt (a := y.toNat) (by omega), hshift, Nat.mod_eq_of_lt hlt,
    ← Nat.two_pow_add_eq_or_of_lt hy]

theorem toNat_byte (b : Byte) : (b.setWidth 64).toNat = b.toNat := by
  rw [BitVec.toNat_setWidth]
  exact Nat.mod_eq_of_lt (Nat.lt_of_lt_of_le b.isLt (by decide))

/-- The 1-byte refill of the 64-bit buffer. -/
theorem bits_refill1 (b : BitBuf) (strm : BzStream) (h : b.bsLive ≤ 56) :
    (refill1 .qbz2 b strm).1.bits = b.bits ++ bitsOf 8 (strm.mem strm.nextIn).toNat := by
  refine bits_push ?_ (strm.mem strm.nextIn).isLt
  rw [toNat_shift_or _ _ (by omega) (by rw [toNat_byte]; exact BitVec.isLt _), toNat_byte]
  exact Nat.mod_mod_of_dvd _ (Nat.pow_dvd_pow 2 (by omega))

/-- The 1-byte refill of the 32-bit buffer of the reference decoder. -/
theorem bits_refill1_reference (b : BitBuf) (strm : BzStream) (h : b.bsLive ≤ 24) :
    (refill1 .reference b strm).1.bits = b.bits ++ bitsOf 8 (strm.mem strm.nextIn).toNat := by
  refine bits_push ?_ (strm.mem strm.nextIn).isLt
  have hd : (2 : Nat) ^ (b.bsLive + 8) ∣ 2 ^ 32 := Nat.pow_dvd_pow 2 (by omega)
  have hd' : (2 : Nat) ^ 32 ∣ 2 ^ 64 := ⟨2 ^ 32, by decide⟩
  rw [BitVec.toNat_setWidth, BitVec.toNat_setWidth,
    toNat_shift_or _ _ (by omega) (by rw [toNat_byte]; exact BitVec.isLt _), toNat_byte,
    Nat.mod_mod_of_dvd _ hd', Nat.mod_mod_of_dvd _ (Nat.dvd_trans hd hd'), Nat.mod_mod_of_dvd _ hd]

/-- Four bytes as one number. -/
theorem bitsOf_four (b0 b1 b2 b3 : Byte) :
    bitsOf 32 (b0.toNat * 2 ^ 24 + b1.toNat * 2 ^ 16 + b2.toNat * 2 ^ 8 + b3.toNat) =
      bytesBits [b0, b1, b2, b3] := by
  have h0 := b0.isLt
  have h1 := b1.isLt
  have h2 := b2.isLt
  have h3 := b3.isLt
  have e (n v x y : Nat) (hv : v / 2 ^ n = x) (hy : v % 2 ^ n = y % 2 ^ n) :
      bitsOf (8 + n) v = bitsOf 8 x ++ bitsOf n y := by
    rw [bitsOf_add, hv, bitsOf_congr hy]
  rw [e 24 _ b0.toNat (b1.toNat * 2 ^ 16 + b2.toNat * 2 ^ 8 + b3.toNat) (by omega) (by omega),
    e 16 _ b1.toNat (b2.toNat * 2 ^ 8 + b3.toNat) (by omega) (by omega),
    e 8 _ b2.toNat b3.toNat (by omega) (by omega)]
  simp only [bytesBits_cons, bytesBits_nil, List.append_nil]

/-- The 4-byte refill. -/
theorem bits_refill4 (b : BitBuf) (strm : BzStream) (h : b.bsLive ≤ 32) :
    (refill4 b strm).1.bits = b.bits ++ bytesBits (bytesAt strm.mem strm.nextIn 4) := by
  have hlist : bytesAt strm.mem strm.nextIn 4 = [strm.mem strm.nextIn, strm.mem (strm.nextIn + 1),
      strm.mem (strm.nextIn + 2), strm.mem (strm.nextIn + 3)] := by
    have e2 : strm.nextIn + 1 + 1 = strm.nextIn + 2 := by omega
    have e3 : strm.nextIn + 2 + 1 = strm.nextIn + 3 := by omega
    simp only [bytesAt_succ, bytesAt_zero, e2, e3]
  rw [hlist, ← bitsOf_four, refill4]
  dsimp only
  generalize strm.mem strm.nextIn = b0
  generalize strm.mem (strm.nextIn + 1) = b1
  generalize strm.mem (strm.nextIn + 2) = b2
  generalize strm.mem (strm.nextIn + 3) = b3
  have h0 := b0.isLt
  have h1 := b1.isLt
  have h2 := b2.isLt
  have h3 := b3.isLt
  -- the four bytes side by side
  have hw : ((b0.setWidth 64 <<< 24) ||| (b1.setWidth 64 <<< 16) ||| (b2.setWidth 64 <<< 8) |||
      b3.setWidth 64 : Word64).toNat =
      b0.toNat * 2 ^ 24 + b1.toNat * 2 ^ 16 + b2.toNat * 2 ^ 8 + b3.toNat := by
    have e : ((b0.setWidth 64 <<< 24) ||| (b1.setWidth 64 <<< 16) ||| (b2.setWidth 64 <<< 8) |||
        b3.setWidth 64 : Word64) =
        (((b0.setWidth 64 <<< 8 ||| b1.setWidth 64) <<< 8 ||| b2.setWidth 64) <<< 8) |||
          b3.setWidth 64 := by
      apply BitVec.eq_of_getLsbD_eq
      intro i hi
      simp only [BitVec.getLsbD_or, BitVec.getLsbD_shiftLeft, BitVec.getLsbD_setWidth]
      grind
    rw [e, toNat_shift_or _ _ (by omega) (by rw [toNat_byte]; exact h3), toNat_byte,
      toNat_shift_or _ _ (by omega) (by rw [toNat_byte]; exact h2), toNat_byte,
      toNat_shift_or _ _ (by omega) (by rw [toNat_byte]; exact h1), toNat_byte, toNat_byte]
    omega
  refine bits_push ?_ (by omega)
  have e (x a b c d : Word64) : x ||| a ||| b ||| c ||| d = x ||| (a ||| b ||| c ||| d) := by
    simp only [BitVec.or_assoc]
  rw [e, toNat_shift_or _ _ (by omega) (by rw [hw]; omega), hw]
  exact Nat.mod_mod_of_dvd _ (Nat.pow_dvd_pow 2 (by omega))

/-! ## 3. The tape -/

/-- All bits at hand. -/
def tape (b : BitBuf) (strm : BzStream) : List Bool := b.bits ++ bytesBits strm.input

@[simp] theorem length_tape (b : BitBuf) (strm : BzStream) :
    (tape b strm).length = b.bsLive + 8 * strm.availIn := by
  rw [tape, List.length_append, BitBuf.length_bits, length_bytesBits, BzStream.input,
    length_bytesAt]

theorem tape_skip (b : BitBuf) (strm : BzStream) {n : Nat} (h : n ≤ b.bsLive) :
    tape (b.skip n) strm = (tape b strm).drop n := by
  rw [tape, tape, b.bits_skip h, List.drop_append_of_le_length (by rw [BitBuf.length_bits]; exact h)]

theorem bitsVal_take_tape (b : BitBuf) (strm : BzStream) {n : Nat} (h : n ≤ b.bsLive)
    (h64 : n ≤ 64) : bitsVal ((tape b strm).take n) = b.peek n := by
  rw [tape, List.take_append_of_le_length (by rw [BitBuf.length_bits]; exact h),
    b.bitsVal_take h h64]

theorem input_skip (strm : BzStream) {n : Nat} (h : n ≤ strm.availIn) :
    strm.input = bytesAt strm.mem strm.nextIn n ++
      bytesAt strm.mem (strm.nextIn + n) (strm.availIn - n) := by
  have e : n + (strm.availIn - n) = strm.availIn := by omega
  rw [BzStream.input, ← bytesAt_add, e]

/-- **The 4-byte refill moves bits, it does not change them.** -/
theorem tape_refill4 (b : BitBuf) (strm : BzStream) (h : canRefill4 .qbz2 b strm = true) :
    tape (refill4 b strm).1 (refill4 b strm).2 = tape b strm := by
  have h' : strm.availIn ≥ 4 ∧ b.bsLive ≤ 32 := of_decide_eq_true h
  rw [tape, tape, bits_refill4 b strm h'.2, input_skip strm h'.1, bytesBits_append,
    List.append_assoc]
  rfl

/-- **Nor does the 1-byte refill.** -/
theorem tape_refill1 (b : BitBuf) (strm : BzStream) (h : 0 < strm.availIn) (hb : b.bsLive ≤ 56) :
    tape (refill1 .qbz2 b strm).1 (refill1 .qbz2 b strm).2 = tape b strm := by
  rw [tape, tape, bits_refill1 b strm hb, input_skip strm h, bytesBits_append, List.append_assoc]
  rfl

theorem tape_refill1_reference (b : BitBuf) (strm : BzStream) (h : 0 < strm.availIn)
    (hb : b.bsLive ≤ 24) :
    tape (refill1 .reference b strm).1 (refill1 .reference b strm).2 = tape b strm := by
  rw [tape, tape, bits_refill1_reference b strm hb, input_skip strm h, bytesBits_append,
    List.append_assoc]
  rfl

end Qbz2
