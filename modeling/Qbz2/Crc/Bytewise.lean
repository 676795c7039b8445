/-
  File:      Qbz2/Crc/Bytewise.lean
  Subject:   The byte-at-a-time CRC of `src/qbz2_internal.h`, and what it computes.

  Modulo `P = x^32 + x^26 + ... + 1` (`crcPoly`) every table word is its index times `x^32`
  (`res_bz2Crc32Table`), so one `BZ_UPDATE_CRC` maps the register `c` to `c * x^8 + b * x^32`
  (`res_updateCrc`) and a whole buffer of `n` bytes to `c * x^(8n) + M * x^32`, `M` the bytes
  read as one polynomial, first byte highest (`res_crcFold`). The hardware path is compared with
  this residue; a register is determined by it (`crc_eq_of_res_eq`).
-/
import Qbz2.Crc.Table
import Qbz2.Lib.GF2

namespace Qbz2

open Polynomial GF2

/-! ## 1. The macros -/

/-- `BZ_INITIALISE_CRC`. -/
def initialiseCrc : Word32 := 0xffffffff#32

/-- `BZ_FINALISE_CRC`. -/
def finaliseCrc (crcVar : Word32) : Word32 := ~~~crcVar

/-- `BZ_UPDATE_CRC`. -/
def updateCrc (crcVar : Word32) (cha : Byte) : Word32 :=
  (crcVar <<< 8) ^^^ bz2Crc32Table (((crcVar >>> 24) ^^^ cha.setWidth 32).setWidth 8)

/-- `BZ_UPDATE_CRC` over a buffer, one byte at a time. -/
def crcFold (crc : Word32) (buf : List Byte) : Word32 := buf.foldl updateCrc crc

@[simp] theorem crcFold_nil (crc : Word32) : crcFold crc [] = crc := rfl

@[simp] theorem crcFold_cons (crc : Word32) (b : Byte) (bs : List Byte) :
    crcFold crc (b :: bs) = crcFold (updateCrc crc b) bs := rfl

theorem crcFold_append (crc : Word32) (bs cs : List Byte) :
    crcFold crc (bs ++ cs) = crcFold (crcFold crc bs) cs := List.foldl_append

/-! ## 2. The modulus -/

/-- The bits of `P` below `x^32`. -/
def crcPolyLow : Word32 := 0x04c11db7#32

/-- The CRC-32 polynomial. -/
noncomputable def crcPoly : (ZMod 2)[X] := X ^ 32 + poly crcPolyLow

theorem crcPoly_monic : crcPoly.Monic :=
  monic_X_pow_add (degree_poly_lt crcPolyLow)

theorem crcPoly_natDegree : crcPoly.natDegree = 32 := by
  have h : (poly crcPolyLow).degree < (X ^ 32 : (ZMod 2)[X]).degree := by
    rw [degree_X_pow]
    exact degree_poly_lt crcPolyLow
  have hd : crcPoly.degree = 32 := by
    unfold crcPoly
    rw [degree_add_eq_left_of_degree_lt h, degree_X_pow]
    rfl
  exact natDegree_eq_of_degree_eq_some hd

/-- `x`, the class of `X`. -/
noncomputable abbrev xi : AdjoinRoot crcPoly := AdjoinRoot.root crcPoly

/-- A register's residue. -/
noncomputable abbrev cres {w : Nat} (x : BitVec w) : AdjoinRoot crcPoly := res crcPoly x

theorem cres_xor {w : Nat} (x y : BitVec w) : cres (x ^^^ y) = cres x + cres y := res_xor x y

theorem cres_clmul {n m : Nat} (x : BitVec n) (y : BitVec m) :
    cres (clmul x y) = cres x * cres y := res_clmul x y

theorem crc_eq_of_res_eq {x y : Word32} (h : cres x = cres y) : x = y :=
  eq_of_res_eq crcPoly_monic crcPoly_natDegree h

theorem xi_pow_32 : xi ^ 32 = cres crcPolyLow := by
  have h : xi ^ 32 + cres crcPolyLow = 0 := by
    have hm : AdjoinRoot.mk crcPoly crcPoly = 0 := AdjoinRoot.mk_self
    rw [crcPoly, map_add, map_pow, AdjoinRoot.mk_X] at hm
    exact hm
  linear_combination h - res_add_self (cres crcPolyLow)

/-! ## 3. Multiplying by `x` in a register -/

/-- The register times `x`, reduced. -/
def mulX (a : Word32) : Word32 :=
  if a.msb then (a <<< 1) ^^^ crcPolyLow else a <<< 1

/-- The register times `x^n`. -/
def mulXPow : Nat → Word32 → Word32
  | 0, a => a
  | n + 1, a => mulX (mulXPow n a)

theorem poly_mul_X (a : Word32) :
    poly a * X = (if a.msb then X ^ 32 else 0) + poly (a <<< 1) := by
  ext i
  rw [coeff_add, coeff_poly, BitVec.getLsbD_shiftLeft, BitVec.msb_eq_getLsbD_last]
  cases i with
  | zero =>
    rw [coeff_mul_X_zero]
    split <;> simp
  | succ i =>
    rw [coeff_mul_X, coeff_poly]
    rcases Nat.lt_trichotomy (i + 1) 32 with h | h | h
    · have hc : (if a.getLsbD (32 - 1) = true then (X : (ZMod 2)[X]) ^ 32 else 0).coeff (i + 1) = 0 := by
        split
        · rw [coeff_X_pow, if_neg (by omega)]
        · simp
      rw [hc]
      simp [h]
    · obtain rfl : i = 31 := by omega
      cases a.getLsbD 31 <;> simp
    · have hc : (if a.getLsbD (32 - 1) = true then (X : (ZMod 2)[X]) ^ 32 else 0).coeff (i + 1) = 0 := by
        split
        · rw [coeff_X_pow, if_neg (by omega)]
        · simp
      rw [hc, BitVec.getLsbD_of_ge a i (by omega)]
      simp [show ¬ i + 1 < 32 by omega]

theorem res_mulX (a : Word32) : cres (mulX a) = xi * cres a := by
  have h : cres a * xi = (if a.msb then xi ^ 32 else 0) + cres (a <<< 1) := by
    have := congrArg (AdjoinRoot.mk crcPoly) (poly_mul_X a)
    rw [map_mul, map_add, AdjoinRoot.mk_X] at this
    rw [show cres a * xi = AdjoinRoot.mk crcPoly (poly a) * xi from rfl, this]
    split <;> simp [res]
  unfold mulX
  rw [mul_comm, h]
  split
  · rw [cres_xor, xi_pow_32]
    ring
  · rw [zero_add]

theorem res_mulXPow (n : Nat) (a : Word32) : cres (mulXPow n a) = xi ^ n * cres a := by
  induction n with
  | zero => simp [mulXPow]
  | succ n ih =>
    rw [mulXPow, res_mulX, ih, pow_succ]
    ring

/-! ## 4. The table and the fold -/

/-- `mulX` on the number a register holds. -/
def mulXNat (a : Nat) : Nat :=
  if 2 ^ 31 ≤ a then (2 * a) % 2 ^ 32 ^^^ 0x04c11db7 else 2 * a

/-- `mulXPow` on the number a register holds. -/
def mulXNatPow : Nat → Nat → Nat
  | 0, a => a
  | n + 1, a => mulXNat (mulXNatPow n a)

theorem mulX_toNat (a : Word32) : (mulX a).toNat = mulXNat a.toNat := by
  have hlt := a.isLt
  unfold mulX mulXNat
  rw [BitVec.msb_eq_decide]
  by_cases h : 2 ^ 31 ≤ a.toNat
  · rw [decide_eq_true h, if_pos rfl, if_pos h, BitVec.toNat_xor, BitVec.toNat_shiftLeft,
      Nat.shiftLeft_eq, Nat.mul_comm]
    rfl
  · rw [decide_eq_false h, if_neg (by decide), if_neg h, BitVec.toNat_shiftLeft, Nat.shiftLeft_eq]
    omega

theorem mulXPow_toNat (n : Nat) (a : Word32) : (mulXPow n a).toNat = mulXNatPow n a.toNat := by
  induction n with
  | zero => rfl
  | succ n ih => rw [mulXPow, mulX_toNat, ih, mulXNatPow]

theorem mulXNatPow_lt (n : Nat) {a : Nat} (h : a < 2 ^ 32) : mulXNatPow n a < 2 ^ 32 := by
  have e : (BitVec.ofNat 32 a).toNat = a := by rw [BitVec.toNat_ofNat, Nat.mod_eq_of_lt h]
  rw [← e, ← mulXPow_toNat]
  exact (mulXPow n (BitVec.ofNat 32 a)).isLt

/-- All 256 words of the table. -/
theorem bz2Crc32TableData_eq : bz2Crc32TableData = (List.range 256).map (mulXNatPow 32) := by
  decide +kernel

theorem bz2Crc32Table_eq (i : Byte) : bz2Crc32Table i = mulXPow 32 (i.setWidth 32) := by
  have hi : i.toNat < 256 := i.isLt
  apply BitVec.eq_of_toNat_eq
  have hw : (i.setWidth 32 : Word32).toNat = i.toNat := by
    rw [BitVec.toNat_setWidth]
    omega
  have hx : mulXNatPow 32 i.toNat < 2 ^ 32 := by
    rw [← hw, ← mulXPow_toNat]
    exact (mulXPow 32 _).isLt
  unfold bz2Crc32Table
  rw [mulXPow_toNat, hw, bz2Crc32TableData_eq, List.getD_eq_getElem?_getD, List.getElem?_map,
    List.getElem?_range hi, Option.map_some, Option.getD_some, BitVec.toNat_ofNat,
    Nat.mod_eq_of_lt hx]

theorem res_bz2Crc32Table (i : Byte) : cres (bz2Crc32Table i) = cres i * xi ^ 32 := by
  rw [bz2Crc32Table_eq, res_mulXPow, mul_comm]
  unfold cres res
  rw [poly_setWidth_of_le i (by omega)]

/-- **One update maps the register `c` to `c * x^8 + b * x^32`.** -/
theorem res_updateCrc (crc : Word32) (b : Byte) :
    cres (updateCrc crc b) = cres crc * xi ^ 8 + cres b * xi ^ 32 := by
  have hsplit : cres crc =
      cres ((crc >>> 24).setWidth 8) * xi ^ 24 + cres ((crc.setWidth 24).setWidth 32) := by
    unfold cres res
    rw [poly_split crc 24 32 8 (by omega) (by omega), map_add, map_mul, map_pow, AdjoinRoot.mk_X]
  have hshift : cres (crc <<< 8) = cres ((crc.setWidth 24).setWidth 32) * xi ^ 8 := by
    have e : crc <<< 8 = ((crc.setWidth 24).setWidth 32) <<< 8 := by
      apply BitVec.eq_of_getLsbD_eq
      intro i hi
      simp only [BitVec.getLsbD_shiftLeft, BitVec.getLsbD_setWidth]
      by_cases h8 : i < 8
      · simp [h8]
      · simp [h8, hi, show i - 8 < 24 by omega, show i - 8 < 32 by omega]
    rw [e]
    unfold cres res
    rw [poly_shiftLeft, map_mul, map_pow, AdjoinRoot.mk_X]
    intro i hi
    rw [BitVec.getLsbD_setWidth, BitVec.getLsbD_setWidth]
    simp [show ¬ i < 24 by omega]
  have hidx : cres (((crc >>> 24) ^^^ b.setWidth 32).setWidth 8) =
      cres ((crc >>> 24).setWidth 8) + cres b := by
    have e : ((crc >>> 24) ^^^ b.setWidth 32).setWidth 8 = (crc >>> 24).setWidth 8 ^^^ b := by
      simp
    rw [e, cres_xor]
  unfold updateCrc
  rw [cres_xor, hshift, res_bz2Crc32Table, hidx, hsplit]
  ring

/-- The residue of a byte string read as one polynomial, the first byte highest. -/
noncomputable def msgRes (acc : AdjoinRoot crcPoly) (bs : List Byte) : AdjoinRoot crcPoly :=
  bs.foldl (fun a b => a * xi ^ 8 + cres b) acc

theorem msgRes_append (acc : AdjoinRoot crcPoly) (bs cs : List Byte) :
    msgRes acc (bs ++ cs) = msgRes (msgRes acc bs) cs := List.foldl_append

theorem msgRes_acc (acc : AdjoinRoot crcPoly) (bs : List Byte) :
    msgRes acc bs = acc * xi ^ (8 * bs.length) + msgRes 0 bs := by
  induction bs generalizing acc with
  | nil => simp [msgRes]
  | cons b bs ih =>
    have h1 : msgRes acc (b :: bs) = msgRes (acc * xi ^ 8 + cres b) bs := rfl
    have h2 : msgRes 0 (b :: bs) = msgRes (0 * xi ^ 8 + cres b) bs := rfl
    rw [h1, h2, ih (acc * xi ^ 8 + cres b), ih (0 * xi ^ 8 + cres b), List.length_cons,
      Nat.mul_succ, pow_add]
    ring

/-- **The fold over a buffer**: the register shifted past the buffer, plus the message. -/
theorem res_crcFold (crc : Word32) (bs : List Byte) :
    cres (crcFold crc bs) = cres crc * xi ^ (8 * bs.length) + msgRes 0 bs * xi ^ 32 := by
  induction bs generalizing crc with
  | nil => simp [msgRes]
  | cons b bs ih =>
    have h2 : msgRes 0 (b :: bs) = msgRes (0 * xi ^ 8 + cres b) bs := rfl
    rw [crcFold_cons, ih, res_updateCrc, h2, msgRes_acc (0 * xi ^ 8 + cres b), List.length_cons,
      Nat.mul_succ, pow_add]
    ring

end Qbz2
