/-
  File:      Qbz2/Crc/Pclmul.lean
  Subject:   `src/crc32_pclmul.c`: the CRC by carry-less multiplication.

  The 128-bit intrinsics are functions on `BitVec 128`; `p` is the list of bytes from the
  pointer `p` to `end`. Every register stands for its residue modulo `P` (`cres`), and each stage
  is one equation about residues:

  * a 16-byte load is the message polynomial of its bytes (`res_load`);
  * `fold_128` with the constants `x^(n+64) : x^n` multiplies by `x^n` and adds (`res_fold128`);
  * the two reduction steps keep the residue and bring the register below 64 bits;
  * `barrett_reduce` keeps the residue of a register below 64 bits (`res_barrettReduce`).

  So the register before the tail holds `V mod P` with `V * x^32` the residue of the byte-wise
  fold, and two registers below degree 32 with one residue are equal.
-/
import Qbz2.Crc.Bytewise

namespace Qbz2

open Polynomial GF2

/-! ## 1. The intrinsics -/

/-- A 128-bit register from its bytes, byte 0 lowest. -/
def ofBytes (f : Nat → Byte) : BitVec 128 :=
  (BitVec.ofBoolListLE ((List.range 128).map fun k => (f (k / 8)).getLsbD (k % 8))).setWidth 128

/-- `_mm_loadu_si128`. -/
def mmLoaduSi128 (p : List Byte) : BitVec 128 := ofBytes fun i => p.getD i 0

/-- Byte `i` of a register. -/
def byteOf (a : BitVec 128) (i : Nat) : Byte := a.extractLsb' (8 * i) 8

/-- `_mm_shuffle_epi8`. -/
def mmShuffleEpi8 (a mask : BitVec 128) : BitVec 128 :=
  ofBytes fun i =>
    if (byteOf mask i).msb then 0 else byteOf a ((byteOf mask i).toNat % 16)

/-- `_mm_set_epi64x`. -/
def mmSetEpi64x (e1 e0 : BitVec 64) : BitVec 128 := e1 ++ e0

/-- `_mm_clmulepi64_si128`. -/
def mmClmulepi64 (a b : BitVec 128) (imm : Nat) : BitVec 128 :=
  clmul (n := 64) (m := 64)
    (if imm % 2 = 0 then a.setWidth 64 else (a >>> 64).setWidth 64)
    (if imm / 16 % 2 = 0 then b.setWidth 64 else (b >>> 64).setWidth 64)

/-- `_mm_srli_si128`. -/
def mmSrliSi128 (a : BitVec 128) (n : Nat) : BitVec 128 := a >>> (8 * n)

/-- `_mm_slli_si128`. -/
def mmSlliSi128 (a : BitVec 128) (n : Nat) : BitVec 128 := a <<< (8 * n)

/-- `_mm_cvtsi32_si128`. -/
def mmCvtsi32Si128 (a : Word32) : BitVec 128 := a.setWidth 128

/-- `_mm_extract_epi32`. -/
def mmExtractEpi32 (a : BitVec 128) (i : Nat) : Word32 := (a >>> (32 * i)).setWidth 32

/-- `_mm_set_epi32(0, 0, 0, -1)`. -/
def maskLo32 : BitVec 128 := 0xffffffff#128

/-- `_mm_set_epi64x(0, -1LL)`. -/
def maskLo64 : BitVec 128 := mmSetEpi64x 0#64 (-1#64)

/-! ## 2. The constants -/

/-- `K_FOLD4_HI`. -/
def kFold4Hi : BitVec 64 := 0x08833794C#64

/-- `K_FOLD4_LO`. -/
def kFold4Lo : BitVec 64 := 0x0E6228B11#64

/-- `K_FOLD1_HI`. -/
def kFold1Hi : BitVec 64 := 0x0C5B9CD4C#64

/-- `K_FOLD1_LO`. -/
def kFold1Lo : BitVec 64 := 0x0E8A45605#64

/-- `K_REDUCE_64`. -/
def kReduce64 : BitVec 64 := 0x0490D678D#64

/-- `K_BARRETT_MU`. -/
def kBarrettMu : BitVec 64 := 0x104D101DF#64

/-- `K_BARRETT_P`. -/
def kBarrettP : BitVec 64 := 0x104C11DB7#64

/-- `K_X32_MOD_P`. -/
def kX32ModP : BitVec 64 := 0x004C11DB7#64

/-- `bswap_mask_data`. -/
def bswapMaskData : List Byte :=
  [15, 14, 13, 12, 11, 10, 9, 8, 7, 6, 5, 4, 3, 2, 1, 0]

/-! ## 3. The functions -/

/-- `fold_128`. -/
def fold128 (data old k : BitVec 128) : BitVec 128 :=
  data ^^^ (mmClmulepi64 old k 0x00 ^^^ mmClmulepi64 old k 0x11)

/-- `barrett_reduce`. -/
def barrettReduce (x : BitVec 128) : Word32 :=
  let muV := mmSetEpi64x 0#64 kBarrettMu
  let pV := mmSetEpi64x 0#64 kBarrettP
  let t := mmSrliSi128 x 4 &&& maskLo32
  let q := mmSrliSi128 (mmClmulepi64 t muV 0x00) 4
  let t2 := mmClmulepi64 q pV 0x00
  mmExtractEpi32 (x ^^^ t2) 0

/-- A byte-reversed 16-byte load: `_mm_shuffle_epi8(_mm_loadu_si128(p), bswap)`. -/
def loadBlock (p : List Byte) : BitVec 128 :=
  mmShuffleEpi8 (mmLoaduSi128 p) (mmLoaduSi128 bswapMaskData)

/-- The main loop: 64 bytes at a time, four folds in parallel. Returns the registers and the
    bytes left. -/
def fold4Loop (p : List Byte) (x0 x1 x2 x3 : BitVec 128) :
    (BitVec 128 × BitVec 128 × BitVec 128 × BitVec 128) × List Byte :=
  if 64 ≤ p.length then
    let kFold4 := mmSetEpi64x kFold4Hi kFold4Lo
    let y0 := loadBlock p
    let y1 := loadBlock (p.drop 16)
    let y2 := loadBlock (p.drop 32)
    let y3 := loadBlock (p.drop 48)
    fold4Loop (p.drop 64) (fold128 y0 x0 kFold4) (fold128 y1 x1 kFold4) (fold128 y2 x2 kFold4)
      (fold128 y3 x3 kFold4)
  else
    ((x0, x1, x2, x3), p)
termination_by p.length
decreasing_by simp [List.length_drop]; omega

/-- The remaining 16-byte blocks. -/
def fold1Loop (p : List Byte) (x0 : BitVec 128) : BitVec 128 × List Byte :=
  if 16 ≤ p.length then
    fold1Loop (p.drop 16) (fold128 (loadBlock p) x0 (mmSetEpi64x kFold1Hi kFold1Lo))
  else
    (x0, p)
termination_by p.length
decreasing_by simp [List.length_drop]; omega

/-- Step 1 of the final reduction: 128 to 96 bits. -/
def reduce96 (x0 : BitVec 128) : BitVec 128 :=
  (x0 &&& maskLo64) ^^^ mmClmulepi64 (mmSrliSi128 x0 8) (mmSetEpi64x 0#64 kReduce64) 0x00

/-- Step 2: 96 to 64 bits. -/
def reduce64 (x0 : BitVec 128) : BitVec 128 :=
  (x0 &&& maskLo64) ^^^
    mmClmulepi64 (mmSrliSi128 x0 8 &&& maskLo32) (mmSetEpi64x 0#64 kReduce64) 0x00

/-- Step 4: times `x^32 mod P`, reduced. -/
def timesX32 (crcVModP : Word32) : Word32 :=
  barrettReduce (mmClmulepi64 (mmCvtsi32Si128 crcVModP) (mmSetEpi64x 0#64 kX32ModP) 0x00)

/-- `crc32_pclmul`. The source requires at least 64 bytes. -/
def crc32Pclmul (crcMsb : Word32) (buf : List Byte) : Word32 :=
  let x0 := loadBlock buf
  let x1 := loadBlock (buf.drop 16)
  let x2 := loadBlock (buf.drop 32)
  let x3 := loadBlock (buf.drop 48)
  let x0 := x0 ^^^ mmSlliSi128 (mmCvtsi32Si128 crcMsb) 12
  let ((x0, x1, x2, x3), p) := fold4Loop (buf.drop 64) x0 x1 x2 x3
  let kFold1 := mmSetEpi64x kFold1Hi kFold1Lo
  let x0 := fold128 x1 x0 kFold1
  let x0 := fold128 x2 x0 kFold1
  let x0 := fold128 x3 x0 kFold1
  let (x0, p) := fold1Loop p x0
  let crcVModP := barrettReduce (reduce64 (reduce96 x0))
  crcFold (timesX32 crcVModP) p

/-! ## 4. Loads -/

theorem getLsbD_ofBytes (f : Nat → Byte) (i : Nat) :
    (ofBytes f).getLsbD i = (decide (i < 128) && (f (i / 8)).getLsbD (i % 8)) := by
  unfold ofBytes
  rw [BitVec.getLsbD_setWidth, BitVec.getLsbD_ofBoolListLE, List.getD_eq_getElem?_getD]
  by_cases h : i < 128
  · rw [List.getElem?_map, List.getElem?_range h]
    rfl
  · rw [decide_eq_false h, Bool.false_and, Bool.false_and]

theorem byteOf_ofBytes (f : Nat → Byte) (i : Nat) (hi : i < 16) : byteOf (ofBytes f) i = f i := by
  apply BitVec.eq_of_getLsbD_eq
  intro j hj
  unfold byteOf
  rw [BitVec.getLsbD_extractLsb', getLsbD_ofBytes]
  have e1 : (8 * i + j) / 8 = i := by omega
  have e2 : (8 * i + j) % 8 = j := by omega
  rw [e1, e2]
  simp [hj, show 8 * i + j < 128 by omega]

theorem poly_ofBytes (f : Nat → Byte) :
    poly (ofBytes f) = ∑ k ∈ Finset.range 16, poly (f k) * X ^ (8 * k) := by
  ext i
  rw [finsetSum_coeff, coeff_poly, getLsbD_ofBytes]
  by_cases h : i < 128
  · rw [Finset.sum_eq_single (i / 8)]
    · rw [coeff_mul_X_pow', if_pos (show 8 * (i / 8) ≤ i by omega), coeff_poly]
      have e : i - 8 * (i / 8) = i % 8 := by omega
      rw [e]
      simp [h]
    · intro k _ hk
      rw [coeff_mul_X_pow']
      split
      · rw [coeff_poly, BitVec.getLsbD_of_ge _ _ (by omega)]
        simp
      · rfl
    · intro hn
      exact absurd (Finset.mem_range.mpr (by omega : i / 8 < 16)) hn
  · rw [decide_eq_false h, Bool.false_and, if_neg (by decide)]
    symm
    refine Finset.sum_eq_zero fun k hk => ?_
    have hk' : k < 16 := Finset.mem_range.mp hk
    rw [coeff_mul_X_pow']
    split
    · rw [coeff_poly, BitVec.getLsbD_of_ge _ _ (by omega)]
      simp
    · rfl

/-- The shuffle by `bswap` reverses the bytes. -/
theorem loadBlock_eq (p : List Byte) : loadBlock p = ofBytes fun i => p.getD (15 - i) 0 := by
  have hmask : ∀ i, i < 16 → byteOf (mmLoaduSi128 bswapMaskData) i = BitVec.ofNat 8 (15 - i) := by
    intro i hi
    unfold mmLoaduSi128
    rw [byteOf_ofBytes _ i hi]
    interval_cases i <;> rfl
  apply BitVec.eq_of_getLsbD_eq
  intro k hk
  unfold loadBlock mmShuffleEpi8
  rw [getLsbD_ofBytes, getLsbD_ofBytes, hmask (k / 8) (by omega)]
  have hmsb : (BitVec.ofNat 8 (15 - k / 8)).msb = false := by
    rw [BitVec.msb_eq_false_iff_two_mul_lt, BitVec.toNat_ofNat]
    omega
  have hn : (BitVec.ofNat 8 (15 - k / 8)).toNat % 16 = 15 - k / 8 := by
    rw [BitVec.toNat_ofNat]
    omega
  rw [hmsb, hn]
  unfold mmLoaduSi128
  rw [if_neg (by decide), byteOf_ofBytes _ _ (by omega)]

/-- A list of at least 16 bytes starts with 16 bytes. -/
theorem take16_eq (p : List Byte) (h : 16 ≤ p.length) :
    p.take 16 = [p.getD 0 0, p.getD 1 0, p.getD 2 0, p.getD 3 0, p.getD 4 0, p.getD 5 0,
      p.getD 6 0, p.getD 7 0, p.getD 8 0, p.getD 9 0, p.getD 10 0, p.getD 11 0, p.getD 12 0,
      p.getD 13 0, p.getD 14 0, p.getD 15 0] := by
  apply List.ext_getElem
  · simp [h]
  · intro i h1 h2
    have hi : i < 16 := by simpa using h2
    have hp : i < p.length := by omega
    have hg : p[i] = p.getD i 0 := by
      rw [List.getD_eq_getElem?_getD, List.getElem?_eq_getElem hp]
      rfl
    rw [List.getElem_take, hg]
    interval_cases i <;> rfl

/-- **A load is the message polynomial of its 16 bytes.** -/
theorem res_loadBlock (p : List Byte) (h : 16 ≤ p.length) :
    cres (loadBlock p) = msgRes 0 (p.take 16) := by
  rw [loadBlock_eq, take16_eq p h]
  unfold cres res
  rw [poly_ofBytes, map_sum]
  simp only [map_mul, map_pow, AdjoinRoot.mk_X, Finset.sum_range_succ, Finset.sum_range_zero,
    msgRes, List.foldl_cons, List.foldl_nil]
  unfold cres res
  ring

/-! ## 5. Folds -/

theorem setWidth_mmSetEpi64x (e1 e0 : BitVec 64) : (mmSetEpi64x e1 e0).setWidth 64 = e0 := by
  apply BitVec.eq_of_getLsbD_eq
  intro i hi
  have h : (mmSetEpi64x e1 e0).getLsbD i = _ := BitVec.getLsbD_append
  rw [BitVec.getLsbD_setWidth, h]
  simp [hi]

theorem shift_mmSetEpi64x (e1 e0 : BitVec 64) :
    ((mmSetEpi64x e1 e0) >>> 64).setWidth 64 = e1 := by
  apply BitVec.eq_of_getLsbD_eq
  intro i hi
  have h : (mmSetEpi64x e1 e0).getLsbD (64 + i) = _ := BitVec.getLsbD_append
  rw [BitVec.getLsbD_setWidth, BitVec.getLsbD_ushiftRight, h]
  simp [hi]

theorem res_halves (x : BitVec 128) :
    cres x = cres ((x >>> 64).setWidth 64) * xi ^ 64 + cres (x.setWidth 64) := by
  unfold cres res
  rw [poly_split x 64 64 64 (by omega) (by omega), map_add, map_mul, map_pow, AdjoinRoot.mk_X,
    BitVec.setWidth_eq]

theorem res_fold128_aux (data old : BitVec 128) (e1 e0 : BitVec 64) :
    cres (fold128 data old (mmSetEpi64x e1 e0)) =
      cres data + (cres (old.setWidth 64) * cres e0 +
        cres ((old >>> 64).setWidth 64) * cres e1) := by
  unfold fold128
  rw [cres_xor, cres_xor]
  unfold mmClmulepi64
  rw [cres_clmul, cres_clmul]
  simp [setWidth_mmSetEpi64x, shift_mmSetEpi64x]

/-- **A fold with constants `x^(n+64)` and `x^n` multiplies by `x^n` and adds the new block.** -/
theorem res_fold128 (data old : BitVec 128) (e1 e0 : BitVec 64) (n : Nat)
    (h1 : cres e1 = xi ^ (n + 64)) (h0 : cres e0 = xi ^ n) :
    cres (fold128 data old (mmSetEpi64x e1 e0)) = cres old * xi ^ n + cres data := by
  rw [res_fold128_aux, h1, h0, res_halves old, pow_add]
  ring

theorem res_pow_const (c : BitVec 64) (n : Nat) (h : c = (mulXPow n 1#32).setWidth 64) :
    cres c = xi ^ n := by
  have h2 : cres ((mulXPow n 1#32).setWidth 64) = cres (mulXPow n 1#32) := by
    unfold cres res
    rw [poly_setWidth_of_le _ (by omega)]
  rw [h, h2, res_mulXPow, cres, res_one 32 (by omega), mul_one]

/-- The source's constants are the powers of `x` its comments name, modulo `P`, and
    `K_BARRETT_MU` the quotient of `x^64` by `P`. -/
theorem foldConstants :
    kFold4Hi = (mulXPow (512 + 64) 1#32).setWidth 64 ∧ kFold4Lo = (mulXPow 512 1#32).setWidth 64 ∧
    kFold1Hi = (mulXPow (128 + 64) 1#32).setWidth 64 ∧ kFold1Lo = (mulXPow 128 1#32).setWidth 64 ∧
    kReduce64 = (mulXPow 64 1#32).setWidth 64 ∧ kX32ModP = (mulXPow 32 1#32).setWidth 64 ∧
    clmul kBarrettMu kBarrettP =
      (1#64 ++ ((clmul kBarrettMu kBarrettP).setWidth 32).setWidth 64 : BitVec 128) := by
  decide +kernel

theorem res_kFold4Hi : cres kFold4Hi = xi ^ (512 + 64) := res_pow_const _ _ foldConstants.1

theorem res_kFold4Lo : cres kFold4Lo = xi ^ 512 := res_pow_const _ _ foldConstants.2.1

theorem res_kFold1Hi : cres kFold1Hi = xi ^ (128 + 64) := res_pow_const _ _ foldConstants.2.2.1

theorem res_kFold1Lo : cres kFold1Lo = xi ^ 128 := res_pow_const _ _ foldConstants.2.2.2.1

theorem res_kReduce64 : cres kReduce64 = xi ^ 64 := res_pow_const _ _ foldConstants.2.2.2.2.1

theorem res_kX32ModP : cres kX32ModP = xi ^ 32 := res_pow_const _ _ foldConstants.2.2.2.2.2.1

/-- The residue four registers stand for together. -/
noncomputable def regs4 (x0 x1 x2 x3 : BitVec 128) : AdjoinRoot crcPoly :=
  cres x0 * xi ^ 384 + cres x1 * xi ^ 256 + cres x2 * xi ^ 128 + cres x3

/-- The message polynomial of the next 64 bytes, 16 at a time. -/
theorem msgRes_take64 (p : List Byte) (h : 64 ≤ p.length) :
    msgRes 0 (p.take 64) =
      regs4 (loadBlock p) (loadBlock (p.drop 16)) (loadBlock (p.drop 32))
        (loadBlock (p.drop 48)) := by
  have e : p.take 64 = p.take 16 ++ ((p.drop 16).take 16 ++
      ((p.drop 32).take 16 ++ (p.drop 48).take 16)) := by
    rw [show (64 : Nat) = 16 + 48 by rfl, List.take_add, show (48 : Nat) = 16 + 32 by rfl,
      List.take_add, show (32 : Nat) = 16 + 16 by rfl, List.take_add]
    simp [List.drop_drop]
  rw [e, msgRes_append, msgRes_append, msgRes_append, regs4,
    res_loadBlock p (by omega), res_loadBlock (p.drop 16) (by simp; omega),
    res_loadBlock (p.drop 32) (by simp; omega), res_loadBlock (p.drop 48) (by simp; omega)]
  rw [msgRes_acc _ ((p.drop 48).take 16), msgRes_acc _ ((p.drop 32).take 16),
    msgRes_acc _ ((p.drop 16).take 16)]
  have l1 : ((p.drop 16).take 16).length = 16 := by simp; omega
  have l2 : ((p.drop 32).take 16).length = 16 := by simp; omega
  have l3 : ((p.drop 48).take 16).length = 16 := by simp; omega
  rw [l1, l2, l3]
  ring

/-- **The main loop**: the registers shifted past the bytes it took, plus those bytes. -/
theorem fold4Loop_spec (p : List Byte) (x0 x1 x2 x3 : BitVec 128) :
    ∃ n y0 y1 y2 y3, fold4Loop p x0 x1 x2 x3 = ((y0, y1, y2, y3), p.drop n) ∧ n ≤ p.length ∧
      regs4 y0 y1 y2 y3 = regs4 x0 x1 x2 x3 * xi ^ (8 * n) + msgRes 0 (p.take n) := by
  induction p, x0, x1, x2, x3 using fold4Loop.induct with
  | case1 p x0 x1 x2 x3 h kFold4 y0 y1 y2 y3 ih =>
    obtain ⟨n, z0, z1, z2, z3, he, hn, hr⟩ := ih
    refine ⟨64 + n, z0, z1, z2, z3, ?_, ?_, ?_⟩
    · rw [fold4Loop, if_pos h]
      rw [← List.drop_drop, ← he]
    · simp only [List.length_drop] at hn
      omega
    · have hstep : regs4 (fold128 y0 x0 kFold4) (fold128 y1 x1 kFold4) (fold128 y2 x2 kFold4)
          (fold128 y3 x3 kFold4) = regs4 x0 x1 x2 x3 * xi ^ 512 + msgRes 0 (p.take 64) := by
        rw [msgRes_take64 p h]
        unfold regs4
        simp only [kFold4, res_fold128 _ _ _ _ 512 res_kFold4Hi res_kFold4Lo]
        ring
      have hlen : ((p.drop 64).take n).length = n := by
        simp only [List.length_take]
        omega
      rw [hr, hstep, List.take_add, msgRes_append, msgRes_acc (msgRes 0 (p.take 64)), hlen]
      ring
  | case2 p x0 x1 x2 x3 h =>
    refine ⟨0, x0, x1, x2, x3, ?_, Nat.zero_le _, ?_⟩
    · rw [fold4Loop, if_neg h]
      rfl
    · simp [msgRes]

/-- **The 16-byte loop.** -/
theorem fold1Loop_spec (p : List Byte) (x0 : BitVec 128) :
    ∃ n y0, fold1Loop p x0 = (y0, p.drop n) ∧ n ≤ p.length ∧
      cres y0 = cres x0 * xi ^ (8 * n) + msgRes 0 (p.take n) := by
  induction p, x0 using fold1Loop.induct with
  | case1 p x0 h ih =>
    obtain ⟨n, z0, he, hn, hr⟩ := ih
    refine ⟨16 + n, z0, ?_, ?_, ?_⟩
    · rw [fold1Loop, if_pos h, he, List.drop_drop]
    · simp only [List.length_drop] at hn
      omega
    · have hlen : ((p.drop 16).take n).length = n := by
        simp only [List.length_take]
        omega
      rw [hr, res_fold128 _ _ _ _ 128 res_kFold1Hi res_kFold1Lo, res_loadBlock p h,
        List.take_add, msgRes_append, msgRes_acc (msgRes 0 (p.take 16)), hlen]
      ring
  | case2 p x0 h =>
    refine ⟨0, x0, ?_, Nat.zero_le _, ?_⟩
    · rw [fold1Loop, if_neg h]
      rfl
    · simp [msgRes]

/-! ## 6. Reduction -/

theorem poly_and_maskLo64 (x : BitVec 128) : poly (x &&& maskLo64) = poly (x.setWidth 64) := by
  ext i
  rw [coeff_poly, coeff_poly, BitVec.getLsbD_and, BitVec.getLsbD_setWidth]
  have hm : maskLo64.getLsbD i = decide (i < 64) := by
    by_cases h : i < 128
    · have : ∀ i : Fin 128, maskLo64.getLsbD i = decide (i.val < 64) := by decide
      exact this ⟨i, h⟩
    · rw [BitVec.getLsbD_of_ge _ _ (by omega)]
      simp
      omega
  rw [hm, Bool.and_comm]

theorem poly_and_maskLo32 (x : BitVec 128) : poly (x &&& maskLo32) = poly (x.setWidth 32) := by
  ext i
  rw [coeff_poly, coeff_poly, BitVec.getLsbD_and, BitVec.getLsbD_setWidth]
  have hm : maskLo32.getLsbD i = decide (i < 32) := by
    by_cases h : i < 128
    · have : ∀ i : Fin 128, maskLo32.getLsbD i = decide (i.val < 32) := by decide
      exact this ⟨i, h⟩
    · rw [BitVec.getLsbD_of_ge _ _ (by omega)]
      simp
      omega
  rw [hm, Bool.and_comm]

/-- A carry-less product of the low halves, as a polynomial. -/
theorem poly_mmClmul_lo (a b : BitVec 128) :
    poly (mmClmulepi64 a b 0x00) = poly (a.setWidth 64) * poly (b.setWidth 64) := by
  unfold mmClmulepi64
  rw [if_pos (by decide), if_pos (by decide), poly_clmul]

/-- The constants below `2^32` (or `2^33` for the two Barrett ones) have the expected degree. -/
theorem degree_of_lt {w : Nat} (x : BitVec w) (k : Nat) (h : x.toNat < 2 ^ k) :
    (poly x).degree < k := by
  rw [degree_poly_lt_iff]
  intro i hi
  exact Nat.testBit_lt_two_pow (Nat.lt_of_lt_of_le h (Nat.pow_le_pow_right (by omega) hi))

theorem degree_le_of_lt {w : Nat} (x : BitVec w) (k : Nat) (h : x.toNat < 2 ^ (k + 1)) :
    (poly x).degree ≤ k := by
  rw [degree_le_iff_coeff_zero]
  intro i hi
  have hi' : k < i := by exact_mod_cast hi
  have hx : x.getLsbD i = false :=
    Nat.testBit_lt_two_pow (Nat.lt_of_lt_of_le h (Nat.pow_le_pow_right (by omega) (by omega)))
  rw [coeff_poly, hx]
  simp

theorem reduce96_spec (x0 : BitVec 128) :
    cres (reduce96 x0) = cres x0 ∧ (poly (reduce96 x0)).degree < (96 : Nat) := by
  have hp : poly (reduce96 x0) =
      poly (x0.setWidth 64) + poly ((x0 >>> 64).setWidth 64) * poly kReduce64 := by
    unfold reduce96 mmSrliSi128
    rw [poly_xor, poly_and_maskLo64, poly_mmClmul_lo, setWidth_mmSetEpi64x]
  constructor
  · rw [res_halves x0]
    unfold cres res
    rw [hp, map_add, map_mul]
    have := res_kReduce64
    unfold cres res at this
    rw [this]
    ring
  · rw [hp]
    refine lt_of_le_of_lt (degree_add_le _ _) (max_lt ?_ ?_)
    · exact lt_of_lt_of_le (degree_poly_lt _) (by exact_mod_cast (by decide : (64 : Nat) ≤ 96))
    · exact degree_mul_lt (a := 64) (b := 32) (degree_poly_lt _)
        (degree_of_lt kReduce64 32 (by decide)).le

theorem reduce64_spec (x0 : BitVec 128) (h : (poly x0).degree < (96 : Nat)) :
    cres (reduce64 x0) = cres x0 ∧ (poly (reduce64 x0)).degree < (64 : Nat) := by
  have hclear := (degree_poly_lt_iff x0 96).mp h
  have hhi : poly ((mmSrliSi128 x0 8 &&& maskLo32).setWidth 64) =
      poly ((x0 >>> 64).setWidth 64) := by
    rw [poly_setWidth]
    · rw [poly_and_maskLo32]
      unfold mmSrliSi128
      rw [poly_setWidth, poly_setWidth]
      · intro i hi
        rw [BitVec.getLsbD_ushiftRight]
        exact hclear _ (by omega)
      · intro i hi
        rw [BitVec.getLsbD_ushiftRight]
        exact hclear _ (by omega)
    · intro i hi
      rw [BitVec.getLsbD_and]
      unfold mmSrliSi128
      rw [BitVec.getLsbD_ushiftRight, hclear _ (by omega), Bool.false_and]
  have hp : poly (reduce64 x0) =
      poly (x0.setWidth 64) + poly ((x0 >>> 64).setWidth 64) * poly kReduce64 := by
    unfold reduce64
    rw [poly_xor, poly_and_maskLo64, poly_mmClmul_lo, setWidth_mmSetEpi64x, hhi]
  have hdeg : (poly ((x0 >>> 64).setWidth 64)).degree < (32 : Nat) := by
    rw [degree_poly_lt_iff]
    intro i hi
    rw [BitVec.getLsbD_setWidth, BitVec.getLsbD_ushiftRight, hclear _ (by omega), Bool.and_false]
  constructor
  · rw [res_halves x0]
    unfold cres res
    rw [hp, map_add, map_mul]
    have := res_kReduce64
    unfold cres res at this
    rw [this]
    ring
  · rw [hp]
    refine lt_of_le_of_lt (degree_add_le _ _) (max_lt (degree_poly_lt _) ?_)
    exact degree_mul_lt (a := 32) (b := 32) hdeg (degree_of_lt kReduce64 32 (by decide)).le

theorem poly_kBarrettP : poly kBarrettP = crcPoly := by
  have e : kBarrettP = (1#32 ++ crcPolyLow : BitVec 64) := by decide
  rw [e, poly_append, poly_one 32 (by omega), one_mul, crcPoly]

/-- `K_BARRETT_MU` is the quotient of `X^64` by `P`. -/
theorem poly_kBarrettMu_mul :
    poly kBarrettMu * crcPoly =
      X ^ (2 * 32) + poly ((clmul kBarrettMu kBarrettP).setWidth 32) := by
  have hlo : (poly ((clmul kBarrettMu kBarrettP).setWidth 32)).degree < (32 : Nat) :=
    degree_poly_lt _
  have e : clmul kBarrettMu kBarrettP =
      (1#64 ++ ((clmul kBarrettMu kBarrettP).setWidth 32).setWidth 64 : BitVec 128) :=
    foldConstants.2.2.2.2.2.2
  rw [← poly_kBarrettP, ← poly_clmul, e, poly_append, poly_one 64 (by omega), one_mul,
    poly_setWidth_of_le _ (by omega), ← e]

/-- **Barrett reduction keeps the residue** of a register below 64 bits. -/
theorem res_barrettReduce (x : BitVec 128) (h : (poly x).degree < (64 : Nat)) :
    cres (barrettReduce x) = cres x := by
  have hclear := (degree_poly_lt_iff x 64).mp h
  -- `T`, the high half, survives the masks
  have hT : poly ((mmSrliSi128 x 4 &&& maskLo32).setWidth 64) =
      poly ((x >>> 32).setWidth 32) := by
    rw [poly_setWidth, poly_and_maskLo32]
    · rfl
    · intro i hi
      rw [BitVec.getLsbD_and]
      unfold mmSrliSi128
      rw [BitVec.getLsbD_ushiftRight, hclear _ (by omega), Bool.false_and]
  have hTdeg : (poly ((x >>> 32).setWidth 32)).degree < (32 : Nat) := degree_poly_lt _
  have hx : poly x = poly ((x >>> 32).setWidth 32) * X ^ 32 + poly (x.setWidth 32) := by
    ext i
    rw [coeff_add, coeff_mul_X_pow', coeff_poly, coeff_poly, BitVec.getLsbD_setWidth]
    by_cases h32 : 32 ≤ i
    · rw [if_pos h32, coeff_poly, BitVec.getLsbD_setWidth, BitVec.getLsbD_ushiftRight]
      have e : 32 + (i - 32) = i := by omega
      rw [e]
      by_cases h64 : i < 64
      · simp [show i - 32 < 32 by omega, show ¬ i < 32 by omega]
      · simp [show ¬ i < 32 by omega, hclear i (by omega)]
    · simp [h32, coeff_poly, show i < 32 by omega]
  -- the product with `mu`, split at `X^32`
  obtain ⟨q0, hq0⟩ : ∃ q0, q0 = mmClmulepi64 (mmSrliSi128 x 4 &&& maskLo32)
      (mmSetEpi64x 0#64 kBarrettMu) 0x00 := ⟨_, rfl⟩
  have hq0p : poly q0 = poly ((x >>> 32).setWidth 32) * poly kBarrettMu := by
    rw [hq0, poly_mmClmul_lo, hT, setWidth_mmSetEpi64x]
  have hq0deg : (poly q0).degree < ((32 + 32 : Nat) : WithBot Nat) := by
    rw [hq0p]
    exact degree_mul_lt hTdeg (degree_le_of_lt kBarrettMu 32 (by decide))
  have hq0clear := (degree_poly_lt_iff q0 64).mp hq0deg
  have hQ : poly q0 = poly (q0 >>> 32) * X ^ 32 + poly (q0.setWidth 32) := by
    rw [poly_split q0 32 32 128 (by omega) (by omega), BitVec.setWidth_eq, BitVec.setWidth_eq]
  have hQlo : poly ((q0 >>> 32).setWidth 64) = poly (q0 >>> 32) := by
    apply poly_setWidth
    intro i hi
    rw [BitVec.getLsbD_ushiftRight]
    exact hq0clear _ (by omega)
  have ht2 : poly (x ^^^ mmClmulepi64 (mmSrliSi128 q0 4) (mmSetEpi64x 0#64 kBarrettP) 0x00) =
      poly ((x >>> 32).setWidth 32) * X ^ 32 + poly (x.setWidth 32) +
        poly (q0 >>> 32) * crcPoly := by
    rw [poly_xor, poly_mmClmul_lo, setWidth_mmSetEpi64x, poly_kBarrettP, ← hx]
    unfold mmSrliSi128
    rw [hQlo]
  have hdeg := degree_barrett_lt (P := crcPoly) (w := 32) poly_kBarrettMu_mul
    (degree_poly_lt _)
    (by rw [degree_eq_natDegree crcPoly_monic.ne_zero, crcPoly_natDegree])
    (hq0p.symm.trans hQ) (degree_poly_lt _) hTdeg (degree_poly_lt (x.setWidth 32))
  rw [← ht2] at hdeg
  have hout : barrettReduce x =
      (x ^^^ mmClmulepi64 (mmSrliSi128 q0 4) (mmSetEpi64x 0#64 kBarrettP) 0x00).setWidth 32 := by
    unfold barrettReduce mmExtractEpi32
    rw [hq0]
    simp
  rw [hout]
  unfold cres res
  rw [poly_setWidth 32 _ ((degree_poly_lt_iff _ 32).mp hdeg), ht2, ← hx, map_add, map_mul,
    AdjoinRoot.mk_self, mul_zero, add_zero]

theorem res_timesX32 (c : Word32) : cres (timesX32 c) = cres c * xi ^ 32 := by
  have hp : poly (mmClmulepi64 (mmCvtsi32Si128 c) (mmSetEpi64x 0#64 kX32ModP) 0x00) =
      poly c * poly kX32ModP := by
    rw [poly_mmClmul_lo, setWidth_mmSetEpi64x]
    unfold mmCvtsi32Si128
    rw [poly_setWidth, poly_setWidth_of_le c (by omega)]
    intro i hi
    rw [BitVec.getLsbD_setWidth, BitVec.getLsbD_of_ge c i (by omega), Bool.and_false]
  unfold timesX32
  rw [res_barrettReduce]
  · have := res_kX32ModP
    unfold cres res at this ⊢
    rw [hp, map_mul, this]
  · rw [hp]
    exact degree_mul_lt (a := 32) (b := 32) (degree_poly_lt c)
      (degree_of_lt kX32ModP 32 (by decide)).le

/-- The initial XOR puts the register above the first block. -/
theorem res_crcXor (crc : Word32) :
    cres (mmSlliSi128 (mmCvtsi32Si128 crc) 12) = cres crc * xi ^ 96 := by
  unfold mmSlliSi128 mmCvtsi32Si128 cres res
  rw [poly_shiftLeft, poly_setWidth_of_le crc (by omega), map_mul, map_pow, AdjoinRoot.mk_X]
  intro i hi
  rw [BitVec.getLsbD_setWidth, BitVec.getLsbD_of_ge crc i (by omega), Bool.and_false]

/-! ## 7. The whole function -/

/-- **The residue the hardware path computes** is that of the byte-wise fold: the register
    shifted past the buffer, plus the message times `x^32`. -/
theorem res_crc32Pclmul (crc : Word32) (buf : List Byte) (h : 64 ≤ buf.length) :
    cres (crc32Pclmul crc buf) =
      cres crc * xi ^ (8 * buf.length) + msgRes 0 buf * xi ^ 32 := by
  obtain ⟨n, y0, y1, y2, y3, h4, hn, hr4⟩ := fold4Loop_spec (buf.drop 64)
    (loadBlock buf ^^^ mmSlliSi128 (mmCvtsi32Si128 crc) 12) (loadBlock (buf.drop 16))
    (loadBlock (buf.drop 32)) (loadBlock (buf.drop 48))
  obtain ⟨z, hz⟩ : ∃ z, z = fold128 y3 (fold128 y2 (fold128 y1 y0
      (mmSetEpi64x kFold1Hi kFold1Lo)) (mmSetEpi64x kFold1Hi kFold1Lo))
      (mmSetEpi64x kFold1Hi kFold1Lo) := ⟨_, rfl⟩
  obtain ⟨m, w, h1, hm, hr1⟩ := fold1Loop_spec ((buf.drop 64).drop n) z
  have hzres : cres z = regs4 y0 y1 y2 y3 := by
    rw [hz]
    simp only [res_fold128 _ _ _ _ 128 res_kFold1Hi res_kFold1Lo, regs4]
    ring
  have hx0 : regs4 (loadBlock buf ^^^ mmSlliSi128 (mmCvtsi32Si128 crc) 12)
      (loadBlock (buf.drop 16)) (loadBlock (buf.drop 32)) (loadBlock (buf.drop 48)) =
      cres crc * xi ^ 480 + msgRes 0 (buf.take 64) := by
    rw [msgRes_take64 buf h]
    unfold regs4
    rw [cres_xor, res_crcXor]
    ring
  have hunfold : crc32Pclmul crc buf =
      crcFold (timesX32 (barrettReduce (reduce64 (reduce96 w))))
        (((buf.drop 64).drop n).drop m) := by
    simp only [crc32Pclmul, h4, ← hz, h1]
  have hlen1 : ((buf.drop 64).take n).length = n := by
    rw [List.length_take]
    omega
  have hlen2 : (((buf.drop 64).drop n).take m).length = m := by
    rw [List.length_take]
    omega
  have hsplit : buf = buf.take 64 ++ ((buf.drop 64).take n ++
      (((buf.drop 64).drop n).take m ++ ((buf.drop 64).drop n).drop m)) := by
    rw [List.take_append_drop, List.take_append_drop, List.take_append_drop]
  -- the bytes before the tail: `V * x^32` is the residue of their byte-wise fold
  have hreg : cres (timesX32 (barrettReduce (reduce64 (reduce96 w)))) =
      cres (crcFold crc
        (buf.take 64 ++ ((buf.drop 64).take n ++ ((buf.drop 64).drop n).take m))) := by
    rw [res_timesX32, res_barrettReduce _ (reduce64_spec _ (reduce96_spec w).2).2,
      (reduce64_spec _ (reduce96_spec w).2).1, (reduce96_spec w).1, hr1, hzres, hr4, hx0,
      res_crcFold, msgRes_append, msgRes_append,
      msgRes_acc (msgRes (msgRes 0 (buf.take 64)) ((buf.drop 64).take n)),
      msgRes_acc (msgRes 0 (buf.take 64)) ((buf.drop 64).take n)]
    simp only [List.length_append, hlen1, hlen2, List.length_take, Nat.min_eq_left h]
    ring
  rw [hunfold, crc_eq_of_res_eq hreg, ← crcFold_append, ← res_crcFold]
  congr 2
  conv_rhs => rw [hsplit]
  simp only [List.append_assoc]

/-- **The hardware path is the byte-wise fold**, for every register and every buffer of at least
    64 bytes. -/
theorem crc32Pclmul_eq_crcFold (crc : Word32) (buf : List Byte) (h : 64 ≤ buf.length) :
    crc32Pclmul crc buf = crcFold crc buf :=
  crc_eq_of_res_eq ((res_crc32Pclmul crc buf h).trans (res_crcFold crc buf).symm)

/-- 77 bytes take the 64-byte head, no 64-byte fold, no 16-byte fold and a 13-byte tail. -/
theorem crc32Pclmul_eq_crcFold_77 :
    64 ≤ (List.replicate 77 (0x5a#8)).length ∧
      crc32Pclmul initialiseCrc (List.replicate 77 0x5a#8) =
        crcFold initialiseCrc (List.replicate 77 0x5a#8) :=
  ⟨by decide, crc32Pclmul_eq_crcFold _ _ (by decide)⟩

end Qbz2
