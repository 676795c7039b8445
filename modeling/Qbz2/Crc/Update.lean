/-
  File:      Qbz2/Crc/Update.lean
  Subject:   `BZ2_crc32_update` (`src/crctable.c`): the hardware path or slicing by eight.

  Which path a call takes depends on the build (`Build.pclmul`), on the length and, in the
  slicing path, on the alignment of the buffer's address. Table `k` of `crc32_s8` holds its index
  times `x^(32+8k)` (`res_crc32S8`), so eight bytes at once are eight updates
  (`slice8Step_eq`) and every path is the byte-wise fold (`bz2Crc32Update_eq`); **`softwarePath`** is
  the one without `__PCLMUL__`.
-/
import Qbz2.Crc.Pclmul

namespace Qbz2

open GF2

/-- What a build fixes: whether `__PCLMUL__` is defined, and where the local buffer of
    `add_pair_to_block` lies. -/
class Build where
  pclmul : Bool
  bufAddr : Int

/-! ## 1. The function -/

/-- `memcpy(&one, p, 4)` on a little-endian machine. -/
def load32 (b0 b1 b2 b3 : Byte) : Word32 := b3 ++ b2 ++ b1 ++ b0

/-- `__builtin_bswap32`. -/
def bswap32 (x : Word32) : Word32 :=
  x.extractLsb' 0 8 ++ x.extractLsb' 8 8 ++ x.extractLsb' 16 8 ++ x.extractLsb' 24 8

/-- One pass of the slicing-by-8 main loop. -/
def slice8Step (crc : Word32) (b0 b1 b2 b3 b4 b5 b6 b7 : Byte) : Word32 :=
  let one := load32 b0 b1 b2 b3
  let two := load32 b4 b5 b6 b7
  let one := one ^^^ bswap32 crc
  let one := bswap32 one
  let two := bswap32 two
  crc32S8 7 ((one >>> 24).setWidth 8) ^^^
  crc32S8 6 ((one >>> 16).setWidth 8) ^^^
  crc32S8 5 ((one >>> 8).setWidth 8) ^^^
  crc32S8 4 (one.setWidth 8) ^^^
  crc32S8 3 ((two >>> 24).setWidth 8) ^^^
  crc32S8 2 ((two >>> 16).setWidth 8) ^^^
  crc32S8 1 ((two >>> 8).setWidth 8) ^^^
  crc32S8 0 (two.setWidth 8)

/-- Byte at a time until the address is 4-byte aligned. -/
def alignLoop (addr : Int) (crc : Word32) : List Byte → Word32 × List Byte
  | [] => (crc, [])
  | b :: p => if addr % 4 = 0 then (crc, b :: p) else alignLoop (addr + 1) (updateCrc crc b) p

/-- The main loop and the byte-at-a-time tail. -/
def slice8Loop (crc : Word32) : List Byte → Word32
  | b0 :: b1 :: b2 :: b3 :: b4 :: b5 :: b6 :: b7 :: p =>
    slice8Loop (slice8Step crc b0 b1 b2 b3 b4 b5 b6 b7) p
  | p => crcFold crc p

/-- `BZ2_crc32_update`, the buffer at address `addr`. -/
def bz2Crc32Update [Build] (addr : Int) (crc : Word32) (buf : List Byte) : Word32 :=
  if Build.pclmul ∧ 64 ≤ buf.length then crc32Pclmul crc buf
  else
    let (crc, p) := alignLoop addr crc buf
    slice8Loop crc p

/-! ## 2. The tables -/

/-- All 2048 words: the first table is the byte-at-a-time one, each other is the one before it,
    one byte further. -/
theorem crc32S8Data_eq : crc32S8Data.head? = some bz2Crc32TableData ∧
    crc32S8Data.tail = (crc32S8Data.take 7).map (List.map (mulXNatPow 8)) := by
  decide +kernel

theorem crc32S8Data_succ (k : Nat) (hk : k < 7) :
    crc32S8Data.getD (k + 1) [] = (crc32S8Data.getD k []).map (mulXNatPow 8) := by
  have h1 : crc32S8Data[k + 1]? = crc32S8Data.tail[k]? := List.getElem?_tail.symm
  have hl : k < crc32S8Data.length := Nat.lt_trans hk (by decide)
  rw [List.getD_eq_getElem?_getD, List.getD_eq_getElem?_getD, h1, crc32S8Data_eq.2,
    List.getElem?_map, List.getElem?_take_of_lt hk, List.getElem?_eq_getElem hl]
  rfl

/-- Every table has 256 entries, each of 32 bits. -/
theorem crc32S8Data_bounds (k : Nat) (hk : k < 8) :
    (crc32S8Data.getD k []).length = 256 ∧ ∀ v ∈ crc32S8Data.getD k [], v < 2 ^ 32 := by
  induction k with
  | zero =>
    have h : crc32S8Data.getD 0 [] = (List.range 256).map (mulXNatPow 32) := by
      rw [List.getD_eq_getElem?_getD, ← List.head?_eq_getElem?, crc32S8Data_eq.1,
        Option.getD_some, bz2Crc32TableData_eq]
    rw [h, List.length_map, List.length_range]
    refine ⟨rfl, fun v hv => ?_⟩
    obtain ⟨a, ha, rfl⟩ := List.mem_map.mp hv
    exact mulXNatPow_lt 32 (Nat.lt_trans (List.mem_range.mp ha) (by decide))
  | succ k ih =>
    obtain ⟨hl, hb⟩ := ih (by omega)
    rw [crc32S8Data_succ k (by omega), List.length_map]
    refine ⟨hl, fun v hv => ?_⟩
    obtain ⟨a, ha, rfl⟩ := List.mem_map.mp hv
    exact mulXNatPow_lt 8 (hb a ha)

theorem crc32S8_succ (k : Nat) (hk : k < 7) (i : Byte) :
    crc32S8 (k + 1) i = mulXPow 8 (crc32S8 k i) := by
  obtain ⟨hl, hb⟩ := crc32S8Data_bounds k (by omega)
  apply BitVec.eq_of_toNat_eq
  rw [mulXPow_toNat]
  unfold crc32S8
  rw [crc32S8Data_succ k hk]
  generalize crc32S8Data.getD k [] = row at hb hl
  have hi : i.toNat < row.length := by
    rw [hl]
    exact i.isLt
  have hv := hb _ (List.getElem_mem hi)
  have e : row[i.toNat] = (BitVec.ofNat 32 row[i.toNat]).toNat := by
    rw [BitVec.toNat_ofNat, Nat.mod_eq_of_lt hv]
  rw [List.getD_eq_getElem?_getD, List.getD_eq_getElem?_getD, List.getElem?_map,
    List.getElem?_eq_getElem hi, Option.map_some, Option.getD_some, Option.getD_some, e,
    ← mulXPow_toNat, BitVec.ofNat_toNat, BitVec.setWidth_eq, BitVec.ofNat_toNat,
    BitVec.setWidth_eq, mulXPow_toNat]

theorem res_crc32S8 (k : Nat) (hk : k < 8) (i : Byte) :
    cres (crc32S8 k i) = cres i * xi ^ (32 + 8 * k) := by
  induction k with
  | zero =>
    have h : crc32S8 0 i = bz2Crc32Table i := rfl
    rw [h, res_bz2Crc32Table]
  | succ k ih =>
    rw [crc32S8_succ k (by omega), res_mulXPow, ih (by omega), Nat.mul_succ, ← Nat.add_assoc,
      pow_add]
    ring

/-! ## 3. Every path is the byte-wise fold -/

/-- Four bytes read big-endian, as both swaps together read them. -/
theorem res_bytes4 (x : Word32) :
    cres x = cres ((x >>> 24).setWidth 8) * xi ^ 24 + cres ((x >>> 16).setWidth 8) * xi ^ 16 +
      cres ((x >>> 8).setWidth 8) * xi ^ 8 + cres (x.setWidth 8) := by
  have e : x = (((x >>> 24).setWidth 8 ++ (x >>> 16).setWidth 8 : BitVec 16) ++
      (x >>> 8).setWidth 8 : BitVec 24) ++ x.setWidth 8 := by
    apply BitVec.eq_of_getLsbD_eq
    intro i hi
    simp only [BitVec.getLsbD_append, BitVec.getLsbD_setWidth, BitVec.getLsbD_ushiftRight]
    by_cases h1 : i < 8
    · simp [h1]
    by_cases h2 : i - 8 < 8
    · simp [h1, h2, show 8 + (i - 8) = i by omega]
    by_cases h3 : i - 8 - 8 < 8
    · simp [h1, h2, h3, show 16 + (i - 8 - 8) = i by omega]
    · simp [h1, h2, h3, show i - 8 - 8 - 8 < 8 by omega, show 24 + (i - 8 - 8 - 8) = i by omega]
  unfold cres
  conv_lhs => rw [e]
  rw [res_append, res_append, res_append]
  ring

theorem bswap32_load32 (b0 b1 b2 b3 : Byte) : bswap32 (load32 b0 b1 b2 b3) = b0 ++ b1 ++ b2 ++ b3 := by
  apply BitVec.eq_of_getLsbD_eq
  intro i hi
  unfold bswap32 load32
  simp only [BitVec.getLsbD_append, BitVec.getLsbD_extractLsb']
  by_cases h1 : i < 8
  · simp [h1, show ¬ 24 + i < 8 by omega, show ¬ 24 + i - 8 < 8 by omega,
      show ¬ 24 + i - 8 - 8 < 8 by omega, show 24 + i - 8 - 8 - 8 = i by omega]
  by_cases h2 : i - 8 < 8
  · simp [h1, h2, show ¬ 16 + (i - 8) < 8 by omega, show ¬ 16 + (i - 8) - 8 < 8 by omega,
      show 16 + (i - 8) - 8 - 8 = i - 8 by omega]
  by_cases h3 : i - 8 - 8 < 8
  · simp [h1, h2, h3, show ¬ 8 + (i - 8 - 8) < 8 by omega]
  · simp [h1, h2, h3, show i - 8 - 8 - 8 < 8 by omega]

theorem bswap32_xor_bswap32 (x y : Word32) : bswap32 (x ^^^ bswap32 y) = bswap32 x ^^^ y := by
  apply BitVec.eq_of_getLsbD_eq
  intro i hi
  unfold bswap32
  simp only [BitVec.getLsbD_append, BitVec.getLsbD_extractLsb', BitVec.getLsbD_xor]
  by_cases h1 : i < 8
  · simp [h1, show ¬ 24 + i < 8 by omega, show ¬ 24 + i - 8 < 8 by omega,
      show ¬ 24 + i - 8 - 8 < 8 by omega, show 24 + i - 8 - 8 - 8 = i by omega]
  by_cases h2 : i - 8 < 8
  · simp [h1, h2, show ¬ 16 + (i - 8) < 8 by omega, show ¬ 16 + (i - 8) - 8 < 8 by omega,
      show 16 + (i - 8) - 8 - 8 < 8 by omega, show 8 + (16 + (i - 8) - 8 - 8) = i by omega]
  by_cases h3 : i - 8 - 8 < 8
  · simp [h1, h2, h3, show ¬ 8 + (i - 8 - 8) < 8 by omega, show 16 + (i - 8 - 8) = i by omega]
  · simp [h1, h2, h3, show i - 8 - 8 - 8 < 8 by omega, show 24 + (i - 8 - 8 - 8) = i by omega]

/-- **One pass of the main loop is eight updates.** -/
theorem slice8Step_eq (crc : Word32) (b0 b1 b2 b3 b4 b5 b6 b7 : Byte) :
    slice8Step crc b0 b1 b2 b3 b4 b5 b6 b7 = crcFold crc [b0, b1, b2, b3, b4, b5, b6, b7] := by
  apply crc_eq_of_res_eq
  rw [res_crcFold]
  simp only [slice8Step, bswap32_xor_bswap32, bswap32_load32, cres_xor,
    res_crc32S8 0 (by decide), res_crc32S8 1 (by decide), res_crc32S8 2 (by decide),
    res_crc32S8 3 (by decide), res_crc32S8 4 (by decide), res_crc32S8 5 (by decide),
    res_crc32S8 6 (by decide), res_crc32S8 7 (by decide)]
  have h1 := res_bytes4 ((b0 ++ b1 ++ b2 ++ b3) ^^^ crc)
  have h2 := res_bytes4 (b4 ++ b5 ++ b6 ++ b7)
  have a1 : cres (b0 ++ b1 ++ b2 ++ b3) =
      ((cres b0 * xi ^ 8 + cres b1) * xi ^ 8 + cres b2) * xi ^ 8 + cres b3 := by
    unfold cres
    rw [res_append, res_append, res_append]
  have a2 : cres (b4 ++ b5 ++ b6 ++ b7) =
      ((cres b4 * xi ^ 8 + cres b5) * xi ^ 8 + cres b6) * xi ^ 8 + cres b7 := by
    unfold cres
    rw [res_append, res_append, res_append]
  rw [cres_xor, a1] at h1
  rw [a2] at h2
  simp only [msgRes, List.foldl_cons, List.foldl_nil, List.length_cons, List.length_nil]
  linear_combination (-xi ^ 64) * h1 - xi ^ 32 * h2

theorem slice8Loop_eq (crc : Word32) (p : List Byte) : slice8Loop crc p = crcFold crc p := by
  induction crc, p using slice8Loop.induct with
  | case1 crc b0 b1 b2 b3 b4 b5 b6 b7 p ih =>
    rw [slice8Loop, ih, slice8Step_eq, ← crcFold_append]
    rfl
  | case2 crc p h => rw [slice8Loop.eq_2 crc p h]

theorem alignLoop_eq (addr : Int) (crc : Word32) (p : List Byte) :
    crcFold (alignLoop addr crc p).1 (alignLoop addr crc p).2 = crcFold crc p := by
  induction p generalizing addr crc with
  | nil => rfl
  | cons b p ih =>
    rw [alignLoop]
    split
    · rfl
    · exact ih _ _

/-- **`BZ2_crc32_update` is the byte-wise fold**, in either build, at every address, for every
    buffer. -/
theorem bz2Crc32Update_eq [Build] (addr : Int) (crc : Word32) (buf : List Byte) :
    bz2Crc32Update addr crc buf = crcFold crc buf := by
  unfold bz2Crc32Update
  split
  · rename_i h
    exact crc_eq_of_res_eq ((res_crc32Pclmul crc buf h.2).trans (res_crcFold crc buf).symm)
  · exact (slice8Loop_eq _ _).trans (alignLoop_eq addr crc buf)

/-- **The software path** -- the alignment prologue, the main loop and the tail -- is the fold with
    the byte-wise table, for every start value, address and buffer; a build without `__PCLMUL__`
    takes no other, and there a buffer may be split anywhere, wherever its two parts lie. -/
theorem softwarePath (addr : Int) (crc : Word32) (buf : List Byte) :
    slice8Loop (alignLoop addr crc buf).1 (alignLoop addr crc buf).2 = buf.foldl updateCrc crc ∧
    ∀ bufAddr : Int,
      @bz2Crc32Update ⟨false, bufAddr⟩ addr crc buf = buf.foldl updateCrc crc ∧
      ∀ (k : Nat) (addr₁ addr₂ : Int),
        @bz2Crc32Update ⟨false, bufAddr⟩ addr₂
            (@bz2Crc32Update ⟨false, bufAddr⟩ addr₁ crc (buf.take k)) (buf.drop k) =
          @bz2Crc32Update ⟨false, bufAddr⟩ addr crc buf := by
  refine ⟨(slice8Loop_eq _ _).trans (alignLoop_eq addr crc buf), fun bufAddr => ?_⟩
  have hfold := @bz2Crc32Update_eq ⟨false, bufAddr⟩
  refine ⟨hfold addr crc buf, fun k addr₁ addr₂ => ?_⟩
  rw [hfold, hfold, hfold, ← crcFold_append, List.take_append_drop]

end Qbz2
