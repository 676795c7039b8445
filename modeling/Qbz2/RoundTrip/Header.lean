/-
  File:      Qbz2/RoundTrip/Header.lean
  Subject:   The headers and the trailer that `BZ2_compressBlock` writes, read by `BZ2_decompress`.

  * `pushCrc_bytes` -- a CRC taken in byte by byte;
  * `header_reads`, `blockHeader_reads`, `trailer_reads` -- the header of the stream, that of a
    block, and the trailer.
-/
import Qbz2.Compress.Stream
import Qbz2.RoundTrip.SideInfo

namespace Qbz2

open Transducer Bits

/-! ## 1. Bytes and words -/

/-- The next byte of a word is taken in. -/
theorem pushCrc_byte (u : Word32) (k : Nat) :
    Parse.pushCrc (u >>> (k + 8)) ((u >>> k) &&& 0xff).toNat = u >>> k := by
  unfold Parse.pushCrc
  rw [BitVec.ofNat_toNat, BitVec.setWidth_eq,
    show (0xff : Word32) = (BitVec.allOnes 8).setWidth 32 from rfl]
  apply BitVec.eq_of_getLsbD_eq
  intro i hi
  simp only [BitVec.getLsbD_or, BitVec.getLsbD_shiftLeft, BitVec.getLsbD_and,
    BitVec.getLsbD_setWidth, BitVec.getLsbD_allOnes, BitVec.getLsbD_ushiftRight]
  by_cases h8 : i < 8
  · simp [h8, hi]
  · simp [h8, hi, show k + 8 + (i - 8) = k + i by omega]

/-- The four bytes of a word, taken in one after the other. -/
theorem pushCrc_bytes (u : Word32) :
    Parse.pushCrc (Parse.pushCrc (Parse.pushCrc (Parse.pushCrc 0 ((u >>> 24) &&& 0xff).toNat)
      ((u >>> 16) &&& 0xff).toNat) ((u >>> 8) &&& 0xff).toNat) (u &&& 0xff).toNat = u := by
  have h24 := pushCrc_byte u 24
  rw [show u >>> (24 + 8) = 0 from BitVec.ushiftRight_eq_zero (by decide)] at h24
  rw [h24, pushCrc_byte u 16, pushCrc_byte u 8]
  exact pushCrc_byte u 0

section

variable {μ : Type} [MtfList μ] {ver : Version} {small : Bool} {c : Core μ}

/-- A label reads a byte that `bsPutUChar` has written. -/
theorem byte_reads {p : Parse} {l : Label} (hn : l.nbits = 8) (b : Byte) {t w : List _}
    {y : Core μ × Point} {u : List Bool}
    (hs : Steps (bitDecoder ver small) (standing (c.absorb small (p.resume ver l b.toNat))) t w y u) :
    Steps (bitDecoder ver small) (standing (c.absorb small (p.goto l)))
      (bitsOf 8 (byteWrite b).2.toNat ++ t) w y u := by
  have hb : (byteWrite b).2.toNat = b.toNat := by
    show (b.setWidth 32).toNat = b.toNat
    rw [BitVec.toNat_setWidth]
    exact Nat.mod_eq_of_lt (Nat.lt_of_lt_of_le b.isLt (by decide))
  rw [hb]
  exact read_write hn b.isLt hs

/-- A label reads a byte of a word. -/
theorem low_reads {p : Parse} {l : Label} (hn : l.nbits = 8) (x : Word32) {t w : List _}
    {y : Core μ × Point} {u : List Bool}
    (hs : Steps (bitDecoder ver small) (standing (c.absorb small (p.resume ver l (x &&& 0xff).toNat)))
      t w y u) :
    Steps (bitDecoder ver small) (standing (c.absorb small (p.goto l)))
      (bitsOf 8 (x &&& 0xff).toNat ++ t) w y u :=
  read_write hn (writeOk_low x).2.2 hs

/-! ## 2. The header of the stream -/

/-- **The header of the stream**: the decoder has got the block size. -/
theorem header_reads {k : Nat} (h1 : 1 ≤ k) (h9 : k ≤ 9) (rest : List Bool) :
    Steps (bitDecoder ver small) (c, .parser (.get .magic1)) (writesBits (headerWrites k) ++ rest) []
      ({ c with p := { c.p with blockSize100k := k } }, .parser (.get .blkhdr1)) rest := by
  have hk : (BitVec.ofNat 8 (0x30 + k) : Byte).toNat = 0x30 + k := by
    rw [BitVec.toNat_ofNat]
    omega
  have hend : c.p.resume ver .magic4 (BitVec.ofNat 8 (0x30 + k) : Byte).toNat =
      { c.p with blockSize100k := k }.goto .blkhdr1 := by
    rw [hk]
    unfold Parse.resume
    dsimp only
    rw [if_neg (by omega), Nat.add_sub_cancel_left]
  unfold headerWrites
  simp only [writesBits_cons, writesBits_nil, List.append_assoc, List.nil_append]
  refine byte_reads (p := c.p) (l := .magic1) rfl _ ?_
  refine byte_reads (p := c.p) (l := .magic2) rfl _ ?_
  refine byte_reads (p := c.p) (l := .magic3) rfl _ ?_
  refine byte_reads (p := c.p) (l := .magic4) rfl _ ?_
  rw [hend]
  exact .refl _ _

/-! ## 3. The header of a block -/

/-- The four bytes of a CRC. -/
theorem bcrc_reads (crc : Word32) (p : Parse) {t w : List _} {y : Core μ × Point} {u : List Bool}
    (hs : Steps (bitDecoder ver small)
      (standing (c.absorb small ({ p with storedBlockCRC := crc }.goto .randbit))) t w y u) :
    Steps (bitDecoder ver small)
      (standing (c.absorb small ({ p with storedBlockCRC := 0 }.goto .bcrc1)))
      (writesBits (wordWrites crc) ++ t) w y u := by
  rw [← pushCrc_bytes crc] at hs
  unfold wordWrites
  simp only [writesBits_cons, writesBits_nil, List.append_assoc, List.nil_append]
  refine low_reads rfl _ ?_
  refine low_reads rfl _ ?_
  refine low_reads rfl _ ?_
  exact low_reads rfl _ hs

/-- The three bytes of `origPtr`. -/
theorem origPtr_reads {origPtr : Nat} (h24 : origPtr < 2 ^ 24) (p : Parse)
    (hmax : origPtr ≤ 10 + 100000 * p.blockSize100k) {t w : List _} {y : Core μ × Point}
    {u : List Bool}
    (hs : Steps (bitDecoder ver small) (standing (c.absorb small
      ({ p with origPtr, i := 0, inUse16 := [] }.goto .mapping1))) t w y u) :
    Steps (bitDecoder ver small)
      (standing (c.absorb small ({ p with origPtr := 0 }.goto .origptr1)))
      (bitsOf 24 origPtr ++ t) w y u := by
  rw [show (24 : Nat) = 8 + 16 from rfl, bitsOf_add, show (16 : Nat) = 8 + 8 from rfl, bitsOf_add,
    List.append_assoc, List.append_assoc]
  refine read_write (n := 8) rfl (by omega) ?_
  refine read_mod (n := 8) rfl ?_
  refine read_mod (n := 8) rfl ?_
  have hall : ((0 * 256 + origPtr / 2 ^ (8 + 8)) * 256 + origPtr / 2 ^ 8 % 2 ^ 8) * 256 +
      origPtr % 2 ^ 8 = origPtr := by omega
  unfold Parse.resume
  dsimp only
  rw [hall, if_neg (by omega)]
  exact hs

/-- **The header of a block**: its CRC and its `origPtr` are read, and the block is not
    randomised. -/
theorem blockHeader_reads (crc : Word32) {origPtr : Nat}
    (hmax : origPtr ≤ 10 + 100000 * c.p.blockSize100k) (h24 : origPtr < 2 ^ 24) (rest : List Bool) :
    Steps (bitDecoder ver small) (c, .parser (.get .blkhdr1))
      (writesBits (blockHeaderWrites crc origPtr) ++ rest) []
      ({ c with p := { c.p with
        storedBlockCRC := crc
        blockRandomised := false
        origPtr
        i := 0
        inUse16 := [] } }, .parser (.get .mapping1)) rest := by
  have hbits : (BitVec.ofInt 32 origPtr).toNat = origPtr := by
    rw [BitVec.toNat_ofInt]
    omega
  unfold blockHeaderWrites
  rw [writesBits_append, writesBits_append]
  simp only [writesBits_cons, writesBits_nil, List.append_assoc, List.nil_append, hbits]
  refine byte_reads (p := c.p) (l := .blkhdr1) rfl _ ?_
  refine byte_reads (p := c.p) (l := .blkhdr2) rfl _ ?_
  refine byte_reads (p := c.p) (l := .blkhdr3) rfl _ ?_
  refine byte_reads (p := c.p) (l := .blkhdr4) rfl _ ?_
  refine byte_reads (p := c.p) (l := .blkhdr5) rfl _ ?_
  refine byte_reads (p := c.p) (l := .blkhdr6) rfl _ ?_
  refine bcrc_reads crc c.p ?_
  refine read_flag (p := { c.p with storedBlockCRC := crc }) false rfl ?_
  exact origPtr_reads h24 { c.p with storedBlockCRC := crc, blockRandomised := false } hmax
    (.refl _ _)

/-! ## 4. The trailer -/

/-- The four bytes of the combined CRC. -/
theorem ccrc_reads (crc : Word32) (p : Parse) {t w : List _} {y : Core μ × Point} {u : List Bool}
    (hs : Steps (bitDecoder ver small)
      (standing (c.absorb small ({ p with storedCombinedCRC := crc }.fail .streamEnd))) t w y u) :
    Steps (bitDecoder ver small)
      (standing (c.absorb small ({ p with storedCombinedCRC := 0 }.goto .ccrc1)))
      (writesBits (wordWrites crc) ++ t) w y u := by
  rw [← pushCrc_bytes crc] at hs
  unfold wordWrites
  simp only [writesBits_cons, writesBits_nil, List.append_assoc, List.nil_append]
  refine low_reads rfl _ ?_
  refine low_reads rfl _ ?_
  refine low_reads rfl _ ?_
  exact low_reads rfl _ hs

/-- **The trailer of the stream**: the combined CRC is read, and the stream is over. -/
theorem trailer_reads (crc : Word32) (rest : List Bool) :
    Steps (bitDecoder ver small) (c, .parser (.get .blkhdr1))
      (writesBits (trailerWrites crc) ++ rest) []
      ({ c with p := { c.p with storedCombinedCRC := crc } }, .parser (.ret .streamEnd)) rest := by
  unfold trailerWrites
  rw [writesBits_append]
  simp only [writesBits_cons, writesBits_nil, List.append_assoc, List.nil_append]
  refine byte_reads (p := c.p) (l := .blkhdr1) rfl _ ?_
  refine byte_reads (p := c.p) (l := .endhdr2) rfl _ ?_
  refine byte_reads (p := c.p) (l := .endhdr3) rfl _ ?_
  refine byte_reads (p := c.p) (l := .endhdr4) rfl _ ?_
  refine byte_reads (p := c.p) (l := .endhdr5) rfl _ ?_
  refine byte_reads (p := c.p) (l := .endhdr6) rfl _ ?_
  exact ccrc_reads crc c.p (.refl _ _)

end

end Qbz2
