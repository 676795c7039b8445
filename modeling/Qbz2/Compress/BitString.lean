/-
  File:      Qbz2/Compress/BitString.lean
  Subject:   The bit writer of `src/compress.c` writes bits one after the other.

  * `Buffered b t` -- the top bits of the accumulator are `t`, the others are zero;
    `Buffered.pop` -- its first bits are shifted out;
  * `BitWriter.Holds` -- the accumulator of a writer holds `t`, fewer than 64 bits;
  * `Holds.bsW` -- a call adds its bits; `Holds.finishWrite` -- the end fills up the last byte;
  * `WriterRun` -- calls of `bsW`, the bytes in `zbits` being taken away at any time;
  * **`bsW_concat`** -- whatever is taken away when, the bytes and the bits of the accumulator are
    the bits of the calls.
-/
import Qbz2.Compress.BitWriter
import Qbz2.Lib.Bits

namespace Qbz2

open Bits

/-! ## 1. The accumulator -/

/-- The top bits of the accumulator. -/
def Buffered (b : Word64) (t : List Bool) : Prop :=
  t.length ≤ 64 ∧ b.toNat = bitsVal t * 2 ^ (64 - t.length)

/-- Zero bits change nothing. -/
theorem Buffered.pad {b : Word64} {t : List Bool} (h : Buffered b t) {k : Nat}
    (hk : t.length + k ≤ 64) : Buffered b (t ++ List.replicate k false) := by
  have hpow : 2 ^ (64 - t.length) = 2 ^ k * 2 ^ (64 - (t.length + k)) := by
    rw [← Nat.pow_add]
    congr 1
    omega
  refine ⟨by rw [List.length_append, List.length_replicate]; exact hk, ?_⟩
  rw [h.2, bitsVal_append, bitsVal_zeros, List.length_append, List.length_replicate, hpow, Nat.add_zero,
    Nat.mul_assoc]

/-- The parts of an accumulator, as numbers. -/
theorem Buffered.split {b : Word64} {t₁ t₂ : List Bool} (h : Buffered b (t₁ ++ t₂)) :
    b.toNat / 2 ^ (64 - t₁.length) = bitsVal t₁ ∧
      b.toNat % 2 ^ (64 - t₁.length) = bitsVal t₂ * 2 ^ (64 - (t₁ ++ t₂).length) := by
  obtain ⟨hlen, hb⟩ := h
  have hl : (t₁ ++ t₂).length = t₁.length + t₂.length := List.length_append
  have hpow : 2 ^ (64 - t₁.length) = 2 ^ t₂.length * 2 ^ (64 - (t₁ ++ t₂).length) := by
    rw [← Nat.pow_add]
    congr 1
    omega
  have hlt : bitsVal t₂ * 2 ^ (64 - (t₁ ++ t₂).length) < 2 ^ (64 - t₁.length) := by
    rw [hpow]
    exact Nat.mul_lt_mul_of_pos_right (bitsVal_lt t₂) (Nat.two_pow_pos _)
  have hsum : b.toNat = 2 ^ (64 - t₁.length) * bitsVal t₁ +
      bitsVal t₂ * 2 ^ (64 - (t₁ ++ t₂).length) := by
    rw [hb, bitsVal_append, Nat.add_mul, hpow]
    ring
  rw [hsum]
  exact ⟨by rw [Nat.mul_add_div (Nat.two_pow_pos _), Nat.div_eq_of_lt hlt, Nat.add_zero],
    by rw [Nat.mul_add_mod, Nat.mod_eq_of_lt hlt]⟩

/-- **The first bits are shifted out.** -/
theorem Buffered.pop {b : Word64} {t₁ t₂ : List Bool} (h : Buffered b (t₁ ++ t₂)) :
    b.toNat / 2 ^ (64 - t₁.length) = bitsVal t₁ ∧ Buffered (b <<< t₁.length) t₂ := by
  obtain ⟨hdiv, hmod⟩ := h.split
  have hlen := h.1
  rw [List.length_append] at hlen hmod
  refine ⟨hdiv, by omega, ?_⟩
  have hpow : (2 : Nat) ^ 64 = 2 ^ (64 - t₁.length) * 2 ^ t₁.length := by
    rw [← Nat.pow_add]
    congr 1
    omega
  have hpow₂ : 2 ^ (64 - t₂.length) = 2 ^ (64 - (t₁.length + t₂.length)) * 2 ^ t₁.length := by
    rw [← Nat.pow_add]
    congr 1
    omega
  rw [BitVec.toNat_shiftLeft, Nat.shiftLeft_eq, hpow, Nat.mul_mod_mul_right, hmod, hpow₂,
    Nat.mul_assoc]

/-- New bits below those that are there: none of them overlaps one of these. -/
theorem Buffered.push {b : Word64} {t : List Bool} (h : Buffered b t) {n : Nat} {v : Word32}
    (hn : t.length + n ≤ 64) (hv : v.toNat < 2 ^ n) :
    b &&& (v.setWidth 64 <<< (64 - t.length - n)) = 0 ∧
      Buffered (b ||| (v.setWidth 64 <<< (64 - t.length - n))) (t ++ bitsOf n v.toNat) := by
  have hv64 : (v.setWidth 64).toNat = v.toNat := by
    rw [BitVec.toNat_setWidth]
    exact Nat.mod_eq_of_lt (Nat.lt_of_lt_of_le v.isLt (by decide))
  have hpow : 2 ^ (64 - t.length) = 2 ^ n * 2 ^ (64 - t.length - n) := by
    rw [← Nat.pow_add]
    congr 1
    omega
  have hlt : v.toNat * 2 ^ (64 - t.length - n) < 2 ^ (64 - t.length) := by
    rw [hpow]
    exact Nat.mul_lt_mul_of_pos_right hv (Nat.two_pow_pos _)
  have hshift : (v.setWidth 64 <<< (64 - t.length - n)).toNat =
      v.toNat * 2 ^ (64 - t.length - n) := by
    rw [BitVec.toNat_shiftLeft, Nat.shiftLeft_eq, hv64]
    exact Nat.mod_eq_of_lt (Nat.lt_of_lt_of_le hlt (Nat.pow_le_pow_right (by decide) (by omega)))
  constructor
  · apply BitVec.eq_of_toNat_eq
    rw [BitVec.toNat_and, hshift, h.2, Nat.mul_comm (bitsVal t)]
    exact Nat.eq_of_testBit_eq fun i => by
      rw [Nat.testBit_and, Nat.testBit_two_pow_mul]
      by_cases hi : i ≥ 64 - t.length
      · rw [Nat.testBit_lt_two_pow (Nat.lt_of_lt_of_le hlt (Nat.pow_le_pow_right (by decide) hi))]
        simp
      · simp [hi]
  · have hlen : (t ++ bitsOf n v.toNat).length = t.length + n := by
      rw [List.length_append, length_bitsOf]
    refine ⟨by omega, ?_⟩
    rw [BitVec.toNat_or, hshift, h.2, Nat.mul_comm (bitsVal t),
      ← Nat.two_pow_add_eq_or_of_lt hlt, hlen, bitsVal_append, bitsVal_bitsOf, length_bitsOf,
      Nat.mod_eq_of_lt hv, hpow, Nat.sub_sub, Nat.add_mul]
    ring

/-- The byte above the lower `n` bits. -/
theorem toNat_byteAt (b : Word64) (n : Nat) : ((b >>> n).setWidth 8).toNat = b.toNat / 2 ^ n % 256 := by
  rw [BitVec.toNat_setWidth, BitVec.toNat_ushiftRight, Nat.shiftRight_eq_div_pow]

/-- A byte of the accumulator. -/
theorem Buffered.byte {b : Word64} {t₁ t₂ : List Bool} (h : Buffered b (t₁ ++ t₂))
    (h8 : t₁.length = 8) : bytesBits [(b >>> 56).setWidth 8] = t₁ := by
  obtain ⟨hdiv, -⟩ := h.split
  rw [h8] at hdiv
  have hb : ((b >>> 56).setWidth 8 : Byte).toNat = bitsVal t₁ := by
    rw [toNat_byteAt, show (56 : Nat) = 64 - 8 from rfl, hdiv]
    exact Nat.mod_eq_of_lt (Nat.lt_of_lt_of_le (bitsVal_lt t₁) (by rw [h8]; decide))
  rw [bytesBits_cons, bytesBits_nil, List.append_nil, hb, ← h8, bitsOf_bitsVal]

/-- Four bytes of the accumulator. -/
theorem Buffered.word {b : Word64} {t₁ t₂ : List Bool} (h : Buffered b (t₁ ++ t₂))
    (h32 : t₁.length = 32) :
    bytesBits [(b >>> 56).setWidth 8, (b >>> 48).setWidth 8, (b >>> 40).setWidth 8,
      (b >>> 32).setWidth 8] = t₁ := by
  obtain ⟨hdiv, -⟩ := h.split
  rw [h32] at hdiv
  have hpart : ∀ n v : Nat, bitsOf (8 + n) v = bitsOf 8 (v / 2 ^ n % 256) ++ bitsOf n v := by
    intro n v
    rw [bitsOf_add]
    congr 1
    exact bitsOf_congr (Nat.mod_mod_of_dvd _ (Nat.dvd_refl 256)).symm
  have hdd : ∀ k n : Nat, k = n + 32 → b.toNat / 2 ^ k = b.toNat / 2 ^ (64 - 32) / 2 ^ n := by
    rintro k n rfl
    rw [Nat.div_div_eq_div_mul, ← Nat.pow_add, Nat.add_comm n]
  rw [← bitsOf_bitsVal t₁, h32, ← hdiv, hpart 24, hpart 16, hpart 8]
  simp only [bytesBits_cons, bytesBits_nil, toNat_byteAt, List.append_nil]
  rw [hdd 56 24 rfl, hdd 48 16 rfl, hdd 40 8 rfl, hdd 32 0 rfl, Nat.pow_zero, Nat.div_one]
  congr 3
  exact bitsOf_congr (Nat.mod_mod_of_dvd _ (Nat.dvd_refl 256))

/-! ## 2. The writer -/

namespace BitWriter

/-- The accumulator holds `t`, fewer than 64 bits. -/
structure Holds (w : BitWriter) (t : List Bool) : Prop where
  live : w.bsLive = t.length
  buff : Buffered w.bsBuff t
  short : t.length < 64

theorem Holds.init (w : BitWriter) : w.initWrite.Holds [] :=
  ⟨rfl, ⟨Nat.zero_le _, (Nat.zero_mul _).symm⟩, by decide⟩

/-- `bsNEEDW` moves bits from the accumulator to `zbits`. -/
theorem Holds.needW {w : BitWriter} {t : List Bool} (h : w.Holds t) :
    ∃ t', (BitWriter.needW w.bsLive.toNat w).Holds t' ∧ t'.length < 32 ∧
      bytesBits (BitWriter.needW w.bsLive.toNat w).zbits ++ t' = bytesBits w.zbits ++ t := by
  have key : ∀ (fuel : Nat) (w : BitWriter) (t : List Bool), w.Holds t → t.length ≤ fuel →
      ∃ t', (BitWriter.needW fuel w).Holds t' ∧ t'.length < 32 ∧
        bytesBits (BitWriter.needW fuel w).zbits ++ t' = bytesBits w.zbits ++ t := by
    intro fuel
    induction fuel with
    | zero => exact fun w t h hle => ⟨t, h, by omega, rfl⟩
    | succ fuel ih =>
      intro w t h hle
      have hlive := h.live
      unfold BitWriter.needW
      by_cases h32 : w.bsLive ≥ 32
      · rw [if_pos h32]
        have hsplit : t.take 32 ++ t.drop 32 = t := List.take_append_drop 32 t
        have htake : (t.take 32).length = 32 := List.length_take_of_le (by omega)
        have hdrop := List.length_drop (i := 32) (l := t)
        have hb := h.buff
        rw [← hsplit] at hb
        have hpop := hb.pop.2
        rw [htake] at hpop
        have hshort := h.short
        have hnext : Holds
            { zbits := w.zbits ++ [(w.bsBuff >>> 56).setWidth 8, (w.bsBuff >>> 48).setWidth 8,
                (w.bsBuff >>> 40).setWidth 8, (w.bsBuff >>> 32).setWidth 8]
              bsBuff := w.bsBuff <<< 32
              bsLive := w.bsLive - 32 } (t.drop 32) :=
          { live := by dsimp only; omega
            buff := hpop
            short := by omega }
        obtain ⟨t', ht', hlt, hbits⟩ := ih _ (t.drop 32) hnext (by omega)
        refine ⟨t', ht', hlt, hbits.trans ?_⟩
        dsimp only
        rw [bytesBits_append, hb.word htake, List.append_assoc, hsplit]
      · rw [if_neg h32]
        exact ⟨t, h, by omega, rfl⟩
  refine key _ w t h ?_
  have := h.live
  omega

/-- **A call of `bsW` adds its bits**, the shift count is not negative, and no bit overlaps an
    earlier one. -/
theorem Holds.bsW {w : BitWriter} {t : List Bool} (h : w.Holds t) {n : Nat} {v : Word32}
    (hn : n ≤ 31) (hv : v.toNat < 2 ^ n) :
    ∃ t', (w.bsW n v).Holds t' ∧
      bytesBits (w.bsW n v).zbits ++ t' = bytesBits w.zbits ++ t ++ bitsOf n v.toNat ∧
      0 ≤ 64 - (BitWriter.needW w.bsLive.toNat w).bsLive - n ∧
      (BitWriter.needW w.bsLive.toNat w).bsBuff &&&
        (v.setWidth 64 <<< (64 - (BitWriter.needW w.bsLive.toNat w).bsLive - n).toNat) = 0 := by
  obtain ⟨t₀, h₀, hlt, hbits⟩ := h.needW
  have hlive := h₀.live
  obtain ⟨hno, hpush⟩ := h₀.buff.push (show t₀.length + n ≤ 64 by omega) hv
  have hshift : (64 - (BitWriter.needW w.bsLive.toNat w).bsLive - n).toNat =
      64 - t₀.length - n := by omega
  have hlen : (t₀ ++ bitsOf n v.toNat).length = t₀.length + n := by
    rw [List.length_append, length_bitsOf]
  refine ⟨t₀ ++ bitsOf n v.toNat, ⟨?_, ?_, by omega⟩, ?_, by omega, ?_⟩
  · unfold BitWriter.bsW
    dsimp only
    omega
  · unfold BitWriter.bsW
    dsimp only
    rw [hshift]
    exact hpush
  · rw [← List.append_assoc, ← hbits]
    rfl
  · rw [hshift]
    exact hno

/-- **`bsFinishWrite` fills up the last byte** with zero bits. -/
theorem Holds.finishWrite {w : BitWriter} {t : List Bool} (h : w.Holds t) :
    ∃ k, k < 8 ∧ bytesBits w.finishWrite.zbits = bytesBits w.zbits ++ t ++ List.replicate k false ∧
      w.finishWrite.bsLive ≤ 0 ∧ w.finishWrite.bsLive = -k := by
  have key : ∀ (m fuel : Nat) (w : BitWriter) (t : List Bool) (k : Nat), k < 8 →
      w.bsLive + k = 8 * m → t.length = 8 * m → w.bsLive ≤ fuel → Buffered w.bsBuff t →
      bytesBits (finishLoop fuel w).zbits = bytesBits w.zbits ++ t ∧
        (finishLoop fuel w).bsLive = -k := by
    intro m
    induction m with
    | zero =>
      intro fuel w t k hk hlive hlen hfuel hb
      rw [List.length_eq_zero_iff.mp hlen, List.append_nil]
      have hle : ¬ w.bsLive > 0 := by omega
      cases fuel with
      | zero => exact ⟨rfl, by unfold finishLoop; omega⟩
      | succ fuel =>
        unfold finishLoop
        rw [if_neg hle]
        exact ⟨rfl, by omega⟩
    | succ m ih =>
      intro fuel w t k hk hlive hlen hfuel hb
      have hpos : w.bsLive > 0 := by omega
      cases fuel with
      | zero => omega
      | succ fuel =>
        unfold finishLoop
        rw [if_pos hpos]
        have hsplit : t.take 8 ++ t.drop 8 = t := List.take_append_drop 8 t
        have htake : (t.take 8).length = 8 := List.length_take_of_le (by omega)
        rw [← hsplit] at hb
        have hpop := hb.pop.2
        rw [htake] at hpop
        obtain ⟨hz, hl⟩ := ih fuel
          { zbits := w.zbits ++ [(w.bsBuff >>> 56).setWidth 8]
            bsBuff := w.bsBuff <<< 8
            bsLive := w.bsLive - 8 } (t.drop 8) k hk (by dsimp only; omega)
          (by rw [List.length_drop]; omega) (by dsimp only; omega) hpop
        refine ⟨hz.trans ?_, hl⟩
        dsimp only
        rw [bytesBits_append, hb.byte htake, List.append_assoc, hsplit]
  have hlive := h.live
  have hshort := h.short
  obtain ⟨m, k, hk, hm⟩ : ∃ m k, k < 8 ∧ t.length + k = 8 * m := by
    refine ⟨(t.length + 7) / 8, 8 * ((t.length + 7) / 8) - t.length, ?_, ?_⟩ <;> omega
  obtain ⟨hz, hl⟩ := key m w.bsLive.toNat w (t ++ List.replicate k false) k hk (by omega)
    (by rw [List.length_append, List.length_replicate]; exact hm) (by omega)
    (h.buff.pad (by omega))
  exact ⟨k, hk, by rw [List.append_assoc]; exact hz, by rw [BitWriter.finishWrite, hl]; omega, hl⟩

end BitWriter

/-! ## 3. Runs of the writer -/

/-- What happens to the writer of a compressor: a call of `bsW`, or `numZ` reset to 0 once the
    bytes in `zbits` have been delivered. -/
inductive WriterOp where
  | put (n : Nat) (v : Word32)
  | deliver

/-- The bits of a call. -/
def WriterOp.bits : WriterOp → List Bool
  | .put n v => bitsOf n v.toNat
  | .deliver => []

/-- The bits of calls of `bsW`. -/
def writesBits (writes : List (Nat × Word32)) : List Bool :=
  writes.flatMap fun w => bitsOf w.1 w.2.toNat

@[simp] theorem writesBits_nil : writesBits [] = [] := rfl

@[simp] theorem writesBits_cons (w : Nat × Word32) (writes : List (Nat × Word32)) :
    writesBits (w :: writes) = bitsOf w.1 w.2.toNat ++ writesBits writes := rfl

@[simp] theorem writesBits_append (a b : List (Nat × Word32)) :
    writesBits (a ++ b) = writesBits a ++ writesBits b := List.flatMap_append

/-- The arguments `bsW` is called with. -/
def WriterOp.Ok : WriterOp → Prop
  | .put n v => 1 ≤ n ∧ n ≤ 24 ∧ v.toNat < 2 ^ n
  | .deliver => True

/-- A writer, and the bytes delivered before. -/
structure WriterRun where
  out : List Byte
  w : BitWriter

namespace WriterRun

def step (r : WriterRun) : WriterOp → WriterRun
  | .put n v => { r with w := r.w.bsW n v }
  | .deliver => ⟨r.out ++ r.w.zbits, { r.w with zbits := [] }⟩

/-- The start of a stream. -/
def start (w : BitWriter) : WriterRun := ⟨[], { w.initWrite with zbits := [] }⟩

/-- All whole bytes so far. -/
def bytes (r : WriterRun) : List Byte := r.out ++ r.w.zbits

/-- The top `bsLive` bits of `bsBuff`. -/
def top (r : WriterRun) : List Bool :=
  bitsOf r.w.bsLive.toNat (r.w.bsBuff.toNat / 2 ^ (64 - r.w.bsLive.toNat))

/-- The writer holds what has not become bytes yet. -/
def Wrote (r : WriterRun) (t : List Bool) : Prop :=
  ∃ u, r.w.Holds u ∧ bytesBits r.bytes ++ u = t

theorem Wrote.top {r : WriterRun} {t : List Bool} (h : r.Wrote t) :
    0 ≤ r.w.bsLive ∧ r.w.bsLive < 64 ∧ bytesBits r.bytes ++ r.top = t := by
  obtain ⟨u, hu, hbits⟩ := h
  have hlive := hu.live
  have hshort := hu.short
  have htop : r.top = u := by
    have hsplit := @Buffered.split r.w.bsBuff u [] (by rw [List.append_nil]; exact hu.buff)
    have hn : r.w.bsLive.toNat = u.length := by omega
    rw [WriterRun.top, hn, hsplit.1, bitsOf_bitsVal]
  rw [htop]
  exact ⟨by omega, by omega, hbits⟩

theorem Wrote.step {r : WriterRun} {t : List Bool} (h : r.Wrote t) {op : WriterOp} (hop : op.Ok) :
    (r.step op).Wrote (t ++ op.bits) := by
  obtain ⟨u, hu, hbits⟩ := h
  cases op with
  | put n v =>
    obtain ⟨u', hu', hadd, -⟩ := hu.bsW (show n ≤ 31 by have := hop.2.1; omega) hop.2.2
    refine ⟨u', hu', ?_⟩
    show bytesBits (r.out ++ (r.w.bsW n v).zbits) ++ u' = t ++ bitsOf n v.toNat
    rw [bytesBits_append, List.append_assoc, hadd, ← hbits, bytes, bytesBits_append]
    simp only [List.append_assoc]
  | deliver =>
    refine ⟨u, ⟨hu.live, hu.buff, hu.short⟩, ?_⟩
    show bytesBits ((r.out ++ r.w.zbits) ++ []) ++ u = t ++ []
    rw [List.append_nil, List.append_nil]
    exact hbits

theorem Wrote.steps (ops : List WriterOp) : ∀ {r : WriterRun} {t : List Bool}, r.Wrote t →
    (∀ op ∈ ops, op.Ok) → (ops.foldl WriterRun.step r).Wrote (t ++ ops.flatMap WriterOp.bits) := by
  induction ops with
  | nil =>
    intro r t h _
    rw [List.flatMap_nil, List.append_nil]
    exact h
  | cons op ops ih =>
    intro r t h hops
    rw [List.flatMap_cons, ← List.append_assoc]
    exact ih (h.step (hops op List.mem_cons_self)) fun op' h' =>
      hops op' (List.mem_cons_of_mem _ h')

theorem wrote_start (w : BitWriter) : (start w).Wrote [] :=
  ⟨[], ⟨rfl, (BitWriter.Holds.init w).buff, by decide⟩, rfl⟩

end WriterRun

/-- **The writer concatenates.** For any calls of `bsW` with at most 24 bits that fit, and the bytes
    taken away at any time between them: the bytes, then the bits of the accumulator, are the bits
    of the calls; the accumulator has fewer than 64; every call shifts its bits by a count that is
    not negative, to places where there are none yet; and `bsFinishWrite` leaves these bits, filled
    up to a whole byte with zeros. -/
theorem bsW_concat (w : BitWriter) (ops : List WriterOp) (hops : ∀ op ∈ ops, op.Ok) :
    let r := ops.foldl WriterRun.step (WriterRun.start w)
    let bits := ops.flatMap WriterOp.bits
    (0 ≤ r.w.bsLive ∧ r.w.bsLive < 64 ∧ bytesBits r.bytes ++ r.top = bits) ∧
      (∃ k, k < 8 ∧ bytesBits (r.out ++ r.w.finishWrite.zbits) =
        bits ++ List.replicate k false) ∧
      ∀ (before after : List WriterOp) (n : Nat) (v : Word32),
        ops = before ++ .put n v :: after →
          let w' := (before.foldl WriterRun.step (WriterRun.start w)).w
          let w'' := BitWriter.needW w'.bsLive.toNat w'
          0 ≤ 64 - w''.bsLive - n ∧
            w''.bsBuff &&& (v.setWidth 64 <<< (64 - w''.bsLive - n).toNat) = 0 := by
  intro r bits
  have hall : r.Wrote bits := WriterRun.Wrote.steps ops (WriterRun.wrote_start w) hops
  refine ⟨hall.top, ?_, ?_⟩
  · obtain ⟨u, hu, hbits⟩ := hall
    obtain ⟨k, hk, hfin, -⟩ := hu.finishWrite
    refine ⟨k, hk, ?_⟩
    rw [bytesBits_append, hfin, ← hbits, WriterRun.bytes, bytesBits_append]
    simp only [List.append_assoc]
  · rintro before after n v rfl
    obtain ⟨u, hu, -⟩ := WriterRun.Wrote.steps before (WriterRun.wrote_start w) fun op hop =>
      hops op (List.mem_append_left _ hop)
    have hput : (WriterOp.put n v).Ok := hops _ (List.mem_append_right _ List.mem_cons_self)
    obtain ⟨-, -, -, hshift, hno⟩ := hu.bsW (show n ≤ 31 by have := hput.2.1; omega) hput.2.2
    exact ⟨hshift, hno⟩

/-- Six bytes, delivered, and three bits more. -/
theorem bsW_concat_three :
    let ops : List WriterOp := [.put 24 0x425a68, .put 24 0x314159, .deliver, .put 3 5]
    ∃ k, k < 8 ∧ bytesBits ((ops.foldl WriterRun.step (WriterRun.start ⟨[], 0, 0⟩)).out ++
      (ops.foldl WriterRun.step (WriterRun.start ⟨[], 0, 0⟩)).w.finishWrite.zbits) =
        ops.flatMap WriterOp.bits ++ List.replicate k false :=
  (bsW_concat ⟨[], 0, 0⟩ [.put 24 0x425a68, .put 24 0x314159, .deliver, .put 3 5] (by
    intro op hop
    simp only [List.mem_cons, List.not_mem_nil, or_false] at hop
    rcases hop with rfl | rfl | rfl | rfl
    · exact ⟨by decide, by decide, by decide⟩
    · exact ⟨by decide, by decide, by decide⟩
    · trivial
    · exact ⟨by decide, by decide, by decide⟩)).2.1

end Qbz2
