/-
  File:      Qbz2/Decompress/Abstract.lean
  Subject:   The decoder as a machine on a tape of bits: what the bits of a stream mean, whoever
             delivers them and in whatever portions.

  * `Point`, `bitDecoder` -- the machine: it reads the bits of a label, emits the bytes of a block
    one by one, and halts with the result of the stream;
  * `decompressStep_sim` -- a step of `BZ2_decompress` is steps of the machine on the bits at hand,
    be they buffered or not; the table lookup is the steps of `GET_MTF_VAL`;
  * `decompress_sim` -- and so is a call.
-/
import Qbz2.Decompress.Ready
import Qbz2.Lib.Transducer

namespace Qbz2

open Bits Transducer

/-! ## 1. The machine -/

/-- Where the machine stands: in the parser, or giving out a block. -/
inductive Point where
  | parser (ctl : Ctl)
  | output

section

variable {μ : Type} [MtfList μ]

/-- A run fetched from the block; none where the vector is left. -/
def Core.fetch (small : Bool) (c : Core μ) : Option Out :=
  if small || c.p.blockRandomised then
    match fetchSlow (c.env small) c.out with
    | (true, _) => none
    | (false, o) => some o
  else
    match fetchFast (c.env small) c.out with
    | .corrupt => none
    | .notr _ => none
    | .eqOne o => some { o with stateOutLen := 1 }
    | .top o => some o

/-- The machine stands at what a stretch of the parser has led to. -/
def standing (r : Core μ × Ctl) : Core μ × Point := (r.1, .parser r.2)

/-- The decoder on a tape. -/
def bitDecoder (ver : Version) (small : Bool) : Machine (Core μ × Point) Bool Byte Ret
  | (c, .parser (.get l)) => .read l.nbits fun bits => standing (c.resume ver small l (bitsVal bits))
  | (c, .parser .fast) => .move (standing (c.absorb small (c.p.beginVal .literal)))
  | (c, .parser .block) =>
    match c.endBlock small with
    | none => .move (c, .parser .block)
    | some (_, some r) => .halt r
    | some (c, none) => .move (c, .output)
  | (c, .parser (.ret .streamEnd)) =>
    if c.calculatedCombinedCRC ≠ c.p.storedCombinedCRC then .halt .dataError else .halt .streamEnd
  | (_, .parser (.ret r)) => .halt r
  | (c, .output) =>
    if c.out.stateOutLen > 0 then .emit c.out.stateOutCh ({ c with out := c.out.emit }, .output)
    else if c.out.nblockUsed > c.p.nblock + 1 then .halt .dataError
    else if c.out.nblockUsed = c.p.nblock + 1 then
      match c.finishBlock with
      | (_, false) => .halt .dataError
      | (c, true) => .move (c, .parser (.get .blkhdr1))
    else
      match c.fetch small with
      | none => .halt .dataError
      | some out => .move ({ c with out }, .output)

section

variable {ver : Version} {small : Bool} {c : Core μ} {pt : Point} {s : Core μ × Point}

/-- Bits are read at the labels. -/
theorem bitDecoder_read {n : Nat} {k : List Bool → Core μ × Point}
    (h : bitDecoder ver small (c, pt) = .read n k) :
    ∃ l, pt = .parser (.get l) ∧ n = l.nbits ∧
      k = fun bits => standing (c.resume ver small l (bitsVal bits)) := by
  unfold bitDecoder at h
  split at h
  · rename_i l he
    cases he
    cases h
    exact ⟨l, rfl, rfl, rfl⟩
  · cases h
  · split at h <;> cases h
  · split at h <;> cases h
  · cases h
  · split at h
    · cases h
    · split at h
      · cases h
      · split at h
        · split at h <;> cases h
        · split at h <;> cases h

/-- Bytes are given out from a run that has been fetched. -/
theorem bitDecoder_emit {b : Byte} (h : bitDecoder ver small (c, pt) = .emit b s) :
    pt = .output ∧ 0 < c.out.stateOutLen ∧ b = c.out.stateOutCh ∧
      s = ({ c with out := c.out.emit }, .output) := by
  unfold bitDecoder at h
  split at h
  · cases h
  · cases h
  · split at h <;> cases h
  · split at h <;> cases h
  · cases h
  · rename_i he
    cases he
    split at h
    · rename_i hlen
      cases h
      exact ⟨rfl, hlen, rfl, rfl⟩
    · split at h
      · cases h
      · split at h
        · split at h <;> cases h
        · split at h <;> cases h

/-- **The steps in between**: a literal has been decoded; a block begins, or stands still where the
    pointer reversal does; a block is over; a run is fetched. -/
theorem bitDecoder_move (h : bitDecoder ver small (c, pt) = .move s) :
    pt = .parser .fast ∧ s = standing (c.absorb small (c.p.beginVal .literal)) ∨
    pt = .parser .block ∧ s = (c, .parser .block) ∨
    (pt = .parser .block ∧ ∃ d, c.endBlock small = some (d, none) ∧ s = (d, .output)) ∨
    (pt = .output ∧ c.out.stateOutLen = 0 ∧ c.out.nblockUsed = c.p.nblock + 1 ∧
      ∃ d, c.finishBlock = (d, true) ∧ s = (d, .parser (.get .blkhdr1))) ∨
    (pt = .output ∧ c.out.stateOutLen = 0 ∧ c.out.nblockUsed ≤ c.p.nblock ∧
      ∃ q, c.fetch small = some q ∧ s = ({ c with out := q }, .output)) := by
  unfold bitDecoder at h
  split at h
  · cases h
  · rename_i he
    cases he
    cases h
    exact .inl ⟨rfl, rfl⟩
  · rename_i he
    cases he
    split at h
    · cases h
      exact .inr (.inl ⟨rfl, rfl⟩)
    · cases h
    · rename_i d hd
      cases h
      exact .inr (.inr (.inl ⟨rfl, d, hd, rfl⟩))
  · split at h <;> cases h
  · cases h
  · rename_i he
    cases he
    split at h
    · cases h
    · rename_i hlen
      split at h
      · cases h
      · rename_i hover
        split at h
        · rename_i hused
          split at h
          · cases h
          · rename_i d hd
            cases h
            exact .inr (.inr (.inr (.inl ⟨rfl, Nat.eq_zero_of_not_pos hlen, hused, d, hd, rfl⟩)))
        · rename_i hused
          split at h
          · cases h
          · rename_i q hq
            cases h
            exact .inr (.inr (.inr (.inr ⟨rfl, Nat.eq_zero_of_not_pos hlen, by omega, q, hq, rfl⟩)))

end

/-! ## 2. A step of the parser -/

/-- The stream after some of the input has been read: the pointer and the count move together,
    the rest is as it was. -/
structure Reads (strm strm' : BzStream) : Prop where
  mem : strm'.mem = strm.mem
  input : strm'.nextIn + strm'.availIn = strm.nextIn + strm.availIn
  nextOut : strm'.nextOut = strm.nextOut
  out : strm'.out = strm.out
  availOut : strm'.availOut = strm.availOut

theorem Reads.refl (strm : BzStream) : Reads strm strm := ⟨rfl, rfl, rfl, rfl, rfl⟩

theorem Reads.trans {s s' s'' : BzStream} (h : Reads s s') (h' : Reads s' s'') : Reads s s'' :=
  ⟨h'.mem.trans h.mem, h'.input.trans h.input, h'.nextOut.trans h.nextOut, h'.out.trans h.out,
    h'.availOut.trans h.availOut⟩

theorem reads_skip4 (strm : BzStream) (h : 4 ≤ strm.availIn) : Reads strm strm.skip4 :=
  ⟨rfl, by unfold BzStream.skip4; dsimp only; omega, rfl, rfl, rfl⟩

theorem reads_skipByte (strm : BzStream) (h : 0 < strm.availIn) : Reads strm strm.skipByte :=
  ⟨rfl, by unfold BzStream.skipByte; dsimp only; omega, rfl, rfl, rfl⟩

/-- How many bits the buffer may hold. -/
def Version.capacity : Version → Nat
  | .qbz2 => 64
  | .reference => 32

/-- The parser is in order, and its buffer within bounds. -/
structure Fits (ver : Version) (d : DState μ) (ctl : Ctl) : Prop where
  ready : Ready d.core.p ctl
  live : d.bits.bsLive ≤ ver.capacity

theorem canRefill4_iff {ver : Version} {b : BitBuf} {strm : BzStream}
    (h : canRefill4 ver b strm = true) : ver = .qbz2 ∧ strm.availIn ≥ 4 ∧ b.bsLive ≤ 32 := by
  cases ver with
  | qbz2 => exact ⟨rfl, of_decide_eq_true h⟩
  | reference => exact nomatch h

/-- The 1-byte refill of either decoder. -/
theorem tape_refill1_ver (ver : Version) (b : BitBuf) (strm : BzStream) (h : 0 < strm.availIn)
    (hb : b.bsLive + 8 ≤ ver.capacity) :
    tape (refill1 ver b strm).1 (refill1 ver b strm).2 = tape b strm := by
  cases ver with
  | qbz2 =>
    have hb' : b.bsLive + 8 ≤ 64 := hb
    exact tape_refill1 b strm h (by omega)
  | reference =>
    have hb' : b.bsLive + 8 ≤ 32 := hb
    exact tape_refill1_reference b strm h (by omega)

/-- **The loop of `GET_MTF_VAL`, bit by bit**, is what it is on buffered bits. -/
theorem getMtfLoop_steps (ver : Version) (small : Bool) (site : MtfSite) (u : List Bool) {sym : Int}
    {b' : BitBuf} : ∀ (fuel : Nat) (c : Core μ) (zn zvec : Int) (b : BitBuf),
    getMtfLoop c.p.group fuel zn zvec b = some (some sym, b') →
    Steps (bitDecoder ver small) (standing (c.absorb small (c.p.mtf ver site zn zvec))) (b.bits ++ u) []
      (standing (c.absorb small (c.p.value ver site sym))) (b'.bits ++ u) := by
  intro fuel
  induction fuel with
  | zero => intro c zn zvec b h; cases h
  | succ fuel ih =>
    intro c zn zvec b h
    unfold getMtfLoop at h
    unfold Parse.mtf
    cases hm : mtfVal c.p.group zn zvec with
    | error =>
      rw [hm] at h
      cases h
    | symbol sym' =>
      rw [hm] at h
      cases h
      exact .refl _ _
    | more =>
      rw [hm] at h
      dsimp only at h ⊢
      unfold BitBuf.getBits at h
      split at h
      · rename_i h1
        rw [Option.bind_some] at h
        dsimp only at h
        have hlen : 1 ≤ (b.bits ++ u).length := by
          rw [List.length_append, BitBuf.length_bits]
          omega
        have hval : bitsVal ((b.bits ++ u).take 1) = b.peek 1 := by
          rw [List.take_append_of_le_length (by rw [BitBuf.length_bits]; exact h1),
            b.bitsVal_take h1 (by decide)]
        have hdrop : (b.bits ++ u).drop 1 = (b.skip 1).bits ++ u := by
          rw [List.drop_append_of_le_length (by rw [BitBuf.length_bits]; exact h1), b.bits_skip h1]
        refine .read rfl hlen ?_
        rw [show (Label.mtfNext site (zn + 1) zvec).nbits = 1 from rfl, hval, hdrop]
        exact ih c (zn + 1) _ _ h
      · cases h

/-- A hit in the table, bit by bit. -/
theorem getMtfVal_steps (ver : Version) (small : Bool) (u : List Bool) {c : Core μ} {sym : Int}
    {b b' : BitBuf} (hpos : 0 < c.p.groupPos) (hmin : c.p.gMinlen = c.p.group.minLen)
    (h20 : c.p.group.minLen ≤ 20) (h : getMtfVal c.p.group b = some (some sym, b')) :
    Steps (bitDecoder ver small) (c, .parser .fast) (b.bits ++ u) []
      (standing (c.absorb small
        { c.p with nextSym := sym, groupPos := c.p.groupPos - 1 }.symbol)) (b'.bits ++ u) := by
  have hbegin : c.p.beginVal .literal =
      { c.p with groupPos := c.p.groupPos - 1 }.goto (.mtf .literal c.p.gMinlen) := by
    unfold Parse.beginVal
    rw [if_neg (Nat.ne_of_gt hpos)]
  unfold getMtfVal BitBuf.getBits at h
  split at h
  · rename_i hlive
    rw [Option.bind_some] at h
    dsimp only at h
    have hlen : c.p.group.minLen.toNat ≤ (b.bits ++ u).length := by
      rw [List.length_append, BitBuf.length_bits]
      omega
    have hval : bitsVal ((b.bits ++ u).take c.p.group.minLen.toNat) =
        b.peek c.p.group.minLen.toNat := by
      rw [List.take_append_of_le_length (by rw [BitBuf.length_bits]; exact hlive),
        b.bitsVal_take hlive (by omega)]
    have hdrop : (b.bits ++ u).drop c.p.group.minLen.toNat =
        (b.skip c.p.group.minLen.toNat).bits ++ u := by
      rw [List.drop_append_of_le_length (by rw [BitBuf.length_bits]; exact hlive),
        b.bits_skip hlive]
    have hloop := getMtfLoop_steps ver small .literal u 21
      { c with p := { c.p with groupPos := c.p.groupPos - 1 } } c.p.group.minLen _ _ h
    refine .move rfl ?_
    rw [hbegin, hmin]
    refine .read rfl hlen ?_
    rw [show (Label.mtf .literal c.p.group.minLen).nbits = c.p.group.minLen.toNat from rfl, hval,
      hdrop]
    exact hloop
  · cases h

/-- The table lookup after a literal, or `GET_MTF_VAL`. -/
theorem fastDecode_sim (ver : Version) {d : DState μ} {strm : BzStream} (hi : Fits ver d .fast) :
    Steps (bitDecoder ver d.small) (d.core, .parser .fast) (tape d.bits strm) []
      (standing ((fastDecode ver d strm).1.core, (fastDecode ver d strm).2.2))
      (tape (fastDecode ver d strm).1.bits (fastDecode ver d strm).2.1) ∧
    Fits ver (fastDecode ver d strm).1 (fastDecode ver d strm).2.2 ∧
    (fastDecode ver d strm).1.small = d.small ∧ Reads strm (fastDecode ver d strm).2.1 := by
  obtain ⟨⟨hb, hc⟩, hlive⟩ := hi
  have hslow := @sound_beginVal _ .literal hb (fun _ => hc) fun h => nomatch h
  -- `GET_MTF_VAL`, from any buffer that holds the same tape
  have slow : ∀ (bits : BitBuf) (strm' : BzStream), tape bits strm' = tape d.bits strm →
      bits.bsLive ≤ ver.capacity → Reads strm strm' →
      Steps (bitDecoder ver d.small) (d.core, .parser .fast) (tape d.bits strm) []
        (standing (d.core.absorb d.small (d.core.p.beginVal .literal))) (tape bits strm') ∧
      Fits ver { d with bits, core := (d.core.absorb d.small (d.core.p.beginVal .literal)).1 }
        (d.core.absorb d.small (d.core.p.beginVal .literal)).2 ∧ d.small = d.small ∧
      Reads strm strm' := by
    intro bits strm' ht hl hr
    rw [ht]
    exact ⟨.move rfl (.refl _ _), ⟨hslow.ready, hl⟩, rfl, hr⟩
  cases ver with
  | reference => exact slow d.bits strm rfl hlive (Reads.refl strm)
  | qbz2 =>
    unfold fastDecode
    dsimp only
    by_cases hpos : d.core.p.groupPos > 0
    · rw [if_pos hpos]
      -- the refill
      obtain ⟨bits, strm', he, ht, hl, hr⟩ : ∃ (bits : BitBuf) (strm' : BzStream),
          (if canRefill4 .qbz2 d.bits strm = true then refill4 d.bits strm else (d.bits, strm)) =
            (bits, strm') ∧ tape bits strm' = tape d.bits strm ∧ bits.bsLive ≤ 64 ∧
          Reads strm strm' := by
        by_cases hcan : canRefill4 .qbz2 d.bits strm = true
        · obtain ⟨-, h4, h32⟩ := canRefill4_iff hcan
          refine ⟨_, _, if_pos hcan, tape_refill4 _ _ hcan, ?_, reads_skip4 strm h4⟩
          show d.bits.bsLive + 32 ≤ 64
          omega
        · exact ⟨_, _, if_neg hcan, rfl, hlive, Reads.refl strm⟩
      rw [he]
      dsimp only
      by_cases h11 : bits.bsLive ≥ bzDecodeTableBits
      · rw [if_pos h11]
        cases hlook : tableLookup d.core.p.group bits with
        | none => exact slow bits strm' ht hl hr
        | some hit =>
          obtain ⟨sym, k⟩ := hit
          have hg := CurOk.group hb hc
          obtain ⟨hval, hk⟩ := tableLookup_getMtfVal hg h11 hlook
          have h20 := hg.minLen_range.2
          have hsteps := getMtfVal_steps .qbz2 d.small (bytesBits strm'.input) hpos hc.minLen h20 hval
          obtain ⟨h0, hlt⟩ := getMtfVal_sym hg hval
          have hsound := sound_symbol (p := { d.core.p with
              nextSym := sym, groupPos := d.core.p.groupPos - 1 })
            (hb.frame _ _ _ _ _ hb.le hb.groupNo (Nat.le_trans (Nat.sub_le _ _) hb.groupPos)) hc
            ⟨h0, hlt⟩
          rw [← ht]
          refine ⟨hsteps, ⟨hsound.ready, ?_⟩, rfl, hr⟩
          exact Nat.le_trans (Nat.sub_le _ _) hl
      · rw [if_neg h11]
        exact slow bits strm' ht hl hr
    · rw [if_neg hpos]
      exact slow d.bits strm rfl hlive (Reads.refl strm)

/-- **A step of `BZ2_decompress` that goes on is steps of the machine**, on the same bits. -/
theorem decompressStep_sim (ver : Version) {d d' : DState μ} {strm strm' : BzStream}
    {ctl ctl' : Ctl} (hi : Fits ver d ctl)
    (h : decompressStep ver (d, strm, ctl) = some (.inl (d', strm', ctl'))) :
    Steps (bitDecoder ver d.small) (standing (d.core, ctl)) (tape d.bits strm) []
      (standing (d'.core, ctl')) (tape d'.bits strm') ∧
    Fits ver d' ctl' ∧ d'.small = d.small ∧ Reads strm strm' := by
  cases ctl with
  | get l =>
    obtain ⟨hn1, hn20⟩ := nbits_range hi.ready
    unfold decompressStep at h
    dsimp only at h
    split at h
    · rename_i hle
      cases h
      have hlen : l.nbits ≤ (tape d.bits strm).length := by
        rw [length_tape]
        omega
      refine ⟨.read rfl hlen ?_, ⟨(resume_sound ver hi.ready _).ready, ?_⟩, rfl, Reads.refl strm⟩
      · rw [bitsVal_take_tape _ _ hle (by omega), ← tape_skip _ _ hle]
        exact .refl _ _
      · exact Nat.le_trans (Nat.sub_le _ _) hi.live
    · rename_i hlt
      split at h
      · rename_i hcan
        obtain ⟨rfl, h4, h32⟩ := canRefill4_iff hcan
        cases h
        refine ⟨?_, ⟨hi.ready, ?_⟩, rfl, reads_skip4 strm h4⟩
        · rw [tape_refill4 _ _ hcan]
          exact .refl _ _
        · have hl : (refill4 d.bits strm).1.bsLive = d.bits.bsLive + 32 := rfl
          rw [hl]
          show d.bits.bsLive + 32 ≤ 64
          omega
      · split at h
        · cases h
        · rename_i hne
          cases h
          have hcap : d.bits.bsLive + 8 ≤ ver.capacity := by
            have h32 : 32 ≤ ver.capacity := by cases ver <;> decide
            omega
          refine ⟨?_, ⟨hi.ready, ?_⟩, rfl, reads_skipByte strm (by omega)⟩
          · rw [tape_refill1_ver ver _ _ (by omega) hcap]
            exact .refl _ _
          · exact hcap
  | fast =>
    unfold decompressStep at h
    dsimp only at h
    obtain ⟨hsteps, hfit, hsmall, hreads⟩ := fastDecode_sim ver hi
    obtain ⟨rfl, rfl, rfl⟩ : (fastDecode ver d strm).1 = d' ∧ (fastDecode ver d strm).2.1 = strm' ∧
        (fastDecode ver d strm).2.2 = ctl' := by
      have h' := Sum.inl.inj (Option.some.inj h)
      rw [h']
      exact ⟨rfl, rfl, rfl⟩
    exact ⟨hsteps, hfit, hsmall, hreads⟩
  | block =>
    unfold decompressStep at h
    dsimp only at h
    cases he : d.core.endBlock d.small with
    | none =>
      rw [he] at h
      cases h
    | some r =>
      obtain ⟨core, r⟩ := r
      rw [he] at h
      cases r <;> cases h
  | ret r => cases r <;> cases h

/-! ## 3. The table lookup -/

/-- The lengths of a group, for an array whose first `n` cells are between 1 and 20. -/
theorem lengths_of_range {n : Nat} {length : Int → Int} (h3 : 3 ≤ n) (h258 : n ≤ 258)
    (h : ∀ j : Nat, j < n → 1 ≤ length j ∧ length j ≤ 20) :
    Lengths n length fun j => (length j).toNat where
  pos := by omega
  small := h258
  cast j hj := by
    have := h j hj
    omega
  one_le j hj := by
    have := h j hj
    omega
  le_twenty j hj := by
    have := h j hj
    omega

/-- **Fast Huffman decoding is the canonical slow path.** For every array of lengths between 1
    and 20, complete or not: what the table built from it yields on any buffer of at least 11 bits
    is what `GET_MTF_VAL` yields on the same bits, the same bits consumed; where it yields nothing
    the decoder stands at `GET_MTF_VAL` with the bits it had; and an over-subscribed code leaves
    the table empty. -/
theorem tableLookup_refines (n : Nat) (h3 : 3 ≤ n) (h258 : n ≤ 258) (length : Int → Int)
    (hlen : ∀ j : Nat, j < n → 1 ≤ length j ∧ length j ≤ 20) (g₀ : HuffTables) :
    (∀ (b : BitBuf), bzDecodeTableBits ≤ b.bsLive → ∀ (sym : Int) (k : Nat),
      tableLookup (buildTables length n g₀) b = some (sym, k) →
        getMtfVal (buildTables length n g₀) b = some (some sym, b.skip k) ∧ k ≤ b.bsLive) ∧
    (∀ (d : DState μ) (strm : BzStream) (b : BitBuf) (strm' : BzStream),
      (if canRefill4 .qbz2 d.bits strm then refill4 d.bits strm else (d.bits, strm)) = (b, strm') →
      d.core.p.group = buildTables length n g₀ →
      (bzDecodeTableBits ≤ b.bsLive → tableLookup (buildTables length n g₀) b = none) →
        let bits := if 0 < d.core.p.groupPos then b else d.bits
        let rest := if 0 < d.core.p.groupPos then strm' else strm
        tape bits rest = tape d.bits strm ∧
        fastDecode .qbz2 d strm =
          ({ d with bits, core := (d.core.absorb d.small (d.core.p.beginVal .literal)).1 }, rest,
            (d.core.absorb d.small (d.core.p.beginVal .literal)).2)) ∧
    (2 ^ 20 < ∑ j ∈ Finset.range n, 2 ^ (20 - (length j).toNat) →
      ∀ v : Nat, v < 2048 → (buildTables length n g₀).decodeFast v = 0) := by
  have hl := lengths_of_range h3 h258 hlen
  have hg := buildTables_sound hl g₀
  refine ⟨fun b h11 sym k h => tableLookup_getMtfVal hg h11 h,
    fun d strm b strm' hb hgroup hnone => ?_, fun h v hv => overSubscribed_abandons hl g₀ h hv⟩
  have htape : tape b strm' = tape d.bits strm := by
    split at hb
    · rename_i hcan
      obtain ⟨rfl, rfl⟩ := Prod.mk.inj hb
      exact tape_refill4 _ _ hcan
    · obtain ⟨rfl, rfl⟩ := Prod.mk.inj hb
      rfl
  unfold fastDecode
  dsimp only
  by_cases hpos : 0 < d.core.p.groupPos
  · rw [if_pos hpos, if_pos hpos, if_pos hpos, hb]
    refine ⟨htape, ?_⟩
    dsimp only
    by_cases h11 : b.bsLive ≥ bzDecodeTableBits
    · rw [if_pos h11, hgroup, hnone h11]
    · rw [if_neg h11]
  · rw [if_neg hpos, if_neg hpos, if_neg hpos]
    exact ⟨rfl, rfl⟩

/-- Lengths 1, 2, 2, and the bits of the second symbol before others. -/
theorem tableLookup_refines_three :
    getMtfVal (buildTables (fun i => if i = 0 then 1 else 2) 3 .fresh) ⟨0xaff#64, 12⟩ =
      some (some 1, ⟨0xaff#64, 10⟩) :=
  ((@tableLookup_refines FlatMtf _ 3 (by decide) (by decide) (fun i => if i = 0 then 1 else 2)
    (fun j _ => by split <;> decide) .fresh).1 ⟨0xaff#64, 12⟩ (by decide) 1 2
    (by decide +kernel)).1

end

end Qbz2
