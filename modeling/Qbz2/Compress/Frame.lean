/-
  File:      Qbz2/Compress/Frame.lean
  Subject:   What the parts of the compressor leave alone, and what they always do.

  * `BitWriter.total` -- the bits written since the writer was empty; `numZ` never falls, and 73
    bits do not fit in the accumulator (`numZ_pos`);
  * `Control` -- mode, state and counters of the protocol; `compressBlock` touches none of them
    (`compressBlock_spec`), and a block that is not empty, or the trailer, gives output;
  * `Copies` -- the rounds of `copy_input_until_stop`, with the bytes they take.
-/
import Qbz2.Compress.Machine

namespace Qbz2

/-! ## 1. Functions that may not return -/

/-- A run that returned ran its first part. -/
theorem bind_ok {α β ε : Type} {x : Except ε α} {f : α → Except ε β} {b : β}
    (h : (x >>= f) = .ok b) : ∃ a, x = .ok a ∧ f a = .ok b := by
  cases x with
  | error e => cases h
  | ok a => exact ⟨a, rfl, h⟩

/-- What a result that has been looked at was before. -/
theorem map_eq_ok {α β ε : Type} {x : Except ε α} {f : α → β} {b : β} (h : x.map f = .ok b) :
    ∃ a, x = .ok a ∧ f a = b := by
  cases x with
  | error e => cases h
  | ok a => exact ⟨a, rfl, Except.ok.inj h⟩

/-! ## 2. The bit writer -/

namespace BitWriter

/-- The bits in `zbits` and in the accumulator. -/
def total (w : BitWriter) : Int := 8 * w.numZ + w.bsLive

theorem needW_spec : ∀ (fuel : Nat) (w : BitWriter), w.bsLive ≤ fuel →
    (needW fuel w).total = w.total ∧ (needW fuel w).bsLive < 32 ∧
      w.numZ ≤ (needW fuel w).numZ := by
  intro fuel
  induction fuel with
  | zero => intro w h; exact ⟨rfl, by unfold needW; omega, Nat.le_refl _⟩
  | succ fuel ih =>
    intro w h
    unfold needW
    by_cases h32 : w.bsLive ≥ 32
    · rw [if_pos h32]
      obtain ⟨h1, h2, h3⟩ := ih
        { zbits := w.zbits ++ [(w.bsBuff >>> 56).setWidth 8, (w.bsBuff >>> 48).setWidth 8,
            (w.bsBuff >>> 40).setWidth 8, (w.bsBuff >>> 32).setWidth 8]
          bsBuff := w.bsBuff <<< 32
          bsLive := w.bsLive - 32 } (by dsimp only; omega)
      have hlen : (w.zbits ++ [(w.bsBuff >>> 56).setWidth 8, (w.bsBuff >>> 48).setWidth 8,
          (w.bsBuff >>> 40).setWidth 8, (w.bsBuff >>> 32).setWidth 8]).length = w.numZ + 4 := by
        rw [List.length_append]
        rfl
      refine ⟨h1.trans ?_, h2, ?_⟩
      · unfold total numZ
        dsimp only
        rw [hlen]
        unfold numZ
        omega
      · unfold numZ at h3 ⊢
        dsimp only at h3
        rw [hlen] at h3
        unfold numZ at h3
        omega
    · rw [if_neg h32]
      exact ⟨rfl, by omega, Nat.le_refl _⟩

theorem bsW_spec (w : BitWriter) (n : Nat) (v : Word32) :
    (w.bsW n v).total = w.total + n ∧ (w.bsW n v).bsLive < 32 + n ∧
      w.numZ ≤ (w.bsW n v).numZ := by
  obtain ⟨h1, h2, h3⟩ := needW_spec w.bsLive.toNat w (Int.self_le_toNat _)
  unfold bsW
  refine ⟨?_, ?_, h3⟩
  · rw [← h1]
    unfold total numZ
    dsimp only
    omega
  · dsimp only
    omega

@[simp] theorem total_bsW (w : BitWriter) (n : Nat) (v : Word32) :
    (w.bsW n v).total = w.total + n := (bsW_spec w n v).1

theorem numZ_le_bsW (w : BitWriter) (n : Nat) (v : Word32) : w.numZ ≤ (w.bsW n v).numZ :=
  (bsW_spec w n v).2.2

@[simp] theorem total_putUChar (w : BitWriter) (c : Byte) : (w.putUChar c).total = w.total + 8 :=
  total_bsW w 8 _

@[simp] theorem total_putUInt32 (w : BitWriter) (u : Word32) :
    (w.putUInt32 u).total = w.total + 32 := by
  unfold putUInt32
  rw [total_bsW, total_bsW, total_bsW, total_bsW]
  omega

theorem numZ_le_bsWs (l : List (Nat × Word32)) : ∀ w : BitWriter, w.numZ ≤ (w.bsWs l).numZ := by
  induction l with
  | nil => intro w; exact Nat.le_refl _
  | cons x l ih => intro w; exact Nat.le_trans (numZ_le_bsW w x.1 x.2) (ih _)

/-- Bytes are flushed once the accumulator cannot hold all bits. -/
theorem numZ_pos {w : BitWriter} {u : Word32} (h : 41 ≤ w.total) : 0 < (w.putUInt32 u).numZ := by
  have h1 := total_putUInt32 w u
  have h2 : (w.putUInt32 u).bsLive < 32 + (8 : Nat) := (bsW_spec _ 8 _).2.1
  unfold total at h1
  unfold total at h
  omega

theorem finishLoop_spec : ∀ (fuel : Nat) (w : BitWriter), -8 < w.bsLive →
    w.numZ ≤ (finishLoop fuel w).numZ ∧ -8 < (finishLoop fuel w).bsLive := by
  intro fuel
  induction fuel with
  | zero => intro w h; exact ⟨Nat.le_refl _, h⟩
  | succ fuel ih =>
    intro w h
    unfold finishLoop
    by_cases h0 : w.bsLive > 0
    · rw [if_pos h0]
      obtain ⟨h1, h2⟩ := ih
        { zbits := w.zbits ++ [(w.bsBuff >>> 56).setWidth 8]
          bsBuff := w.bsBuff <<< 8
          bsLive := w.bsLive - 8 } (by dsimp only; omega)
      have hlen : (w.zbits ++ [(w.bsBuff >>> 56).setWidth 8]).length = w.zbits.length + 1 := by
        rw [List.length_append]
        rfl
      refine ⟨Nat.le_trans ?_ h1, h2⟩
      unfold numZ
      dsimp only
      omega
    · rw [if_neg h0]
      exact ⟨Nat.le_refl _, h⟩

/-- The accumulator is never left with less than nothing, but for the padding of the last byte. -/
theorem bsLive_bsW {w : BitWriter} (h : -8 < w.bsLive) (n : Nat) (v : Word32) :
    -8 < (w.bsW n v).bsLive := by
  have key : ∀ (fuel : Nat) (w : BitWriter), -8 < w.bsLive → -8 < (needW fuel w).bsLive := by
    intro fuel
    induction fuel with
    | zero => intro w h; exact h
    | succ fuel ih =>
      intro w h
      unfold needW
      split
      · exact ih _ (by dsimp only; omega)
      · exact h
  have := key w.bsLive.toNat w h
  unfold bsW
  dsimp only
  omega

theorem bsLive_bsWs (l : List (Nat × Word32)) : ∀ w : BitWriter, -8 < w.bsLive →
    -8 < (w.bsWs l).bsLive := by
  induction l with
  | nil => intro w h; exact h
  | cons x l ih => intro w h; exact ih _ (bsLive_bsW h x.1 x.2)

theorem bsLive_putUInt32 {w : BitWriter} (h : -8 < w.bsLive) (u : Word32) :
    -8 < (w.putUInt32 u).bsLive :=
  bsLive_bsW (bsLive_bsW (bsLive_bsW (bsLive_bsW h _ _) _ _) _ _) _ _

theorem total_gt {w : BitWriter} (h : -8 < w.bsLive) : -8 < w.total := by
  unfold total
  omega

end BitWriter

/-! ## 3. `BZ2_compressBlock` -/

/-- Two states with the same protocol state and the same pending run. -/
structure SameControl (s s' : EState) : Prop where
  mode : s'.mode = s.mode
  state : s'.state = s.state
  availInExpect : s'.availInExpect = s.availInExpect
  stateOutPos : s'.stateOutPos = s.stateOutPos
  blockNo : s'.blockNo = s.blockNo
  blockSize100k : s'.blockSize100k = s.blockSize100k
  nblockMAX : s'.nblockMAX = s.nblockMAX
  stateInCh : s'.input.stateInCh = s.input.stateInCh
  stateInLen : s'.input.stateInLen = s.input.stateInLen
  nblock : s'.input.nblock = s.input.nblock

theorem SameControl.refl (s : EState) : SameControl s s :=
  ⟨rfl, rfl, rfl, rfl, rfl, rfl, rfl, rfl, rfl, rfl⟩

theorem SameControl.trans {s s' s'' : EState} (h : SameControl s s') (h' : SameControl s' s'') :
    SameControl s s'' :=
  ⟨h'.mode.trans h.mode, h'.state.trans h.state, h'.availInExpect.trans h.availInExpect,
    h'.stateOutPos.trans h.stateOutPos, h'.blockNo.trans h.blockNo,
    h'.blockSize100k.trans h.blockSize100k, h'.nblockMAX.trans h.nblockMAX,
    h'.stateInCh.trans h.stateInCh, h'.stateInLen.trans h.stateInLen, h'.nblock.trans h.nblock⟩

/-- Six bytes and a word: enough for output. -/
theorem six_bytes {w w' : BitWriter} (h : -8 < w.bsLive) {c0 c1 c2 c3 c4 c5 : Byte} {u : Word32}
    (hw : w' = ((((((w.putUChar c0).putUChar c1).putUChar c2).putUChar c3).putUChar c4).putUChar
      c5).putUInt32 u) : 0 < w'.numZ ∧ -8 < w'.bsLive := by
  rw [hw]
  refine ⟨BitWriter.numZ_pos ?_, BitWriter.bsLive_putUInt32 (BitWriter.bsLive_bsW
    (BitWriter.bsLive_bsW (BitWriter.bsLive_bsW (BitWriter.bsLive_bsW (BitWriter.bsLive_bsW
      (BitWriter.bsLive_bsW h _ _) _ _) _ _) _ _) _ _) _ _) _⟩
  have := BitWriter.total_gt h
  simp only [BitWriter.total_putUChar]
  omega

theorem writeHeader_spec (s : EState) (h : -8 < s.out.bsLive) :
    SameControl s (writeHeader s) ∧ -8 < (writeHeader s).out.bsLive := by
  unfold writeHeader
  split
  · refine ⟨⟨rfl, rfl, rfl, rfl, rfl, rfl, rfl, rfl, rfl, rfl⟩, ?_⟩
    have h0 : -8 < s.out.initWrite.bsLive := show (-8 : Int) < 0 by decide
    exact BitWriter.bsLive_bsW (BitWriter.bsLive_bsW (BitWriter.bsLive_bsW
      (BitWriter.bsLive_bsW h0 _ _) _ _) _ _) _ _
  · exact ⟨SameControl.refl s, h⟩

theorem writeTrailer_spec (s : EState) (hl : -8 < s.out.bsLive) :
    SameControl s (writeTrailer s) ∧ -8 < (writeTrailer s).out.bsLive ∧
      0 < (writeTrailer s).numZ := by
  obtain ⟨w, hw⟩ : ∃ w, w = (((((((s.out.putUChar 0x17).putUChar 0x72).putUChar 0x45).putUChar
    0x38).putUChar 0x50).putUChar 0x90).putUInt32 s.combinedCRC) := ⟨_, rfl⟩
  have he : writeTrailer s = { s with out := w.finishWrite } := by
    unfold writeTrailer
    dsimp only
    rw [← hw]
  obtain ⟨hz, hb⟩ := six_bytes hl hw
  obtain ⟨h1, h2⟩ := BitWriter.finishLoop_spec w.bsLive.toNat w hb
  rw [he]
  exact ⟨⟨rfl, rfl, rfl, rfl, rfl, rfl, rfl, rfl, rfl, rfl⟩, h2, Nat.lt_of_lt_of_le hz h1⟩

section

variable [CompressEnv]

theorem sortBlock_spec {s s' : EState} (h : sortBlock s = .ok s') :
    SameControl s s' ∧ s'.out.bsLive = s.out.bsLive := by
  unfold sortBlock at h
  dsimp only at h
  obtain ⟨r, _, he⟩ := bind_ok h
  cases he
  refine ⟨⟨rfl, rfl, rfl, rfl, rfl, rfl, rfl, rfl, rfl, rfl⟩, ?_⟩
  dsimp only
  split <;> rfl

theorem writeBlock_spec {s s' : EState} (hl : -8 < s.out.bsLive) (h : writeBlock s = .ok s') :
    SameControl s s' ∧ -8 < s'.out.bsLive ∧ 0 < s'.numZ := by
  unfold writeBlock at h
  dsimp only at h
  obtain ⟨writes, _, he⟩ := bind_ok h
  obtain ⟨w, hw⟩ : ∃ w, w = (((((((s.out.putUChar 0x31).putUChar 0x41).putUChar 0x59).putUChar
    0x26).putUChar 0x53).putUChar 0x59).putUInt32 s.input.blockCRC) := ⟨_, rfl⟩
  rw [← hw] at he
  obtain ⟨hz, hb⟩ := six_bytes hl hw
  have hz' : 0 < (((w.bsW 1 0).bsW 24 (BitVec.ofInt 32 s.origPtr)).bsWs writes).numZ :=
    Nat.lt_of_lt_of_le hz (Nat.le_trans (BitWriter.numZ_le_bsW w 1 0)
      (Nat.le_trans (BitWriter.numZ_le_bsW _ 24 _) (BitWriter.numZ_le_bsWs writes _)))
  have hb' : -8 < (((w.bsW 1 0).bsW 24 (BitVec.ofInt 32 s.origPtr)).bsWs writes).bsLive :=
    BitWriter.bsLive_bsWs writes _ (BitWriter.bsLive_bsW (BitWriter.bsLive_bsW hb 1 0) 24 _)
  cases he
  exact ⟨⟨rfl, rfl, rfl, rfl, rfl, rfl, rfl, rfl, rfl, rfl⟩, hb', hz'⟩

/-- **`BZ2_compressBlock`** leaves the protocol alone, and gives output for a block that is not
    empty and for the last one. -/
theorem compressBlock_spec {s s' : EState} {isLastBlock : Bool} (hl : -8 < s.out.bsLive)
    (h : compressBlock s isLastBlock = .ok s') :
    SameControl s s' ∧ -8 < s'.out.bsLive ∧
      (0 < s.input.nblock ∨ isLastBlock = true → 0 < s'.numZ) := by
  unfold compressBlock at h
  obtain ⟨s₁, h₁, h⟩ := bind_ok h
  obtain ⟨s₂, h₂, h⟩ := bind_ok h
  unfold whereBlock at h₁ h₂
  have hs₁ : SameControl s s₁ ∧ s₁.out.bsLive = s.out.bsLive := by
    split at h₁
    · exact sortBlock_spec h₁
    · cases h₁
      exact ⟨SameControl.refl s, rfl⟩
  obtain ⟨hc₁, hl₁⟩ := hs₁
  obtain ⟨hch, hlh⟩ := writeHeader_spec s₁ (by rw [hl₁]; exact hl)
  have hs₂ : SameControl (writeHeader s₁) s₂ ∧ -8 < s₂.out.bsLive ∧
      (0 < s.input.nblock → 0 < s₂.numZ) := by
    split at h₂
    · obtain ⟨h1, h2, h3⟩ := writeBlock_spec hlh h₂
      exact ⟨h1, h2, fun _ => h3⟩
    · rename_i hno
      cases h₂
      rw [(hc₁.trans hch).nblock] at hno
      exact ⟨SameControl.refl _, hlh, fun hpos => absurd hpos hno⟩
  obtain ⟨hc₂, hl₂, hz₂⟩ := hs₂
  have hc := (hc₁.trans hch).trans hc₂
  cases isLastBlock with
  | true =>
    cases h
    obtain ⟨h1, h2, h3⟩ := writeTrailer_spec s₂ hl₂
    exact ⟨hc.trans h1, h2, fun _ => h3⟩
  | false =>
    cases h
    refine ⟨hc, hl₂, fun hor => ?_⟩
    cases hor with
    | inl h => exact hz₂ h
    | inr h => cases h

end

/-! ## 4. The pending run -/

/-- A run is pending with its byte and its length, or none is. -/
def RunOk (b : InBlock) : Prop :=
  b.stateInCh = 256 ∧ b.stateInLen = 0 ∨ b.stateInCh < 256 ∧ 1 ≤ b.stateInLen ∧ b.stateInLen ≤ 255

theorem isemptyRL_iff {b : InBlock} (h : RunOk b) :
    b.isemptyRL = true ↔ b.stateInCh = 256 ∧ b.stateInLen = 0 := by
  unfold InBlock.isemptyRL
  rw [Bool.not_eq_true', decide_eq_false_iff_not]
  unfold RunOk at h
  omega

theorem runOk_initRL (b : InBlock) : RunOk b.initRL ∧ b.initRL.isemptyRL = true :=
  ⟨.inl ⟨rfl, rfl⟩, rfl⟩

section

variable [CompressEnv]

/-- **After a byte a run is pending.** -/
theorem addCharToBlock_run {b : InBlock} (h : RunOk b) (c : Byte) :
    RunOk (b.addCharToBlock c) ∧ (b.addCharToBlock c).isemptyRL = false := by
  have key : RunOk (b.addCharToBlock c) ∧ (b.addCharToBlock c).stateInCh < 256 := by
    have hc := c.isLt
    unfold RunOk at h ⊢
    unfold InBlock.addCharToBlock
    dsimp only
    split
    · exact ⟨.inr ⟨hc, by dsimp only [InBlock.putBlock]; omega,
        by dsimp only [InBlock.putBlock]; omega⟩, hc⟩
    · rename_i h1
      split
      · exact ⟨.inr ⟨hc, Nat.le_refl 1, show 1 ≤ 255 by decide⟩, hc⟩
      · rename_i h2
        dsimp only
        omega
  refine ⟨key.1, ?_⟩
  rw [Bool.eq_false_iff]
  intro he
  have := (isemptyRL_iff key.1).mp he
  omega

/-! ## 5. The input taken in -/

/-- Rounds of `copy_input_until_stop`, and the bytes they take. -/
inductive Copies : EState → BzStream → List Byte → EState → BzStream → Prop
  | refl (s : EState) (strm : BzStream) : Copies s strm [] s strm
  | step {s s₁ s' : EState} {strm strm₁ strm' : BzStream} {bs : List Byte}
      (h : copyInputStep s strm = some (s₁, strm₁)) (hs : Copies s₁ strm₁ bs s' strm') :
      Copies s strm (strm.mem strm.nextIn :: bs) s' strm'

/-- What a round does. -/
theorem copyInputStep_some {s s' : EState} {strm strm' : BzStream}
    (h : copyInputStep s strm = some (s', strm')) :
    s.input.nblock < s.nblockMAX ∧ 0 < strm.availIn ∧ (s.mode ≠ .running → 0 < s.availInExpect) ∧
      strm' = strm.skipByte ∧
      s' = { s with
        input := s.input.addCharToBlock (strm.mem strm.nextIn)
        availInExpect := if s.mode = .running then s.availInExpect else s.availInExpect - 1 } := by
  unfold copyInputStep at h
  split at h
  · cases h
  · split at h
    · cases h
    · split at h
      · rename_i hm
        cases h
        exact ⟨by omega, by omega, fun hne => absurd hm hne, rfl, by rw [if_pos hm]⟩
      · rename_i hm
        split at h
        · cases h
        · cases h
          exact ⟨by omega, by omega, fun _ => by omega, rfl, by rw [if_neg hm]⟩

/-- Where it stops. -/
theorem copyInputStep_none {s : EState} {strm : BzStream} (h : copyInputStep s strm = none) :
    s.nblockMAX ≤ s.input.nblock ∨ strm.availIn = 0 ∨
      (s.mode ≠ .running ∧ s.availInExpect = 0) := by
  unfold copyInputStep at h
  split at h
  · left
    omega
  · split at h
    · exact .inr (.inl ‹_›)
    · split at h
      · cases h
      · split at h
        · exact .inr (.inr ⟨‹_›, ‹_›⟩)
        · cases h

/-- What many rounds do: the input is taken from the front, and only the block and what is expected
    of the input change. -/
structure CopyFrame (s : EState) (strm : BzStream) (bs : List Byte) (s' : EState)
    (strm' : BzStream) : Prop where
  input : s'.input = bs.foldl InBlock.addCharToBlock s.input
  rest : s' = { s with input := s'.input, availInExpect := s'.availInExpect }
  expect : s'.availInExpect = if s.mode = .running then s.availInExpect
    else s.availInExpect - bs.length
  enough : s.mode ≠ .running → bs.length ≤ s.availInExpect
  availIn : strm.availIn = strm'.availIn + bs.length
  nextIn : strm'.nextIn = strm.nextIn + bs.length
  mem : strm'.mem = strm.mem
  bytes : bs = bytesAt strm.mem strm.nextIn bs.length
  nextOut : strm'.nextOut = strm.nextOut
  out : strm'.out = strm.out
  availOut : strm'.availOut = strm.availOut

theorem Copies.frame {s s' : EState} {strm strm' : BzStream} {bs : List Byte}
    (h : Copies s strm bs s' strm') : CopyFrame s strm bs s' strm' := by
  induction h with
  | refl s strm =>
    refine ⟨rfl, rfl, ?_, fun _ => Nat.zero_le _, rfl, (Int.add_zero _).symm, rfl, rfl, rfl, rfl,
      rfl⟩
    split <;> rfl
  | @step s s₁ s' strm strm₁ strm' bs h _ ih =>
    obtain ⟨_, hpos, hexp, rfl, rfl⟩ := copyInputStep_some h
    have hav : strm.skipByte.availIn = strm.availIn - 1 := rfl
    have hnext : strm.skipByte.nextIn = strm.nextIn + 1 := rfl
    have h1 := ih.availIn
    have h2 := ih.nextIn
    have h3 := ih.expect
    have h4 := ih.enough
    dsimp only at h3 h4
    refine ⟨ih.input, ih.rest, ?_, fun hne => ?_, ?_, ?_, ih.mem, ?_, ih.nextOut, ih.out,
      ih.availOut⟩
    · rw [h3, List.length_cons]
      split
      · rfl
      · omega
    · have := h4 hne
      have := hexp hne
      rw [if_neg hne] at h4
      rw [List.length_cons]
      have := h4 hne
      omega
    · rw [List.length_cons]
      omega
    · rw [List.length_cons]
      omega
    · rw [List.length_cons, bytesAt_succ]
      congr 1
      exact ih.bytes

/-- `copy_input_until_stop`, as rounds until it stops. -/
theorem copyInputLoop_spec : ∀ (fuel : Nat) (progress : Bool) (s : EState) (strm : BzStream),
    strm.availIn ≤ fuel →
    ∃ bs s' strm', copyInputLoop fuel progress s strm =
        (progress || decide (bs ≠ []), s', strm') ∧
      Copies s strm bs s' strm' ∧ copyInputStep s' strm' = none := by
  intro fuel
  induction fuel with
  | zero =>
    intro progress s strm h
    refine ⟨[], s, strm, by simp [copyInputLoop], .refl s strm, ?_⟩
    unfold copyInputStep
    split
    · rfl
    · rw [if_pos (by omega)]
  | succ fuel ih =>
    intro progress s strm h
    unfold copyInputLoop
    cases hstep : copyInputStep s strm with
    | none => exact ⟨[], s, strm, by simp, .refl s strm, hstep⟩
    | some r =>
      obtain ⟨s₁, strm₁⟩ := r
      obtain ⟨_, hpos, _, hstrm, _⟩ := copyInputStep_some hstep
      have hav : strm₁.availIn = strm.availIn - 1 := by
        rw [hstrm]
        rfl
      obtain ⟨bs, s', strm', he, hc, hstop⟩ := ih true s₁ strm₁ (by omega)
      exact ⟨_, s', strm', by dsimp only; rw [he]; simp, .step hstep hc, hstop⟩

theorem copyInputUntilStop_spec (s : EState) (strm : BzStream) :
    ∃ bs s' strm', copyInputUntilStop s strm = (decide (bs ≠ []), s', strm') ∧
      Copies s strm bs s' strm' ∧ copyInputStep s' strm' = none := by
  obtain ⟨bs, s', strm', he, hc, hstop⟩ := copyInputLoop_spec strm.availIn false s strm
    (Nat.le_refl _)
  exact ⟨bs, s', strm', by unfold copyInputUntilStop; rw [he, Bool.false_or], hc, hstop⟩

end

end Qbz2
