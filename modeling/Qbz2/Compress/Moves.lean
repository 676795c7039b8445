/-
  File:      Qbz2/Compress/Moves.lean
  Subject:   The loop of `handle_compress` as a sequence of moves.

  * `Move` -- what the loop does at a time: take a byte, close a block, give bytes out, begin the
    next block; `Moves` -- several of them;
  * `LoopOk` -- the invariant of the moves; `Exit` -- the ways out of the loop;
  * **`handleLoop_moves`** -- the loop ends after some moves in one of these ways, unless
    `BZ2_compressBlock` does not return.
-/
import Qbz2.Compress.Frame

namespace Qbz2

/-! ## 1. Output -/

/-- What `copy_output_until_stop` changes: `n` bytes go out. -/
structure OutFrame (s : EState) (strm : BzStream) (n : Nat) (s' : EState) (strm' : BzStream) :
    Prop where
  state : s' = { s with stateOutPos := s.stateOutPos + n }
  room : s.stateOutPos + n ≤ s.numZ
  availOut : strm.availOut = strm'.availOut + n
  out : strm'.out = strm.out ++ (s.out.zbits.drop s.stateOutPos).take n
  mem : strm'.mem = strm.mem
  nextIn : strm'.nextIn = strm.nextIn
  availIn : strm'.availIn = strm.availIn

/-- **`copy_output_until_stop`** does nothing, or gives out what there is, as far as there is
    room. -/
theorem copyOutputUntilStop_spec (s : EState) (strm : BzStream) :
    (copyOutputUntilStop s strm = (false, s, strm) ∧ (s.numZ ≤ s.stateOutPos ∨ strm.availOut = 0)) ∨
    ∃ n s' strm', copyOutputUntilStop s strm = (true, s', strm') ∧ 0 < n ∧
      OutFrame s strm n s' strm' ∧ (s'.stateOutPos < s'.numZ → strm'.availOut = 0) := by
  unfold copyOutputUntilStop
  dsimp only
  by_cases h : (s.numZ : Int) - s.stateOutPos ≤ 0 ∨ strm.availOut = 0
  · rw [if_pos h]
    exact .inl ⟨rfl, by omega⟩
  · rw [if_neg h]
    obtain ⟨n, hn⟩ : ∃ n, n = if ((s.numZ : Int) - s.stateOutPos).toNat > strm.availOut
        then strm.availOut else ((s.numZ : Int) - s.stateOutPos).toNat := ⟨_, rfl⟩
    have hn' : 0 < n ∧ s.stateOutPos + n ≤ s.numZ ∧ n ≤ strm.availOut ∧
        (s.stateOutPos + n < s.numZ → n = strm.availOut) := by
      rw [hn]
      split <;> omega
    obtain ⟨h1, h2, h3, h4⟩ := hn'
    rw [← hn]
    have hlen : ((s.out.zbits.drop s.stateOutPos).take n).length = n := by
      unfold EState.numZ BitWriter.numZ at h2
      rw [List.length_take, List.length_drop]
      omega
    have hav : (strm.putBytes ((s.out.zbits.drop s.stateOutPos).take n)).availOut =
        strm.availOut - n := by
      unfold BzStream.putBytes
      dsimp only
      rw [hlen]
    refine .inr ⟨n, { s with stateOutPos := s.stateOutPos + n },
      strm.putBytes ((s.out.zbits.drop s.stateOutPos).take n), rfl, h1,
      ⟨rfl, h2, by rw [hav]; omega, rfl, rfl, rfl, rfl⟩, fun hlt => ?_⟩
    have := h4 hlt
    rw [hav]
    omega

/-! ## 2. Moves -/

theorem drained_iff (s : EState) :
    s.drained = true ↔ s.availInExpect = 0 ∧ s.input.isemptyRL = true := by
  unfold EState.drained
  rw [Bool.and_eq_true, decide_eq_true_iff]

/-- The block that ends a flush, or the stream, is on its way out. -/
def EState.Closed (s : EState) : Prop := s.state = .output ∧ s.mode ≠ .running ∧ s.drained = true

instance (s : EState) : Decidable s.Closed :=
  inferInstanceAs (Decidable (s.state = .output ∧ s.mode ≠ .running ∧ s.drained = true))

section

variable [CompressEnv]

/-- What the loop does at a time. -/
inductive Move : EState → BzStream → EState → BzStream → Prop
  | take {s s' : EState} {strm strm' : BzStream} (hs : s.state = .input)
      (h : copyInputStep s strm = some (s', strm')) : Move s strm s' strm'
  | flush {s s' : EState} {strm : BzStream} (hs : s.state = .input) (hm : s.mode ≠ .running)
      (he : s.availInExpect = 0)
      (h : compressBlock { s with input := s.input.flushRL } (decide (s.mode = .finishing)) =
        .ok s') : Move s strm { s' with state := .output } strm
  | close {s s' : EState} {strm : BzStream} (hs : s.state = .input)
      (hn : s.nblockMAX ≤ s.input.nblock) (he : s.mode = .running ∨ 0 < s.availInExpect)
      (h : compressBlock s false = .ok s') : Move s strm { s' with state := .output } strm
  | give {s s' : EState} {strm strm' : BzStream} {n : Nat} (hs : s.state = .output) (hn : 0 < n)
      (h : OutFrame s strm n s' strm') : Move s strm s' strm'
  | begin {s : EState} {strm : BzStream} (hs : s.state = .output) (hp : s.stateOutPos = s.numZ)
      (hf : ¬ s.Closed) :
      Move s strm { s.prepareNewBlock with state := .input } strm

/-- Several moves. -/
inductive Moves : EState → BzStream → EState → BzStream → Prop
  | refl (s : EState) (strm : BzStream) : Moves s strm s strm
  | step {s s₁ s' : EState} {strm strm₁ strm' : BzStream} (h : Move s strm s₁ strm₁)
      (hs : Moves s₁ strm₁ s' strm') : Moves s strm s' strm'

theorem Moves.trans {s s₁ s₂ : EState} {strm strm₁ strm₂ : BzStream} (h : Moves s strm s₁ strm₁)
    (h' : Moves s₁ strm₁ s₂ strm₂) : Moves s strm s₂ strm₂ := by
  induction h with
  | refl => exact h'
  | step h _ ih => exact .step h (ih h')

theorem Move.moves {s s' : EState} {strm strm' : BzStream} (h : Move s strm s' strm') :
    Moves s strm s' strm' := .step h (.refl _ _)

/-- The rounds of `copy_input_until_stop` are moves. -/
theorem Copies.moves {s s' : EState} {strm strm' : BzStream} {bs : List Byte}
    (h : Copies s strm bs s' strm') (hs : s.state = .input) : Moves s strm s' strm' := by
  induction h with
  | refl => exact .refl _ _
  | step h _ ih =>
    obtain ⟨_, _, _, _, hs₁⟩ := copyInputStep_some h
    exact .step (.take hs h) (ih (by rw [hs₁]; exact hs))

/-- The invariant of the moves: the pending run is in order; nothing is on its way out while a
    block is filled, and a full block leaves a run pending; what is there of the input belongs to
    the flush, if there is one. -/
structure LoopOk (s : EState) (strm : BzStream) : Prop where
  mode : s.mode ≠ .idle
  run : RunOk s.input
  live : -8 < s.out.bsLive
  max : 0 < s.nblockMAX
  input : s.state = .input → s.numZ = 0 ∧ s.stateOutPos = 0 ∧
    (s.nblockMAX ≤ s.input.nblock → s.input.isemptyRL = false)
  pos : s.stateOutPos ≤ s.numZ
  expect : s.mode ≠ .running → s.availInExpect = strm.availIn
  pending : s.state = .output → s.mode = .running → s.input.isemptyRL = false

/-- **Every move keeps the invariant.** -/
theorem Move.loopOk {s s' : EState} {strm strm' : BzStream} (h : Move s strm s' strm')
    (hi : LoopOk s strm) : LoopOk s' strm' := by
  cases h with
  | take hs h =>
    obtain ⟨_, hpos, hexp, rfl, rfl⟩ := copyInputStep_some h
    obtain ⟨hrun, hne⟩ := addCharToBlock_run hi.run (strm.mem strm.nextIn)
    obtain ⟨h1, h2, _⟩ := hi.input hs
    have hav : strm.skipByte.availIn = strm.availIn - 1 := rfl
    refine ⟨hi.mode, hrun, hi.live, hi.max, fun _ => ⟨h1, h2, fun _ => hne⟩, hi.pos, fun hm => ?_,
      fun ho => ?_⟩
    · have := hi.expect hm
      dsimp only
      rw [if_neg hm, hav]
      omega
    · dsimp only at ho
      rw [hs] at ho
      cases ho
  | flush hs hm he h =>
    obtain ⟨hc, hl, _⟩ := compressBlock_spec (s := { s with input := s.input.flushRL }) hi.live h
    obtain ⟨hr, _⟩ := runOk_initRL (if s.input.stateInCh < 256 then s.input.addPairToBlock
      else s.input)
    have hpos := hc.stateOutPos
    have h2 := (hi.input hs).2.1
    dsimp only at hpos
    refine ⟨by rw [hc.mode]; exact hi.mode, ?_, hl, by rw [hc.nblockMAX]; exact hi.max,
      fun ho => (by cases ho), by dsimp only; omega, fun _ => ?_, fun _ hr => ?_⟩
    · unfold RunOk
      dsimp only
      rw [hc.stateInCh, hc.stateInLen]
      exact hr
    · rw [hc.availInExpect]
      exact hi.expect hm
    · rw [hc.mode] at hr
      exact absurd hr hm
  | close hs hn he h =>
    obtain ⟨hc, hl, _⟩ := compressBlock_spec hi.live h
    have hpos := hc.stateOutPos
    have h2 := (hi.input hs).2.1
    refine ⟨by rw [hc.mode]; exact hi.mode, ?_, hl, by rw [hc.nblockMAX]; exact hi.max,
      fun ho => (by cases ho), by dsimp only; omega, fun hm => ?_, fun _ _ => ?_⟩
    · unfold RunOk
      dsimp only
      rw [hc.stateInCh, hc.stateInLen]
      exact hi.run
    · rw [hc.mode] at hm
      rw [hc.availInExpect]
      exact hi.expect hm
    · have := (hi.input hs).2.2 hn
      unfold InBlock.isemptyRL at this ⊢
      dsimp only
      rw [hc.stateInCh, hc.stateInLen]
      exact this
  | give hs hn h =>
    obtain ⟨rfl, hroom, _, _, _, _, hin⟩ := h
    exact ⟨hi.mode, hi.run, hi.live, hi.max, fun ho => absurd (hs.symm.trans ho) (by decide), hroom,
      fun hm => (hi.expect hm).trans hin.symm, hi.pending⟩
  | begin hs hp hf =>
    refine ⟨hi.mode, hi.run, hi.live, hi.max, fun _ => ⟨rfl, rfl, fun hle => ?_⟩, Nat.le_refl 0,
      hi.expect, fun ho => (by cases ho)⟩
    have : s.nblockMAX ≤ 0 := hle
    exact absurd hi.max (by omega)

theorem Moves.loopOk {s s' : EState} {strm strm' : BzStream} (h : Moves s strm s' strm')
    (hi : LoopOk s strm) : LoopOk s' strm' := by
  induction h with
  | refl => exact hi
  | step h _ ih => exact ih (h.loopOk hi)

/-- What no move changes or lets grow. -/
theorem Move.frame {s s' : EState} {strm strm' : BzStream} (h : Move s strm s' strm')
    (hl : -8 < s.out.bsLive) : s'.mode = s.mode ∧ s'.nblockMAX = s.nblockMAX ∧
      s'.blockSize100k = s.blockSize100k ∧ strm'.mem = strm.mem ∧
      strm'.availIn ≤ strm.availIn ∧ strm'.availOut ≤ strm.availOut ∧
      strm'.nextIn + strm'.availIn = strm.nextIn + strm.availIn := by
  cases h with
  | take hs h =>
    obtain ⟨_, hpos, _, rfl, rfl⟩ := copyInputStep_some h
    exact ⟨rfl, rfl, rfl, rfl, Nat.sub_le _ _, Nat.le_refl _,
      by unfold BzStream.skipByte; dsimp only; omega⟩
  | flush hs hm he h =>
    obtain ⟨hc, _⟩ := compressBlock_spec (s := { s with input := s.input.flushRL }) hl h
    exact ⟨hc.mode, hc.nblockMAX, hc.blockSize100k, rfl, Nat.le_refl _, Nat.le_refl _, rfl⟩
  | close hs hn he h =>
    obtain ⟨hc, _⟩ := compressBlock_spec hl h
    exact ⟨hc.mode, hc.nblockMAX, hc.blockSize100k, rfl, Nat.le_refl _, Nat.le_refl _, rfl⟩
  | give hs hn h =>
    obtain ⟨rfl, _, ho, _, hm, hx, hin⟩ := h
    exact ⟨rfl, rfl, rfl, hm, Nat.le_of_eq hin, by omega, by rw [hx, hin]⟩
  | begin hs hp hf =>
    exact ⟨rfl, rfl, rfl, rfl, Nat.le_refl _, Nat.le_refl _, rfl⟩

theorem Moves.frame {s s' : EState} {strm strm' : BzStream} (h : Moves s strm s' strm')
    (hi : LoopOk s strm) : s'.mode = s.mode ∧ s'.nblockMAX = s.nblockMAX ∧
      s'.blockSize100k = s.blockSize100k ∧ strm'.mem = strm.mem ∧
      strm'.availIn ≤ strm.availIn ∧ strm'.availOut ≤ strm.availOut ∧
      strm'.nextIn + strm'.availIn = strm.nextIn + strm.availIn := by
  induction h with
  | refl => exact ⟨rfl, rfl, rfl, rfl, Nat.le_refl _, Nat.le_refl _, rfl⟩
  | step h _ ih =>
    obtain ⟨h1, h2, h3, h4, h5, h6, h7⟩ := h.frame hi.live
    obtain ⟨k1, k2, k3, k4, k5, k6, k7⟩ := ih (h.loopOk hi)
    exact ⟨k1.trans h1, k2.trans h2, k3.trans h3, k4.trans h4, Nat.le_trans k5 h5,
      Nat.le_trans k6 h6, k7.trans h7⟩

/-! ## 3. The loop -/

/-- The ways out of the loop: the output is full, the input is used up, or the last byte of a
    flush or of the stream is out. -/
inductive Exit (s : EState) (strm : BzStream) : Prop
  | full (hs : s.state = .output) (hp : s.stateOutPos < s.numZ) (ho : strm.availOut = 0)
  | starved (hs : s.state = .input) (hm : s.mode = .running) (hi : strm.availIn = 0)
      (hn : s.input.nblock < s.nblockMAX)
  | done (hc : s.Closed) (hp : s.stateOutPos = s.numZ)

/-- After a flush the next block is begun before the loop is left. -/
def EState.park (s : EState) : EState :=
  if s.mode = .flushing ∧ s.stateOutPos = s.numZ then { s.prepareNewBlock with state := .input }
  else s

/-- Half a round has made some moves, and left the loop where it could. -/
structure HalfOk (s : EState) (strm : BzStream) (s₁ : EState) (h : Half) : Prop where
  moves : Moves s strm s₁ h.strm
  exit : h.left = true → Exit s₁ h.strm ∧ h.s = s₁.park
  stay : h.left = false → h.s = s₁
  quiet : h.progress = false → h.strm.availOut = strm.availOut

omit [CompressEnv] in
theorem closed_iff {s : EState} (hs : s.state = .output) (hm : s.mode ≠ .idle) :
    s.Closed ↔ s.mode = .finishing ∧ s.drained = true ∨ s.mode = .flushing ∧ s.drained = true := by
  unfold EState.Closed
  cases hmd : s.mode with
  | idle => exact absurd hmd hm
  | running => simp
  | flushing => simp [hs]
  | finishing => simp [hs]

theorem outputHalf_ok {s : EState} {strm : BzStream} (hi : LoopOk s strm)
    (hn : s.state = .input → s.input.nblock < s.nblockMAX) :
    ∃ s₁, HalfOk s strm s₁ (outputHalf s strm) ∧ ((outputHalf s strm).left = false →
      s₁.state = .input ∧ s₁.input.nblock < s₁.nblockMAX ∧ ¬ s.Closed) := by
  unfold outputHalf
  by_cases hs : s.state = .output
  · rw [if_pos hs]
    -- after the output, whether there was any or not
    obtain ⟨p, s₁, strm₁, he, hm, hs₁, hq, hfull, hd⟩ : ∃ p s₁ strm₁,
        copyOutputUntilStop s strm = (p, s₁, strm₁) ∧ Moves s strm s₁ strm₁ ∧
        s₁.state = .output ∧ (p = false → strm₁.availOut = strm.availOut) ∧
        (s₁.stateOutPos < s₁.numZ → strm₁.availOut = 0) ∧ (s.Closed → s₁.Closed) := by
      rcases copyOutputUntilStop_spec s strm with ⟨he, hno⟩ | ⟨n, s₁, strm₁, he, hpos, hf, hfull⟩
      · exact ⟨_, _, _, he, .refl _ _, hs, fun _ => rfl, fun hlt => by omega, fun h => h⟩
      · refine ⟨_, _, _, he, (Move.give hs hpos hf).moves, ?_, fun h => (by cases h), hfull, ?_⟩
        · rw [hf.state]
          exact hs
        · rw [hf.state]
          exact fun h => h
    rw [he]
    dsimp only
    have hi₁ := hm.loopOk hi
    by_cases hlt : s₁.stateOutPos < s₁.numZ
    · rw [if_pos hlt]
      refine ⟨s₁, ⟨hm, fun _ => ⟨.full hs₁ hlt (hfull hlt), ?_⟩, fun h => (by cases h), hq⟩,
        fun h => (by cases h)⟩
      unfold EState.park
      rw [if_neg fun h => by omega]
    · rw [if_neg hlt]
      have hpos : s₁.stateOutPos = s₁.numZ := Nat.le_antisymm hi₁.pos (by omega)
      have hcl := closed_iff hs₁ hi₁.mode
      by_cases hfin : s₁.mode = .finishing ∧ s₁.drained = true
      · rw [if_pos hfin]
        refine ⟨s₁, ⟨hm, fun _ => ⟨.done (hcl.mpr (.inl hfin)) hpos, ?_⟩, fun h => (by cases h), hq⟩,
          fun h => (by cases h)⟩
        unfold EState.park
        rw [if_neg fun h => by rw [hfin.1] at h; cases h.1]
      · rw [if_neg hfin]
        by_cases hfl : s₁.mode = .flushing ∧ s₁.drained = true
        · refine ⟨s₁, ⟨hm, fun _ => ⟨.done (hcl.mpr (.inr hfl)) hpos, ?_⟩, fun hl => ?_, hq⟩,
            fun hl => ?_⟩
          · unfold EState.park
            rw [if_pos ⟨hfl.1, hpos⟩]
          · exact absurd hfl (of_decide_eq_false hl)
          · exact absurd hfl (of_decide_eq_false hl)
        · have hno : ¬ s₁.Closed := fun h => (hcl.mp h).elim hfin hfl
          refine ⟨{ s₁.prepareNewBlock with state := .input },
            ⟨hm.trans (Move.begin hs₁ hpos hno).moves, fun hl => ?_, fun _ => rfl, hq⟩,
            fun _ => ⟨rfl, hi₁.max, fun h => hno (hd h)⟩⟩
          exact absurd (of_decide_eq_true hl) hfl
  · have hs' : s.state = .input := by
      cases h : s.state with
      | output => exact absurd h hs
      | input => rfl
    rw [if_neg hs]
    exact ⟨s, ⟨.refl _ _, fun h => (by cases h), fun _ => rfl, fun _ => rfl⟩,
      fun _ => ⟨hs', hn hs', fun hc => hs hc.1⟩⟩

/-- `BZ2_compressBlock` does not return for some block. -/
def Halts (e : HuffHalt) : Prop := ∃ s isLastBlock, compressBlock s isLastBlock = .error e

/-- What `BZ2_compressBlock` is called with where the input stops: the block that ends a flush or
    the stream, or a full one. -/
def EState.closing (s : EState) : Option (EState × Bool) :=
  if s.mode ≠ .running ∧ s.availInExpect = 0 then
    some ({ s with input := s.input.flushRL }, decide (s.mode = .finishing))
  else if s.input.nblock ≥ s.nblockMAX then some (s, false)
  else none

/-- `BZ2_compressBlock` does not return for the block some moves lead to. -/
def Stops (s : EState) (strm : BzStream) (e : HuffHalt) : Prop :=
  ∃ s₁ strm₁ c, Moves s strm s₁ strm₁ ∧ s₁.state = .input ∧ s₁.closing = some c ∧
    compressBlock c.1 c.2 = .error e

theorem Stops.halts {s : EState} {strm : BzStream} {e : HuffHalt} (h : Stops s strm e) : Halts e := by
  obtain ⟨_, _, c, _, _, _, he⟩ := h
  exact ⟨c.1, c.2, he⟩

theorem Moves.stops {s s₁ : EState} {strm strm₁ : BzStream} {e : HuffHalt}
    (h : Moves s strm s₁ strm₁) (hs : Stops s₁ strm₁ e) : Stops s strm e := by
  obtain ⟨s₂, strm₂, c, hm, hrest⟩ := hs
  exact ⟨s₂, strm₂, c, h.trans hm, hrest⟩

theorem inputHalf_ok {s : EState} {strm : BzStream} (hi : LoopOk s strm) (hs : s.state = .input)
    (hn : s.input.nblock < s.nblockMAX) :
    (∃ h s₂, inputHalf s strm = .ok h ∧ HalfOk s strm s₂ h ∧
      (h.left = false → s₂.state = .output ∧
        (h.strm.availIn < strm.availIn ∨ h.strm.availIn = strm.availIn ∧ s₂.Closed))) ∨
    ∃ e, inputHalf s strm = .error e ∧ Stops s strm e := by
  obtain ⟨bs, s₁, strm₁, he, hc, hstop⟩ := copyInputUntilStop_spec s strm
  have hf := hc.frame
  have hm := hc.moves hs
  have hi₁ := hm.loopOk hi
  have hs₁ : s₁.state = .input := by
    rw [hf.rest]
    exact hs
  unfold inputHalf
  rw [if_pos hs, he]
  dsimp only
  by_cases hfl : s₁.mode ≠ .running ∧ s₁.availInExpect = 0
  · rw [if_pos hfl]
    unfold closeBlock
    cases hcb : compressBlock { s₁ with input := s₁.input.flushRL }
        (decide (s₁.mode = .finishing)) with
    | error e => exact .inr ⟨e, rfl, s₁, strm₁, _, hm, hs₁, if_pos hfl, hcb⟩
    | ok s₂ =>
      have hmove := @Move.flush _ s₁ _ strm₁ hs₁ hfl.1 hfl.2 hcb
      obtain ⟨hct, _⟩ := compressBlock_spec (s := { s₁ with input := s₁.input.flushRL }) hi₁.live hcb
      refine .inl ⟨_, _, rfl, ⟨hm.trans hmove.moves, fun h => (by cases h), fun _ => rfl,
        fun _ => hf.availOut⟩, fun _ => ⟨rfl, ?_⟩⟩
      by_cases hbs : bs.length = 0
      · refine .inr ⟨by rw [hf.availIn, hbs]; rfl, rfl, ?_, ?_⟩
        · show s₂.mode ≠ .running
          rw [hct.mode]
          exact hfl.1
        · rw [drained_iff]
          refine ⟨hct.availInExpect.trans hfl.2, ?_⟩
          unfold InBlock.isemptyRL
          dsimp only
          rw [hct.stateInCh, hct.stateInLen]
          rfl
      · exact .inl (by have := hf.availIn; dsimp only; omega)
  · rw [if_neg hfl]
    by_cases hfull : s₁.input.nblock ≥ s₁.nblockMAX
    · rw [if_pos hfull]
      unfold closeBlock
      cases hcb : compressBlock s₁ false with
      | error e =>
        exact .inr ⟨e, rfl, s₁, strm₁, _, hm, hs₁, (if_neg hfl).trans (if_pos hfull), hcb⟩
      | ok s₂ =>
        have hexp : s₁.mode = .running ∨ 0 < s₁.availInExpect := by
          by_cases hr : s₁.mode = .running
          · exact .inl hr
          · exact .inr (Nat.pos_of_ne_zero fun h0 => hfl ⟨hr, h0⟩)
        have hmove := @Move.close _ s₁ _ strm₁ hs₁ hfull hexp hcb
        refine .inl ⟨_, _, rfl, ⟨hm.trans hmove.moves, fun h => (by cases h), fun _ => rfl,
          fun _ => hf.availOut⟩, fun _ => ⟨rfl, .inl ?_⟩⟩
        -- the block was not full before
        cases hc with
        | refl => exact absurd hn (by omega)
        | step h hs' =>
          have := hf.availIn
          rw [List.length_cons] at this
          dsimp only
          omega
    · rw [if_neg hfull]
      have hempty : strm₁.availIn = 0 := by
        rcases copyInputStep_none hstop with h | h | h
        · omega
        · exact h
        · exact absurd h hfl
      have hrun : s₁.mode = .running := by
        refine Classical.byContradiction fun hr => hfl ⟨hr, ?_⟩
        rw [hi₁.expect hr]
        exact hempty
      refine .inl ⟨_, _, rfl, ⟨hm, fun _ => ⟨.starved hs₁ hrun hempty (Nat.lt_of_not_le hfull), ?_⟩,
        fun _ => rfl, fun _ => hf.availOut⟩, fun h => ?_⟩
      · unfold EState.park
        rw [if_neg fun h => by rw [hrun] at h; cases h.1]
      · exact absurd hempty (of_decide_eq_false h)

/-- **The loop of `handle_compress`** ends after some moves, unless `BZ2_compressBlock` does not
    return: it never runs on. -/
theorem handleLoop_moves : ∀ (fuel : Nat) (progress : Bool) (s : EState) (strm : BzStream),
    LoopOk s strm → (s.state = .input → s.input.nblock < s.nblockMAX) →
    (strm.availIn + 1 < fuel ∨ s.Closed ∧ strm.availIn < fuel) →
    (∃ p s' strm', handleLoop fuel progress s strm = .ok (p, s'.park, strm') ∧
      Moves s strm s' strm' ∧ Exit s' strm' ∧
      (p = false → progress = false ∧ strm'.availOut = strm.availOut)) ∨
    ∃ e, handleLoop fuel progress s strm = .error e ∧ Stops s strm e := by
  intro fuel
  induction fuel with
  | zero =>
    intro progress s strm _ _ hf
    omega
  | succ fuel ih =>
    intro progress s strm hi hn hf
    obtain ⟨s₁, ⟨hmo, hex, hst, hqo⟩, hgo⟩ := outputHalf_ok hi hn
    unfold handleLoop
    dsimp only
    by_cases hleft : (outputHalf s strm).left = true
    · rw [if_pos hleft]
      obtain ⟨hx, hpark⟩ := hex hleft
      refine .inl ⟨_, s₁, _, by rw [hpark], hmo, hx, fun hp => ?_⟩
      rw [Bool.or_eq_false_iff] at hp
      exact ⟨hp.1, hqo hp.2⟩
    · rw [if_neg hleft]
      obtain ⟨hs₁, hn₁, hncl⟩ := hgo (Bool.eq_false_iff.mpr hleft)
      rw [hst (Bool.eq_false_iff.mpr hleft)]
      have hi₁ := hmo.loopOk hi
      obtain ⟨_, _, _, _, hav, _⟩ := hmo.frame hi
      rcases inputHalf_ok hi₁ hs₁ hn₁ with ⟨h, s₂, he, ⟨hmi, hexi, hsti, hqi⟩, hgo⟩ | ⟨e, he, hh⟩
      · rw [he]
        show (∃ p s' strm', (if h.left = true then _ else _) = _ ∧ _) ∨ _
        have hquiet : ((progress || (outputHalf s strm).progress) || h.progress) = false →
            progress = false ∧ h.strm.availOut = strm.availOut := by
          intro hp
          rw [Bool.or_eq_false_iff, Bool.or_eq_false_iff] at hp
          exact ⟨hp.1.1, (hqi hp.2).trans (hqo hp.1.2)⟩
        by_cases hl : h.left = true
        · rw [if_pos hl]
          obtain ⟨hx, hpark⟩ := hexi hl
          exact .inl ⟨_, s₂, _, by rw [hpark], hmo.trans hmi, hx, hquiet⟩
        · obtain ⟨hs₂, hless⟩ := hgo (Bool.eq_false_iff.mpr hl)
          rcases ih ((progress || (outputHalf s strm).progress) || h.progress) s₂ h.strm
              (hmi.loopOk hi₁) (fun h' => absurd (hs₂.symm.trans h') (by decide))
              (by
                rcases hf with hf | hf
                · rcases hless with hlt | ⟨heq, hc⟩
                  · exact .inl (by omega)
                  · exact .inr ⟨hc, by omega⟩
                · exact absurd hf.1 hncl) with
            ⟨p, s', strm', hr, hmr, hxr, hqr⟩ | ⟨e, hr, hh⟩
          · rw [if_neg hl, hsti (Bool.eq_false_iff.mpr hl)]
            refine .inl ⟨p, s', strm', hr, (hmo.trans hmi).trans hmr, hxr, fun hp => ?_⟩
            obtain ⟨h1, h2⟩ := hqr hp
            obtain ⟨h3, h4⟩ := hquiet h1
            exact ⟨h3, h2.trans h4⟩
          · refine .inr ⟨e, ?_, (hmo.trans hmi).stops hh⟩
            show (if h.left = true then _ else _) = _
            rw [if_neg hl, hsti (Bool.eq_false_iff.mpr hl)]
            exact hr
      · rw [he]
        exact .inr ⟨e, rfl, hmo.stops hh⟩

/-- `handle_compress`. -/
theorem handleCompress_moves {s : EState} {strm : BzStream} (hi : LoopOk s strm)
    (hn : s.state = .input → s.input.nblock < s.nblockMAX) :
    (∃ p s' strm', handleCompress s strm = .ok (p, s'.park, strm') ∧ Moves s strm s' strm' ∧
      Exit s' strm' ∧ (p = false → strm'.availOut = strm.availOut)) ∨
    ∃ e, handleCompress s strm = .error e ∧ Stops s strm e := by
  rcases handleLoop_moves (strm.availIn + 3) false s strm hi hn (.inl (by omega)) with
    ⟨p, s', strm', he, hm, hx, hq⟩ | h
  · exact .inl ⟨p, s', strm', he, hm, hx, fun hp => (hq hp).2⟩
  · exact .inr h

end

end Qbz2
