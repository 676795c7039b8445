/-
  File:      Qbz2/Compress/Granularity.lean
  Subject:   The compressed bytes do not depend on how the calls are cut.

  * `Event` -- what the output depends on: the bytes, each with whether a block may be closed
    after it, and the ends of flushes and of the stream; `Event.step` -- the compressor driven by
    events, every block's output taken at once;
  * `ahead` -- where a state comes to once its output is out; `Move.replays` -- what a move does
    is an event, or nothing, for `ahead`;
  * `script` -- what the caller did, call sizes and room for output forgotten;
  * `CompressRun.replayed` -- a run delivers what its script does when it is replayed.
-/
import Qbz2.Compress.Protocol
import Qbz2.Lib.Emit

namespace Qbz2

open Emit

/-! ## 1. The compressor driven by events -/

/-- A byte taken in, after which a full block may be closed or not; the end of a flush or of the
    stream. -/
inductive Event where
  | byte (b : Byte) (mayClose : Bool)
  | close (isLastBlock : Bool)

/-- The state without the protocol. -/
def EState.core (s : EState) : EState :=
  { s with mode := .running, state := .input, availInExpect := 0, stateOutPos := 0 }

section

variable [CompressEnv]

/-- A block, its output taken at once, and the next. -/
def closeNow (isLastBlock : Bool) (s : EState) : Emits HuffHalt Byte EState :=
  match compressBlock s isLastBlock with
  | .error e => .error e
  | .ok s => .ok (s.prepareNewBlock.core, s.out.zbits)

/-- The compressor driven by events. -/
def Event.step : Event → EState → Emits HuffHalt Byte EState
  | .byte b mayClose, s =>
    let s := { s with input := s.input.addCharToBlock b }
    if mayClose = true ∧ s.nblockMAX ≤ s.input.nblock then closeNow false s else .ok (s, [])
  | .close isLastBlock, s => closeNow isLastBlock { s with input := s.input.flushRL }

/-! ## 2. The protocol does not reach the block -/

/-- The state with another state of the protocol. -/
def EState.withControl (s : EState) (m : Mode) (st : SState) (expect pos : Nat) : EState :=
  { s with mode := m, state := st, availInExpect := expect, stateOutPos := pos }

theorem sortBlock_withControl (s : EState) (m : Mode) (st : SState) (expect pos : Nat) :
    sortBlock (s.withControl m st expect pos) =
      (sortBlock s).map fun s => s.withControl m st expect pos := by
  unfold sortBlock EState.withControl EState.ptrs
  dsimp only
  cases ofSort (bz2BlockSort CompressEnv.sais
      { ptr := .ofFn (MtfArrays.ptr s.values.arrays), block := s.input.block, ftab := s.ftab,
        nblock := s.input.nblock, origPtr := s.origPtr }) with
  | error e => rfl
  | ok r => rfl

omit [CompressEnv] in
theorem writeHeader_withControl (s : EState) (m : Mode) (st : SState) (expect pos : Nat) :
    writeHeader (s.withControl m st expect pos) = (writeHeader s).withControl m st expect pos := by
  unfold writeHeader EState.withControl
  dsimp only
  split <;> rfl

theorem writeBlock_withControl (s : EState) (m : Mode) (st : SState) (expect pos : Nat) :
    writeBlock (s.withControl m st expect pos) =
      (writeBlock s).map fun s => s.withControl m st expect pos := by
  unfold writeBlock EState.withControl
  dsimp only
  cases sendMTFValues (generateMTFValues CompressEnv.sse2 s.input.block s.input.nblock
      s.input.inUse s.values).symbols (generateMTFValues CompressEnv.sse2 s.input.block
      s.input.nblock s.input.inUse s.values).mtfFreq (generateMTFValues CompressEnv.sse2
      s.input.block s.input.nblock s.input.inUse s.values).nInUse s.input.inUse with
  | error e => rfl
  | ok r => rfl

theorem compressBlock_withControl (s : EState) (isLastBlock : Bool) (m : Mode) (st : SState)
    (expect pos : Nat) : compressBlock (s.withControl m st expect pos) isLastBlock =
      (compressBlock s isLastBlock).map fun s => s.withControl m st expect pos := by
  have hwhere : ∀ (f : EState → HuffRun EState) (s : EState),
      f (s.withControl m st expect pos) = (f s).map (fun s => s.withControl m st expect pos) →
      whereBlock f (s.withControl m st expect pos) =
        (whereBlock f s).map fun s => s.withControl m st expect pos := by
    intro f s h
    unfold whereBlock
    show (if s.input.nblock > 0 then _ else _) = _
    split
    · exact h
    · rfl
  unfold compressBlock
  rw [hwhere sortBlock s (sortBlock_withControl s m st expect pos)]
  cases whereBlock sortBlock s with
  | error e => rfl
  | ok s₁ =>
    show (whereBlock writeBlock (writeHeader (s₁.withControl m st expect pos)) >>= _) = _
    rw [writeHeader_withControl, hwhere writeBlock _ (writeBlock_withControl _ m st expect pos)]
    show _ = Except.map _ (whereBlock writeBlock (writeHeader s₁) >>= _)
    cases whereBlock writeBlock (writeHeader s₁) with
    | error e => rfl
    | ok s₂ => cases isLastBlock <;> rfl

theorem closeNow_core (isLastBlock : Bool) (s : EState) :
    closeNow isLastBlock s.core = closeNow isLastBlock s := by
  have h := compressBlock_withControl s isLastBlock .running .input 0 0
  unfold closeNow
  rw [show s.core = s.withControl .running .input 0 0 from rfl, h]
  cases compressBlock s isLastBlock with
  | error e => rfl
  | ok s' => rfl

/-- Where a state comes to once the output that is due is out: a block on its way out, or a full
    one that the loop is about to close. -/
def ahead (s : EState) : Emits HuffHalt Byte EState :=
  if s.state = .output then .ok (s.prepareNewBlock.core, s.out.zbits.drop s.stateOutPos)
  else if s.nblockMAX ≤ s.input.nblock ∧ (s.mode = .running ∨ 0 < s.availInExpect) then
    closeNow false s.core
  else .ok (s.core, [])

theorem ahead_output {s : EState} (h : s.state = .output) :
    ahead s = .ok (s.prepareNewBlock.core, s.out.zbits.drop s.stateOutPos) := if_pos h

theorem ahead_input {s : EState} (h : s.state = .input)
    (hn : ¬ (s.nblockMAX ≤ s.input.nblock ∧ (s.mode = .running ∨ 0 < s.availInExpect))) :
    ahead s = .ok (s.core, []) := by
  unfold ahead
  rw [if_neg (by rw [h]; decide), if_neg hn]

/-! ## 3. Moves are events -/

/-- The bytes of a flush, or of the end of the stream, `n` of them being expected: a block is not
    closed after the last. -/
def stamp (n : Nat) : List Byte → List Event
  | [] => []
  | b :: bs => .byte b (decide (1 < n)) :: stamp (n - 1) bs

omit [CompressEnv] in
theorem stamp_append (n : Nat) (bs cs : List Byte) :
    stamp n (bs ++ cs) = stamp n bs ++ stamp (n - bs.length) cs := by
  induction bs generalizing n with
  | nil => rfl
  | cons b bs ih =>
    show _ :: stamp (n - 1) (bs ++ cs) = _ :: (stamp (n - 1) bs ++ _)
    rw [ih, List.length_cons]
    congr 3
    omega

/-- The events of the bytes taken in a state. -/
def EState.stamped (s : EState) (bs : List Byte) : List Event :=
  if s.mode = .running then bs.map fun b => .byte b true else stamp s.availInExpect bs

/-- The events of a part of a run. -/
def eventsOf (s : EState) (strm : BzStream) (s' : EState) (strm' : BzStream) : List Event :=
  s.stamped (bytesAt strm.mem strm.nextIn (strm.availIn - strm'.availIn)) ++
    if s'.Closed ∧ ¬ s.Closed then [.close (decide (s.mode = .finishing))] else []

/-- The part gives out `given`, and its events lead where it leads. -/
def Replays (s : EState) (strm : BzStream) (s' : EState) (strm' : BzStream) : Prop :=
  ∃ given, strm'.out = strm.out ++ given ∧
    andThen (ahead s) (replay Event.step (eventsOf s strm s' strm')) = give given (ahead s')

omit [CompressEnv] in
theorem eventsOf_none {s s' : EState} {strm strm' : BzStream} (ha : strm'.availIn = strm.availIn)
    (hc : s'.Closed → s.Closed) : eventsOf s strm s' strm' = [] := by
  unfold eventsOf
  rw [ha, Nat.sub_self, bytesAt_zero, if_neg fun h => h.2 (hc h.1), List.append_nil]
  unfold EState.stamped
  split <;> rfl

/-- A byte, as an event and as a round of `copy_input_until_stop`. -/
theorem step_byte {s s' : EState} {b : Byte} {mayClose : Bool}
    (hs' : { s.core with input := s.input.addCharToBlock b } = s'.core) (hin : s'.state = .input)
    (hm : mayClose = true ↔ s'.mode = .running ∨ 0 < s'.availInExpect) :
    Event.step (.byte b mayClose) s.core = ahead s' := by
  have hn : s.input.addCharToBlock b = s'.input := by
    have := congrArg EState.input hs'
    exact this
  have hmax : s.nblockMAX = s'.nblockMAX := by
    have := congrArg EState.nblockMAX hs'
    exact this
  unfold Event.step ahead
  rw [if_neg (by rw [hin]; decide)]
  show (if mayClose = true ∧ s.nblockMAX ≤ (s.input.addCharToBlock b).nblock then
    closeNow false { s.core with input := s.input.addCharToBlock b }
    else .ok ({ s.core with input := s.input.addCharToBlock b }, [])) = _
  rw [hs', hn, hmax]
  by_cases h : s'.nblockMAX ≤ s'.input.nblock ∧ (s'.mode = .running ∨ 0 < s'.availInExpect)
  · rw [if_pos h, if_pos ⟨hm.mpr h.2, h.1⟩]
  · rw [if_neg h, if_neg fun h' => h ⟨h'.2, hm.mp h'.1⟩]

/-- A block that was closed, as an event and as a move. -/
theorem closeNow_ok {s s' : EState} {isLastBlock : Bool} (h : compressBlock s isLastBlock = .ok s')
    (hpos : s'.stateOutPos = 0) :
    closeNow isLastBlock s.core = ahead { s' with state := .output } := by
  rw [closeNow_core]
  unfold closeNow
  rw [h, ahead_output rfl]
  dsimp only
  rw [hpos]
  rfl

/-- A byte taken is its own event. -/
theorem replays_take {s s' : EState} {strm strm' : BzStream} (hs : s.state = .input)
    (h : copyInputStep s strm = some (s', strm')) : Replays s strm s' strm' := by
  obtain ⟨hn, hpos, hexp, rfl, rfl⟩ := copyInputStep_some h
  refine ⟨[], (List.append_nil _).symm, ?_⟩
  have hone : strm.availIn - strm.skipByte.availIn = 1 := by
    unfold BzStream.skipByte
    dsimp only
    omega
  rw [ahead_input hs fun h => by omega, andThen_ok_nil, give_nil]
  unfold eventsOf
  rw [hone, if_neg (fun h => absurd (hs.symm.trans h.1.1) (by decide)), List.append_nil,
    bytesAt_succ, bytesAt_zero]
  unfold EState.stamped
  by_cases hm : s.mode = .running
  · rw [if_pos hm, List.map_singleton, replay_singleton]
    exact step_byte rfl hs (iff_of_true rfl (.inl hm))
  · have hexp' := hexp hm
    rw [if_neg hm, stamp, stamp, replay_singleton]
    refine step_byte rfl hs ?_
    dsimp only
    rw [if_neg hm, decide_eq_true_iff]
    constructor
    · intro h
      exact .inr (by omega)
    · rintro (h | h)
      · exact absurd h hm
      · omega

/-- The last block of a flush or of the stream is closed by the event of the call. -/
theorem replays_flush {s s' : EState} {strm : BzStream} (hi : LoopOk s strm) (hs : s.state = .input)
    (hm : s.mode ≠ .running) (he : s.availInExpect = 0)
    (h : compressBlock { s with input := s.input.flushRL } (decide (s.mode = .finishing)) = .ok s') :
    Replays s strm { s' with state := .output } strm := by
  obtain ⟨hc, _, _⟩ := compressBlock_spec (s := { s with input := s.input.flushRL }) hi.live h
  have hempty : (InBlock.flushRL s.input).isemptyRL = true := rfl
  refine ⟨[], (List.append_nil _).symm, ?_⟩
  rw [ahead_input hs fun h => h.2.elim hm (by omega), andThen_ok_nil, give_nil]
  unfold eventsOf
  rw [Nat.sub_self, bytesAt_zero, if_pos]
  · have hnil : s.stamped [] = [] := by
      unfold EState.stamped
      split <;> rfl
    rw [hnil, List.nil_append, replay_singleton]
    refine closeNow_ok (s := { s with input := s.input.flushRL }) h ?_
    exact hc.stateOutPos.trans (hi.input hs).2.1
  · refine ⟨⟨rfl, ?_, (drained_iff _).mpr ⟨hc.availInExpect.trans he, ?_⟩⟩,
      fun h => absurd (hs.symm.trans h.1) (by decide)⟩
    · rw [hc.mode]
      exact hm
    · unfold InBlock.isemptyRL at hempty ⊢
      dsimp only
      rw [hc.stateInCh, hc.stateInLen]
      exact hempty

/-- A full block is closed by no event: what is ahead has it closed. -/
theorem replays_close {s s' : EState} {strm : BzStream} (hi : LoopOk s strm) (hs : s.state = .input)
    (hn : s.nblockMAX ≤ s.input.nblock) (he : s.mode = .running ∨ 0 < s.availInExpect)
    (h : compressBlock s false = .ok s') : Replays s strm { s' with state := .output } strm := by
  obtain ⟨hc, _, _⟩ := compressBlock_spec hi.live h
  refine ⟨[], (List.append_nil _).symm, ?_⟩
  rw [eventsOf_none rfl, give_nil]
  · show andThen _ (fun s => .ok (s, [])) = _
    rw [andThen_pure]
    unfold ahead
    rw [if_neg (by rw [hs]; decide), if_pos ⟨hn, he⟩]
    exact closeNow_ok h (hc.stateOutPos.trans (hi.input hs).2.1)
  · -- a flush that closes a full block expects more input
    rintro ⟨_, hm, hd⟩
    have h0 := ((drained_iff _).mp hd).1
    dsimp only at hm h0
    rw [hc.mode] at hm
    rw [hc.availInExpect] at h0
    rcases he with he | he
    · exact absurd he hm
    · omega

/-- Bytes given out were ahead. -/
theorem replays_give {s s' : EState} {strm strm' : BzStream} {n : Nat} (hs : s.state = .output)
    (h : OutFrame s strm n s' strm') : Replays s strm s' strm' := by
  obtain ⟨rfl, hroom, _, hout, _, _, hin⟩ := h
  refine ⟨_, hout, ?_⟩
  have hev : eventsOf s strm { s with stateOutPos := s.stateOutPos + n } strm' = [] :=
    eventsOf_none hin fun h => h
  rw [hev, ahead_output hs, ahead_output (s := { s with stateOutPos := s.stateOutPos + n }) hs]
  show andThen _ (fun s => .ok (s, [])) = _
  rw [andThen_pure]
  show _ = Except.ok (_, _ ++ _)
  congr 2
  rw [← List.drop_drop]
  exact (List.take_append_drop _ _).symm

/-- A new block is begun where nothing is left to give out. -/
theorem replays_begin {s : EState} {strm : BzStream} (hi : LoopOk s strm) (hs : s.state = .output)
    (hp : s.stateOutPos = s.numZ) : Replays s strm { s.prepareNewBlock with state := .input } strm := by
  refine ⟨[], (List.append_nil _).symm, ?_⟩
  have hin : SState.input ≠ SState.output := by decide
  rw [eventsOf_none rfl fun h => absurd h.1 hin, give_nil, ahead_output hs, ahead_input rfl]
  · show andThen _ (fun s => .ok (s, [])) = _
    rw [andThen_pure, hp]
    show Except.ok (_, s.out.zbits.drop s.out.zbits.length) = _
    rw [List.drop_length]
    rfl
  · rintro ⟨h, _⟩
    exact absurd hi.max (Nat.not_lt.mpr h)

/-- **A move is replayed by its event**, if it has one. -/
theorem Move.replays {s s' : EState} {strm strm' : BzStream} (h : Move s strm s' strm')
    (hi : LoopOk s strm) : Replays s strm s' strm' := by
  cases h with
  | take hs h => exact replays_take hs h
  | flush hs hm he h => exact replays_flush hi hs hm he h
  | close hs hn he h => exact replays_close hi hs hn he h
  | give hs _ h => exact replays_give hs h
  | begin hs hp _ => exact replays_begin hi hs hp

/-- Once the last block is closed, its output is all there is to do. -/
theorem Moves.closed {s s' : EState} {strm strm' : BzStream} (h : Moves s strm s' strm')
    (hc : s.Closed) : s'.Closed ∧ strm'.availIn = strm.availIn := by
  induction h with
  | refl => exact ⟨hc, rfl⟩
  | step h hs ih =>
    cases h with
    | take hin => exact absurd (hin.symm.trans hc.1) (by decide)
    | flush hin => exact absurd (hin.symm.trans hc.1) (by decide)
    | close hin => exact absurd (hin.symm.trans hc.1) (by decide)
    | give hout hn h =>
      obtain ⟨rfl, _, _, _, _, _, hin⟩ := h
      obtain ⟨h1, h2⟩ := ih hc
      exact ⟨h1, h2.trans hin⟩
    | begin _ _ hf => exact absurd hc hf

/-- The events of two parts of a run. -/
theorem eventsOf_append {s s₁ s' : EState} {strm strm₁ strm' : BzStream}
    (h : Moves s strm s₁ strm₁) (h' : Moves s₁ strm₁ s' strm') (hi : LoopOk s strm) :
    eventsOf s strm s' strm' = eventsOf s strm s₁ strm₁ ++ eventsOf s₁ strm₁ s' strm' := by
  obtain ⟨hm, _, _, hmem, hle, _, hnext⟩ := h.frame hi
  have hi₁ := h.loopOk hi
  obtain ⟨_, _, _, _, hle', _, _⟩ := h'.frame hi₁
  have htaken : bytesAt strm.mem strm.nextIn (strm.availIn - strm'.availIn) =
      bytesAt strm.mem strm.nextIn (strm.availIn - strm₁.availIn) ++
        bytesAt strm₁.mem strm₁.nextIn (strm₁.availIn - strm'.availIn) := by
    have hsplit : strm.availIn - strm'.availIn =
        (strm.availIn - strm₁.availIn) + (strm₁.availIn - strm'.availIn) := by omega
    have hnext' : strm₁.nextIn = strm.nextIn + (strm.availIn - strm₁.availIn : Nat) := by omega
    rw [hsplit, bytesAt_add, hmem, hnext']
  have hstamp : ∀ cs, s.stamped (bytesAt strm.mem strm.nextIn (strm.availIn - strm₁.availIn) ++ cs) =
      s.stamped (bytesAt strm.mem strm.nextIn (strm.availIn - strm₁.availIn)) ++ s₁.stamped cs := by
    intro cs
    unfold EState.stamped
    rw [hm]
    by_cases hrun : s.mode = .running
    · rw [if_pos hrun, if_pos hrun, if_pos hrun, List.map_append]
    · have h1 := hi.expect hrun
      have h2 := hi₁.expect (by rw [hm]; exact hrun)
      rw [if_neg hrun, if_neg hrun, if_neg hrun, stamp_append, length_bytesAt]
      congr 2
      omega
  unfold eventsOf
  rw [htaken, hstamp, hm]
  by_cases hc : s.Closed
  · -- nothing happens after the last block
    obtain ⟨hc₁, ha₁⟩ := h.closed hc
    obtain ⟨hc', ha'⟩ := h'.closed hc₁
    rw [if_neg fun h => h.2 hc, if_neg fun h => h.2 hc, if_neg fun h => h.2 hc₁]
    simp
  · by_cases hc₁ : s₁.Closed
    · obtain ⟨hc', ha'⟩ := h'.closed hc₁
      have hnil : s₁.stamped [] = [] := by
        unfold EState.stamped
        split <;> rfl
      rw [if_pos ⟨hc', hc⟩, if_pos ⟨hc₁, hc⟩, if_neg fun h => h.2 hc₁, ha', Nat.sub_self,
        bytesAt_zero, hnil, List.append_nil, List.append_nil, List.append_nil]
    · rw [if_neg fun h : s₁.Closed ∧ _ => hc₁ h.1, List.append_nil, List.append_assoc]
      by_cases hc' : s'.Closed
      · rw [if_pos ⟨hc', hc⟩, if_pos ⟨hc', hc₁⟩]
      · rw [if_neg fun h : s'.Closed ∧ _ => hc' h.1, if_neg fun h : s'.Closed ∧ _ => hc' h.1]

/-- **Moves are replayed by their events.** -/
theorem Moves.replays {s s' : EState} {strm strm' : BzStream} (h : Moves s strm s' strm')
    (hi : LoopOk s strm) : Replays s strm s' strm' := by
  induction h with
  | refl s strm =>
    refine ⟨[], (List.append_nil _).symm, ?_⟩
    rw [eventsOf_none rfl fun h => h, give_nil]
    exact andThen_pure _
  | @step s s₁ s' strm strm₁ strm' h hs ih =>
    obtain ⟨d₁, ho₁, hr₁⟩ := h.replays hi
    obtain ⟨d₂, ho₂, hr₂⟩ := ih (h.loopOk hi)
    refine ⟨d₁ ++ d₂, by rw [ho₂, ho₁, List.append_assoc], ?_⟩
    rw [eventsOf_append h.moves hs hi]
    calc andThen (ahead s) (replay Event.step (eventsOf s strm s₁ strm₁ ++
            eventsOf s₁ strm₁ s' strm'))
        = andThen (ahead s) fun t => andThen (replay Event.step (eventsOf s strm s₁ strm₁) t)
            (replay Event.step (eventsOf s₁ strm₁ s' strm')) := by
          congr 1
          funext t
          exact replay_append _ _ _ t
      _ = andThen (give d₁ (ahead s₁)) (replay Event.step (eventsOf s₁ strm₁ s' strm')) := by
          rw [← andThen_assoc, hr₁]
      _ = give (d₁ ++ d₂) (ahead s') := by
          rw [andThen_give, hr₂, give_append]

end

theorem SState.cases (st : SState) : st = .output ∨ st = .input := by
  cases st with
  | output => exact .inl rfl
  | input => exact .inr rfl

/-! ## 4. Scripts -/

/-- A flush, or the end of the stream: the bytes consumed under `BZ_RUN` before it, its action,
    and the bytes consumed under it. -/
structure Section where
  run : List Byte
  action : Int
  tail : List Byte

/-- What a caller has done, but for the sizes of its calls: the flushes that are over, the bytes
    consumed under `BZ_RUN` since, and those consumed under a flush that is not over. -/
structure Script where
  sections : List Section
  run : List Byte
  tail : List Byte

/-- A call more. -/
def Script.add (σ : Script) (c : Call) : Script :=
  if c.action = bzRun then { σ with run := σ.run ++ c.taken }
  else if c.ret = .runOk ∨ c.ret = .streamEnd then
    { sections := σ.sections ++ [⟨σ.run, c.action, σ.tail ++ c.taken⟩], run := [], tail := [] }
  else { σ with tail := σ.tail ++ c.taken }

/-- What the caller has done in a run. -/
def script (calls : List Call) : Script := calls.foldl Script.add ⟨[], [], []⟩

def Section.events (x : Section) : List Event :=
  x.run.map (fun b => .byte b true) ++ stamp x.tail.length x.tail ++
    [.close (decide (x.action = bzFinish))]

/-- The events of a flush that is not over. -/
def pendingEvents (s : EState) (tail : List Byte) : List Event :=
  if s.mode.Ending then
    stamp (tail.length + s.availInExpect) tail ++
      if s.Closed then [.close (decide (s.mode = .finishing))] else []
  else []

/-- The events of a script, `s` being the state it has led to. -/
def Script.events (σ : Script) (s : EState) : List Event :=
  σ.sections.flatMap Section.events ++ (σ.run.map fun b => .byte b true) ++ pendingEvents s σ.tail

theorem pendingEvents_of_not {s : EState} {tail : List Byte} (h : ¬ s.mode.Ending) :
    pendingEvents s tail = [] := if_neg h

theorem pendingEvents_of_ending {s : EState} {tail : List Byte} (h : s.mode.Ending) :
    pendingEvents s tail = stamp (tail.length + s.availInExpect) tail ++
      if s.Closed then [.close (decide (s.mode = .finishing))] else [] := if_pos h

section

variable [CompressEnv]

/-- The events of an accepted call go on with those of a flush that is not over. -/
theorem Ended.events {s s₁ : EState} {strm strm' : BzStream} {action : Int} {progress : Bool}
    (hx : Ended s strm action progress s₁ strm') (hr : Resting s) (ha : Accepts s strm action)
    (hend : s₁.mode.Ending) {tail : List Byte} (ht : ¬ s.mode.Ending → tail = []) :
    pendingEvents s tail ++ eventsOf (enter s strm action) strm s₁ strm' =
      pendingEvents s₁ (tail ++ bytesAt strm.mem strm.nextIn (strm.availIn - strm'.availIn)) := by
  obtain ⟨_, _, _, _, hle, _, _⟩ := hx.moves.frame hx.start
  have hrun : (enter s strm action).mode ≠ .running := by
    intro h
    rw [hx.mode, h] at hend
    rcases hend with h | h <;> cases h
  have hexp := hx.start.expect hrun
  have hexp₁ := hx.loopOk.expect (by rw [hx.mode]; exact hrun)
  have hlen : tail.length + strm.availIn = (tail ++ bytesAt strm.mem strm.nextIn
      (strm.availIn - strm'.availIn)).length + s₁.availInExpect := by
    rw [List.length_append, length_bytesAt, hexp₁]
    omega
  rw [pendingEvents_of_ending hend, ← hlen]
  unfold eventsOf EState.stamped
  rw [if_neg hrun, hexp, hx.mode]
  by_cases hs : s.mode.Ending
  · -- the flush goes on
    have henter : enter s strm action = s := by
      unfold enter
      rw [if_neg hs.ne_running]
    have hexp' := ha.2 hs
    rw [pendingEvents_of_ending hs, henter, hexp', stamp_append]
    have hsub : tail.length + strm.availIn - tail.length = strm.availIn := by omega
    rw [hsub]
    by_cases hc : s.Closed
    · have hm := hx.moves
      rw [henter] at hm
      obtain ⟨hc₁, hin⟩ := hm.closed hc
      rw [if_pos hc, if_neg fun h => h.2 hc, if_pos hc₁, hin, Nat.sub_self]
      simp [stamp]
    · rw [if_neg hc, List.append_nil, List.append_assoc]
      by_cases hc₁ : s₁.Closed
      · rw [if_pos ⟨hc₁, hc⟩, if_pos hc₁]
      · rw [if_neg fun h => hc₁ h.1, if_neg hc₁]
  · -- the flush begins: no block has been closed for it
    have hopen : ¬ (enter s strm action).Closed := by
      rintro ⟨hout, _, hd⟩
      have hmode : s.mode = .running := Classical.byContradiction fun h => hs (ha.ending h)
      rw [enter_eq] at hout hd
      have hpend := hr.pending hout hmode
      have hempty := ((drained_iff _).mp hd).2
      exact absurd (hempty.symm.trans hpend) (by decide)
    rw [pendingEvents_of_not hs, ht hs, List.nil_append, List.nil_append, List.length_nil,
      Nat.zero_add]
    by_cases hc₁ : s₁.Closed
    · rw [if_pos ⟨hc₁, hopen⟩, if_pos hc₁]
    · rw [if_neg fun h => hc₁ h.1, if_neg hc₁]

/-- The run so far is the replay of its script. -/
structure Scripted (blockSize100k : Nat) (calls : List Call) (s : EState) : Prop where
  replay : replay Event.step ((script calls).events s) (EState.init blockSize100k).core =
    give (calls.flatMap Call.given) (ahead s)
  tail : ¬ s.mode.Ending → (script calls).tail = []

/-- The protocol is not what is ahead of a state at rest. -/
theorem ahead_enter {s : EState} (hr : Resting s) (strm : BzStream) (action : Int) :
    ahead (enter s strm action) = ahead s := by
  rw [enter_eq]
  rcases s.state.cases with hs | hs
  · rw [ahead_output hs]
    exact ahead_output hs
  · have hn := (hr.input hs).2.2
    rw [ahead_input hs fun h => absurd hn (Nat.not_lt.mpr h.1)]
    exact ahead_input hs fun h => absurd hn (Nat.not_lt.mpr h.1)

theorem Left.ahead {s s' : EState} {strm : BzStream} {progress : Bool} {r : Ret}
    (h : Left s strm progress r s') (hi : LoopOk s strm) : ahead s' = Qbz2.ahead s := by
  cases h with
  | ran => rfl
  | more => rfl
  | flushed _ hc hp =>
    rw [ahead_output hc.1, ahead_input rfl, hp]
    · show _ = Except.ok (_, s.out.zbits.drop s.out.zbits.length)
      rw [List.drop_length]
      rfl
    · rintro ⟨h, _⟩
      exact absurd hi.max (Nat.not_lt.mpr h)
  | ended _ hc _ _ =>
    rw [ahead_output hc.1]
    exact ahead_output hc.1

omit [CompressEnv] in
/-- A block that ends a section closes its events. -/
theorem pendingEvents_closed {s : EState} (hc : s.Closed) (hend : s.mode.Ending)
    (tail : List Byte) : pendingEvents s tail =
      stamp tail.length tail ++ [.close (decide (s.mode = .finishing))] := by
  have h0 := ((drained_iff s).mp hc.2.2).1
  rw [pendingEvents_of_ending hend, if_pos hc, h0, Nat.add_zero]

/-- The events of a run, a call longer. -/
theorem Left.events {s s₁ s' : EState} {calls : List Call} {c : Call} {progress : Bool} {r : Ret}
    (h : Left s₁ c.strm' progress r s') (hret : c.ret = r)
    (hx : Ended s c.strm c.action progress s₁ c.strm') (hr : Resting s)
    (ha : Accepts s c.strm c.action)
    (ht : ¬ s.mode.Ending → (script calls).tail = []) :
    (script (calls ++ [c])).events s' = (script calls).events s ++
        eventsOf (enter s c.strm c.action) c.strm s₁ c.strm' ∧
      (¬ s'.mode.Ending → (script (calls ++ [c])).tail = []) := by
  have hadd : script (calls ++ [c]) = (script calls).add c := List.foldl_append
  have haction := enter_mode ha
  rw [← hx.mode] at haction
  rw [hadd]
  unfold Script.add Script.events
  by_cases hend : s₁.mode.Ending
  · have hev := hx.events hr ha hend ht
    have hne : c.action ≠ bzRun := by
      rcases haction with ⟨h, _⟩ | ⟨_, h⟩ | ⟨_, h⟩
      · rw [h] at hend
        rcases hend with h | h <;> cases h
      · rw [h]
        decide
      · rw [h]
        decide
    rw [if_neg hne, List.append_assoc _ (pendingEvents s _), hev, hret]
    cases h with
    | ran hm => rw [hm] at hend; rcases hend with h | h <;> cases h
    | more _ _ _ hret =>
      have hno : ¬ (r = .runOk ∨ r = .streamEnd) := by
        rintro (h | h) <;> rcases hret with ⟨h', _⟩ | ⟨h', _⟩ | ⟨h', _⟩ <;> rw [h] at h' <;> cases h'
      rw [if_neg hno]
      exact ⟨rfl, fun h => absurd hend h⟩
    | flushed hm hc =>
      rw [if_pos (.inl rfl)]
      refine ⟨?_, fun _ => rfl⟩
      have hact : decide (c.action = bzFinish) = decide (s₁.mode = .finishing) := by
        rw [hm] at haction
        rcases haction with ⟨h, _⟩ | ⟨_, h⟩ | ⟨h, _⟩
        · cases h
        · rw [h, hm]
          decide
        · cases h
      rw [pendingEvents_of_not (by rintro (h | h) <;> cases h),
        ← Call.taken, pendingEvents_closed hc hend, ← hact]
      simp [Section.events]
    | ended hm hc =>
      rw [if_pos (.inr rfl)]
      refine ⟨?_, fun _ => rfl⟩
      have hact : decide (c.action = bzFinish) = decide (s₁.mode = .finishing) := by
        rw [hm] at haction
        rcases haction with ⟨h, _⟩ | ⟨h, _⟩ | ⟨_, h⟩
        · cases h
        · cases h
        · rw [h, hm]
          decide
      rw [pendingEvents_of_not (by rintro (h | h) <;> cases h),
        ← Call.taken, pendingEvents_closed hc hend, ← hact]
      simp [Section.events]
  · -- the compressor runs on
    obtain ⟨hrun, hact⟩ : s₁.mode = .running ∧ c.action = bzRun := by
      rcases haction with h | ⟨h, _⟩ | ⟨h, _⟩
      · exact h
      · exact absurd (.inl h) hend
      · exact absurd (.inr h) hend
    have hs : ¬ s.mode.Ending := by
      intro h
      have he := hx.mode
      unfold enter at he
      rw [if_neg h.ne_running, hrun] at he
      exact h.ne_running he.symm
    have hs' : s' = s₁ := by
      cases h with
      | ran => rfl
      | more => rfl
      | flushed hm => rw [hrun] at hm; cases hm
      | ended hm => rw [hrun] at hm; cases hm
    rw [if_pos hact, hs', pendingEvents_of_not hend, pendingEvents_of_not hs]
    refine ⟨?_, fun _ => ht hs⟩
    unfold eventsOf EState.stamped
    rw [← hx.mode, if_pos hrun, if_neg fun h : s₁.Closed ∧ _ => h.1.2.1 hrun]
    simp [Call.taken]

/-- A call that was refused is not in the script. -/
theorem Scripted.refused {blockSize100k : Nat} {calls : List Call} {s : EState} {c : Call}
    (h : Scripted blockSize100k calls s) (hneg : c.ret.code < 0) (he : c.strm' = c.strm) :
    Scripted blockSize100k (calls ++ [c]) s := by
  have htaken : c.taken = [] := by
    unfold Call.taken
    rw [he, Nat.sub_self, bytesAt_zero]
  have hgiven : c.given = [] := by
    unfold Call.given
    rw [he]
    exact List.drop_length
  have hno : ¬ (c.ret = .runOk ∨ c.ret = .streamEnd) := by
    rintro (h | h) <;> rw [h] at hneg <;> exact absurd hneg (by decide)
  have hscript : script (calls ++ [c]) = script calls := by
    have hadd : script (calls ++ [c]) = (script calls).add c := List.foldl_append
    rw [hadd]
    unfold Script.add
    rw [htaken, if_neg hno, List.append_nil, List.append_nil]
    split <;> rfl
  refine ⟨?_, ?_⟩
  · rw [hscript, h.replay, List.flatMap_append, List.flatMap_singleton, hgiven, List.append_nil]
  · rw [hscript]
    exact h.tail

/-- **A run is the replay of its script.** -/
theorem CompressRun.scripted {blockSize100k : Nat} {calls : List Call} {s : EState}
    (h : CompressRun blockSize100k calls s) (h1 : 1 ≤ blockSize100k) :
    Scripted blockSize100k calls s := by
  induction h with
  | init =>
    refine ⟨?_, fun _ => rfl⟩
    have hn : ¬ ((EState.init blockSize100k).nblockMAX ≤ (EState.init blockSize100k).input.nblock ∧
        ((EState.init blockSize100k).mode = .running ∨
          0 < (EState.init blockSize100k).availInExpect)) := by
      rintro ⟨h, _⟩
      exact absurd (resting_init h1).max (Nat.not_lt.mpr h)
    rw [ahead_input rfl hn]
    rfl
  | @call calls s s' h c hc ih =>
    obtain ⟨hrep, ht⟩ := ih
    have hr := h.resting h1
    rcases bzCompress_cases hr hc with ⟨_, hneg, rfl, he⟩ | ⟨ha, p, s₁, hx, hleft⟩
    · exact Scripted.refused ⟨hrep, ht⟩ hneg he
    · obtain ⟨hev, ht'⟩ := hleft.events rfl hx hr ha ht
      obtain ⟨given, hout, hgive⟩ := hx.moves.replays hx.start
      have hgiven : c.given = given := by
        unfold Call.given
        rw [hout, List.drop_left]
      refine ⟨?_, ht'⟩
      rw [hev, replay_append, hrep, andThen_give, ← ahead_enter hr c.strm c.action, hgive,
        hleft.ahead hx.loopOk, ← give_append, List.flatMap_append, List.flatMap_singleton, hgiven]

/-- The output on its way. -/
def EState.onItsWay (s : EState) : List Byte :=
  if s.state = .output then s.out.zbits.drop s.stateOutPos else []

/-- What is ahead of a state at rest. -/
theorem Resting.ahead {s : EState} (hr : Resting s) :
    ∃ t, ahead s = .ok (t, s.onItsWay) := by
  unfold EState.onItsWay
  rcases s.state.cases with hs | hs
  · rw [if_pos hs]
    exact ⟨_, ahead_output hs⟩
  · rw [if_neg (by rw [hs]; decide)]
    have hn := (hr.input hs).2.2
    exact ⟨_, ahead_input hs fun h => absurd hn (Nat.not_lt.mpr h.1)⟩

omit [CompressEnv] in
/-- Nothing is on its way once the stream has ended. -/
theorem Resting.onItsWay_idle {s : EState} (hr : Resting s) (hm : s.mode = .idle) :
    s.onItsWay = [] := by
  obtain ⟨hs, _, hp⟩ := hr.ended hm
  unfold EState.onItsWay
  rw [if_pos hs, hp]
  exact List.drop_length

/-- **All that a run has made**, outside a flush and the end, is the replay of the sections and of
    the bytes that came after them. -/
theorem CompressRun.replayed {blockSize100k : Nat} (h1 : 1 ≤ blockSize100k) {calls : List Call}
    {s : EState} (h : CompressRun blockSize100k calls s) (hm : ¬ s.mode.Ending) :
    ∃ t, replay Event.step ((script calls).sections.flatMap Section.events ++
        (script calls).run.map fun b => .byte b true) (EState.init blockSize100k).core =
      .ok (t, calls.flatMap Call.given ++ s.onItsWay) := by
  obtain ⟨t, ht⟩ := (h.resting h1).ahead
  have hrep := (h.scripted h1).replay
  rw [ht, Script.events, pendingEvents_of_not hm, List.append_nil] at hrep
  exact ⟨t, hrep⟩

end

end Qbz2
