/-
  File:      Qbz2/Compress/Protocol.lean
  Subject:   The protocol of `BZ2_bzCompress`, over every run from `BZ2_bzCompressInit`.

  * `Accepts`, `enter`, `leave` -- a call is refused, or it is `handle_compress` between a change
    of mode before and one after (`bzCompress_accepted`, `bzCompress_refused`);
  * `Ledger` -- what the caller knows: the input present at the first call of a flush or of the
    end, what was consumed since, what the last call left;
  * `Reach` -- the states after any calls; `Resting` -- what holds of them;
  * **`bzCompress_protocol`** -- what a call can return, and when.
-/
import Qbz2.Compress.Moves

namespace Qbz2

/-! ## 1. A call -/

/-- The actions allowed in a mode. -/
def Mode.Allows (action : Int) : Mode → Prop
  | .idle => False
  | .running => action = bzRun ∨ action = bzFlush ∨ action = bzFinish
  | .flushing => action = bzFlush
  | .finishing => action = bzFinish

/-- A flush, or the end of the stream, is under way. -/
def Mode.Ending (m : Mode) : Prop := m = .flushing ∨ m = .finishing

instance (m : Mode) : Decidable m.Ending :=
  inferInstanceAs (Decidable (m = .flushing ∨ m = .finishing))

theorem Mode.Ending.ne_running {m : Mode} (h : m.Ending) : m ≠ .running := by
  rcases h with rfl | rfl <;> decide

/-- The call is allowed in the mode the compressor is in, with this `avail_in`. -/
def Accepts (s : EState) (strm : BzStream) (action : Int) : Prop :=
  s.mode.Allows action ∧ (s.mode.Ending → s.availInExpect = strm.availIn)

/-- The state `handle_compress` starts from. -/
def enter (s : EState) (strm : BzStream) (action : Int) : EState :=
  if s.mode = .running then
    if action = bzFlush then { s with availInExpect := strm.availIn, mode := .flushing }
    else if action = bzFinish then { s with availInExpect := strm.availIn, mode := .finishing }
    else s
  else s

/-- What a call that entered in mode `m` returns with. -/
def leave (m : Mode) (progress : Bool) (s : EState) : Ret × EState :=
  match m with
  | .idle => (.sequenceError, s)
  | .running => (if progress then .runOk else .paramError, s)
  | .flushing => if s.unfinished then (.flushOk, s) else (.runOk, { s with mode := .running })
  | .finishing =>
    if progress = false then (.sequenceError, s)
    else if s.unfinished then (.finishOk, s)
    else (.streamEnd, { s with mode := .idle })

theorem Accepts.not_idle {s : EState} {strm : BzStream} {action : Int} (h : Accepts s strm action) :
    s.mode ≠ .idle := by
  intro h0
  have := h.1
  rw [h0] at this
  exact this

theorem Accepts.ending {s : EState} {strm : BzStream} {action : Int} (h : Accepts s strm action)
    (hm : s.mode ≠ .running) : s.mode.Ending := by
  unfold Mode.Ending
  cases hc : s.mode with
  | idle => exact absurd hc h.not_idle
  | running => exact absurd hc hm
  | flushing => exact .inl rfl
  | finishing => exact .inr rfl

/-- The mode an accepted call enters with, and its action. -/
theorem enter_mode {s : EState} {strm : BzStream} {action : Int} (h : Accepts s strm action) :
    (enter s strm action).mode = .running ∧ action = bzRun ∨
      (enter s strm action).mode = .flushing ∧ action = bzFlush ∨
      (enter s strm action).mode = .finishing ∧ action = bzFinish := by
  obtain ⟨h, _⟩ := h
  unfold enter
  cases hm : s.mode with
  | idle =>
    rw [hm] at h
    exact h.elim
  | running =>
    rw [hm] at h
    rw [if_pos rfl]
    rcases h with rfl | rfl | rfl
    · rw [if_neg (show bzRun ≠ bzFlush by decide), if_neg (show bzRun ≠ bzFinish by decide)]
      exact .inl ⟨hm, rfl⟩
    · rw [if_pos rfl]
      exact .inr (.inl ⟨rfl, rfl⟩)
    · rw [if_neg (show bzFinish ≠ bzFlush by decide), if_pos rfl]
      exact .inr (.inr ⟨rfl, rfl⟩)
  | flushing =>
    rw [hm] at h
    rw [if_neg (by decide)]
    exact .inr (.inl ⟨hm, h⟩)
  | finishing =>
    rw [hm] at h
    rw [if_neg (by decide)]
    exact .inr (.inr ⟨hm, h⟩)

/-- Only the mode and what is expected of the input change. -/
theorem enter_eq (s : EState) (strm : BzStream) (action : Int) :
    enter s strm action = { s with
      mode := (enter s strm action).mode
      availInExpect := (enter s strm action).availInExpect } := by
  unfold enter
  split
  · split
    · rfl
    · split <;> rfl
  · rfl

section

variable [CompressEnv]

theorem compressFlushing_eq {s : EState} {strm : BzStream}
    (h : s.availInExpect = strm.availIn) :
    compressFlushing s strm bzFlush = (handleCompress s strm >>= fun x =>
      .ok ((leave .flushing x.1 x.2.1).1, (leave .flushing x.1 x.2.1).2, x.2.2)) := by
  unfold compressFlushing
  rw [if_neg (fun hne => hne rfl), if_neg (fun hne => hne h)]
  congr 1
  funext x
  unfold leave
  dsimp only
  split <;> rfl

theorem compressFinishing_eq {s : EState} {strm : BzStream}
    (h : s.availInExpect = strm.availIn) :
    compressFinishing s strm bzFinish = (handleCompress s strm >>= fun x =>
      .ok ((leave .finishing x.1 x.2.1).1, (leave .finishing x.1 x.2.1).2, x.2.2)) := by
  unfold compressFinishing
  rw [if_neg (fun hne => hne rfl), if_neg (fun hne => hne h)]
  congr 1
  funext x
  unfold leave
  dsimp only
  cases x.1 with
  | false => rfl
  | true =>
    cases x.2.1.unfinished <;> rfl

/-- **An accepted call** is `handle_compress`, with a change of mode before and one after. -/
theorem bzCompress_accepted {s : EState} {strm : BzStream} {action : Int}
    (h : Accepts s strm action) :
    bzCompress s strm action = (handleCompress (enter s strm action) strm >>= fun x =>
      .ok ((leave (enter s strm action).mode x.1 x.2.1).1,
        (leave (enter s strm action).mode x.1 x.2.1).2, x.2.2)) := by
  obtain ⟨h, he⟩ := h
  unfold bzCompress enter
  cases hm : s.mode with
  | idle =>
    rw [hm] at h
    exact h.elim
  | running =>
    rw [hm] at h
    dsimp only
    rw [if_pos rfl]
    rcases h with rfl | rfl | rfl
    · rw [if_pos rfl, if_neg (show bzRun ≠ bzFlush by decide),
        if_neg (show bzRun ≠ bzFinish by decide), hm]
      rfl
    · rw [if_neg (show bzFlush ≠ bzRun by decide), if_pos rfl, if_pos rfl]
      exact compressFlushing_eq rfl
    · rw [if_neg (show bzFinish ≠ bzRun by decide), if_neg (show bzFinish ≠ bzFlush by decide),
        if_pos rfl, if_neg (show bzFinish ≠ bzFlush by decide), if_pos rfl]
      exact compressFinishing_eq rfl
  | flushing =>
    rw [hm] at h
    cases h
    rw [if_neg (show Mode.flushing ≠ .running by decide), hm]
    exact compressFlushing_eq (he (.inl hm))
  | finishing =>
    rw [hm] at h
    cases h
    rw [if_neg (show Mode.finishing ≠ .running by decide), hm]
    exact compressFinishing_eq (he (.inr hm))

/-- **A refused call** returns an error and changes nothing. -/
theorem bzCompress_refused {s : EState} {strm : BzStream} {action : Int}
    (h : ¬ Accepts s strm action) :
    ∃ r : Ret, r.code < 0 ∧ bzCompress s strm action = .ok (r, s, strm) := by
  unfold Accepts at h
  unfold bzCompress
  cases hm : s.mode with
  | idle => exact ⟨.sequenceError, by decide, rfl⟩
  | running =>
    have hno : ¬ Mode.running.Allows action := fun ha => h ⟨by rw [hm]; exact ha, fun he => by
      rw [hm] at he
      rcases he with he | he <;> cases he⟩
    refine ⟨.paramError, by decide, ?_⟩
    dsimp only
    rw [if_neg fun h1 => hno (.inl h1), if_neg fun h1 => hno (.inr (.inl h1)),
      if_neg fun h1 => hno (.inr (.inr h1))]
  | flushing =>
    rw [hm] at h
    refine ⟨.sequenceError, by decide, ?_⟩
    dsimp only
    unfold compressFlushing
    by_cases ha : action = bzFlush
    · rw [if_neg (fun hne => hne ha), if_pos fun he => h ⟨ha, fun _ => he⟩]
    · rw [if_pos ha]
  | finishing =>
    rw [hm] at h
    refine ⟨.sequenceError, by decide, ?_⟩
    dsimp only
    unfold compressFinishing
    by_cases ha : action = bzFinish
    · rw [if_neg (fun hne => hne ha), if_pos fun he => h ⟨ha, fun _ => he⟩]
    · rw [if_pos ha]

/-! ## 2. The states between calls -/

/-- What the caller knows of a run: `avail_in` at the call that began the flush or the end, what
    was consumed from then on, and `avail_in` after the last call that was not an error. -/
structure Ledger where
  present : Nat
  consumed : Nat
  left : Nat

/-- The ledger after a call: begun anew by every call that finds the compressor running. -/
def Ledger.next (g : Ledger) (s : EState) (strm : BzStream) (r : Ret) (strm' : BzStream) :
    Ledger :=
  if r.code < 0 then g
  else if s.mode = .running then ⟨strm.availIn, strm.availIn - strm'.availIn, strm'.availIn⟩
  else ⟨g.present, g.consumed + (strm.availIn - strm'.availIn), strm'.availIn⟩

/-- The states a run reaches: any calls, each with any input and some room for output. -/
inductive Reach : EState → Ledger → Prop
  | init {blockSize100k : Nat} (h1 : 1 ≤ blockSize100k) (h9 : blockSize100k ≤ 9) :
      Reach (EState.init blockSize100k) ⟨0, 0, 0⟩
  | call {s s' : EState} {g : Ledger} {strm strm' : BzStream} {action : Int} {r : Ret}
      (h : Reach s g) (ho : 0 < strm.availOut)
      (hc : bzCompress s strm action = .ok (r, s', strm')) : Reach s' (g.next s strm r strm')

/-- What holds between calls. -/
structure Resting (s : EState) : Prop where
  run : RunOk s.input
  live : -8 < s.out.bsLive
  max : 0 < s.nblockMAX
  pos : s.stateOutPos ≤ s.numZ
  input : s.state = .input → s.numZ = 0 ∧ s.stateOutPos = 0 ∧ s.input.nblock < s.nblockMAX
  output : s.mode ≠ .idle → s.state = .output → s.stateOutPos < s.numZ
  pending : s.state = .output → s.mode = .running → s.input.isemptyRL = false
  closing : s.mode.Ending → s.state = .output
  ended : s.mode = .idle → s.state = .output ∧ s.input.isemptyRL = true ∧ s.stateOutPos = s.numZ

omit [CompressEnv] in
theorem resting_init {blockSize100k : Nat} (h1 : 1 ≤ blockSize100k) :
    Resting (EState.init blockSize100k) := by
  have hmax : (0 : Nat) < 100000 * blockSize100k - 19 := by omega
  exact ⟨.inl ⟨rfl, rfl⟩, show (-8 : Int) < 0 by decide, hmax, Nat.le_refl 0,
    fun _ => ⟨rfl, rfl, hmax⟩, fun _ h => (by cases h), fun h => (by cases h),
    fun h => (by rcases h with h | h <;> cases h), fun h => (by cases h)⟩

omit [CompressEnv] in
/-- An accepted call enters the loop with its invariant. -/
theorem Resting.enter {s : EState} (hr : Resting s) {strm : BzStream} {action : Int}
    (h : Accepts s strm action) : LoopOk (enter s strm action) strm ∧
      ((enter s strm action).state = .input →
        (enter s strm action).input.nblock < (enter s strm action).nblockMAX) := by
  -- the mode and what is expected are all that changes
  have key : ∀ m expect, m ≠ .idle → (m ≠ .running → expect = strm.availIn) →
      (m = .running → s.mode = .running) →
      LoopOk { s with mode := m, availInExpect := expect } strm := by
    intro m expect hm hexp hrun
    exact ⟨hm, hr.run, hr.live, hr.max,
      fun hs => ⟨(hr.input hs).1, (hr.input hs).2.1,
        fun hle => absurd (hr.input hs).2.2 (Nat.not_lt.mpr hle)⟩,
      hr.pos, hexp, fun ho hm => hr.pending ho (hrun hm)⟩
  unfold Qbz2.enter
  by_cases hm : s.mode = .running
  · rw [if_pos hm]
    split
    · exact ⟨key .flushing strm.availIn (by decide) (fun _ => rfl) (fun h => by cases h),
        fun hs => (hr.input hs).2.2⟩
    · split
      · exact ⟨key .finishing strm.availIn (by decide) (fun _ => rfl) (fun h => by cases h),
          fun hs => (hr.input hs).2.2⟩
      · exact ⟨key s.mode s.availInExpect (by rw [hm]; decide) (fun hne => absurd hm hne)
          (fun h => h), fun hs => (hr.input hs).2.2⟩
  · rw [if_neg hm]
    exact ⟨key s.mode s.availInExpect h.not_idle (fun _ => h.2 (h.ending hm)) (fun h => h),
      fun hs => (hr.input hs).2.2⟩

omit [CompressEnv] in
theorem unfinished_eq_false {s : EState} : s.unfinished = false ↔
    s.availInExpect = 0 ∧ s.input.isemptyRL = true ∧ s.numZ ≤ s.stateOutPos := by
  unfold EState.unfinished
  rw [Bool.or_eq_false_iff, Bool.or_eq_false_iff, decide_eq_false_iff_not,
    decide_eq_false_iff_not, Bool.not_eq_false', and_assoc, Nat.not_lt, Nat.not_lt,
    Nat.le_zero_eq]

/-- The ways an accepted call returns, `s` being the state its moves led to: the compressor runs
    on; there is more to come of the flush or of the stream; a flush is over; the stream is. -/
inductive Left (s : EState) (strm : BzStream) (progress : Bool) : Ret → EState → Prop
  | ran (hm : s.mode = .running)
      (h : strm.availIn = 0 ∧ s.state = .input ∧ s.input.nblock < s.nblockMAX ∨
        strm.availOut = 0 ∧ s.state = .output ∧ s.stateOutPos < s.numZ) :
      Left s strm progress (if progress then .runOk else .paramError) s
  | more {r : Ret} (hs : s.state = .output) (hp : s.stateOutPos < s.numZ) (ho : strm.availOut = 0)
      (hr : r = .flushOk ∧ s.mode = .flushing ∨ r = .finishOk ∧ s.mode = .finishing ∨
        r = .sequenceError ∧ s.mode = .finishing ∧ progress = false) : Left s strm progress r s
  | flushed (hm : s.mode = .flushing) (hc : s.Closed) (hp : s.stateOutPos = s.numZ) :
      Left s strm progress .runOk { s.prepareNewBlock with state := .input, mode := .running }
  | ended (hm : s.mode = .finishing) (hc : s.Closed) (hp : s.stateOutPos = s.numZ)
      (hq : progress = true) : Left s strm progress .streamEnd { s with mode := .idle }

omit [CompressEnv] in
theorem unfinished_of_lt {s : EState} (hp : s.stateOutPos < s.numZ) : s.unfinished = true := by
  unfold EState.unfinished
  rw [decide_eq_true hp, Bool.or_true]

omit [CompressEnv] in
theorem park_of_lt {s : EState} (hp : s.stateOutPos < s.numZ) : s.park = s := by
  unfold EState.park
  rw [if_neg fun h => by omega]

omit [CompressEnv] in
theorem park_of_ne {s : EState} (hm : s.mode ≠ .flushing) : s.park = s := by
  unfold EState.park
  rw [if_neg fun h => hm h.1]

omit [CompressEnv] in
/-- **How a call leaves** that came to an exit of the loop. -/
theorem Exit.left {s : EState} {strm : BzStream} (hx : Exit s strm) (hi : LoopOk s strm)
    (progress : Bool)
    (hlive : s.mode = .finishing → progress = false → s.state = .output → s.stateOutPos < s.numZ) :
    Left s strm progress (leave s.mode progress s.park).1 (leave s.mode progress s.park).2 := by
  cases hx with
  | full hs hp ho =>
    rw [park_of_lt hp]
    unfold leave
    cases hm : s.mode with
    | idle => exact absurd hm hi.mode
    | running => exact .ran hm (.inr ⟨ho, hs, hp⟩)
    | flushing =>
      dsimp only
      rw [if_pos (unfinished_of_lt hp)]
      exact .more hs hp ho (.inl ⟨rfl, hm⟩)
    | finishing =>
      dsimp only
      by_cases hq : progress = false
      · rw [if_pos hq]
        exact .more hs hp ho (.inr (.inr ⟨rfl, hm, hq⟩))
      · rw [if_neg hq, if_pos (unfinished_of_lt hp)]
        exact .more hs hp ho (.inr (.inl ⟨rfl, hm⟩))
  | starved hs hm hin hn =>
    rw [park_of_ne (by rw [hm]; decide), hm]
    exact .ran hm (.inl ⟨hin, hs, hn⟩)
  | done hc hp =>
    obtain ⟨h0, hempty⟩ := (drained_iff s).mp hc.2.2
    unfold leave
    cases hm : s.mode with
    | idle => exact absurd hm hi.mode
    | running => exact absurd hm hc.2.1
    | flushing =>
      have hpark : s.park = { s.prepareNewBlock with state := .input } := by
        unfold EState.park
        rw [if_pos ⟨hm, hp⟩]
      have hu : s.park.unfinished = false := by
        rw [hpark]
        exact unfinished_eq_false.mpr ⟨h0, hempty, Nat.le_refl 0⟩
      dsimp only
      rw [if_neg (by rw [hu]; decide), hpark]
      exact .flushed hm hc hp
    | finishing =>
      have hu : s.unfinished = false := unfinished_eq_false.mpr ⟨h0, hempty, Nat.le_of_eq hp.symm⟩
      have hq : progress = true := by
        cases progress with
        | true => rfl
        | false =>
          have := hlive hm rfl hc.1
          omega
      rw [park_of_ne (by rw [hm]; decide)]
      dsimp only
      rw [if_neg (by rw [hq]; decide), if_neg (by rw [hu]; decide)]
      exact .ended hm hc hp hq

omit [CompressEnv] in
/-- Between calls again. -/
theorem Left.resting {s s' : EState} {strm : BzStream} {progress : Bool} {r : Ret}
    (h : Left s strm progress r s') (hi : LoopOk s strm) : Resting s' := by
  cases h with
  | ran hm h =>
    refine ⟨hi.run, hi.live, hi.max, hi.pos, fun hs => ?_, fun _ hs => ?_, hi.pending, fun he => ?_,
      fun he => absurd he hi.mode⟩
    · rcases h with ⟨_, _, hn⟩ | ⟨_, ho, _⟩
      · exact ⟨(hi.input hs).1, (hi.input hs).2.1, hn⟩
      · rw [ho] at hs
        cases hs
    · rcases h with ⟨_, ho, _⟩ | ⟨_, _, hp⟩
      · rw [ho] at hs
        cases hs
      · exact hp
    · rw [hm] at he
      rcases he with he | he <;> cases he
  | more hs hp ho hr =>
    exact ⟨hi.run, hi.live, hi.max, hi.pos, fun h => (by rw [hs] at h; cases h), fun _ _ => hp,
      hi.pending, fun _ => hs, fun he => absurd he hi.mode⟩
  | flushed hm hc hp =>
    exact ⟨hi.run, hi.live, hi.max, Nat.le_refl 0, fun _ => ⟨rfl, rfl, hi.max⟩,
      fun _ h => (by cases h), fun h => (by cases h), fun h => (by rcases h with h | h <;> cases h),
      fun h => (by cases h)⟩
  | ended hm hc hp hq =>
    refine ⟨hi.run, hi.live, hi.max, hi.pos, fun h => ?_, fun h => absurd rfl h,
      fun _ h => (by cases h), fun h => (by rcases h with h | h <;> cases h),
      fun _ => ⟨hc.1, ((drained_iff s).mp hc.2.2).2, hp⟩⟩
    exact absurd (hc.1.symm.trans h) (by decide)

/-! ## 3. Progress -/

/-- Moves that give nothing out leave what is on its way out of a finishing stream. -/
theorem Moves.live {s s' : EState} {strm strm' : BzStream} (h : Moves s strm s' strm')
    (hi : LoopOk s strm) (hm : s.mode = .finishing) (ho : strm'.availOut = strm.availOut)
    (hl : s.state = .output → s.stateOutPos < s.numZ) :
    s'.state = .output → s'.stateOutPos < s'.numZ := by
  induction h with
  | refl => exact hl
  | @step s s₁ s' strm strm₁ strm' h hs ih =>
    obtain ⟨hm₁, _, _, _, _, hle, _⟩ := h.frame hi.live
    have hi₁ := h.loopOk hi
    obtain ⟨_, _, _, _, _, hle', _⟩ := hs.frame hi₁
    refine ih hi₁ (hm₁.trans hm) (by omega) ?_
    cases h with
    | take hin h =>
      obtain ⟨_, _, _, _, rfl⟩ := copyInputStep_some h
      exact fun h => absurd (hin.symm.trans h) (by decide)
    | flush hin _ _ h =>
      obtain ⟨hc, _, hz⟩ := compressBlock_spec (s := { s with input := s.input.flushRL }) hi.live h
      have hpos := hc.stateOutPos
      have h2 := (hi.input hin).2.1
      have := hz (.inr (decide_eq_true hm))
      intro _
      dsimp only at hpos ⊢
      unfold EState.numZ at this ⊢
      dsimp only
      omega
    | close hin hn _ h =>
      obtain ⟨hc, _, hz⟩ := compressBlock_spec hi.live h
      have hpos := hc.stateOutPos
      have h2 := (hi.input hin).2.1
      have := hz (.inl (Nat.lt_of_lt_of_le hi.max hn))
      intro _
      unfold EState.numZ at this ⊢
      dsimp only
      omega
    | give _ hn h =>
      have := h.availOut
      omega
    | begin => exact fun h => (by cases h)

/-- How an accepted call went: some moves from the state it entered with, to an exit of the
    loop. -/
structure Ended (s : EState) (strm : BzStream) (action : Int) (progress : Bool) (s₁ : EState)
    (strm' : BzStream) : Prop where
  moves : Moves (enter s strm action) strm s₁ strm'
  start : LoopOk (enter s strm action) strm
  loopOk : LoopOk s₁ strm'
  mode : s₁.mode = (enter s strm action).mode
  quiet : progress = false → strm'.availOut = strm.availOut
  live : s₁.mode = .finishing → progress = false → s₁.state = .output → s₁.stateOutPos < s₁.numZ

/-- **An accepted call ends**, unless `BZ2_compressBlock` does not return. -/
theorem bzCompress_ends {s : EState} (hr : Resting s) {strm : BzStream} {action : Int}
    (ha : Accepts s strm action) :
    (∃ p s₁ r s' strm', bzCompress s strm action = .ok (r, s', strm') ∧
      Ended s strm action p s₁ strm' ∧ Left s₁ strm' p r s') ∨
    ∃ e, bzCompress s strm action = .error e ∧ Stops (enter s strm action) strm e := by
  rw [bzCompress_accepted ha]
  obtain ⟨hi, hn⟩ := hr.enter ha
  rcases handleCompress_moves hi hn with ⟨p, s₁, strm₁, he, hmv, hx, hq⟩ | ⟨e, he, hh⟩
  · rw [he]
    have hm := (hmv.frame hi).1
    have hi₁ := hmv.loopOk hi
    have hlive : s₁.mode = .finishing → p = false → s₁.state = .output →
        s₁.stateOutPos < s₁.numZ := by
      intro hf hp
      refine hmv.live hi (hm ▸ hf) (hq hp) fun hs => ?_
      rw [enter_eq] at hs ⊢
      exact hr.output ha.not_idle hs
    refine .inl ⟨p, s₁, (leave s₁.mode p s₁.park).1, (leave s₁.mode p s₁.park).2, strm₁, ?_,
      ⟨hmv, hi, hi₁, hm, hq, hlive⟩, hx.left hi₁ p hlive⟩
    rw [hm]
    rfl
  · rw [he]
    exact .inr ⟨e, rfl, hh⟩

/-- A call that returned: refused, or ended. -/
theorem bzCompress_cases {s s' : EState} (hr : Resting s) {strm strm' : BzStream} {action : Int}
    {r : Ret} (hc : bzCompress s strm action = .ok (r, s', strm')) :
    ¬ Accepts s strm action ∧ r.code < 0 ∧ s' = s ∧ strm' = strm ∨
    Accepts s strm action ∧ ∃ p s₁, Ended s strm action p s₁ strm' ∧ Left s₁ strm' p r s' := by
  by_cases ha : Accepts s strm action
  · rcases bzCompress_ends hr ha with ⟨p, s₁, r₁, s₂, strm₁, he, hx, hl⟩ | ⟨e, he, _⟩
    · rw [hc] at he
      cases he
      exact .inr ⟨ha, p, s₁, hx, hl⟩
    · rw [hc] at he
      cases he
  · obtain ⟨r₁, hneg, he⟩ := bzCompress_refused ha
    rw [hc] at he
    cases he
    exact .inl ⟨ha, hneg, rfl, rfl⟩

/-- **At rest again**, whatever the call and whatever it returned. -/
theorem Resting.call {s s' : EState} (hr : Resting s) {strm strm' : BzStream} {action : Int}
    {r : Ret} (hc : bzCompress s strm action = .ok (r, s', strm')) : Resting s' := by
  rcases bzCompress_cases hr hc with ⟨_, _, rfl, _⟩ | ⟨_, p, s₁, hx, hl⟩
  · exact hr
  · exact hl.resting hx.loopOk

/-- One call, with what it returned. -/
structure Call where
  strm : BzStream
  action : Int
  ret : Ret
  strm' : BzStream

/-- The input a call consumed. -/
def Call.taken (c : Call) : List Byte :=
  bytesAt c.strm.mem c.strm.nextIn (c.strm.availIn - c.strm'.availIn)

/-- The output a call delivered. -/
def Call.given (c : Call) : List Byte := c.strm'.out.drop c.strm.out.length

/-- The runs from `BZ2_bzCompressInit`: any calls, with any streams, whatever they return. -/
inductive CompressRun (blockSize100k : Nat) : List Call → EState → Prop
  | init : CompressRun blockSize100k [] (EState.init blockSize100k)
  | call {calls : List Call} {s s' : EState} (h : CompressRun blockSize100k calls s) (c : Call)
      (hc : bzCompress s c.strm c.action = .ok (c.ret, s', c.strm')) :
      CompressRun blockSize100k (calls ++ [c]) s'

theorem CompressRun.resting {blockSize100k : Nat} {calls : List Call} {s : EState}
    (h : CompressRun blockSize100k calls s) (h1 : 1 ≤ blockSize100k) : Resting s := by
  induction h with
  | init => exact resting_init h1
  | call h c hc ih => exact ih.call hc

/-! ## 4. The protocol -/

/-- What a call did that found the state `s` and the ledger `g`, as the protocol has it. -/
structure Obeys (s : EState) (g : Ledger) (strm : BzStream) (action : Int) (r : Ret) (s' : EState)
    (strm' : BzStream) : Prop where
  ran : action = bzRun → r = .runOk → strm'.availIn = 0 ∨ strm'.availOut = 0
  more : r = .flushOk ∨ r = .finishOk → strm'.availOut = 0
  done : action = bzFlush ∧ r = .runOk ∨ r = .streamEnd →
    (g.next s strm r strm').consumed = (g.next s strm r strm').present ∧
      s'.input.isemptyRL = true ∧ s'.stateOutPos = s'.numZ
  finish : action = bzFinish → s.mode = .running ∨ s.mode = .finishing ∧ strm.availIn = g.left →
    r ≠ .sequenceError
  refused : ¬ s.mode.Allows action ∨ s.mode.Ending ∧ strm.availIn ≠ g.left →
    r.code < 0 ∧ s' = s ∧ strm' = strm

/-- The ledger agrees with what the compressor expects. -/
def Kept (s : EState) (g : Ledger) : Prop :=
  s.mode.Ending → s.availInExpect = g.left ∧ g.left + g.consumed = g.present

omit [CompressEnv] in
/-- The ledger after an accepted call. -/
theorem Kept.next {s : EState} {g : Ledger} {strm strm' : BzStream} {action : Int} {r : Ret}
    (hk : Kept s g) (ha : Accepts s strm action) (hle : strm'.availIn ≤ strm.availIn)
    (hr : ¬ r.code < 0) : (g.next s strm r strm').left = strm'.availIn ∧
      (g.next s strm r strm').left + (g.next s strm r strm').consumed =
        (g.next s strm r strm').present := by
  unfold Ledger.next
  rw [if_neg hr]
  by_cases hm : s.mode = .running
  · rw [if_pos hm]
    exact ⟨rfl, by dsimp only; omega⟩
  · rw [if_neg hm]
    have hend : s.mode.Ending := ha.ending hm
    obtain ⟨h1, h2⟩ := hk hend
    have h3 := ha.2 hend
    exact ⟨rfl, by dsimp only; omega⟩

omit [CompressEnv] in
/-- How an accepted call leaves the protocol. -/
theorem Left.obeys {s e s₁ s' : EState} {g : Ledger} {strm strm₁ : BzStream} {action : Int}
    {progress : Bool} {r : Ret} (h : Left s₁ strm₁ progress r s') (hk : Kept s g)
    (ha : Accepts s strm action) (he : e = enter s strm action) (hi : LoopOk s₁ strm₁)
    (hm : s₁.mode = e.mode) (hle : strm₁.availIn ≤ strm.availIn)
    (hp : s₁.mode = .finishing → progress = true) :
    Kept s' (g.next s strm r strm₁) ∧ Obeys s g strm action r s' strm₁ := by
  have hnot : ¬ (¬ s.mode.Allows action ∨ s.mode.Ending ∧ strm.availIn ≠ g.left) := by
    rintro (h | ⟨h1, h2⟩)
    · exact h ha.1
    · exact h2 ((ha.2 h1).symm.trans (hk h1).1)
  have haction := enter_mode ha
  rw [← he, ← hm] at haction
  have hall : ∀ r : Ret, ¬ r.code < 0 → s₁.Closed →
      (g.next s strm r strm₁).consumed = (g.next s strm r strm₁).present := by
    intro r hr hc
    obtain ⟨hl, hsum⟩ := hk.next ha hle hr
    have h0 := ((drained_iff s₁).mp hc.2.2).1
    have := hi.expect hc.2.1
    omega
  cases h with
  | ran hrun h =>
    rw [hrun] at haction
    obtain ⟨_, rfl⟩ : Mode.running = .running ∧ action = bzRun := by
      rcases haction with h | ⟨h, _⟩ | ⟨h, _⟩
      · exact h
      · cases h
      · cases h
    refine ⟨fun hend => ?_, ⟨fun _ _ => ?_, fun h => ?_, fun h => ?_, fun h => (by cases h),
      fun h => absurd h hnot⟩⟩
    · rw [hrun] at hend
      rcases hend with h | h <;> cases h
    · rcases h with ⟨h, _⟩ | ⟨h, _⟩
      · exact .inl h
      · exact .inr h
    · cases progress <;> rcases h with h | h <;> cases h
    · rcases h with ⟨h, _⟩ | h
      · cases h
      · cases progress <;> cases h
  | more hs hpos ho hr =>
    have hne : s₁.mode ≠ .running := by
      rcases hr with ⟨_, h⟩ | ⟨_, h⟩ | ⟨_, h, _⟩ <;> rw [h] <;> decide
    have hrun : action ≠ bzRun := by
      rcases haction with ⟨h, _⟩ | ⟨_, h⟩ | ⟨_, h⟩
      · exact absurd h hne
      · rw [h]
        decide
      · rw [h]
        decide
    have hexp := hi.expect hne
    have hcode : ¬ r.code < 0 ∧ r ≠ .runOk ∧ r ≠ .streamEnd ∧ r ≠ .sequenceError := by
      rcases hr with ⟨rfl, _⟩ | ⟨rfl, _⟩ | ⟨_, hf, hq⟩
      · decide
      · decide
      · rw [hp hf] at hq
        cases hq
    obtain ⟨hcode, h1, h2, h3⟩ := hcode
    obtain ⟨hl, hsum⟩ := hk.next ha hle hcode
    refine ⟨fun _ => ⟨hexp.trans hl.symm, hsum⟩, ⟨fun h => absurd h hrun, fun _ => ho, fun h => ?_,
      fun _ _ => h3, fun h => absurd h hnot⟩⟩
    rcases h with ⟨_, h⟩ | h
    · exact absurd h h1
    · exact absurd h h2
  | flushed hf hc hpos =>
    rw [hf] at haction
    obtain ⟨_, rfl⟩ : Mode.flushing = .flushing ∧ action = bzFlush := by
      rcases haction with ⟨h, _⟩ | h | ⟨h, _⟩
      · cases h
      · exact h
      · cases h
    refine ⟨fun h => ?_, ⟨fun h => (by cases h), fun h => ?_,
      fun _ => ⟨hall .runOk (by decide) hc, ((drained_iff s₁).mp hc.2.2).2, rfl⟩,
      fun h => (by cases h), fun h => absurd h hnot⟩⟩
    · rcases h with h | h <;> cases h
    · rcases h with h | h <;> cases h
  | ended hf hc hpos hq =>
    refine ⟨fun h => ?_, ⟨fun _ h => (by cases h), fun h => ?_,
      fun _ => ⟨hall .streamEnd (by decide) hc, ((drained_iff s₁).mp hc.2.2).2, hpos⟩,
      fun _ _ h => (by cases h), fun h => absurd h hnot⟩⟩
    · rcases h with h | h <;> cases h
    · rcases h with h | h <;> cases h

/-- **One call** from a state at rest: it obeys the protocol and comes to rest again, or
    `BZ2_compressBlock` does not return. -/
theorem bzCompress_call {s : EState} {g : Ledger} (hr : Resting s) (hk : Kept s g)
    {strm : BzStream} (ho : 0 < strm.availOut) (action : Int) :
    (∃ r s' strm', bzCompress s strm action = .ok (r, s', strm') ∧ Resting s' ∧
      Kept s' (g.next s strm r strm') ∧ Obeys s g strm action r s' strm') ∨
    ∃ e, bzCompress s strm action = .error e ∧ Halts e := by
  by_cases ha : Accepts s strm action
  · rcases bzCompress_ends hr ha with ⟨p, s₁, r, s', strm₁, he, hx, hl⟩ | ⟨e, he, hh⟩
    · obtain ⟨_, _, _, _, hle, _⟩ := hx.moves.frame hx.start
      have hp : s₁.mode = .finishing → p = true := by
        intro hf
        cases p with
        | true => rfl
        | false =>
          -- nothing went out, though there is room
          have h0 := hx.quiet rfl
          cases hl with
          | ran hm => rw [hf] at hm; cases hm
          | more _ _ h1 => omega
          | flushed hm => rw [hf] at hm; cases hm
          | ended _ _ _ hq => cases hq
      obtain ⟨h1, h2⟩ := hl.obeys hk ha rfl hx.loopOk hx.mode hle hp
      exact .inl ⟨r, s', strm₁, he, hr.call he, h1, h2⟩
    · exact .inr ⟨e, he, hh.halts⟩
  · obtain ⟨r, hc, he⟩ := bzCompress_refused ha
    refine .inl ⟨r, s, strm, he, hr, ?_, ?_⟩
    · unfold Ledger.next
      rw [if_pos hc]
      exact hk
    · have hnc : ∀ r' : Ret, ¬ r'.code < 0 → r ≠ r' := fun r' h h' => h (h' ▸ hc)
      refine ⟨fun _ h => absurd h (hnc _ (by decide)), fun h => ?_, fun h => ?_, fun h1 h2 _ => ?_,
        fun _ => ⟨hc, rfl, rfl⟩⟩
      · rcases h with h | h
        · exact absurd h (hnc _ (by decide))
        · exact absurd h (hnc _ (by decide))
      · rcases h with ⟨_, h⟩ | h
        · exact absurd h (hnc _ (by decide))
        · exact absurd h (hnc _ (by decide))
      · refine ha ⟨?_, fun hend => ?_⟩
        · rcases h2 with h2 | ⟨h2, _⟩
          · rw [h2]
            exact .inr (.inr h1)
          · rw [h2]
            exact h1
        · rcases h2 with h2 | ⟨_, h2⟩
          · rw [h2] at hend
            rcases hend with h | h <;> cases h
          · exact (hk hend).1.trans h2.symm

/-- Every state a run reaches is at rest. -/
theorem Reach.resting {s : EState} {g : Ledger} (h : Reach s g) : Resting s ∧ Kept s g := by
  induction h with
  | init h1 h9 =>
    exact ⟨resting_init h1, fun h => (by rcases h with h | h <;> cases h)⟩
  | @call s s' g strm strm' action r h ho hc ih =>
    rcases bzCompress_call ih.1 ih.2 ho action with ⟨r₁, s₁, strm₁, he, h1, h2, _⟩ | ⟨e, he, _⟩
    · rw [hc] at he
      cases he
      exact ⟨h1, h2⟩
    · rw [hc] at he
      cases he

/-- **The protocol of `BZ2_bzCompress`**: in every run from `BZ2_bzCompressInit` with room for
    output at each call, every call obeys it, unless `BZ2_compressBlock` does not return. -/
theorem bzCompress_protocol {s : EState} {g : Ledger} (hr : Reach s g) (strm : BzStream)
    (ho : 0 < strm.availOut) (action : Int) :
    (∃ r s' strm', bzCompress s strm action = .ok (r, s', strm') ∧
      Obeys s g strm action r s' strm') ∨
    ∃ e, bzCompress s strm action = .error e ∧ Halts e := by
  rcases bzCompress_call hr.resting.1 hr.resting.2 ho action with
    ⟨r, s', strm', he, _, _, h⟩ | h
  · exact .inl ⟨r, s', strm', he, h⟩
  · exact .inr h

end

/-- A build without the vector instructions, and no memory for `libsais`. -/
@[reducible] def plainEnv : CompressEnv :=
  { pclmul := false, bufAddr := 0, sse2 := false, sais := ⟨false, false, fun _ => (0, .ofFn fun _ => 0)⟩ }

/-- One byte of input, and room for one byte of output. -/
def oneByteStream : BzStream :=
  { mem := fun _ => 0x61, nextIn := 0, availIn := 1, totalInLo32 := 0, totalInHi32 := 0,
    nextOut := 0, out := [], availOut := 1, totalOutLo32 := 0, totalOutHi32 := 0 }

/-- One byte taken by `BZ_RUN`, and held back; then the first ten bytes of its stream. -/
theorem bzCompress_protocol_oneByte : ∃ s strm s' strm',
    @bzCompress plainEnv (EState.init 9) oneByteStream bzRun = .ok (.runOk, s, strm) ∧
    s.input.stateInLen = 1 ∧
    @bzCompress plainEnv s { strm with availOut := 10 } bzFinish = .ok (.finishOk, s', strm') ∧
    Obeys s ⟨1, 1, 0⟩ { strm with availOut := 10 } bzFinish .finishOk s' strm' := by
  let _ : CompressEnv := plainEnv
  have heval : (bzCompress (EState.init 9) oneByteStream bzRun >>= fun x =>
      (bzCompress x.2.1 { x.2.2 with availOut := 10 } bzFinish).map fun y =>
        (x.1, x.2.1.input.stateInLen, x.2.2.availIn, y.1)) = .ok (.runOk, 1, 0, .finishOk) := by
    decide +kernel
  obtain ⟨⟨r, s, strm⟩, hrun, hmap⟩ := bind_ok heval
  obtain ⟨⟨r', s', strm'⟩, hfin, he⟩ := map_eq_ok hmap
  obtain ⟨rfl, hlen, hin, rfl⟩ : r = .runOk ∧ s.input.stateInLen = 1 ∧ strm.availIn = 0 ∧
      r' = .finishOk := by simpa using he
  have hreach : Reach s ⟨1, 1, 0⟩ := by
    have h := (Reach.init (by decide) (by decide)).call (by decide) hrun
    unfold Ledger.next at h
    rw [if_neg (by decide), if_pos (by rfl), hin] at h
    exact h
  rcases bzCompress_protocol hreach { strm with availOut := 10 } (Nat.succ_pos 9) bzFinish with
    ⟨r, s₂, strm₂, hc, hobeys⟩ | ⟨e, hc, -⟩
  · rw [hfin] at hc
    cases hc
    exact ⟨s, strm, s', strm', hrun, hlen, hfin, hobeys⟩
  · rw [hfin] at hc
    cases hc

end Qbz2
