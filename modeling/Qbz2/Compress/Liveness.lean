/-
  File:      Qbz2/Compress/Liveness.lean
  Subject:   What a caller may rely on who flushes, or ends the stream, however it cuts its calls.

  * `bzCompress_gives`, `Call.taken_append` -- what a call gives out and takes in;
  * `bzCompress_answers` -- a flush or an end that is called with room is over, or it has used up
    the room and waits for the same call;
  * `CompressRun.unfinished_le` -- so the unfinished calls of a run are bounded by what it delivers;
  * **`bzCompress_live`** -- a flush or an end is over after a number of calls that is bounded in
    what has been taken;
  * **`bzCompress_granularity`** -- the script of a run fixes its output.
-/
import Qbz2.Compress.OneShot

namespace Qbz2

/-- The code of a flush or an end that is over. -/
def doneRet (action : Int) : Ret := if action = bzFlush then .runOk else .streamEnd

/-- The code of one that is not. -/
def moreRet (action : Int) : Ret := if action = bzFlush then .flushOk else .finishOk

section

variable [CompressEnv] {blockSize100k : Nat}

/-- **What a call gives out** takes as much room. -/
theorem bzCompress_gives {s s' : EState} (hr : Resting s) {strm strm' : BzStream} {action : Int}
    {r : Ret} (hc : bzCompress s strm action = .ok (r, s', strm')) :
    ∃ given, strm'.out = strm.out ++ given ∧ given.length + strm'.availOut = strm.availOut := by
  rcases bzCompress_cases hr hc with ⟨_, _, _, rfl⟩ | ⟨_, p, s₁, hx, hl⟩
  · exact ⟨[], (List.append_nil _).symm, Nat.zero_add _⟩
  · obtain ⟨given, hgiven, -⟩ := hx.moves.replays hx.start
    have hroom := hx.moves.room
    rw [hgiven, List.length_append] at hroom
    exact ⟨given, hgiven, by omega⟩

/-- **What a call takes** is the front of what it is offered. -/
theorem Call.taken_append {s s' : EState} (hr : Resting s) {c : Call}
    (hc : bzCompress s c.strm c.action = .ok (c.ret, s', c.strm')) :
    c.taken ++ c.strm'.input = c.strm.input := by
  unfold Call.taken BzStream.input
  rcases bzCompress_cases hr hc with ⟨_, _, _, he⟩ | ⟨_, p, s₁, hx, _⟩
  · rw [he, Nat.sub_self]
    rfl
  · obtain ⟨-, -, -, hmem, hle, -, hnext⟩ := hx.moves.frame hx.start
    have ha : c.strm'.nextIn = c.strm.nextIn + ((c.strm.availIn - c.strm'.availIn : Nat) : Int) := by
      omega
    rw [hmem, ha, ← bytesAt_add, Nat.sub_add_cancel hle]

/-- **How a flush or an end is answered** that is called with room: it is over and has taken all its
    input, or it has used up the room and is still under way. -/
theorem bzCompress_answers {s s' : EState} (hr : Resting s) {strm strm' : BzStream} {action : Int}
    (hact : action = bzFlush ∨ action = bzFinish) (ha : Accepts s strm action)
    (hroom : 1 ≤ strm.availOut) {r : Ret} (hc : bzCompress s strm action = .ok (r, s', strm')) :
    r = doneRet action ∧ strm'.availIn = 0 ∨
    r = moreRet action ∧ strm'.availOut = 0 ∧
      ∀ next : BzStream, next.availIn = strm'.availIn → Accepts s' next action := by
  rcases bzCompress_cases hr hc with ⟨hno, -⟩ | ⟨-, p, s₁, hx, hl⟩
  · exact absurd ha hno
  have hending : action = bzFlush ∧ s₁.mode = .flushing ∨
      action = bzFinish ∧ s₁.mode = .finishing := by
    rcases enter_mode ha with ⟨_, h⟩ | ⟨hm, h⟩ | ⟨hm, h⟩
    · rw [h] at hact
      rcases hact with h | h <;> cases h
    · exact .inl ⟨h, hx.mode.trans hm⟩
    · exact .inr ⟨h, hx.mode.trans hm⟩
  have hexpect : s₁.availInExpect = strm'.availIn :=
    hx.loopOk.expect (by rcases hending with ⟨_, h⟩ | ⟨_, h⟩ <;> rw [h] <;> decide)
  -- one that is over has drained its input, one that is not expects the rest of it
  have hover : s₁.Closed → strm'.availIn = 0 := fun hcl =>
    hexpect ▸ ((drained_iff s₁).mp hcl.2.2).1
  cases hl with
  | ran hm =>
    rcases hending with ⟨_, h⟩ | ⟨_, h⟩ <;> exact nomatch hm.symm.trans h
  | more hs hp ho hret =>
    rcases hending with ⟨rfl, hm⟩ | ⟨rfl, hm⟩
    · refine .inr ⟨?_, ho, fun next hn => ⟨by rw [hm]; exact rfl, fun _ => hexpect.trans hn.symm⟩⟩
      rcases hret with ⟨h, _⟩ | ⟨_, h⟩ | ⟨_, h, _⟩
      · exact h
      · exact nomatch h.symm.trans hm
      · exact nomatch h.symm.trans hm
    · refine .inr ⟨?_, ho, fun next hn => ⟨by rw [hm]; exact rfl, fun _ => hexpect.trans hn.symm⟩⟩
      rcases hret with ⟨_, h⟩ | ⟨h, _⟩ | ⟨_, _, h⟩
      · exact nomatch h.symm.trans hm
      · exact h
      · -- the room that is used up is progress
        have := hx.quiet h
        omega
  | flushed hm hcl _ =>
    rcases hending with ⟨rfl, _⟩ | ⟨_, h⟩
    · exact .inl ⟨rfl, hover hcl⟩
    · exact nomatch hm.symm.trans h
  | ended hm hcl _ _ =>
    rcases hending with ⟨_, h⟩ | ⟨rfl, _⟩
    · exact nomatch hm.symm.trans h
    · exact .inl ⟨rfl, hover hcl⟩

/-- **How a run is answered** that is called with input and room: it goes on, and has used up one of
    the two. -/
theorem bzCompress_runs {s s' : EState} (hr : Resting s) {strm strm' : BzStream}
    (hm : s.mode = .running) (hin : 1 ≤ strm.availIn) (hroom : 1 ≤ strm.availOut) {r : Ret}
    (hc : bzCompress s strm bzRun = .ok (r, s', strm')) :
    r = .runOk ∧ s'.mode = .running ∧ (strm'.availIn = 0 ∨ strm'.availOut = 0) := by
  have ha : Accepts s strm bzRun := ⟨by rw [hm]; exact .inl rfl, fun h => by
    rw [hm] at h
    exact absurd h (by decide)⟩
  have hrun : (enter s strm bzRun).mode = .running := by
    rcases enter_mode ha with ⟨h, _⟩ | ⟨_, h⟩ | ⟨_, h⟩
    · exact h
    · cases h
    · cases h
  have hleft : s'.mode = .running ∧ (strm'.availIn = 0 ∨ strm'.availOut = 0) := by
    rcases bzCompress_cases hr hc with ⟨hno, -⟩ | ⟨-, p, s₁, hx, hl⟩
    · exact absurd ha hno
    · have hm₁ := hx.mode.trans hrun
      cases hl with
      | ran _ h => exact ⟨hm₁, h.imp (fun h => h.1) fun h => h.1⟩
      | more _ _ _ hret =>
        rcases hret with ⟨_, h⟩ | ⟨_, h⟩ | ⟨_, h, _⟩ <;> exact nomatch hm₁.symm.trans h
      | flushed h => exact nomatch hm₁.symm.trans h
      | ended h => exact nomatch hm₁.symm.trans h
  refine ⟨?_, hleft⟩
  -- the flag says that something has moved
  rw [bzCompress_accepted ha, hrun] at hc
  cases hh : handleCompress (enter s strm bzRun) strm with
  | error e => rw [hh] at hc; cases hc
  | ok x =>
    obtain ⟨p, s₁, strm₁⟩ := x
    rw [hh] at hc
    have hflag := (shrinks_handleLoop _ _ _ _ hh).flag
    cases hc
    have hgone : strm₁.availIn = 0 ∨ strm₁.availOut = 0 := hleft.2
    have hp : p = true := hflag.mpr (.inr (by omega))
    rw [hp]
    rfl

/-- A call that had room, and a flush or an end that is not over. -/
def Call.unfinished (action : Int) (c : Call) : Bool :=
  decide (1 ≤ c.strm.availOut ∧ c.action = action ∧ c.ret = moreRet action)

theorem Call.unfinished_full {s s' : EState} (hr : Resting s) {action : Int}
    (hact : action = bzFlush ∨ action = bzFinish) {c : Call} (hu : c.unfinished action = true)
    (hc : bzCompress s c.strm c.action = .ok (c.ret, s', c.strm')) :
    1 ≤ c.strm.availOut ∧ c.strm'.availOut = 0 := by
  obtain ⟨hroom, rfl, hret⟩ := of_decide_eq_true hu
  refine ⟨hroom, ?_⟩
  by_cases ha : Accepts s c.strm c.action
  · rcases bzCompress_answers hr hact ha hroom hc with ⟨hdone, _⟩ | ⟨_, hfull, _⟩
    · rcases hact with h | h <;> rw [h] at hret hdone <;> exact nomatch hret.symm.trans hdone
    · exact hfull
  · -- a call that is refused has a negative code
    obtain ⟨r, hneg, hno⟩ := bzCompress_refused ha
    have hr' : c.ret = r := congrArg Prod.fst (Except.ok.inj (hc.symm.trans hno))
    rw [← hr', hret] at hneg
    rcases hact with h | h <;> rw [h] at hneg <;> exact absurd hneg (by decide)

/-- **The unfinished calls of a run** are no more than the bytes it delivers: each of them has used
    up its room. -/
theorem CompressRun.unfinished_le (h1 : 1 ≤ blockSize100k) {action : Int}
    (hact : action = bzFlush ∨ action = bzFinish) {calls : List Call} {s : EState}
    (h : CompressRun blockSize100k calls s) :
    calls.countP (Call.unfinished action) ≤ (calls.flatMap Call.given).length := by
  induction h with
  | init => exact Nat.le_refl 0
  | @call calls s s' h c hc ih =>
    obtain ⟨given, hgiven, hsum⟩ := bzCompress_gives (h.resting h1) hc
    have hlen : c.given = given := by
      unfold Call.given
      rw [hgiven, List.drop_left]
    rw [List.countP_append, List.flatMap_append, List.length_append, List.flatMap_singleton, hlen,
      List.countP_singleton]
    by_cases hc' : c.unfinished action = true
    · obtain ⟨hroom, hfull⟩ := c.unfinished_full (h.resting h1) hact hc' hc
      rw [if_pos hc']
      omega
    · rw [if_neg hc']
      omega

/-- The calls of a caller that repeats one action, and gives every call the room of `rooms`: each
    goes on where the one before has left the stream, and all but the last are unfinished. -/
def Repeats (action : Int) : BzStream → (Nat → Nat) → List Call → Prop
  | _, _, [] => True
  | strm, rooms, c :: calls =>
    c.strm = { strm with availOut := rooms 0 } ∧ c.action = action ∧
      (calls ≠ [] → c.ret = moreRet action) ∧ Repeats action c.strm' (fun i => rooms (i + 1)) calls

theorem repeats_ends (hsais : SaisSucceeds) (h1 : 1 ≤ blockSize100k) (h9 : blockSize100k ≤ 9)
    {action : Int} (hact : action = bzFlush ∨ action = bzFinish) :
    ∀ (n : Nat) {calls : List Call} {s : EState} (_ : CompressRun blockSize100k calls s)
      {strm : BzStream} (_ : Accepts s strm action) (rooms : Nat → Nat) (_ : ∀ i, 1 ≤ rooms i)
      (_ : 16 + bitsPerBlock * ((calls.flatMap Call.taken).length + strm.availIn) <
        calls.countP (Call.unfinished action) + n),
    ∃ more c s', CompressRun blockSize100k (calls ++ (more ++ [c])) s' ∧
      Repeats action strm rooms (more ++ [c]) ∧ c.ret = doneRet action ∧
      (more ++ [c]).flatMap Call.taken = strm.input ∧ more.length < n := by
  intro n
  induction n with
  | zero =>
    intro calls s h strm ha rooms hrooms hn
    -- the run would have delivered more than it can
    have hle := h.unfinished_le h1 hact
    have hgiven := h.given_le hsais h1 h9
    have hmul := Nat.mul_le_mul_left bitsPerBlock
      (Nat.le_add_right (calls.flatMap Call.taken).length strm.availIn)
    omega
  | succ n ih =>
    intro calls s h strm ha rooms hrooms hn
    have hr := h.resting h1
    have ha₀ : Accepts s { strm with availOut := rooms 0 } action := ha
    obtain ⟨r, s₁, strm₁, hc⟩ := accepted_returns hsais h1 h9 h ha₀
    obtain ⟨c, hcdef⟩ : ∃ c : Call, c = ⟨{ strm with availOut := rooms 0 }, action, r, strm₁⟩ :=
      ⟨_, rfl⟩
    have hcall : bzCompress s c.strm c.action = .ok (c.ret, s₁, c.strm') := by rw [hcdef]; exact hc
    have hrun := h.call c hcall
    have htaken := c.taken_append hr hcall
    have hinput : c.strm.input = strm.input := by rw [hcdef]; rfl
    rw [hinput] at htaken
    rcases bzCompress_answers hr hact ha₀ (hrooms 0) hc with ⟨hret, h0⟩ | ⟨hret, hfull, hnext⟩
    · refine ⟨[], c, s₁, hrun, ?_, ?_, ?_, Nat.succ_pos n⟩
      · rw [hcdef]
        exact ⟨rfl, rfl, fun h => absurd rfl h, trivial⟩
      · rw [hcdef]
        exact hret
      · have hnone : c.strm'.input = [] := by
          rw [hcdef, BzStream.input, h0]
          rfl
        rw [hnone, List.append_nil] at htaken
        simpa using htaken
    · have hu : c.unfinished action = true := by
        rw [hcdef]
        exact decide_eq_true ⟨hrooms 0, rfl, hret⟩
      have ha₁ : Accepts s₁ c.strm' action := hnext _ (by rw [hcdef])
      have hlen := congrArg List.length htaken
      rw [List.length_append, BzStream.input, BzStream.input, length_bytesAt, length_bytesAt] at hlen
      obtain ⟨more, c', s', hrun', hrep, hdone, hall, hlt⟩ :=
        ih hrun ha₁ (fun i => rooms (i + 1)) (fun i => hrooms (i + 1)) (by
          rw [List.flatMap_append, List.length_append, List.flatMap_singleton, List.countP_append,
            List.countP_singleton, if_pos hu, Nat.add_assoc, hlen]
          omega)
      refine ⟨c :: more, c', s', ?_, ?_, hdone, ?_, Nat.succ_lt_succ hlt⟩
      · simpa using hrun'
      · refine ⟨by rw [hcdef], by rw [hcdef], fun _ => by rw [hcdef]; exact hret, hrep⟩
      · rw [List.cons_append, List.flatMap_cons, hall, htaken]

/-- **A flush and the end of the stream come to their end.** Wherever a run has got to, a caller
    that makes a call of `BZ_FLUSH` or `BZ_FINISH` which the protocol allows, and makes it again as
    long as it is told that there is more, with any room for a byte or more each time, is told that
    it is over after a number of calls that is bounded in what the run has taken and is offered;
    and then everything that it offered has been taken. -/
theorem bzCompress_live (hsais : SaisSucceeds) (h1 : 1 ≤ blockSize100k) (h9 : blockSize100k ≤ 9)
    {action : Int} (hact : action = bzFlush ∨ action = bzFinish) {calls : List Call} {s : EState}
    (h : CompressRun blockSize100k calls s) {strm : BzStream} (ha : Accepts s strm action)
    (rooms : Nat → Nat) (hrooms : ∀ i, 1 ≤ rooms i) :
    ∃ more c s', CompressRun blockSize100k (calls ++ (more ++ [c])) s' ∧
      Repeats action strm rooms (more ++ [c]) ∧ c.ret = doneRet action ∧
      (more ++ [c]).flatMap Call.taken = strm.input ∧
      more.length ≤ 16 + bitsPerBlock * ((calls.flatMap Call.taken).length + strm.availIn) := by
  obtain ⟨more, c, s', hrun, hrep, hdone, hall, hlt⟩ := repeats_ends hsais h1 h9 hact
    (17 + bitsPerBlock * ((calls.flatMap Call.taken).length + strm.availIn)) h ha rooms hrooms
    (by omega)
  exact ⟨more, c, s', hrun, hrep, hdone, hall, by omega⟩

end

/-- One byte and the end of the stream, with room for one byte each time. -/
theorem bzCompress_live_oneByte :
    ∃ more c s', @CompressRun sortingEnv 9 (more ++ [c]) s' ∧
      Repeats bzFinish oneByteStream (fun _ => 1) (more ++ [c]) ∧ c.ret = .streamEnd := by
  let _ : CompressEnv := sortingEnv
  have ha : Accepts (EState.init 9) oneByteStream bzFinish :=
    ⟨.inr (.inr rfl), fun h => absurd h (by decide)⟩
  obtain ⟨more, c, s', hrun, hrep, hdone, -⟩ := bzCompress_live sortingEnv_succeeds (by decide)
    (by decide) (.inr rfl) .init ha (fun _ => 1) fun _ => Nat.le_refl 1
  exact ⟨more, c, s', hrun, hrep, hdone⟩

section

variable [CompressEnv] {blockSize100k : Nat}

/-- **The script fixes the output**: two runs with the same block size, in which the same
    bytes are consumed under `BZ_RUN` before each flush and the end, and the same under them,
    have the same output, as far as it is not still on its way; and the same streams, once these
    have ended. -/
theorem bzCompress_granularity (h1 : 1 ≤ blockSize100k)
    {calls calls' : List Call} {s s' : EState} (h : CompressRun blockSize100k calls s)
    (h' : CompressRun blockSize100k calls' s')
    (hs : script calls = script calls') (hm : ¬ s.mode.Ending) (hm' : ¬ s'.mode.Ending) :
    calls.flatMap Call.given ++ s.onItsWay = calls'.flatMap Call.given ++ s'.onItsWay ∧
      (s.mode = .idle → s'.mode = .idle →
        calls.flatMap Call.given = calls'.flatMap Call.given) := by
  obtain ⟨t, ht⟩ := h.replayed h1 hm
  obtain ⟨t', ht'⟩ := h'.replayed h1 hm'
  -- both are the replay of the same events
  rw [hs, ht'] at ht
  have hout : calls.flatMap Call.given ++ s.onItsWay = calls'.flatMap Call.given ++ s'.onItsWay :=
    (congrArg Prod.snd (Except.ok.inj ht)).symm
  refine ⟨hout, fun hi hi' => ?_⟩
  rw [(h.resting h1).onItsWay_idle hi, (h'.resting h1).onItsWay_idle hi', List.append_nil,
    List.append_nil] at hout
  exact hout

end

/-- The script of a caller that ends the stream, in as many calls as it takes. -/
theorem repeats_script : ∀ {more : List Call} {c : Call} {strm : BzStream} {rooms : Nat → Nat}
    (t : List Byte), Repeats bzFinish strm rooms (more ++ [c]) → c.ret = .streamEnd →
    (more ++ [c]).foldl Script.add ⟨[], [], t⟩ =
      finishing (t ++ (more ++ [c]).flatMap Call.taken) := by
  intro more
  induction more with
  | nil =>
    intro c strm rooms t h hend
    rw [List.nil_append, List.foldl_cons, List.foldl_nil, Script.add_ended h.2.1 hend,
      List.flatMap_singleton]
    rfl
  | cons c₁ more ih =>
    intro c strm rooms t h hend
    obtain ⟨-, hact, hret, hrest⟩ := h
    have hmore : c₁.ret = .finishOk := hret (List.append_ne_nil_of_right_ne_nil _ (List.cons_ne_nil _ _))
    rw [List.cons_append, List.foldl_cons, Script.add_more hact (.inl hmore), ih _ hrest hend,
      List.flatMap_cons, List.append_assoc]

/-- The stream of one byte, with room for one byte each time. -/
theorem bzCompress_granularity_oneByte : ∃ (more : List Call) (c : Call) (s : EState),
    @CompressRun sortingEnv 9 (more ++ [c]) s ∧
    Repeats bzFinish oneByteStream (fun _ => 1) (more ++ [c]) ∧
    (more ++ [c]).flatMap Call.given = oneByteFile := by
  let _ : CompressEnv := sortingEnv
  obtain ⟨s₁, strm₁, hc, hout, hin, -⟩ := oneByte_compressed
  have hrun₁ : CompressRun 9 [⟨oneByteRoom, bzFinish, .streamEnd, strm₁⟩] s₁ := CompressRun.init.call _ hc
  have hgiven₁ : [(⟨oneByteRoom, bzFinish, .streamEnd, strm₁⟩ : Call)].flatMap Call.given =
      oneByteFile := by
    rw [List.flatMap_singleton, Call.given]
    dsimp only
    rw [hout]
    rfl
  obtain ⟨more, c, s, hrun, hrep, hdone, htaken, -⟩ := repeats_ends sortingEnv_succeeds (by decide)
    (by decide) (.inr rfl) (17 + bitsPerBlock * 1) .init (accepts_init 9 oneByteStream)
    (fun _ => 1) (fun _ => Nat.le_refl 1) (by
      show 16 + bitsPerBlock * (0 + 1) < 0 + (17 + bitsPerBlock * 1)
      omega)
  have hend : EndsStream (more ++ [c]) := by
    unfold EndsStream
    rw [List.getLast?_concat, Option.map_some, hdone]
    rfl
  have hidle := (hrun.last (by decide) hend).1
  have hidle₁ := (hrun₁.last (by decide) rfl).1
  have hscript : script (more ++ [c]) = script [⟨oneByteRoom, bzFinish, .streamEnd, strm₁⟩] := by
    have htaken₁ : Call.taken ⟨oneByteRoom, bzFinish, .streamEnd, strm₁⟩ = [0x61] := by
      unfold Call.taken
      dsimp only
      rw [hin]
      rfl
    have hone : script [⟨oneByteRoom, bzFinish, .streamEnd, strm₁⟩] = finishing [0x61] := by
      show Script.add ⟨[], [], []⟩ ⟨oneByteRoom, bzFinish, .streamEnd, strm₁⟩ = _
      rw [Script.add_ended rfl rfl, htaken₁]
      rfl
    have hall := repeats_script [] hrep hdone
    rw [htaken] at hall
    exact hall.trans hone.symm
  have hsame := (bzCompress_granularity (by decide) hrun hrun₁ hscript (by rw [hidle]; decide)
    (by rw [hidle₁]; decide)).2 hidle hidle₁
  exact ⟨more, c, s, hrun, hrep, hsame.trans hgiven₁⟩

end Qbz2
