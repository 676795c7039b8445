/-
  File:      Qbz2/Compress/OneShot.lean
  Subject:   `BZ2_bzBuffToBuffCompress` (`src/bzlib.c`): one `BZ_FINISH` call, and its code.

  * `bzBuffToBuffCompress` -- the function;
  * `CompressRun.given_le` -- a run delivers no more than a bound in the input it has taken;
    `finish_ends` -- so with enough room a `BZ_FINISH` call ends the stream;
  * `finish_sequence` -- `BZ_SEQUENCE_ERROR` is the answer where neither input nor output moved;
  * **`bzBuffToBuffCompress_outcome`** -- the code says whether the stream fits, except for an
    empty source and no room at all.
-/
import Qbz2.Compress.Granularity
import Qbz2.Compress.Room

namespace Qbz2

open Bits

section

variable [CompressEnv]

/-! ## 1. The function -/

/-- `BZ2_bzBuffToBuffCompress`: the code, what is stored through `dest`, and `*destLen`. The
    pointers are not null. -/
def bzBuffToBuffCompress (dest : Int) (destLen : Nat) (mem : Int → Byte) (source : Int)
    (sourceLen : Nat) (blockSize100k verbosity workFactor : Int) :
    HuffRun (Ret × List Byte × Nat) :=
  if blockSize100k < 1 ∨ blockSize100k > 9 ∨ verbosity < 0 ∨ verbosity > 4 ∨ workFactor < 0 ∨
      workFactor > 250 then .ok (.paramError, [], destLen)
  else do
    let (ret, _, strm) ← bzCompress (EState.init blockSize100k.toNat)
      (.oneShot mem source sourceLen dest destLen) bzFinish
    if ret = .finishOk then .ok (.outbuffFull, strm.out, destLen)
    else if ret ≠ .streamEnd then .ok (ret, strm.out, destLen)
    else .ok (.ok, strm.out, destLen - strm.availOut)

/-! ## 2. How much comes out -/

/-- More bits than any block takes. -/
def bitsPerBlock : Nat := 51509 + 6 * ((899990 + 50) / 50) + 17 * (899990 + 1)

omit [CompressEnv] in
/-- A block that stands for nothing is empty. -/
theorem Stands.nblock_zero {b : InBlock} (h : Stands b []) : b.nblock = 0 := by
  have hexp := h.expands
  unfold InBlock.bytes at hexp
  cases hn : b.nblock with
  | zero => rfl
  | succ n =>
    rw [hn] at hexp
    cases hexp

omit [CompressEnv] in
/-- The bits of a stream, bounded by what its blocks stand for. -/
theorem StreamOf.bitCount_le {blockSize100k : Nat} {blocks : List InBlock}
    {writes : List (Nat × Word32)} (h : StreamOf blockSize100k blocks writes) :
    ∀ parts : List (InBlock × List Byte), parts.map Prod.fst = blocks →
      (∀ x ∈ parts, Stands x.1 x.2) →
      bitCount writes ≤ (if blocks = [] then 0 else 32) +
        bitsPerBlock * (parts.map Prod.snd).flatten.length := by
  induction h with
  | empty => exact fun _ _ _ => Nat.zero_le _
  | @block blocks writes body b h hs hb ih =>
    intro parts hparts hst
    obtain ⟨front, last, rfl, hfront, hlast⟩ := List.map_eq_append_iff.mp hparts
    obtain ⟨⟨b', piece⟩, rfl, rfl⟩ := List.map_eq_singleton_iff.mp hlast
    have hbits := ih front hfront fun x hx => hst x (List.mem_append_left _ hx)
    have hstands := hst (b', piece) (List.mem_append_right _ (List.mem_singleton.mpr rfl))
    -- a block with no bits stands for nothing
    have hbody : bitCount body ≤ bitsPerBlock * piece.length := by
      rcases hb with ⟨-, rfl⟩ | ⟨hpos, hk⟩
      · exact Nat.zero_le _
      · have hle := BlockBody.bitCount_le (.inr ⟨hpos, hk⟩) hs
        have hsize := hs.size
        have hne : piece ≠ [] := by
          rintro rfl
          have := hstands.nblock_zero
          omega
        have hone := List.length_pos_iff.mpr hne
        have hmul : bitsPerBlock * 1 ≤ bitsPerBlock * piece.length := Nat.mul_le_mul_left _ hone
        unfold bitsPerBlock at hmul ⊢
        dsimp only at hle hsize
        omega
    have hhead : (if blocks = [] then 0 else 32) +
        bitCount (if blocks = [] then headerWrites blockSize100k else []) = 32 := by
      split <;> rfl
    rw [if_neg (List.append_ne_nil_of_right_ne_nil _ (List.cons_ne_nil _ _)), bitCount_append,
      bitCount_append, List.map_append, List.flatten_append, List.length_append, Nat.mul_add]
    simp only [List.map_cons, List.map_nil, List.flatten_cons, List.flatten_nil, List.append_nil]
    omega

variable {blockSize100k : Nat}

/-- **What a run delivers is bounded by what it takes.** -/
theorem CompressRun.given_le (hsais : SaisSucceeds) (h1 : 1 ≤ blockSize100k)
    (h9 : blockSize100k ≤ 9) {calls : List Call} {s : EState}
    (h : CompressRun blockSize100k calls s) :
    (calls.flatMap Call.given).length ≤
      16 + bitsPerBlock * (calls.flatMap Call.taken).length := by
  obtain ⟨parts, rest, writes, hd, he⟩ := h.emitted hsais h1 h9
  obtain ⟨hst, hcat, -⟩ := hd.stands
  have hbits := he.stream.bitCount_le parts rfl hst
  have htaken := congrArg List.length hcat
  rw [List.length_append] at htaken
  have hmul : bitsPerBlock * (parts.map Prod.snd).flatten.length ≤
      bitsPerBlock * (calls.flatMap Call.taken).length := Nat.mul_le_mul_left _ (by omega)
  have hhead : (if parts.map Prod.fst = [] then 0 else 32) ≤ 32 := by split <;> decide
  obtain ⟨sent, hgiven, hmore, hend⟩ := he.out
  have hlen : (calls.flatMap Call.given).length ≤ (sent ++ s.out.zbits).length := by
    rw [hgiven, List.length_append, List.length_append, List.length_take]
    omega
  rw [List.length_append] at hlen
  by_cases hl : s.Last
  · obtain ⟨k, hk, hall⟩ := hend hl
    have := congrArg List.length hall
    rw [length_bytesBits, List.length_append, List.length_append, length_writesBits,
      bitCount_append, List.length_replicate] at this
    have htrailer : bitCount (trailerWrites s.combinedCRC) = 80 := rfl
    omega
  · obtain ⟨u, -, hall, -⟩ := hmore hl
    have := congrArg List.length hall
    rw [List.length_append, length_bytesBits, List.length_append, length_writesBits] at this
    omega

/-- What is stored takes room. -/
theorem Moves.room {s s' : EState} {strm strm' : BzStream} (h : Moves s strm s' strm') :
    strm'.out.length + strm'.availOut = strm.out.length + strm.availOut := by
  induction h with
  | refl => rfl
  | step h _ ih =>
    rw [ih]
    cases h with
    | take hs h =>
      obtain ⟨_, _, _, rfl, _⟩ := copyInputStep_some h
      rfl
    | flush => rfl
    | close => rfl
    | begin => rfl
    | give hs hn h =>
      obtain ⟨-, hroom, ho, hout, -⟩ := h
      unfold EState.numZ BitWriter.numZ at hroom
      rw [hout, List.length_append, List.length_take, List.length_drop]
      omega

/-! ## 3. The end of the stream -/

/-- A `BZ_FINISH` call that was accepted ends the stream, or has used up its room. -/
theorem finish_cases (hsais : SaisSucceeds) (h1 : 1 ≤ blockSize100k) (h9 : blockSize100k ≤ 9)
    {calls : List Call} {s : EState} (h : CompressRun blockSize100k calls s) {strm : BzStream}
    (ha : Accepts s strm bzFinish) :
    ∃ r s' strm' given, bzCompress s strm bzFinish = .ok (r, s', strm') ∧
      strm'.out = strm.out ++ given ∧ given.length + strm'.availOut = strm.availOut ∧
      strm'.mem = strm.mem ∧ strm'.nextIn + strm'.availIn = strm.nextIn + strm.availIn ∧
      strm'.availIn ≤ strm.availIn ∧
      (r = .streamEnd ∧ s'.mode = .idle ∧ strm'.availIn = 0 ∧
          (s.state = .output → strm'.availOut < strm.availOut) ∨
        (r = .finishOk ∨ r = .sequenceError) ∧ s'.mode = .finishing ∧ s'.state = .output ∧
          s'.availInExpect = strm'.availIn ∧ strm'.availOut = 0) := by
  obtain ⟨r, s', strm', hc⟩ := accepted_returns hsais h1 h9 h ha
  have hr := h.resting h1
  rcases bzCompress_cases hr hc with ⟨hno, -⟩ | ⟨-, p, s₁, hx, hl⟩
  · exact absurd ha hno
  · obtain ⟨given, hgiven, -⟩ := hx.moves.replays hx.start
    have hroom := hx.moves.room
    rw [hgiven, List.length_append] at hroom
    obtain ⟨hmode, -, -, hmem, hle, hout, hnext⟩ := hx.moves.frame hx.start
    have hfin : s₁.mode = .finishing := by
      have := enter_mode ha
      rw [← hx.mode] at this
      rcases this with ⟨_, h⟩ | ⟨_, h⟩ | ⟨h, _⟩
      · cases h
      · cases h
      · exact h
    refine ⟨r, s', strm', given, hc, hgiven, by omega, hmem, hnext, hle, ?_⟩
    cases hl with
    | ran hm => rw [hfin] at hm; cases hm
    | flushed hm => rw [hfin] at hm; cases hm
    | more hs hp ho hret =>
      refine .inr ⟨?_, hfin, hs, hx.loopOk.expect (by rw [hfin]; decide), ho⟩
      rcases hret with ⟨_, h⟩ | ⟨h, _⟩ | ⟨h, _⟩
      · rw [hfin] at h
        cases h
      · exact .inl h
      · exact .inr h
    | ended hm hcl hp hq =>
      have h0 := ((drained_iff s₁).mp hcl.2.2).1
      refine .inl ⟨rfl, rfl, ?_, fun hs => ?_⟩
      · rw [← hx.loopOk.expect hcl.2.1]
        exact h0
      · -- what was on its way is out
        refine Nat.lt_of_le_of_ne hout fun he => ?_
        have hlive := hx.moves.live hx.start (hmode ▸ hfin) he fun ho => by
          rw [enter_eq] at ho ⊢
          exact hr.output ha.not_idle ho
        have := hlive hcl.1
        omega

omit [CompressEnv] in
/-- The last call has returned `BZ_STREAM_END`. -/
def EndsStream (calls : List Call) : Prop := calls.getLast?.map Call.ret = some .streamEnd

/-- Then the last block has been closed, and all of it delivered. -/
theorem CompressRun.last {calls : List Call} {s : EState} (h : CompressRun blockSize100k calls s)
    (h1 : 1 ≤ blockSize100k) (hend : EndsStream calls) : s.mode = .idle ∧ s.Last := by
  cases h with
  | init => cases hend
  | call h c hc =>
    have hret : c.ret = .streamEnd := by
      unfold EndsStream at hend
      rw [List.getLast?_concat] at hend
      exact Option.some.inj hend
    rw [hret] at hc
    rcases bzCompress_cases (h.resting h1) hc with ⟨_, hneg, _⟩ | ⟨_, p, s₁, hx, hl⟩
    · exact absurd hneg (by decide)
    · generalize hr : Ret.streamEnd = r at hl
      cases hl with
      | ran => cases p <;> cases hr
      | more _ _ _ hcode => rcases hcode with ⟨rfl, _⟩ | ⟨rfl, _⟩ | ⟨rfl, _⟩ <;> cases hr
      | flushed => cases hr
      | ended _ hclosed _ _ => exact ⟨rfl, ⟨hclosed.1, nofun, hclosed.2.2⟩, nofun⟩

/-- The script of the calls that end a stream with `BZ_FINISH`. -/
def finishing (x : List Byte) : Script := ⟨[⟨[], bzFinish, x⟩], [], []⟩

/-- **With enough room** a `BZ_FINISH` call ends the stream. -/
theorem finish_ends (hsais : SaisSucceeds) (h1 : 1 ≤ blockSize100k) (h9 : blockSize100k ≤ 9)
    {calls : List Call} {s : EState} (h : CompressRun blockSize100k calls s) {strm : BzStream}
    (ha : Accepts s strm bzFinish)
    (hroom : 16 + bitsPerBlock * ((calls.flatMap Call.taken).length + strm.availIn) <
      strm.availOut) :
    ∃ s' strm' given, bzCompress s strm bzFinish = .ok (.streamEnd, s', strm') ∧
      s'.mode = .idle ∧ strm'.availIn = 0 ∧ strm'.out = strm.out ++ given ∧
      (s.state = .output → 0 < given.length) := by
  obtain ⟨r, s', strm', given, hc, hout, hsum, -, -, hle, hcase⟩ := finish_cases hsais h1 h9 h ha
  rcases hcase with ⟨rfl, hm, h0, hgave⟩ | ⟨-, -, -, -, h0⟩
  · exact ⟨s', strm', given, hc, hm, h0, hout, fun hs => by have := hgave hs; omega⟩
  · -- more would have come out than the run can deliver
    have hle' := (h.call ⟨strm, bzFinish, r, strm'⟩ hc).given_le hsais h1 h9
    rw [List.flatMap_append, List.flatMap_append, List.flatMap_singleton, List.flatMap_singleton,
      List.length_append, List.length_append] at hle'
    have hgiven : (Call.given ⟨strm, bzFinish, r, strm'⟩).length = strm.availOut := by
      unfold Call.given
      dsimp only
      rw [hout, List.drop_left]
      omega
    have htaken : (Call.taken ⟨strm, bzFinish, r, strm'⟩).length ≤ strm.availIn := by
      unfold Call.taken
      rw [length_bytesAt]
      exact Nat.sub_le _ _
    have hmul := Nat.mul_le_mul_left bitsPerBlock (Nat.add_le_add_left htaken
      (calls.flatMap Call.taken).length)
    omega

/-! ## 4. Progress -/

omit [CompressEnv] in
/-- Between two points of a call, the flag says whether input or room went. -/
structure Shrinks (before after : Bool) (strm strm' : BzStream) : Prop where
  availIn : strm'.availIn ≤ strm.availIn
  availOut : strm'.availOut ≤ strm.availOut
  flag : after = true ↔
    before = true ∨ strm'.availIn < strm.availIn ∨ strm'.availOut < strm.availOut

omit [CompressEnv] in
theorem shrinks_refl (p : Bool) (strm : BzStream) : Shrinks p p strm strm :=
  ⟨Nat.le_refl _, Nat.le_refl _, ⟨.inl, fun h => h.elim id fun h => by omega⟩⟩

omit [CompressEnv] in
theorem Shrinks.trans {p q r : Bool} {s₁ s₂ s₃ : BzStream} (h : Shrinks p q s₁ s₂)
    (h' : Shrinks q r s₂ s₃) : Shrinks p r s₁ s₃ := by
  obtain ⟨h1, h2, h3⟩ := h
  obtain ⟨k1, k2, k3⟩ := h'
  refine ⟨k1.trans h1, k2.trans h2, ?_⟩
  rw [k3, h3]
  constructor
  · rintro ((h | h) | h)
    · exact .inl h
    · exact .inr (by omega)
    · exact .inr (by omega)
  · rintro (h | h)
    · exact .inl (.inl h)
    · by_cases hf : s₂.availIn < s₁.availIn ∨ s₂.availOut < s₁.availOut
      · exact .inl (.inr hf)
      · exact .inr (by omega)

omit [CompressEnv] in
/-- A flag of its own, joined to that of the loop. -/
theorem Shrinks.or {q : Bool} {s₁ s₂ : BzStream} (h : Shrinks false q s₁ s₂) (p : Bool) :
    Shrinks p (p || q) s₁ s₂ := by
  refine ⟨h.availIn, h.availOut, ?_⟩
  rw [Bool.or_eq_true, h.flag]
  simp

theorem shrinks_copyInputLoop : ∀ (fuel : Nat) (progress : Bool) (s : EState) (strm : BzStream),
    Shrinks progress (copyInputLoop fuel progress s strm).1 strm
      (copyInputLoop fuel progress s strm).2.2 := by
  intro fuel
  induction fuel with
  | zero => exact fun p _ strm => shrinks_refl p strm
  | succ fuel ih =>
    intro p s strm
    unfold copyInputLoop
    cases hstep : copyInputStep s strm with
    | none => exact shrinks_refl p strm
    | some r =>
      obtain ⟨s₁, strm₁⟩ := r
      obtain ⟨_, hpos, _, rfl, _⟩ := copyInputStep_some hstep
      have hone : Shrinks p true strm strm.skipByte :=
        ⟨Nat.sub_le _ _, Nat.le_refl _, iff_of_true rfl (.inr (.inl (Nat.sub_lt hpos Nat.one_pos)))⟩
      exact hone.trans (ih true s₁ strm.skipByte)

omit [CompressEnv] in
theorem shrinks_copyOutputUntilStop (s : EState) (strm : BzStream) :
    Shrinks false (copyOutputUntilStop s strm).1 strm (copyOutputUntilStop s strm).2.2 := by
  rcases copyOutputUntilStop_spec s strm with ⟨he, -⟩ | ⟨n, s', strm', he, hn, hf, -⟩
  · rw [he]
    exact shrinks_refl false strm
  · rw [he]
    have ho := hf.availOut
    have hi := hf.availIn
    exact ⟨Nat.le_of_eq hi, by dsimp only; omega, iff_of_true rfl (.inr (.inr (by dsimp only; omega)))⟩

omit [CompressEnv] in
theorem shrinks_outputHalf (s : EState) (strm : BzStream) :
    Shrinks false (outputHalf s strm).progress strm (outputHalf s strm).strm := by
  have h := shrinks_copyOutputUntilStop s strm
  unfold outputHalf
  split
  · dsimp only
    split
    · exact h
    · split
      · exact h
      · exact h
  · exact shrinks_refl false strm

theorem closeBlock_ok {s : EState} {isLastBlock progress : Bool} {strm : BzStream} {h : Half}
    (hc : closeBlock s isLastBlock progress strm = .ok h) :
    h.progress = progress ∧ h.strm = strm := by
  unfold closeBlock at hc
  cases hb : compressBlock s isLastBlock with
  | error e => rw [hb] at hc; cases hc
  | ok s' => rw [hb] at hc; cases hc; exact ⟨rfl, rfl⟩

theorem shrinks_inputHalf {s : EState} {strm : BzStream} {h : Half}
    (hh : inputHalf s strm = .ok h) : Shrinks false h.progress strm h.strm := by
  have hcopy := shrinks_copyInputLoop strm.availIn false s strm
  unfold inputHalf at hh
  split at hh
  · dsimp only at hh
    split at hh
    · obtain ⟨hp, hs⟩ := closeBlock_ok hh
      rw [hp, hs]
      exact hcopy
    · split at hh
      · obtain ⟨hp, hs⟩ := closeBlock_ok hh
        rw [hp, hs]
        exact hcopy
      · cases hh
        exact hcopy
  · cases hh
    exact shrinks_refl false strm

theorem shrinks_handleLoop : ∀ (fuel : Nat) (progress : Bool) (s : EState) (strm : BzStream)
    {p : Bool} {s' : EState} {strm' : BzStream},
    handleLoop fuel progress s strm = .ok (p, s', strm') → Shrinks progress p strm strm' := by
  intro fuel
  induction fuel with
  | zero => exact fun _ _ _ _ _ _ h => nomatch h
  | succ fuel ih =>
    intro progress s strm p s' strm' h
    have hout := (shrinks_outputHalf s strm).or progress
    unfold handleLoop at h
    dsimp only at h
    split at h
    · cases h
      exact hout
    · cases hi : inputHalf (outputHalf s strm).s (outputHalf s strm).strm with
      | error e => rw [hi] at h; cases h
      | ok i =>
        rw [hi] at h
        have hin := hout.trans ((shrinks_inputHalf hi).or _)
        replace h : (if i.left = true then _ else _) = _ := h
        split at h
        · cases h
          exact hin
        · exact hin.trans (ih _ _ _ h)

/-- **`BZ_SEQUENCE_ERROR`** is what an accepted `BZ_FINISH` call returns that moves nothing. -/
theorem finish_sequence {s s' : EState} {strm strm' : BzStream} {r : Ret}
    (ha : Accepts s strm bzFinish) (h : bzCompress s strm bzFinish = .ok (r, s', strm')) :
    r = .sequenceError ↔ strm'.availIn = strm.availIn ∧ strm'.availOut = strm.availOut := by
  rw [bzCompress_accepted ha] at h
  have hfin : (enter s strm bzFinish).mode = .finishing := by
    rcases enter_mode ha with ⟨_, h⟩ | ⟨_, h⟩ | ⟨h, _⟩
    · cases h
    · cases h
    · exact h
  rw [hfin] at h
  cases hh : handleCompress (enter s strm bzFinish) strm with
  | error e => rw [hh] at h; cases h
  | ok x =>
    obtain ⟨p, s₁, strm₁⟩ := x
    rw [hh] at h
    obtain ⟨h1, h2, hflag⟩ := shrinks_handleLoop _ _ _ _ hh
    cases h
    unfold leave
    dsimp only
    cases p with
    | false =>
      have : ¬ (strm₁.availIn < strm.availIn ∨ strm₁.availOut < strm.availOut) := fun h =>
        absurd (hflag.mpr (.inr h)) (by decide)
      exact iff_of_true rfl (by omega)
    | true =>
      have := (hflag.mp rfl).resolve_left (by decide)
      refine iff_of_false ?_ (by omega)
      rw [if_neg (by decide)]
      split
      · exact fun h => nomatch h
      · exact fun h => nomatch h

/-! ## 5. The outcome -/

/-- The stream a compressor makes of `x`: all that comes out of `BZ_FINISH` calls that take `x` and
    nothing else, whatever room they have, till the stream ends. -/
def CompressedStream (blockSize100k : Nat) (x z : List Byte) : Prop :=
  ∃ calls s, CompressRun blockSize100k calls s ∧ s.mode = .idle ∧ script calls = finishing x ∧
    calls.flatMap Call.given = z

theorem CompressedStream.unique (h1 : 1 ≤ blockSize100k) {x z z' : List Byte}
    (h : CompressedStream blockSize100k x z) (h' : CompressedStream blockSize100k x z') :
    z' = z := by
  obtain ⟨calls, s, hrun, hm, hs, rfl⟩ := h
  obtain ⟨calls', s', hrun', hm', hs', rfl⟩ := h'
  have hno : ∀ t : EState, t.mode = .idle → ¬ t.mode.Ending := by
    intro t ht
    rw [ht]
    decide
  -- both are the replay of the same script
  obtain ⟨t, ht⟩ := hrun.replayed h1 (hno s hm)
  obtain ⟨t', ht'⟩ := hrun'.replayed h1 (hno s' hm')
  rw [hs', ← hs, ht, (hrun.resting h1).onItsWay_idle hm, (hrun'.resting h1).onItsWay_idle hm',
    List.append_nil, List.append_nil] at ht'
  exact (congrArg Prod.snd (Except.ok.inj ht')).symm

omit [CompressEnv] in
/-- What the function returns says whether the stream `z` fits. -/
def Reported (z : List Byte) (destLen : Nat) (r : Ret × List Byte × Nat) : Prop :=
  if z.length ≤ destLen then r = (.ok, z, z.length) else r.1 = .outbuffFull ∧ r.2.2 = destLen

/-- A first call that takes nothing, though there is input, is impossible. -/
theorem Moves.takes {s s' : EState} {strm strm' : BzStream} (h : Moves s strm s' strm')
    (hi : LoopOk s strm) (hs : s.state = .input) (hn : s.input.nblock < s.nblockMAX)
    (hpos : 0 < strm.availIn) (hs' : s'.state = .output) : strm'.availIn < strm.availIn := by
  cases h with
  | refl => rw [hs] at hs'; cases hs'
  | step h hrest =>
    have hi₁ := h.loopOk hi
    obtain ⟨_, _, _, _, hle, _⟩ := hrest.frame hi₁
    cases h with
    | take _ h =>
      obtain ⟨_, _, _, rfl, _⟩ := copyInputStep_some h
      have : (BzStream.skipByte _).availIn = strm.availIn - 1 := rfl
      omega
    | flush _ hm he =>
      have := hi.expect hm
      omega
    | close _ hfull => omega
    | give ho => rw [hs] at ho; cases ho
    | begin ho => rw [hs] at ho; cases ho

/-- A call that comes to a block takes some of its input. -/
theorem bzCompress_takes {s s' : EState} (hr : Resting s) {strm strm' : BzStream} {action : Int}
    (ha : Accepts s strm action) {r : Ret}
    (hc : bzCompress s strm action = .ok (r, s', strm')) (hs : s.state = .input)
    (hpos : 0 < strm.availIn) (hs' : s'.state = .output) : strm'.availIn < strm.availIn := by
  rcases bzCompress_cases hr hc with ⟨hno, -⟩ | ⟨-, p, s₁, hx, hl⟩
  · exact absurd ha hno
  · obtain ⟨-, hn⟩ := hr.enter ha
    have hin : (enter s strm action).state = .input := by
      rw [enter_eq]
      exact hs
    refine hx.moves.takes hx.start hin (hn hin) hpos ?_
    cases hl with
    | ran => exact hs'
    | more => exact hs'
    | flushed => cases hs'
    | ended => exact hs'

omit [CompressEnv] in
theorem Script.add_ended {c : Call} (ha : c.action = bzFinish) (hr : c.ret = .streamEnd)
    (σ : Script) : σ.add c = ⟨σ.sections ++ [⟨σ.run, bzFinish, σ.tail ++ c.taken⟩], [], []⟩ := by
  unfold Script.add
  rw [ha, if_neg (by decide), if_pos (.inr hr)]

omit [CompressEnv] in
theorem Script.add_more {c : Call} (ha : c.action = bzFinish)
    (hr : c.ret = .finishOk ∨ c.ret = .sequenceError) (σ : Script) :
    σ.add c = { σ with tail := σ.tail ++ c.taken } := by
  unfold Script.add
  rw [ha, if_neg (by decide), if_neg fun h => ?_]
  rcases hr with hr | hr <;> rw [hr] at h <;> rcases h with h | h <;> cases h

omit [CompressEnv] in
theorem accepts_init (blockSize100k : Nat) (strm : BzStream) :
    Accepts (EState.init blockSize100k) strm bzFinish :=
  ⟨.inr (.inr rfl), fun h => by rcases h with h | h <;> cases h⟩

/-- **One `BZ_FINISH` call** to a new compressor: it delivers the stream, or there is more of it
    than room. -/
theorem finish_stream (hsais : SaisSucceeds) (h1 : 1 ≤ blockSize100k) (h9 : blockSize100k ≤ 9)
    {strm : BzStream} (hout₀ : strm.out = []) :
    ∃ r s' strm' z, bzCompress (EState.init blockSize100k) strm bzFinish = .ok (r, s', strm') ∧
      CompressedStream blockSize100k strm.input z ∧
      (r = .streamEnd ∧ strm'.out = z ∧ z.length + strm'.availOut = strm.availOut ∨
        (r = .finishOk ∨ r = .sequenceError) ∧ strm.availOut < z.length) := by
  have hinit : CompressRun blockSize100k [] (EState.init blockSize100k) := .init
  obtain ⟨r, s', strm', given, hc, hout, hsum, hmem, hnext, hle, hcase⟩ :=
    finish_cases hsais h1 h9 hinit (accepts_init blockSize100k strm)
  rw [hout₀, List.nil_append] at hout
  have hrun : CompressRun blockSize100k [⟨strm, bzFinish, r, strm'⟩] s' := hinit.call _ hc
  have hgiven : Call.given ⟨strm, bzFinish, r, strm'⟩ = given := by
    unfold Call.given
    dsimp only
    rw [hout₀, hout]
    rfl
  have htaken : Call.taken ⟨strm, bzFinish, r, strm'⟩ =
      bytesAt strm.mem strm.nextIn (strm.availIn - strm'.availIn) := rfl
  rcases hcase with ⟨rfl, hm, h0, -⟩ | ⟨hret, hm, hs', hexp, h0⟩
  · refine ⟨.streamEnd, s', strm', given, hc, ⟨_, s', hrun, hm, ?_, ?_⟩, .inl ⟨rfl, hout, hsum⟩⟩
    · show Script.add ⟨[], [], []⟩ ⟨strm, bzFinish, .streamEnd, strm'⟩ = _
      rw [Script.add_ended rfl rfl, htaken, h0]
      rfl
    · rw [List.flatMap_singleton, hgiven]
  · -- another call, with enough room, ends the stream
    obtain ⟨more, hmore⟩ : ∃ more : BzStream, more = { strm' with
      availOut := 17 + bitsPerBlock *
        (([⟨strm, bzFinish, r, strm'⟩] : List Call).flatMap Call.taken |>.length |>.add
          strm'.availIn) } := ⟨_, rfl⟩
    have hmoreOk : Accepts s' more bzFinish :=
      ⟨by rw [hm]; exact rfl, fun _ => by rw [hmore]; exact hexp⟩
    obtain ⟨s₂, strm₂, rest, hc₂, hm₂, h0₂, hout₂, hgave⟩ := finish_ends hsais h1 h9 hrun hmoreOk
      (by rw [hmore]; exact Nat.add_lt_add_right (by decide) _)
    have hrun₂ : CompressRun blockSize100k
        [⟨strm, bzFinish, r, strm'⟩, ⟨more, bzFinish, .streamEnd, strm₂⟩] s₂ := hrun.call _ hc₂
    have hgiven₂ : Call.given ⟨more, bzFinish, .streamEnd, strm₂⟩ = rest := by
      unfold Call.given
      dsimp only
      rw [hout₂, List.drop_left]
    have htaken₂ : Call.taken ⟨more, bzFinish, .streamEnd, strm₂⟩ =
        bytesAt strm.mem (strm.nextIn + (strm.availIn - strm'.availIn : Nat)) strm'.availIn := by
      unfold Call.taken
      dsimp only
      rw [h0₂, hmore]
      dsimp only
      rw [hmem, Nat.sub_zero,
        show strm'.nextIn = strm.nextIn + (strm.availIn - strm'.availIn : Nat) by omega]
    refine ⟨r, s', strm', given ++ rest, hc, ⟨_, s₂, hrun₂, hm₂, ?_, ?_⟩, .inr ⟨hret, ?_⟩⟩
    · show Script.add (Script.add ⟨[], [], []⟩ ⟨strm, bzFinish, r, strm'⟩)
        ⟨more, bzFinish, .streamEnd, strm₂⟩ = _
      rw [Script.add_ended rfl rfl, Script.add_more rfl hret, htaken₂, htaken]
      dsimp only
      rw [List.nil_append, List.nil_append, ← bytesAt_add, Nat.sub_add_cancel hle]
      rfl
    · rw [List.flatMap_cons, List.flatMap_singleton, hgiven, hgiven₂]
    · have := hgave hs'
      rw [List.length_append]
      omega

/-- Nothing moves only where there is neither source nor room. -/
theorem finish_stuck (h1 : 1 ≤ blockSize100k) {s' : EState} {strm strm' : BzStream} {r : Ret}
    (hc : bzCompress (EState.init blockSize100k) strm bzFinish = .ok (r, s', strm')) :
    r = .sequenceError ↔ strm.availIn = 0 ∧ strm.availOut = 0 := by
  have ha := accepts_init blockSize100k strm
  have hr := resting_init h1
  have hseq := finish_sequence ha hc
  rcases bzCompress_cases hr hc with ⟨hno, -⟩ | ⟨-, p, s₁, hx, hl⟩
  · exact absurd ha hno
  · obtain ⟨-, -, -, -, hle, hout, -⟩ := hx.moves.frame hx.start
    constructor
    · intro he
      obtain ⟨hin, hav⟩ := hseq.mp he
      rw [he] at hl
      generalize hret : Ret.sequenceError = q at hl
      cases hl with
      | ran =>
        cases p <;> cases hret
      | flushed => cases hret
      | ended => cases hret
      | more hs hp ho _ =>
        -- a byte of source would have been taken
        refine ⟨Nat.eq_zero_of_not_pos fun hpos => ?_, by omega⟩
        have := bzCompress_takes hr ha hc rfl hpos hs
        omega
    · rintro ⟨hin, hav⟩
      exact hseq.mpr ⟨by omega, by omega⟩

/-- **What `BZ2_bzBuffToBuffCompress` returns**: for every source and every `*destLen`, with valid
    parameters, there is one compressed stream, and the function returns. It returns `BZ_OK` with
    the stream and its length where that fits, and `BZ_OUTBUFF_FULL` with `*destLen` unchanged
    where it does not, if and only if there is a byte of source or of room. -/
theorem bzBuffToBuffCompress_outcome (hsais : SaisSucceeds) {blockSize100k verbosity
    workFactor : Int} (h1 : 1 ≤ blockSize100k) (h9 : blockSize100k ≤ 9) (hv : 0 ≤ verbosity)
    (hv4 : verbosity ≤ 4) (hw : 0 ≤ workFactor) (hw250 : workFactor ≤ 250) (dest : Int)
    (destLen : Nat) (mem : Int → Byte) (source : Int) (sourceLen : Nat) :
    ∃ z, CompressedStream blockSize100k.toNat (bytesAt mem source sourceLen) z ∧
      (∀ z', CompressedStream blockSize100k.toNat (bytesAt mem source sourceLen) z' → z' = z) ∧
      ∃ r, bzBuffToBuffCompress dest destLen mem source sourceLen blockSize100k verbosity
          workFactor = .ok r ∧ (Reported z destLen r ↔ 0 < sourceLen ∨ 0 < destLen) := by
  have hs1 : 1 ≤ blockSize100k.toNat := by omega
  have hs9 : blockSize100k.toNat ≤ 9 := by omega
  have hout₀ : (BzStream.oneShot mem source sourceLen dest destLen).out = [] := rfl
  obtain ⟨r, s', strm', z, hc, hz, hcase⟩ := finish_stream hsais hs1 hs9 hout₀
  have hstuck : r = .sequenceError ↔ sourceLen = 0 ∧ destLen = 0 := finish_stuck hs1 hc
  refine ⟨z, hz, fun z' h => hz.unique hs1 h, ?_⟩
  unfold bzBuffToBuffCompress
  rw [if_neg (by omega), hc]
  unfold Reported
  rcases hcase with ⟨rfl, hout, hsum⟩ | ⟨hret, hlong⟩
  · have hno : ¬ (sourceLen = 0 ∧ destLen = 0) := fun h => nomatch hstuck.mpr h
    have hsum' : z.length + strm'.availOut = destLen := hsum
    refine ⟨(.ok, strm'.out, destLen - strm'.availOut), rfl, iff_of_true ?_ (by omega)⟩
    rw [if_pos (by omega), hout, show destLen - strm'.availOut = z.length by omega]
  · have hlong' : ¬ z.length ≤ destLen := Nat.not_le.mpr hlong
    rcases hret with rfl | rfl
    · have hno : ¬ (sourceLen = 0 ∧ destLen = 0) := fun h => nomatch hstuck.mpr h
      refine ⟨(.outbuffFull, strm'.out, destLen), rfl, iff_of_true ?_ (by omega)⟩
      rw [if_neg hlong']
      exact ⟨rfl, rfl⟩
    · have hboth := hstuck.mp rfl
      refine ⟨(.sequenceError, strm'.out, destLen), rfl, iff_of_false ?_ (by omega)⟩
      rw [if_neg hlong']
      exact fun h => nomatch h.1

end

/-- No source and no room: neither code of the two, but `BZ_SEQUENCE_ERROR`. -/
theorem bzBuffToBuffCompress_nothing : ∃ out : List Byte,
    @bzBuffToBuffCompress sortingEnv 0 0 (fun _ => 0x61) 0 0 9 0 30 =
        .ok (.sequenceError, out, 0) ∧
      ∀ z, ¬ Reported z 0 (.sequenceError, out, 0) := by
  obtain ⟨r, s', strm', z, hc, -⟩ := @finish_stream sortingEnv 9 sortingEnv_succeeds (by decide)
    (by decide) (.oneShot (fun _ => 0x61) 0 0 0 0) rfl
  have hr : r = .sequenceError := (@finish_stuck sortingEnv 9 (by decide) _ _ _ _ hc).mpr ⟨rfl, rfl⟩
  refine ⟨strm'.out, ?_, fun z h => ?_⟩
  · unfold bzBuffToBuffCompress
    rw [if_neg (by decide)]
    show @bzCompress sortingEnv (EState.init 9) _ _ >>= _ = _
    rw [hc, hr]
    rfl
  · unfold Reported at h
    split at h
    · cases h
    · exact nomatch h.1

theorem bzBuffToBuffCompress_outcome_oneByte :
    ∃ z, @CompressedStream sortingEnv 9 [0x61] z ∧
      (∀ z', @CompressedStream sortingEnv 9 [0x61] z' → z' = z) ∧
      ∃ r, @bzBuffToBuffCompress sortingEnv 0 100 (fun _ => 0x61) 0 1 9 0 30 = .ok r ∧
        (Reported z 100 r ↔ 0 < 1 ∨ 0 < 100) :=
  @bzBuffToBuffCompress_outcome sortingEnv sortingEnv_succeeds 9 0 30 (by decide) (by decide)
    (by decide) (by decide) (by decide) (by decide) 0 100 (fun _ => 0x61) 0 1

/-- The stream of the one byte `a`. -/
def oneByteFile : List Byte :=
  [0x42, 0x5a, 0x68, 0x39, 0x31, 0x41, 0x59, 0x26, 0x53, 0x59, 0x19, 0x93, 0x9b, 0x6b, 0x00, 0x00,
   0x00, 0x01, 0x00, 0x20, 0x00, 0x20, 0x00, 0x21, 0x18, 0x46, 0x82, 0xee, 0x48, 0xa7, 0x0a, 0x12,
   0x03, 0x32, 0x73, 0x6d, 0x60]

theorem oneByte_compressed : ∃ s strm',
    @bzCompress sortingEnv (EState.init 9) oneByteRoom bzFinish = .ok (.streamEnd, s, strm') ∧
    strm'.out = oneByteFile ∧ strm'.availIn = 0 ∧ strm'.availOut = 63 := by
  have heval : (@bzCompress sortingEnv (EState.init 9) oneByteRoom bzFinish).map (fun x =>
      (x.1, x.2.2.out, x.2.2.availIn, x.2.2.availOut)) = .ok (.streamEnd, oneByteFile, 0, 63) := by
    decide +kernel
  obtain ⟨⟨r, s, strm'⟩, hc, he⟩ := map_eq_ok heval
  obtain ⟨rfl, hout, hin, hroom⟩ : r = .streamEnd ∧ strm'.out = oneByteFile ∧ strm'.availIn = 0 ∧
      strm'.availOut = 63 := by simpa using he
  exact ⟨s, strm', hc, hout, hin, hroom⟩

end Qbz2
