/-
  File:      Qbz2/File/Session.lean
  Subject:   A whole session of writing through a `BZFILE`: what is in the file after the close.

  * `Wrote` -- a handle after `BZ2_bzWrite`s that all returned `BZ_OK`, whatever the `FILE` did;
  * `Sending` -- such a handle is a run of `BZ2_bzCompress`, and all that has come out of the run is
    in the file; `Sending.call` -- one turn of either loop keeps that;
  * `FileStream` -- the stream of a session, which only its data and its block size fix;
  * **`bzWriteClose64_lossless`** -- a session without an error code has lost nothing;
  * `CFile.Good` -- a `FILE` without errors: then `bzWriteLoop_writes` and `finishLoop_writes` go
    through, as every turn gives out a byte and a run gives out only so many;
  * **`file_roundTrip`** -- what is written to such a file and closed is read back.
-/
import Qbz2.Compress.Liveness
import Qbz2.File.Streams
import Qbz2.Totals

namespace Qbz2

/-! ## 1. A handle that writes -/

section

variable [CompressEnv] {blockSize100k : Nat} {f₀ x : List Byte}

/-- **A handle after writes that all returned `BZ_OK`**, of `parts`, over what the file held before.
    Between two calls the error indicator may be set or cleared, and the operations to come may have
    any outcomes. -/
inductive Wrote (blockSize100k : Nat) (f₀ : List Byte) : List (List Byte) → BzFile → CFile → Prop
  | start {f : CFile} {buf blockSize verbosity workFactor : Int} {b : BzFile}
      (ho : bzWriteOpen f buf blockSize verbosity workFactor = (.ok, some b))
      (hsize : blockSize = blockSize100k) (hf : f.written = f₀) : Wrote blockSize100k f₀ [] b f
  | write {parts : List (List Byte)} {b b' : BzFile} {f f' : CFile} {fuel : Nat} {mem : Int → Byte}
      {buf len : Int} (h : Wrote blockSize100k f₀ parts b f)
      (hw : bzWrite fuel b f mem (some buf) len = some (.ok, b', f')) :
      Wrote blockSize100k f₀ (parts ++ [bytesAt mem buf len.toNat]) b' f'
  | elsewhere {parts : List (List Byte)} {b : BzFile} {f : CFile}
      (h : Wrote blockSize100k f₀ parts b f) (err : Bool) (outcomes : List Outcome) :
      Wrote blockSize100k f₀ parts b { f with err, outcomes }

/-- **A handle stands for a run** of `BZ2_bzCompress` that has taken `x` by the script `σ`: all that has
    come out is in the file, behind what it held before, and the totals count both. -/
structure Sending (blockSize100k : Nat) (f₀ x : List Byte) (σ : Script) (calls : List Call)
    (s : EState) (b : BzFile) (f : CFile) : Prop where
  run : CompressRun blockSize100k calls s
  state : b.state = some s
  taken : calls.flatMap Call.taken = x
  asked : script calls = σ
  written : f.written = f₀ ++ calls.flatMap Call.given
  totalIn : b.strm.totalIn = BitVec.ofNat 64 x.length
  totalOut : b.strm.totalOut = BitVec.ofNat 64 (calls.flatMap Call.given).length

omit [CompressEnv] in
/-- **A buffer that has been written out** is in the file. -/
theorem writeBuf_written {b : BzFile} {f f' : CFile} (h : b.writeBuf f = some (false, f'))
    (hroom : b.strm.out.length + b.strm.availOut = bzMaxUnused) :
    f'.written = f.written ++ b.strm.out := by
  unfold BzFile.writeBuf at h
  split at h
  · rename_i hlt
    have hall : b.strm.out.take (bzMaxUnused - b.strm.availOut) = b.strm.out :=
      List.take_of_length_le (by omega)
    dsimp only at h
    rw [hall] at h
    unfold CFile.fwrite at h
    cases ho : f.outcomes with
    | nil => rw [ho] at h; cases h
    | cons o outcomes =>
      simp only [ho, Option.some.injEq, Prod.mk.injEq, Bool.or_eq_false_iff,
        decide_eq_false_iff_not, ne_eq, not_not] at h
      obtain ⟨⟨hn, -⟩, rfl⟩ := h
      show f.written ++ b.strm.out.take o.count = _
      rw [List.take_of_length_le (by omega)]
  · cases h
    rw [List.eq_nil_of_length_eq_zero (by omega : b.strm.out.length = 0), List.append_nil]

theorem compress_eq {b b₁ : BzFile} {s : EState} {action : Int} {ret : Ret}
    (hs : b.state = some s) (h : b.compress action = some (ret, b₁)) :
    ∃ s' strm', bzCompress s b.strm action = .ok (ret, s', strm') ∧
      b₁ = { b with state := some s', strm := strm' } := by
  unfold BzFile.compress at h
  rw [hs] at h
  dsimp only at h
  split at h
  · cases h
  · rename_i ret' s' strm' hc
    cases h
    exact ⟨s', strm', hc, rfl⟩

/-- What a call in a loop has moved, with an empty buffer before it. -/
structure Turned (b b₁ : BzFile) (action : Int) (ret : Ret) (c : Call) : Prop where
  action : c.action = action
  ret : c.ret = ret
  input : c.taken ++ b₁.strm.input = b.strm.input
  room : c.given.length + b₁.strm.availOut = bzMaxUnused

/-- **A turn of a loop** that empties the buffer, calls `BZ2_bzCompress` and writes the buffer out. -/
theorem Sending.call (h1 : 1 ≤ blockSize100k) {σ : Script} {calls : List Call} {s : EState}
    {b b₁ : BzFile} {f f₁ : CFile} (h : Sending blockSize100k f₀ x σ calls s b f) {action : Int}
    {ret : Ret} (hc : b.emptyBuf.compress action = some (ret, b₁))
    (hw : b₁.writeBuf f = some (false, f₁)) :
    ∃ c s', Turned b b₁ action ret c ∧
      Sending blockSize100k f₀ (x ++ c.taken) (σ.add c) (calls ++ [c]) s' b₁ f₁ := by
  obtain ⟨s', strm', hcall, rfl⟩ := compress_eq (show b.emptyBuf.state = some s from h.state) hc
  obtain ⟨c, hstrm, hact, hret, hstrm'⟩ : ∃ c : Call, c.strm = b.emptyBuf.strm ∧
      c.action = action ∧ c.ret = ret ∧ c.strm' = strm' := ⟨⟨_, _, _, _⟩, rfl, rfl, rfl, rfl⟩
  have hcall' : bzCompress s c.strm c.action = .ok (c.ret, s', c.strm') := by
    rw [hstrm, hact, hret, hstrm']
    exact hcall
  have hr := h.run.resting h1
  have hinput := c.taken_append hr hcall'
  obtain ⟨given, hgiven, hsum⟩ := bzCompress_gives hr hcall'
  rw [hstrm, hstrm'] at hinput hgiven hsum
  have hroom : strm'.out.length + strm'.availOut = bzMaxUnused := by
    rw [hgiven]
    exact hsum
  have hcgiven : c.given = strm'.out := by
    unfold Call.given
    rw [hstrm, hstrm']
    rfl
  have hmax : b.emptyBuf.strm.availOut < 2 ^ 32 := show bzMaxUnused < 2 ^ 32 by decide
  have hcounts := counts_bzCompress hmax hcall
  refine ⟨c, s', ⟨hact, hret, hinput, by rw [hcgiven]; exact hroom⟩,
    ⟨h.run.call c hcall', rfl, ?_, ?_, ?_, ?_, ?_⟩⟩
  · rw [List.flatMap_append, h.taken, List.flatMap_singleton]
  · rw [script, List.foldl_append, ← script, h.asked]
    rfl
  · rw [writeBuf_written hw hroom, h.written, List.flatMap_append, List.flatMap_singleton, hcgiven,
      List.append_assoc]
  · have hlen := congrArg List.length hinput
    rw [List.length_append, BzStream.input, BzStream.input, length_bytesAt, length_bytesAt,
      Nat.add_comm] at hlen
    show strm'.totalIn = _
    rw [hcounts.totalIn, ofInt_diff hlen.symm, List.length_append, BitVec.ofNat_add]
    exact congrArg (· + _) h.totalIn
  · have hlen : b.emptyBuf.strm.availOut = strm'.availOut + strm'.out.length :=
      hroom.symm.trans (Nat.add_comm _ _)
    show strm'.totalOut = _
    rw [hcounts.totalOut, ofInt_diff hlen, List.flatMap_append, List.length_append,
      List.flatMap_singleton, hcgiven, BitVec.ofNat_add]
    exact congrArg (· + _) h.totalOut

omit [CompressEnv] in
theorem Script.add_run {c : Call} (ha : c.action = bzRun) (σ : Script) :
    σ.add c = { σ with run := σ.run ++ c.taken } := if_pos ha

/-- **A `BZ2_bzWrite` that returns `BZ_OK`** has sent all it was given. -/
theorem bzWriteLoop_sends (h1 : 1 ≤ blockSize100k) : ∀ {fuel : Nat} {x : List Byte}
    {calls : List Call} {s : EState} {b b' : BzFile} {f f' : CFile},
    Sending blockSize100k f₀ x ⟨[], x, []⟩ calls s b f →
    bzWriteLoop fuel b f = some (.ok, b', f') →
    b'.lastErr = .ok ∧ b'.strm.availIn = 0 ∧ ∃ calls' s',
      Sending blockSize100k f₀ (x ++ b.strm.input) ⟨[], x ++ b.strm.input, []⟩ calls' s' b' f' := by
  intro fuel
  induction fuel with
  | zero => intro x calls s b b' f f' _ hw; cases hw
  | succ fuel ih =>
    intro x calls s b b' f f' h hw
    unfold bzWriteLoop at hw
    obtain ⟨⟨ret, b₁⟩, hc, hw⟩ := Option.bind_eq_some_iff.mp hw
    dsimp only at hw
    split at hw
    · cases hw
      obtain ⟨s', strm', hcall, -⟩ := compress_eq (show b.emptyBuf.state = some s from h.state) hc
      exact absurd rfl (bzCompress_ne_ok hcall)
    · obtain ⟨⟨failed, f₁⟩, hbuf, hw⟩ := Option.bind_eq_some_iff.mp hw
      dsimp only at hw
      split at hw
      · cases hw
      · rename_i hfailed
        rw [Bool.not_eq_true] at hfailed
        rw [hfailed] at hbuf
        obtain ⟨c, s', hturn, hsend⟩ := h.call h1 hc hbuf
        have hinput := hturn.input
        rw [Script.add_run hturn.action] at hsend
        split at hw
        · rename_i h0
          cases hw
          have hnone : b₁.strm.input = [] := by
            rw [BzStream.input, h0]
            rfl
          rw [hnone, List.append_nil] at hinput
          rw [hinput] at hsend
          exact ⟨rfl, h0, _, s', hsend.run, hsend.state, hsend.taken, hsend.asked, hsend.written,
            hsend.totalIn, hsend.totalOut⟩
        · obtain ⟨herr, h0, calls', s'', hsend'⟩ := ih hsend hw
          rw [List.append_assoc, hinput] at hsend'
          exact ⟨herr, h0, calls', s'', hsend'⟩

/-- **Writes that all returned `BZ_OK`** have sent all they were given, and nothing is left over. -/
theorem Wrote.sending (h1 : 1 ≤ blockSize100k) {parts : List (List Byte)} {b : BzFile} {f : CFile}
    (h : Wrote blockSize100k f₀ parts b f) :
    b.lastErr = .ok ∧ b.strm.availIn = 0 ∧ ∃ calls s,
      Sending blockSize100k f₀ parts.flatten ⟨[], parts.flatten, []⟩ calls s b f := by
  induction h with
  | @start f buf blockSize verbosity workFactor b ho hsize hf =>
    unfold bzWriteOpen at ho
    split at ho
    · cases ho
    · split at ho
      · cases ho
      · cases ho
        have hzero : wide 0 0 = BitVec.ofNat 64 0 := rfl
        refine ⟨rfl, rfl, [], EState.init blockSize100k, .init, ?_, rfl, rfl, ?_, hzero, hzero⟩
        · rw [hsize]
          rfl
        · rw [hf]
          exact (List.append_nil f₀).symm
  | @write parts b b' f f' fuel mem buf len _ hw ih =>
    obtain ⟨herr, h0, calls, s, hsend⟩ := ih
    unfold bzWrite at hw
    dsimp only at hw
    split at hw
    · cases hw
    · split at hw
      · cases hw
      · rw [List.flatten_append, List.flatten_singleton]
        split at hw
        · rename_i hlen
          cases hw
          rw [hlen, Int.toNat_zero, bytesAt_zero, List.append_nil]
          exact ⟨rfl, h0, calls, s, hsend.run, hsend.state, hsend.taken, hsend.asked, hsend.written,
            hsend.totalIn, hsend.totalOut⟩
        · have hset : Sending blockSize100k f₀ parts.flatten ⟨[], parts.flatten, []⟩ calls s
              { b.setErr .ok with
                strm := { b.strm with mem, nextIn := buf, availIn := len.toNat } } f :=
            ⟨hsend.run, hsend.state, hsend.taken, hsend.asked, hsend.written, hsend.totalIn,
              hsend.totalOut⟩
          exact bzWriteLoop_sends h1 hset hw
  | elsewhere _ err outcomes ih =>
    obtain ⟨herr, h0, calls, s, hsend⟩ := ih
    exact ⟨herr, h0, calls, s, hsend.run, hsend.state, hsend.taken, hsend.asked, hsend.written,
      hsend.totalIn, hsend.totalOut⟩

/-! ## 2. The close -/

/-- The script of a session: everything is taken under `BZ_RUN`, and nothing under `BZ_FINISH`. -/
def session (x : List Byte) : Script := ⟨[⟨x, bzFinish, []⟩], [], []⟩

/-- The loop of a close that comes to the end of the stream. -/
theorem finishLoop_sends (h1 : 1 ≤ blockSize100k) : ∀ {fuel : Nat} {calls : List Call} {s : EState}
    {b b' : BzFile} {f f' : CFile},
    Sending blockSize100k f₀ x ⟨[], x, []⟩ calls s b f → b.strm.availIn = 0 →
    finishLoop fuel b f = some (none, b', f') →
    ∃ calls' s', Sending blockSize100k f₀ x (session x) calls' s' b' f' ∧ EndsStream calls' := by
  intro fuel
  induction fuel with
  | zero => intro calls s b b' f f' _ _ hw; cases hw
  | succ fuel ih =>
    intro calls s b b' f f' h h0 hw
    unfold finishLoop at hw
    obtain ⟨⟨ret, b₁⟩, hc, hw⟩ := Option.bind_eq_some_iff.mp hw
    dsimp only at hw
    split at hw
    · cases hw
    · rename_i hret
      obtain ⟨⟨failed, f₁⟩, hbuf, hw⟩ := Option.bind_eq_some_iff.mp hw
      dsimp only at hw
      split at hw
      · cases hw
      · rename_i hfailed
        rw [Bool.not_eq_true] at hfailed
        rw [hfailed] at hbuf
        obtain ⟨c, s', hturn, hsend⟩ := h.call h1 hc hbuf
        have hnone : b.strm.input = [] := by
          rw [BzStream.input, h0]
          rfl
        obtain ⟨htaken, hrest⟩ := List.append_eq_nil_iff.mp (hturn.input.trans hnone)
        have h0' : b₁.strm.availIn = 0 := by
          have := congrArg List.length hrest
          rwa [BzStream.input, length_bytesAt] at this
        rw [htaken, List.append_nil] at hsend
        split at hw
        · rename_i hend
          cases hw
          rw [Script.add_ended hturn.action (hturn.ret.trans hend), htaken] at hsend
          refine ⟨_, s', hsend, ?_⟩
          unfold EndsStream
          rw [List.getLast?_concat, Option.map_some, hturn.ret, hend]
        · rename_i hend
          have hmore : c.ret = .finishOk := by
            rw [hturn.ret]
            by_contra hne
            exact hret ⟨hne, hend⟩
          rw [Script.add_more hturn.action (.inl hmore), htaken] at hsend
          exact ih hsend h0' hw

/-- **The stream of a session** that writes `x`: what comes out of a run that takes `x` under `BZ_RUN`
    and is then ended. -/
def FileStream (blockSize100k : Nat) (x z : List Byte) : Prop :=
  ∃ calls s, CompressRun blockSize100k calls s ∧ EndsStream calls ∧ script calls = session x ∧
    calls.flatMap Call.taken = x ∧ calls.flatMap Call.given = z

/-- It is fixed by what is written and the block size. -/
theorem FileStream.unique (h1 : 1 ≤ blockSize100k) {z z' : List Byte}
    (h : FileStream blockSize100k x z) (h' : FileStream blockSize100k x z') : z' = z := by
  obtain ⟨calls, s, hrun, hend, hs, -, rfl⟩ := h
  obtain ⟨calls', s', hrun', hend', hs', -, rfl⟩ := h'
  have hm := (hrun.last h1 hend).1
  have hm' := (hrun'.last h1 hend').1
  obtain ⟨t, ht⟩ := hrun.replayed h1 (by rw [hm]; decide)
  obtain ⟨t', ht'⟩ := hrun'.replayed h1 (by rw [hm']; decide)
  rw [hs', ← hs, ht, (hrun.resting h1).onItsWay_idle hm, (hrun'.resting h1).onItsWay_idle hm',
    List.append_nil, List.append_nil] at ht'
  exact (congrArg Prod.snd (Except.ok.inj ht')).symm

/-- And it stands for what is written. -/
theorem FileStream.valid (hsais : SaisSucceeds) (h1 : 1 ≤ blockSize100k) (h9 : blockSize100k ≤ 9)
    {z : List Byte} (h : FileStream blockSize100k x z) : ValidStream z x := by
  obtain ⟨calls, s, hrun, hend, -, rfl, rfl⟩ := h
  obtain ⟨u, hz, hu⟩ := hrun.decodes hsais h1 h9 hend false
  exact ⟨u, hz, hu⟩

theorem Wrote.size {parts : List (List Byte)} {b : BzFile} {f : CFile}
    (h : Wrote blockSize100k f₀ parts b f) : 1 ≤ blockSize100k ∧ blockSize100k ≤ 9 := by
  induction h with
  | start ho hsize _ =>
    unfold bzWriteOpen at ho
    split at ho
    · cases ho
    · omega
  | write _ _ ih => exact ih
  | elsewhere _ _ _ ih => exact ih

omit [CompressEnv] in
theorem flushFile_written {abandon failed : Bool} {f f' : CFile}
    (h : flushFile abandon f = some (failed, f')) : f'.written = f.written := by
  unfold flushFile at h
  split at h
  · unfold CFile.fflush at h
    cases ho : f.outcomes with
    | nil => rw [ho] at h; cases h
    | cons o outcomes =>
      rw [ho] at h
      cases h
      rfl
  · cases h
    rfl

/-- **A close that returns `BZ_OK`** has put the stream of the session behind what was there. -/
theorem Wrote.closed {parts : List (List Byte)} {b : BzFile} {f : CFile}
    (h : Wrote blockSize100k f₀ parts b f) {fuel : Nat} {c : Closed}
    (hc : bzWriteClose64 fuel b f false = some c) (hok : c.ret = .ok) :
    ∃ z n, c.f.written = f₀ ++ z ∧ FileStream blockSize100k parts.flatten z ∧ c.nbytes = some n ∧
      wide n.inHi32 n.inLo32 = BitVec.ofNat 64 parts.flatten.length ∧
      wide n.outHi32 n.outLo32 = BitVec.ofNat 64 z.length := by
  obtain ⟨herr, h0, calls, s, hsend⟩ := h.sending h.size.1
  unfold bzWriteClose64 at hc
  split at hc
  · cases hc
    cases hok
  · rename_i hf
    rw [Bool.not_eq_true] at hf
    obtain ⟨⟨failed, b₁, f₁⟩, hloop, hc⟩ := Option.bind_eq_some_iff.mp hc
    dsimp only at hc
    have hfinish : finishLoop fuel b f = some (failed, b₁, f₁) := by
      unfold finishStream at hloop
      rwa [herr, if_pos (by decide)] at hloop
    cases failed with
    | some ret =>
      cases hc
      obtain ⟨-, -, hne, -⟩ := finishLoop_used hfinish hf
      exact absurd (congrArg some hok) hne
    | none =>
      obtain ⟨⟨bad, f₂⟩, hflush, hc⟩ := Option.bind_eq_some_iff.mp hc
      dsimp only at hc
      split at hc
      · cases hc
        cases hok
      · cases hc
        obtain ⟨calls', s', hsend', hend⟩ := finishLoop_sends h.size.1 hsend h0 hfinish
        exact ⟨_, _, (flushFile_written hflush).trans hsend'.written,
          ⟨calls', s', hsend'.run, hend, hsend'.asked, hsend'.taken, rfl⟩, rfl, hsend'.totalIn,
          hsend'.totalOut⟩

/-- **A session without an error code has lost nothing.** However the data is cut over
    `BZ2_bzWrite`s, however much each `fwrite` says it gets out, whatever becomes of the error
    indicator in between: if every `BZ2_bzWrite` and the close have returned `BZ_OK`, the file holds,
    behind what it held before, one stream that stands for all the data; it is the same stream as in
    any other session without an error code that writes the same data with the same block size; and
    the four counts are the lengths of the data and of the stream, modulo `2 ^ 64`. -/
theorem bzWriteClose64_lossless (hsais : SaisSucceeds) {parts : List (List Byte)} {b : BzFile}
    {f : CFile} (h : Wrote blockSize100k f₀ parts b f) {fuel : Nat} {c : Closed}
    (hc : bzWriteClose64 fuel b f false = some c) (hok : c.ret = .ok) :
    ∃ z, c.f.written = f₀ ++ z ∧ ValidStream z parts.flatten ∧
      (∃ n, c.nbytes = some n ∧ wide n.inHi32 n.inLo32 = BitVec.ofNat 64 parts.flatten.length ∧
        wide n.outHi32 n.outLo32 = BitVec.ofNat 64 z.length) ∧
      ∀ {f₁ : List Byte} {parts' : List (List Byte)} {b' : BzFile} {f' : CFile} {fuel' : Nat}
        {c' : Closed}, Wrote blockSize100k f₁ parts' b' f' → parts'.flatten = parts.flatten →
        bzWriteClose64 fuel' b' f' false = some c' → c'.ret = .ok → c'.f.written = f₁ ++ z := by
  obtain ⟨h1, h9⟩ := h.size
  obtain ⟨z, n, hz, hstream, hn, hin, hout⟩ := h.closed hc hok
  refine ⟨z, hz, hstream.valid hsais h1 h9, ⟨n, hn, hin, hout⟩, ?_⟩
  intro f₁ parts' b' f' fuel' c' h' heq hc' hok'
  obtain ⟨z', n', hz', hstream', -⟩ := h'.closed hc' hok'
  rw [heq] at hstream'
  rw [hz', hstream.unique h1 hstream']

/-! ## 3. A file that can be written -/

omit [CompressEnv] in
/-- **A `FILE` without errors**, for `k` operations to come: each `fwrite` gets out all it is given. -/
structure CFile.Good (k : Nat) (f : CFile) : Prop where
  err : f.err = false
  good : ∀ o ∈ f.outcomes, o.err = false ∧ bzMaxUnused ≤ o.count
  enough : k ≤ f.outcomes.length

omit [CompressEnv] in
theorem CFile.Good.weaken {k m : Nat} {f : CFile} (h : f.Good k) (hm : m ≤ k) : f.Good m :=
  ⟨h.err, h.good, hm.trans h.enough⟩

omit [CompressEnv] in
theorem writeBuf_good {b : BzFile} {f : CFile} {k : Nat} (hf : f.Good (k + 1))
    (hroom : b.strm.out.length + b.strm.availOut = bzMaxUnused) :
    ∃ f₁, b.writeBuf f = some (false, f₁) ∧ f₁.Good k := by
  unfold BzFile.writeBuf
  by_cases hlt : b.strm.availOut < bzMaxUnused
  · rw [if_pos hlt]
    dsimp only
    rw [List.take_of_length_le (by omega : b.strm.out.length ≤ bzMaxUnused - b.strm.availOut)]
    obtain ⟨herr, hgood, hk⟩ := hf
    cases ho : f.outcomes with
    | nil =>
      rw [ho] at hk
      cases hk
    | cons o outcomes =>
      rw [ho] at hgood hk
      obtain ⟨hoerr, hcount⟩ := hgood o List.mem_cons_self
      refine ⟨{ f with err := f.err || o.err, outcomes, written := f.written ++ b.strm.out.take o.count },
        ?_, ⟨?_, fun o' ho' => hgood o' (List.mem_cons_of_mem _ ho'), Nat.le_of_succ_le_succ hk⟩⟩
      · have hall : bzMaxUnused - b.strm.availOut = min o.count b.strm.out.length := by omega
        unfold CFile.fwrite
        rw [ho]
        simp [herr, hoerr, ← hall]
      · show (f.err || o.err) = false
        rw [herr, hoerr]
        rfl
  · rw [if_neg hlt]
    exact ⟨f, rfl, hf.weaken (Nat.le_succ k)⟩

/-- **A turn of a loop**, with a `FILE` without errors: it goes through. -/
theorem Sending.turn (hsais : SaisSucceeds) (h1 : 1 ≤ blockSize100k) (h9 : blockSize100k ≤ 9)
    {σ : Script} {calls : List Call} {s : EState} {b : BzFile} {f : CFile}
    (h : Sending blockSize100k f₀ x σ calls s b f) {k : Nat} (hf : f.Good (k + 1)) {action : Int}
    (ha : Accepts s b.emptyBuf.strm action) :
    ∃ ret b₁ f₁ s', b.emptyBuf.compress action = some (ret, b₁) ∧
      bzCompress s b.emptyBuf.strm action = .ok (ret, s', b₁.strm) ∧ b₁.state = some s' ∧
      b₁.writeBuf f = some (false, f₁) ∧ f₁.Good k := by
  obtain ⟨ret, s', strm', hcall⟩ := accepted_returns hsais h1 h9 h.run ha
  have hc : b.emptyBuf.compress action =
      some (ret, { b.emptyBuf with state := some s', strm := strm' }) := by
    unfold BzFile.compress
    rw [show b.emptyBuf.state = some s from h.state]
    dsimp only
    rw [hcall]
  obtain ⟨given, hgiven, hsum⟩ := bzCompress_gives (h.run.resting h1) hcall
  have hroom : strm'.out.length + strm'.availOut = bzMaxUnused := by
    rw [hgiven]
    exact hsum
  obtain ⟨f₁, hbuf, hgood⟩ := @writeBuf_good
    { b.emptyBuf with state := some s', strm := strm' } f k hf hroom
  exact ⟨ret, _, f₁, s', hc, hcall, rfl, hbuf, hgood⟩

/-- The turns a loop can still take: each gives out a byte, and a run gives out only so much. -/
def turnsFor (taken : Nat) : Nat := 17 + bitsPerBlock * taken

omit [CompressEnv] in
theorem turnsFor_mono {m n : Nat} (h : m ≤ n) : turnsFor m ≤ turnsFor n :=
  Nat.add_le_add_left (Nat.mul_le_mul_left _ h) 17

theorem Sending.given_lt (hsais : SaisSucceeds) (h1 : 1 ≤ blockSize100k) (h9 : blockSize100k ≤ 9)
    {σ : Script} {calls : List Call} {s : EState} {b : BzFile} {f : CFile}
    (h : Sending blockSize100k f₀ x σ calls s b f) :
    (calls.flatMap Call.given).length < turnsFor x.length := by
  have hle := h.run.given_le hsais h1 h9
  rw [h.taken] at hle
  exact Nat.lt_of_le_of_lt hle (Nat.add_lt_add_right (by decide) _)

/-- **`BZ2_bzWrite` goes through** with a `FILE` without errors. -/
theorem bzWriteLoop_writes (hsais : SaisSucceeds) (h1 : 1 ≤ blockSize100k) (h9 : blockSize100k ≤ 9)
    {k : Nat} : ∀ (n : Nat) {x : List Byte} {calls : List Call} {s : EState} {b : BzFile} {f : CFile},
    Sending blockSize100k f₀ x ⟨[], x, []⟩ calls s b f → s.mode = .running → 1 ≤ b.strm.availIn →
    turnsFor (x.length + b.strm.availIn) ≤ (calls.flatMap Call.given).length + n → f.Good (k + n) →
    ∃ b' f', (∀ fuel, n ≤ fuel → bzWriteLoop fuel b f = some (.ok, b', f')) ∧ f'.Good k ∧
      ∃ s', b'.state = some s' ∧ s'.mode = .running := by
  intro n
  induction n with
  | zero =>
    intro x calls s b f h _ _ hn _
    have hlt := h.given_lt hsais h1 h9
    have hmono := turnsFor_mono (Nat.le_add_right x.length b.strm.availIn)
    omega
  | succ n ih =>
    intro x calls s b f h hm hin hn hf
    have ha : Accepts s b.emptyBuf.strm bzRun := ⟨by rw [hm]; exact .inl rfl, fun he => by
      rw [hm] at he
      exact absurd he (by decide)⟩
    obtain ⟨ret, b₁, f₁, s', hc, hcall, hst, hbuf, hgood⟩ := h.turn hsais h1 h9 hf ha
    have hroom₀ : 1 ≤ b.emptyBuf.strm.availOut := show 1 ≤ bzMaxUnused by decide
    obtain ⟨rfl, hm', hend⟩ := bzCompress_runs (h.run.resting h1) hm
      (show 1 ≤ b.emptyBuf.strm.availIn from hin) hroom₀ hcall
    obtain ⟨c, s₁, hturn, hsend⟩ := h.call h1 hc hbuf
    obtain rfl : s₁ = s' := Option.some.inj (hsend.state.symm.trans hst)
    rw [Script.add_run hturn.action] at hsend
    have hloop : ∀ fuel, bzWriteLoop (fuel + 1) b f =
        if b₁.strm.availIn = 0 then some (.ok, b₁.setErr .ok, f₁) else bzWriteLoop fuel b₁ f₁ := by
      intro fuel
      rw [bzWriteLoop, hc]
      simp [hbuf]
    by_cases h0 : b₁.strm.availIn = 0
    · refine ⟨b₁.setErr .ok, f₁, fun fuel hfuel => ?_, hgood.weaken (Nat.le_add_right k n), s₁, hst,
        hm'⟩
      obtain ⟨fuel, rfl⟩ : ∃ m, fuel = m + 1 := ⟨fuel - 1, by omega⟩
      rw [hloop, if_pos h0]
    · have hfull := hend.resolve_left h0
      have hroom := hturn.room
      have hlen := congrArg List.length hturn.input
      rw [List.length_append, BzStream.input, BzStream.input, length_bytesAt, length_bytesAt] at hlen
      obtain ⟨b', f', hall, hgood', hrun⟩ := ih hsend hm' (by omega) (by
        rw [List.length_append, Nat.add_assoc, hlen, List.flatMap_append, List.length_append,
          List.flatMap_singleton]
        have hpos : 1 ≤ bzMaxUnused := by decide
        omega) hgood
      refine ⟨b', f', fun fuel hfuel => ?_, hgood', hrun⟩
      obtain ⟨fuel, rfl⟩ : ∃ m, fuel = m + 1 := ⟨fuel - 1, by omega⟩
      rw [hloop, if_neg h0]
      exact hall fuel (by omega)

/-- **The close goes through** with a `FILE` without errors. -/
theorem finishLoop_writes (hsais : SaisSucceeds) (h1 : 1 ≤ blockSize100k) (h9 : blockSize100k ≤ 9)
    {k : Nat} : ∀ (n : Nat) {calls : List Call} {s : EState} {b : BzFile} {f : CFile},
    Sending blockSize100k f₀ x ⟨[], x, []⟩ calls s b f → Accepts s b.emptyBuf.strm bzFinish →
    b.strm.availIn = 0 → turnsFor x.length ≤ (calls.flatMap Call.given).length + n →
    f.Good (k + n) →
    ∃ b' f', (∀ fuel, n ≤ fuel → finishLoop fuel b f = some (none, b', f')) ∧ f'.Good k := by
  intro n
  induction n with
  | zero =>
    intro calls s b f h _ _ hn _
    have hlt := h.given_lt hsais h1 h9
    omega
  | succ n ih =>
    intro calls s b f h ha hin hn hf
    obtain ⟨ret, b₁, f₁, s', hc, hcall, hst, hbuf, hgood⟩ := h.turn hsais h1 h9 hf ha
    have hroom₀ : 1 ≤ b.emptyBuf.strm.availOut := show 1 ≤ bzMaxUnused by decide
    obtain ⟨c, s₁, hturn, hsend⟩ := h.call h1 hc hbuf
    obtain rfl : s₁ = s' := Option.some.inj (hsend.state.symm.trans hst)
    have hnone : b.strm.input = [] := by
      rw [BzStream.input, hin]
      rfl
    obtain ⟨htaken, hrest⟩ := List.append_eq_nil_iff.mp (hturn.input.trans hnone)
    have hin₁ : b₁.strm.availIn = 0 := by
      have := congrArg List.length hrest
      rwa [BzStream.input, length_bytesAt] at this
    have hloop : ∀ fuel, ret = .finishOk ∨ ret = .streamEnd → finishLoop (fuel + 1) b f =
        if ret = .streamEnd then some (none, b₁, f₁) else finishLoop fuel b₁ f₁ := by
      intro fuel hret
      rw [finishLoop, hc]
      rcases hret with rfl | rfl <;> simp [hbuf]
    rcases bzCompress_answers (h.run.resting h1) (.inr rfl) ha hroom₀ hcall with
      ⟨hret, -⟩ | ⟨hret, hfull, hnext⟩
    · have hret : ret = .streamEnd := hret
      refine ⟨b₁, f₁, fun fuel hfuel => ?_, hgood.weaken (Nat.le_add_right k n)⟩
      obtain ⟨fuel, rfl⟩ : ∃ m, fuel = m + 1 := ⟨fuel - 1, by omega⟩
      rw [hloop fuel (.inr hret), if_pos hret]
    · have hret : ret = .finishOk := hret
      have hroom := hturn.room
      rw [htaken, List.append_nil, Script.add_more hturn.action (.inl (hturn.ret.trans hret)), htaken,
        List.append_nil] at hsend
      obtain ⟨b', f', hall, hgood'⟩ := ih hsend (hnext b₁.emptyBuf.strm rfl) hin₁ (by
        rw [List.flatMap_append, List.length_append, List.flatMap_singleton]
        have hpos : 1 ≤ bzMaxUnused := by decide
        omega) hgood
      refine ⟨b', f', fun fuel hfuel => ?_, hgood'⟩
      obtain ⟨fuel, rfl⟩ : ∃ m, fuel = m + 1 := ⟨fuel - 1, by omega⟩
      rw [hloop fuel (.inl hret), if_neg (by rw [hret]; decide)]
      exact hall fuel (by omega)

/-! ## 4. There and back -/

omit [CompressEnv] in
/-- What a caller hands to one `BZ2_bzWrite`. -/
structure Piece where
  mem : Int → Byte
  buf : Int
  len : Nat

omit [CompressEnv] in
def Piece.data (p : Piece) : List Byte := bytesAt p.mem p.buf p.len

/-- `BZ2_bzWrite` for one piece after the other, until one does not return `BZ_OK`. -/
def bzWrites (fuel : Nat) : List Piece → BzFile → CFile → Option (Ret × BzFile × CFile)
  | [], b, f => some (.ok, b, f)
  | p :: pieces, b, f =>
    match bzWrite fuel b f p.mem (some p.buf) p.len with
    | none => none
    | some (ret, b, f) => if ret = .ok then bzWrites fuel pieces b f else some (ret, b, f)

/-- A caller who opens a file, writes the pieces and closes it. -/
def writeFile (fuel : Nat) (f : CFile) (buf : Int) (blockSize100k : Nat) (pieces : List Piece) :
    Option Closed :=
  match bzWriteOpen f buf blockSize100k 0 0 with
  | (_, none) => none
  | (_, some b) =>
    match bzWrites fuel pieces b f with
    | some (.ok, b, f) => bzWriteClose64 fuel b f false
    | _ => none

/-- **One `BZ2_bzWrite`** of a handle that runs. -/
theorem bzWrite_writes (hsais : SaisSucceeds) {parts : List (List Byte)} {b : BzFile} {f : CFile}
    (h : Wrote blockSize100k f₀ parts b f) {s : EState} (hs : b.state = some s)
    (hm : s.mode = .running) (p : Piece) {k : Nat}
    (hf : f.Good (k + turnsFor (parts.flatten.length + p.len))) :
    ∃ b' f', (∀ fuel, turnsFor (parts.flatten.length + p.len) ≤ fuel →
        bzWrite fuel b f p.mem (some p.buf) p.len = some (.ok, b', f')) ∧ f'.Good k ∧
      ∃ s', b'.state = some s' ∧ s'.mode = .running := by
  obtain ⟨h1, h9⟩ := h.size
  obtain ⟨-, -, calls, s₁, hsend⟩ := h.sending h1
  obtain rfl : s = s₁ := Option.some.inj (hs.symm.trans hsend.state)
  have herr : ¬ f.err = true := by rw [hf.err]; decide
  by_cases hlen : p.len = 0
  · refine ⟨b.setErr .ok, f, fun fuel _ => ?_, hf.weaken (Nat.le_add_right _ _), s, hs, hm⟩
    unfold bzWrite
    dsimp only
    rw [if_neg (by omega), if_neg herr, if_pos (by omega)]
  · have hsend' : Sending blockSize100k f₀ parts.flatten ⟨[], parts.flatten, []⟩ calls s
        { b.setErr .ok with strm := { b.strm with mem := p.mem, nextIn := p.buf, availIn := p.len } }
        f :=
      ⟨hsend.run, hsend.state, hsend.taken, hsend.asked, hsend.written, hsend.totalIn,
        hsend.totalOut⟩
    obtain ⟨b', f', hall, hgood, hrun⟩ := bzWriteLoop_writes hsais h1 h9 _ hsend' hm
      (Nat.one_le_iff_ne_zero.mpr hlen) (Nat.le_add_left _ _) hf
    refine ⟨b', f', fun fuel hfuel => ?_, hgood, hrun⟩
    unfold bzWrite
    dsimp only
    rw [if_neg (by omega), if_neg herr, if_neg (by omega), Int.toNat_natCast]
    exact hall fuel hfuel

/-- **All of them**, where a `FILE` goes without errors for long enough. -/
theorem bzWrites_write (hsais : SaisSucceeds) {least : Nat} : ∀ {pieces : List Piece}
    {parts : List (List Byte)} {b : BzFile} {f : CFile}, Wrote blockSize100k f₀ parts b f →
    ∀ {s : EState}, b.state = some s → s.mode = .running → ∀ {k : Nat},
    turnsFor (parts.flatten.length + (pieces.flatMap Piece.data).length) ≤ least →
    f.Good (k + pieces.length * least) →
    ∃ b' f', (∀ fuel, least ≤ fuel → bzWrites fuel pieces b f = some (.ok, b', f')) ∧ f'.Good k ∧
      Wrote blockSize100k f₀ (parts ++ pieces.map Piece.data) b' f' ∧
      ∃ s', b'.state = some s' ∧ s'.mode = .running := by
  intro pieces
  induction pieces with
  | nil =>
    intro parts b f h s hs hm k _ hf
    refine ⟨b, f, fun fuel _ => rfl, hf.weaken (Nat.le_add_right _ _), ?_, s, hs, hm⟩
    rw [List.map_nil, List.append_nil]
    exact h
  | cons p pieces ih =>
    intro parts b f h s hs hm k hleast hf
    have hpdata : p.data.length = p.len := length_bytesAt _ _ _
    rw [List.flatMap_cons, List.length_append, hpdata] at hleast
    rw [List.length_cons, Nat.succ_mul] at hf
    have hturns : turnsFor (parts.flatten.length + p.len) ≤ least :=
      (turnsFor_mono (by omega)).trans hleast
    obtain ⟨b₁, f₁, hwrite, hgood, s₁, hs₁, hm₁⟩ := bzWrite_writes hsais h hs hm p
      (k := k + pieces.length * least) (hf.weaken (by omega))
    have hwrote := h.write (hwrite least hturns)
    obtain ⟨b', f', hall, hgood', hwrote', hrun⟩ := ih hwrote hs₁ hm₁ (k := k) (by
      rw [List.flatten_append, List.length_append, List.flatten_singleton, length_bytesAt,
        Int.toNat_natCast, Nat.add_assoc]
      exact hleast) hgood
    refine ⟨b', f', fun fuel hfuel => ?_, hgood', ?_, hrun⟩
    · rw [bzWrites, hwrite fuel (hturns.trans hfuel)]
      exact hall fuel hfuel
    · rw [List.append_assoc] at hwrote'
      exact hwrote'

/-- **The close of a handle that runs**, where a `FILE` goes without errors for long enough. -/
theorem bzWriteClose64_writes (hsais : SaisSucceeds) {parts : List (List Byte)} {b : BzFile} {f : CFile}
    (h : Wrote blockSize100k f₀ parts b f) {s : EState} (hs : b.state = some s)
    (hm : s.mode = .running) (hf : f.Good (1 + turnsFor parts.flatten.length)) :
    ∃ c, (∀ fuel, turnsFor parts.flatten.length ≤ fuel → bzWriteClose64 fuel b f false = some c) ∧
      c.ret = .ok := by
  obtain ⟨h1, h9⟩ := h.size
  obtain ⟨herr, h0, calls, s₁, hsend⟩ := h.sending h1
  obtain rfl : s = s₁ := Option.some.inj (hs.symm.trans hsend.state)
  have ha : Accepts s b.emptyBuf.strm bzFinish :=
    ⟨by rw [hm]; exact .inr (.inr rfl), fun he => by
      rw [hm] at he
      exact absurd he (by decide)⟩
  obtain ⟨b', f', hall, herr', hgood', henough⟩ :=
    finishLoop_writes hsais h1 h9 _ hsend ha h0 (Nat.le_add_left _ _) hf
  cases ho : f'.outcomes with
  | nil =>
    rw [ho] at henough
    cases henough
  | cons o outcomes =>
    have hflush : flushFile false f' = some (false, { f' with err := f'.err || o.err, outcomes }) := by
      unfold flushFile CFile.fflush
      simp [herr', ho, (hgood' o (by rw [ho]; exact List.mem_cons_self)).1]
    have hok : Closed.ret
        { ret := .ok
          b := (b'.setErr .ok).compressEnd
          f := { f' with err := f'.err || o.err, outcomes }
          nbytes := some ⟨b'.strm.totalInLo32, b'.strm.totalInHi32, b'.strm.totalOutLo32,
            b'.strm.totalOutHi32⟩
          released := [.compressEnd, .free] } = .ok := rfl
    refine ⟨_, fun fuel hfuel => ?_, hok⟩
    unfold bzWriteClose64 finishStream
    rw [if_neg (by rw [hf.err]; decide), herr, if_pos (by decide), hall fuel hfuel]
    simp only [Option.bind_eq_bind, Option.bind_some, hflush]
    rfl

/-- **A file, there and back.** For all data, in any pieces, and every block size: where the `FILE` goes
    without errors for long enough, opening it for writing, writing the pieces and closing it returns
    `BZ_OK`, and leaves one stream behind what the file held; and reading this stream from a `FILE`
    without errors, with anything after it, in either mode, with any portions of `fread` and any
    lengths asked of `BZ2_bzRead`, gives back the data and leaves what came after. -/
theorem file_roundTrip (hsais : SaisSucceeds) (h1 : 1 ≤ blockSize100k) (h9 : blockSize100k ≤ 9)
    (buf : Int) (pieces : List Piece) :
    ∃ least, ∀ f : CFile, f.Good ((pieces.length + 1) * least + 1) →
      ∃ c z, (∀ fuel, least ≤ fuel → writeFile fuel f buf blockSize100k pieces = some c) ∧
        c.ret = .ok ∧ c.f.written = f.written ++ z ∧
        ∀ (small : Bool) {session : Session}, (∀ j, 1 ≤ (session.reads j).2) →
          ∀ {g : InFile} {more : List Byte}, g.Good → g.rest = z ++ more →
            ∃ e : StreamEnd, (∃ enough, ∀ fuel, enough ≤ fuel →
                readStream fuel (smallOf small) session [] g = some e) ∧
              e.data = pieces.flatMap Piece.data ∧ e.unused ++ e.f.rest = more := by
  obtain ⟨least, hleast⟩ : ∃ n, n = turnsFor (pieces.flatMap Piece.data).length := ⟨_, rfl⟩
  refine ⟨least, fun f hf => ?_⟩
  have hsize : ((blockSize100k : Nat) : Int) = blockSize100k := rfl
  -- opening and writing
  obtain ⟨b, hopen, hstate⟩ : ∃ b, bzWriteOpen f buf blockSize100k 0 0 = (.ok, some b) ∧
      b.state = some (EState.init blockSize100k) := by
    unfold bzWriteOpen
    rw [if_neg (by omega), if_neg (by rw [hf.err]; decide)]
    exact ⟨_, rfl, by rw [Int.toNat_natCast]⟩
  have hwrote : Wrote blockSize100k f.written [] b f := .start hopen hsize rfl
  have hturns : turnsFor (([] : List (List Byte)).flatten.length +
      (pieces.flatMap Piece.data).length) ≤ least := by
    rw [hleast, List.flatten_nil, List.length_nil, Nat.zero_add]
  have hfile : f.Good (1 + least + pieces.length * least) :=
    hf.weaken (by rw [Nat.succ_mul]; omega)
  obtain ⟨b₁, f₁, hwrites, hgood, hwrote₁, s₁, hs₁, hm₁⟩ :=
    bzWrites_write hsais hwrote hstate rfl hturns hfile
  rw [List.nil_append] at hwrote₁
  have hflat : (pieces.map Piece.data).flatten = pieces.flatMap Piece.data := List.flatMap_def.symm
  -- closing
  obtain ⟨c, hclose, hret⟩ := bzWriteClose64_writes hsais hwrote₁ hs₁ hm₁ (by
    rw [hflat, ← hleast]
    exact hgood)
  rw [hflat, ← hleast] at hclose
  obtain ⟨z, -, hz, hstream, -⟩ := hwrote₁.closed (hclose least (Nat.le_refl _)) hret
  rw [hflat] at hstream
  obtain ⟨u, hdec, hu⟩ := hstream.valid hsais h1 h9
  refine ⟨c, z, fun fuel hfuel => ?_, hret, hz, ?_⟩
  · unfold writeFile
    rw [hopen]
    dsimp only
    rw [hwrites fuel hfuel]
    exact hclose fuel hfuel
  -- reading
  · intro small session hreads g more hg hrest
    obtain ⟨e, hdata, hend, -, -, hunused, henough⟩ := readStream_ends (hdec.either small) hu hreads hg
      (Nat.zero_le _) ((List.nil_append _).trans hrest)
    exact ⟨e, henough, hdata, by rw [hunused]; exact hend.rest⟩

end

/-- One byte. -/
def letterPiece : Piece := ⟨fun _ => 0x61, 0, 1⟩

/-- A file that takes `n` operations. -/
def roomyFile (n : Nat) : CFile := freshFile false (List.replicate n ⟨bzMaxUnused, false⟩)

theorem roomyFile_good (n : Nat) : (roomyFile n).Good n :=
  ⟨rfl, fun o ho => by rw [List.eq_of_mem_replicate ho]; exact ⟨rfl, Nat.le_refl _⟩,
    Nat.le_of_eq List.length_replicate.symm⟩

/-- One byte, written to a file that takes enough operations. -/
theorem bzWriteClose64_lossless_oneByte : ∃ (n : Nat) (b : BzFile) (f : CFile) (c : Closed)
    (z : List Byte), @Wrote sortingEnv 1 [] [[0x61]] b f ∧
      @bzWriteClose64 sortingEnv n b f false = some c ∧ c.f.written = z ∧ ValidStream z [0x61] := by
  let _ : CompressEnv := sortingEnv
  obtain ⟨n, hn⟩ : ∃ n, n = turnsFor 1 := ⟨_, rfl⟩
  have hgood := roomyFile_good (1 + n + n)
  have hwrote : Wrote 1 [] [] freshHandle (roomyFile (1 + n + n)) :=
    @Wrote.start _ 1 [] _ 0 1 0 0 _ rfl rfl rfl
  obtain ⟨b, f, hwrite, hgood', s, hs, hm⟩ := bzWrite_writes sortingEnv_succeeds hwrote rfl rfl
    letterPiece (k := 1 + n) (hn ▸ hgood)
  have hwrote' : Wrote 1 [] [[0x61]] b f := hwrote.write (hwrite n (Nat.le_of_eq hn.symm))
  obtain ⟨c, hclose, hret⟩ := bzWriteClose64_writes sortingEnv_succeeds hwrote' hs hm (hn ▸ hgood')
  have hc := hclose n (Nat.le_of_eq hn.symm)
  obtain ⟨z, hz, hvalid, -⟩ := bzWriteClose64_lossless sortingEnv_succeeds hwrote' hc hret
  exact ⟨n, b, f, c, z, hwrote', hc, hz, hvalid⟩

/-- One byte, written and read a byte at a time. -/
theorem file_roundTrip_oneByte : ∃ (fuel : Nat) (c : Closed) (e : StreamEnd),
    @writeFile sortingEnv fuel (roomyFile (2 * fuel + 1)) 0 9 [letterPiece] = some c ∧
    (∃ enough, ∀ fuel', enough ≤ fuel' →
      @readStream sortingEnv.toBuild fuel' 1 ⟨fun _ => 0, 0, fun _ => (0, 1)⟩ []
        (bytewise (c.f.written ++ [0x7a])) = some e) ∧ e.data = [0x61] := by
  let _ : CompressEnv := sortingEnv
  obtain ⟨least, hall⟩ := @file_roundTrip _ 9 sortingEnv_succeeds (by decide) (by decide) 0
    [letterPiece]
  obtain ⟨c, z, hwrite, -, hz, hread⟩ := hall (roomyFile (2 * least + 1)) (roomyFile_good _)
  have hgood := bytewise_good (z ++ [0x7a])
  obtain ⟨e, henough, hdata, -⟩ := @hread true ⟨fun _ => 0, 0, fun _ => (0, 1)⟩
    (fun _ => Int.le_refl 1) _ _ hgood rfl
  have hz : c.f.written = z := hz
  exact ⟨least, c, e, hwrite least (Nat.le_refl _), by rw [hz]; exact henough, hdata⟩

end Qbz2
