/-
  File:      Qbz2/Compress/Returns.lean
  Subject:   No internal assertion fails while compressing: every call of `BZ2_bzCompress` returns.

  * `Sized` -- the block never outgrows `nblockMAX` by more than a run when it is full, and another
    when it is flushed; `CompressRun.sized` -- in every run;
  * `closing_sortable` -- what `BZ2_compressBlock` is called with can be sorted and coded;
  * **`bzCompress_returns`**;
  * `naiveSais` -- a `libsais` that sorts the suffixes.
-/
import Qbz2.Compress.Emission

namespace Qbz2

/-! ## 1. The size of the block -/

section

variable [CompressEnv]

theorem nblock_addPairToBlock (b : InBlock) : b.addPairToBlock.nblock ≤ b.nblock + 5 := by
  unfold InBlock.addPairToBlock
  dsimp only
  split
  · exact Nat.le_add_right (b.nblock + 1) 4
  · exact Nat.le_add_right (b.nblock + 2) 3
  · exact Nat.le_add_right (b.nblock + 3) 2
  · exact Nat.le_refl _

theorem nblock_flushRL (b : InBlock) : b.flushRL.nblock ≤ b.nblock + 5 := by
  have := nblock_addPairToBlock b
  unfold InBlock.flushRL InBlock.initRL
  dsimp only
  split
  · exact this
  · omega

theorem nblock_addCharToBlock (b : InBlock) (c : Byte) :
    (b.addCharToBlock c).nblock ≤ b.nblock + 5 := by
  have := nblock_addPairToBlock b
  unfold InBlock.addCharToBlock
  dsimp only
  split
  · exact Nat.le_add_right (b.nblock + 1) 4
  · split
    · dsimp only
      split
      · exact this
      · omega
    · exact Nat.le_add_right _ _

/-- The size of the block, while it is filled and afterwards. -/
structure Sized (blockSize100k : Nat) (s : EState) : Prop where
  size : s.blockSize100k = blockSize100k
  max : s.nblockMAX = 100000 * blockSize100k - 19
  full : s.input.nblock ≤ s.nblockMAX + 9
  filling : s.state = .input → s.input.nblock ≤ s.nblockMAX + 4

variable {blockSize100k : Nat}

/-- **A move keeps the block within bounds.** -/
theorem Move.sized {s s' : EState} {strm strm' : BzStream} (h : Move s strm s' strm')
    (hi : LoopOk s strm) (hz : Sized blockSize100k s) : Sized blockSize100k s' := by
  cases h with
  | take hs h =>
    obtain ⟨hlt, _, _, rfl, rfl⟩ := copyInputStep_some h
    have hadd := nblock_addCharToBlock s.input (strm.mem strm.nextIn)
    refine ⟨hz.size, hz.max, ?_, fun _ => ?_⟩
    · dsimp only
      omega
    · dsimp only
      omega
  | flush hs hm he h =>
    obtain ⟨hc, -⟩ := compressBlock_spec (s := { s with input := s.input.flushRL }) hi.live h
    have hfl := nblock_flushRL s.input
    have hn := hc.nblock
    have hfill := hz.filling hs
    have hmax := hc.nblockMAX
    dsimp only at hn hmax
    refine ⟨hc.blockSize100k.trans hz.size, hmax.trans hz.max, ?_, fun ho => (by cases ho)⟩
    dsimp only
    omega
  | close hs hn he h =>
    obtain ⟨hc, -⟩ := compressBlock_spec hi.live h
    have hn := hc.nblock
    have hfill := hz.filling hs
    have hmax := hc.nblockMAX
    refine ⟨hc.blockSize100k.trans hz.size, hmax.trans hz.max, ?_, fun ho => (by cases ho)⟩
    dsimp only
    omega
  | give hs hn h =>
    obtain ⟨rfl, -⟩ := h
    exact ⟨hz.size, hz.max, hz.full, hz.filling⟩
  | begin hs hp hf =>
    exact ⟨hz.size, hz.max, Nat.zero_le _, fun _ => Nat.zero_le _⟩

theorem Moves.sized {s s' : EState} {strm strm' : BzStream} (h : Moves s strm s' strm')
    (hi : LoopOk s strm) (hz : Sized blockSize100k s) : Sized blockSize100k s' := by
  induction h with
  | refl => exact hz
  | step h _ ih => exact ih (h.loopOk hi) (h.sized hi hz)

omit [CompressEnv] in
theorem sized_enter {s : EState} (hz : Sized blockSize100k s) (strm : BzStream) (action : Int) :
    Sized blockSize100k (enter s strm action) := by
  rw [enter_eq]
  exact ⟨hz.size, hz.max, hz.full, hz.filling⟩

omit [CompressEnv] in
theorem Left.sized {s s' : EState} {strm : BzStream} {progress : Bool} {r : Ret}
    (h : Left s strm progress r s') (hz : Sized blockSize100k s) : Sized blockSize100k s' := by
  cases h with
  | ran => exact hz
  | more => exact hz
  | flushed => exact ⟨hz.size, hz.max, Nat.zero_le _, fun _ => Nat.zero_le _⟩
  | ended => exact ⟨hz.size, hz.max, hz.full, hz.filling⟩

/-- **In every run the block stays within bounds.** -/
theorem CompressRun.sized {calls : List Call} {s : EState} (h : CompressRun blockSize100k calls s)
    (h1 : 1 ≤ blockSize100k) : Sized blockSize100k s := by
  induction h with
  | init => exact ⟨rfl, rfl, Nat.zero_le _, fun _ => Nat.zero_le _⟩
  | call h c hc ih =>
    rcases bzCompress_cases (h.resting h1) hc with ⟨_, _, rfl, _⟩ | ⟨_, p, s₁, hx, hl⟩
    · exact ih
    · exact hl.sized (hx.moves.sized hx.start (sized_enter ih c.strm c.action))

/-! ## 2. What is compressed -/

/-- **A block that is closed can be sorted and coded.** -/
theorem closing_sortable {s : EState} (h9 : blockSize100k ≤ 9) (h1 : 1 ≤ blockSize100k)
    (hz : Sized blockSize100k s) (hs : s.state = .input) {input rest : List Byte}
    {parts : List (InBlock × List Byte)} (hd : Divided s input parts rest) {c : EState × Bool}
    (hc : s.closing = some c) : Sortable c.1.input := by
  obtain ⟨-, -, hb⟩ := hd.stands
  rw [if_pos hs] at hb
  have hmax := hz.max
  have hfill := hz.filling hs
  unfold EState.closing at hc
  split at hc
  · cases hc
    have hfl := nblock_flushRL s.input
    exact ⟨by dsimp only; omega, hb.settle.2.2⟩
  · split at hc
    · cases hc
      exact ⟨by dsimp only; omega, hb.inUse⟩
    · cases hc

/-- A call that the protocol allows returns: the block that would keep it can be sorted and coded. -/
theorem accepted_returns (hsais : SaisSucceeds) (h1 : 1 ≤ blockSize100k) (h9 : blockSize100k ≤ 9)
    {calls : List Call} {s : EState} (h : CompressRun blockSize100k calls s) {strm : BzStream}
    {action : Int} (ha : Accepts s strm action) :
    ∃ r s' strm', bzCompress s strm action = .ok (r, s', strm') := by
  have hr := h.resting h1
  rcases bzCompress_ends hr ha with ⟨_, _, r, s', strm', he, _⟩ | ⟨e, _, s₁, strm₁, c, hm, hs, hc, he⟩
  · exact ⟨r, s', strm', he⟩
  · have hi := (hr.enter ha).1
    obtain ⟨_, _, hd⟩ := bzCompress_division h h1
    obtain ⟨_, _, hd₁⟩ := hm.divided hi (divided_enter hd strm action)
    have hz := hm.sized hi (sized_enter (h.sized h1) strm action)
    obtain ⟨_, _, hok, -⟩ := compressBlock_ok hsais c.2 (closing_sortable h9 h1 hz hs hd₁ hc)
    rw [hok] at he
    cases he

/-- **No assertion fails, and no loop runs on**: in every run from `BZ2_bzCompressInit`, every call
    of `BZ2_bzCompress` returns, with any input and any room for output, as long as `malloc` and
    `libsais` do not fail. -/
theorem bzCompress_returns (hsais : SaisSucceeds) (h1 : 1 ≤ blockSize100k) (h9 : blockSize100k ≤ 9)
    {calls : List Call} {s : EState} (h : CompressRun blockSize100k calls s) (strm : BzStream)
    (action : Int) : ∃ r s' strm', bzCompress s strm action = .ok (r, s', strm') := by
  by_cases ha : Accepts s strm action
  · exact accepted_returns hsais h1 h9 h ha
  · obtain ⟨r, _, he⟩ := bzCompress_refused ha
    exact ⟨r, s, strm, he⟩

end

/-! ## 3. A `libsais` that sorts -/

/-- The suffixes of a text, in order. -/
def sortedSuffixes (text : List Byte) : List Nat :=
  (List.range text.length).mergeSort fun p q => decide (suffix text p ≤ suffix text q)

/-- `libsais`, by comparing the suffixes. -/
def naiveSais (text : List Byte) : Int × Cells Int :=
  (0, .ofFn fun i => ((sortedSuffixes text).getD i.toNat 0 : Nat))

theorem naiveSais_sorts (text : List Byte) : SuffixArray text (naiveSais text).2 := by
  have hperm : (sortedSuffixes text).Perm (List.range text.length) := List.mergeSort_perm _ _
  have hlen : (sortedSuffixes text).length = text.length := by
    rw [hperm.length_eq, List.length_range]
  have hget : ∀ i : Nat, (h : i < (sortedSuffixes text).length) →
      (naiveSais text).2 i = ((sortedSuffixes text)[i] : Nat) := by
    intro i h
    show (((sortedSuffixes text).getD i 0 : Nat) : Int) = _
    rw [List.getD_eq_getElem _ _ h]
  have hlt : ∀ i : Nat, (h : i < (sortedSuffixes text).length) →
      (sortedSuffixes text)[i] < text.length := fun i h =>
    List.mem_range.mp (hperm.mem_iff.mp (List.getElem_mem h))
  refine ⟨fun i hi => ?_, fun j hj i hij => ?_⟩
  · have := hlt i (by omega)
    rw [hget i (by omega)]
    omega
  · have hi' : i < (sortedSuffixes text).length := by omega
    have hj' : j < (sortedSuffixes text).length := by omega
    rw [hget i hi', hget j hj']
    have hle : (sortedSuffixes text).Pairwise fun p q : Nat => decide (suffix text p ≤ suffix text q) := by
      refine List.pairwise_mergeSort (fun a b c h1 h2 => ?_) (fun a b => ?_) _
      · exact decide_eq_true (le_trans (of_decide_eq_true h1) (of_decide_eq_true h2))
      · rcases le_total (suffix text a) (suffix text b) with h | h
        · simp [h]
        · simp [h]
    have hord := of_decide_eq_true (List.pairwise_iff_getElem.mp hle i j (by omega) (by omega) hij)
    refine lt_of_le_of_ne hord fun he => ?_
    -- suffixes of one length start at one place
    have hlens := congrArg List.length he
    have h1 := hlt i (by omega)
    have h2 := hlt j (by omega)
    simp only [suffix, List.length_map, List.length_drop, Int.toNat_natCast] at hlens
    have hsame : (sortedSuffixes text)[i] = (sortedSuffixes text)[j] := by omega
    have hnd : (sortedSuffixes text).Nodup := hperm.nodup_iff.mpr List.nodup_range
    have := (List.Nodup.getElem_inj_iff hnd).mp hsame
    omega

/-- A build with SSE2, and a `libsais` that never fails. -/
@[reducible] def sortingEnv : CompressEnv :=
  { pclmul := true, bufAddr := 0, sse2 := true, sais := ⟨true, true, naiveSais⟩ }

theorem sortingEnv_succeeds : @SaisSucceeds sortingEnv :=
  fun block n _ _ => ⟨rfl, rfl, rfl, naiveSais_sorts (doubled block n)⟩

theorem bzCompress_returns_oneByte :
    ∃ r s' strm', @bzCompress sortingEnv (EState.init 9) oneByteStream bzFinish = .ok (r, s', strm') :=
  @bzCompress_returns sortingEnv 9 sortingEnv_succeeds (by decide) (by decide) [] (EState.init 9)
    (@CompressRun.init sortingEnv 9) oneByteStream bzFinish

end Qbz2
