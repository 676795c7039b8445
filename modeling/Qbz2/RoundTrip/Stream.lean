/-
  File:      Qbz2/RoundTrip/Stream.lean
  Subject:   What `BZ2_bzCompress` delivers is decompressed to what it was given.

  * `Division.closed` -- a closed block is no larger than the block size, and does not end where a
    count is missing;
  * `StreamOf.roundTrip` -- the decoder takes the stream block by block;
  * `CompressRun.decodes` -- what a run that has ended the stream has delivered is a stream for
    what it has taken;
  * **`codec_roundTrip`** -- in any calls on either side;
  * **`truncated_stream`** -- a proper part of it is never taken for a whole stream.
-/
import Qbz2.Compress.OneShot
import Qbz2.Decompress.Decodes
import Qbz2.RoundTrip.Block

namespace Qbz2

open Transducer Bits RunLength

section

variable [CompressEnv]

/-! ## 1. Closed blocks -/

omit [CompressEnv] in
/-- A block that is full does not end where a count is missing. -/
theorem Holds.end_ne {b : InBlock} {input : List Byte} (h : Holds b input) :
    (runAfter ⟨0, 0⟩ b.bytes).len ≠ 4 := by
  by_cases hch : b.stateInCh < 256
  · rcases h.ready hch with hlen | ⟨hlen, -⟩ <;> omega
  · rw [h.empty hch]
    exact show (0 : Nat) ≠ 4 by decide

/-- Nor does one that has been flushed. -/
theorem Holds.flush_end_ne {b : InBlock} {input : List Byte} (h : Holds b input) :
    (runAfter ⟨0, 0⟩ b.flushRL.bytes).len ≠ 4 := by
  have hbytes : b.flushRL.bytes = (if b.stateInCh < 256 then b.addPairToBlock else b).bytes := rfl
  rw [hbytes]
  by_cases hch : b.stateInCh < 256
  · rw [if_pos hch, (h.addPair hch).2.2.2]
    dsimp only
    split <;> omega
  · rw [if_neg hch]
    exact h.end_ne

/-- **A closed block** is no larger than the block size, and does not end where a count is
    missing. -/
theorem Division.closed {nblockMAX : Nat} {input rest : List Byte}
    {parts : List (InBlock × List Byte)} {b : InBlock}
    (h : Division nblockMAX input parts b rest) :
    (∀ x ∈ parts, (runAfter ⟨0, 0⟩ x.1.bytes).len ≠ 4 ∧ x.1.nblock ≤ nblockMAX + 9) ∧
      b.nblock ≤ nblockMAX + 4 := by
  induction h with
  | start b => exact ⟨fun x hx => absurd hx List.not_mem_nil, Nat.zero_le _⟩
  | @copy input rest parts s s' strm strm' h hmax hc ih =>
    obtain ⟨hlt, _, _, _, rfl⟩ := copyInputStep_some hc
    refine ⟨ih.1, ?_⟩
    have := nblock_addCharToBlock s.input (strm.mem strm.nextIn)
    show (s.input.addCharToBlock (strm.mem strm.nextIn)).nblock ≤ nblockMAX + 4
    omega
  | @full input rest parts b b' h hn hr ih =>
    refine ⟨fun x hx => ?_, Nat.zero_le _⟩
    rcases List.mem_append.mp hx with hx | hx
    · exact ih.1 x hx
    · rw [List.mem_singleton.mp hx]
      exact ⟨h.stands.2.2.end_ne, by have := ih.2; dsimp only; omega⟩
  | @flush input rest parts b b' h hr ih =>
    refine ⟨fun x hx => ?_, Nat.zero_le _⟩
    rcases List.mem_append.mp hx with hx | hx
    · exact ih.1 x hx
    · rw [List.mem_singleton.mp hx]
      have := nblock_flushRL b
      exact ⟨h.stands.2.2.flush_end_ne, by have := ih.2; dsimp only; omega⟩

end

/-! ## 2. The stream -/

/-- What is known of a block that is in the stream, with its part of the input. -/
structure Standing (blockSize100k : Nat) (x : InBlock × List Byte) : Prop where
  stands : Stands x.1 x.2
  ends : (runAfter ⟨0, 0⟩ x.1.bytes).len ≠ 4
  size : x.1.nblock ≤ 100000 * blockSize100k

/-- The decoder between two blocks. -/
structure Between (small : Bool) (blockSize100k : Nat) (blocks : List InBlock) (c : Core FlatMtf) :
    Prop where
  sane : Sane small (c, .parser (.get .blkhdr1))
  size : c.p.blockSize100k = blockSize100k
  combined : c.calculatedCombinedCRC = blocks.foldl nextCombined 0

theorem sane_atStart (small : Bool) : Sane small (atStart small : Core FlatMtf × Point) :=
  (resting_decompressInit .qbz2 small).sane

/-- A block more. -/
theorem Between.block {small : Bool} {blockSize100k : Nat} {blocks : List InBlock} {c : Core FlatMtf}
    (h : Between small blockSize100k blocks c) {b : InBlock} {piece : List Byte}
    (hb : Standing blockSize100k (b, piece)) (hs : Sortable b) {body : List (Nat × Word32)}
    (hbody : BlockBody b body) (rest : List Bool) :
    ∃ c' : Core FlatMtf,
      Steps (bitDecoder .qbz2 small) (c, .parser (.get .blkhdr1)) (writesBits body ++ rest) piece
        (c', .parser (.get .blkhdr1)) rest ∧ Between small blockSize100k (blocks ++ [b]) c' := by
  have hfold : (blocks ++ [b]).foldl nextCombined 0 = nextCombined (blocks.foldl nextCombined 0) b := by
    rw [List.foldl_append]
    rfl
  rcases hbody with ⟨h0, rfl⟩ | ⟨hpos, k, hk, rfl⟩
  · -- nothing is written for a block that is empty
    have hpiece : piece = [] := by
      have hbytes : b.bytes = [] := by
        unfold InBlock.bytes
        rw [h0, bytesAt_zero]
      have hexp : expand b.bytes = piece := hb.stands.expands
      rw [← hexp, hbytes]
      rfl
    subst hpiece
    refine ⟨c, .refl _ _, h.sane, h.size, ?_⟩
    rw [hfold, h.combined, nextCombined, if_neg (by omega)]
  · obtain ⟨c', hsteps, hsize, hcomb⟩ := block_roundTrip hb.stands hs hpos hk hb.ends h.sane
      (by rw [h.size]; exact hb.size) rest
    exact ⟨c', hsteps, sane_steps hsteps h.sane, hsize.trans h.size,
      by rw [hfold, hcomb, h.combined]⟩

/-- **The blocks of a stream, one after the other.** -/
theorem StreamOf.roundTrip (small : Bool) {blockSize100k : Nat} (h1 : 1 ≤ blockSize100k)
    (h9 : blockSize100k ≤ 9) {blocks : List InBlock} {writes : List (Nat × Word32)}
    (h : StreamOf blockSize100k blocks writes) :
    ∀ (parts : List (InBlock × List Byte)), parts.map Prod.fst = blocks →
    (∀ x ∈ parts, Standing blockSize100k x) → blocks ≠ [] → ∀ rest : List Bool,
    ∃ c : Core FlatMtf,
      Steps (bitDecoder .qbz2 small) (atStart small) (writesBits writes ++ rest)
        (parts.map Prod.snd).flatten (c, .parser (.get .blkhdr1)) rest ∧
      Between small blockSize100k blocks c := by
  induction h with
  | empty => exact fun _ _ _ hne => absurd rfl hne
  | @block blocks writes body b h hs hb ih =>
    intro parts hparts hall _ rest
    obtain ⟨front, last, rfl, hfront, hlast⟩ := List.map_eq_append_iff.mp hparts
    obtain ⟨⟨b', piece⟩, rfl, rfl⟩ := List.map_eq_singleton_iff.mp hlast
    have hpiece : ((front ++ [(b', piece)]).map Prod.snd).flatten =
        (front.map Prod.snd).flatten ++ piece := by
      rw [List.map_append, List.flatten_append, List.map_singleton, List.flatten_singleton]
    have hlastOk := hall (b', piece) (List.mem_append_right _ List.mem_cons_self)
    rw [hpiece, writesBits_append, writesBits_append, List.append_assoc, List.append_assoc]
    by_cases hnil : blocks = []
    · -- the header of the stream comes first
      cases h with
      | block => exact absurd hnil (List.append_ne_nil_of_right_ne_nil _ (List.cons_ne_nil _ _))
      | empty =>
        have hf : front = [] := List.map_eq_nil_iff.mp hfront
        subst hf
        have hhead := @header_reads FlatMtf _ .qbz2 small (DState.init small : DState FlatMtf).core
          blockSize100k h1 h9 (writesBits body ++ rest)
        have hstart : Between small blockSize100k []
            { (DState.init small : DState FlatMtf).core with
              p := { (DState.init small : DState FlatMtf).core.p with blockSize100k } } :=
          ⟨sane_steps hhead (sane_atStart small), rfl, rfl⟩
        obtain ⟨c', hsteps, hb'⟩ := hstart.block hlastOk hs hb rest
        exact ⟨c', hhead.trans hsteps, hb'⟩
    · rw [if_neg hnil]
      obtain ⟨c, hsteps, hc⟩ := ih front hfront (fun x hx => hall x (List.mem_append_left _ hx)) hnil
        (writesBits body ++ rest)
      obtain ⟨c', hsteps', hc'⟩ := hc.block hlastOk hs hb rest
      exact ⟨c', hsteps.trans hsteps', hc'⟩

/-! ## 3. The end of a run -/

section

variable [CompressEnv] {blockSize100k : Nat}

/-- `blockNo` only grows. -/
theorem Move.blockNo_le {s s' : EState} {strm strm' : BzStream} (h : Move s strm s' strm')
    (hl : -8 < s.out.bsLive) : s.blockNo ≤ s'.blockNo := by
  cases h with
  | take hs h =>
    obtain ⟨_, _, _, _, rfl⟩ := copyInputStep_some h
    exact Nat.le_refl _
  | flush hs hm he h =>
    obtain ⟨hc, _⟩ := compressBlock_spec (s := { s with input := s.input.flushRL }) hl h
    exact Nat.le_of_eq hc.blockNo.symm
  | close hs hn he h =>
    obtain ⟨hc, _⟩ := compressBlock_spec hl h
    exact Nat.le_of_eq hc.blockNo.symm
  | give hs hn h =>
    obtain ⟨rfl, -⟩ := h
    exact Nat.le_refl _
  | begin hs hp hf => exact Nat.le_succ _

theorem Moves.blockNo_le {s s' : EState} {strm strm' : BzStream} (h : Moves s strm s' strm')
    (hi : LoopOk s strm) : s.blockNo ≤ s'.blockNo := by
  induction h with
  | refl => exact Nat.le_refl _
  | step h _ ih => exact Nat.le_trans (h.blockNo_le hi.live) (ih (h.loopOk hi))

omit [CompressEnv] in
theorem Left.blockNo_le {s s' : EState} {strm : BzStream} {progress : Bool} {r : Ret}
    (h : Left s strm progress r s') : s.blockNo ≤ s'.blockNo := by
  cases h with
  | ran => exact Nat.le_refl _
  | more => exact Nat.le_refl _
  | flushed => exact Nat.le_succ _
  | ended => exact Nat.le_refl _

/-- A block has been begun in every run. -/
theorem CompressRun.blockNo_pos {calls : List Call} {s : EState}
    (h : CompressRun blockSize100k calls s) (h1 : 1 ≤ blockSize100k) : 1 ≤ s.blockNo := by
  induction h with
  | init => exact Nat.le_refl 1
  | call h c hc ih =>
    rcases bzCompress_cases (h.resting h1) hc with ⟨_, _, rfl, _⟩ | ⟨_, p, s₁, hx, hl⟩
    · exact ih
    · have hmoves := hx.moves.blockNo_le hx.start
      rw [enter_eq] at hmoves
      exact Nat.le_trans (Nat.le_trans ih hmoves) hl.blockNo_le

/-- **What a run that has ended the stream has delivered is a stream** for what it has taken. -/
theorem CompressRun.decodes (hsais : SaisSucceeds) (h1 : 1 ≤ blockSize100k) (h9 : blockSize100k ≤ 9)
    {calls : List Call} {s : EState} (h : CompressRun blockSize100k calls s)
    (hend : EndsStream calls) (small : Bool) :
    ∃ u : List Bool,
      Decodes small (calls.flatMap Call.given) (calls.flatMap Call.taken) u ∧ u.length < 8 := by
  obtain ⟨hm, hlast⟩ := h.last h1 hend
  have hr := h.resting h1
  obtain ⟨hs, -, hall⟩ := hr.ended hm
  have hsized := h.sized h1
  obtain ⟨parts, rest, writes, hd, hst, hcomb, hno, sent, hgiven, -, hout⟩ := h.emitted hsais h1 h9
  obtain rfl := hr.nothing_left hm hd
  obtain ⟨k, hk, hbits⟩ := hout hlast
  obtain ⟨hstands, hcat, -⟩ := hd.stands
  obtain ⟨hclosed, -⟩ := hd.closed
  rw [List.append_nil] at hcat
  -- the bytes delivered are the calls of `bsW`, filled up
  rw [hall, show s.numZ = s.out.zbits.length from rfl, List.take_length] at hgiven
  have hne : parts.map Prod.fst ≠ [] := by
    have := h.blockNo_pos h1
    rw [if_neg (by rw [hs]; decide), Nat.add_zero] at hno
    exact List.length_pos_iff.mp (by omega)
  obtain ⟨c, hsteps, hc⟩ := hst.roundTrip small h1 h9 parts rfl
    (fun x hx => ⟨hstands x hx, (hclosed x hx).1, by
      have := (hclosed x hx).2
      rw [hsized.max] at this
      omega⟩) hne (writesBits (trailerWrites s.combinedCRC) ++ List.replicate k false)
  have htrailer := @trailer_reads FlatMtf _ .qbz2 small c s.combinedCRC (List.replicate k false)
  have hboth := hsteps.trans htrailer
  rw [List.append_nil, hcat, ← List.append_assoc, ← writesBits_append, ← hbits, ← hgiven] at hboth
  exact ⟨_, ⟨_, hboth, hc.combined.trans hcomb.symm⟩, by rw [List.length_replicate]; exact hk⟩

/-! ## 4. The codec -/

/-- **The codec, there and back.** For every run of `BZ2_bzCompress` that ends with
    `BZ_STREAM_END`, with any calls of `BZ_RUN`, `BZ_FLUSH` and `BZ_FINISH` and any room, let `x` be
    what it has taken and `z` what it has delivered. In either mode no run of `BZ2_bzDecompress`
    over `z`, however `z` is cut and whatever room there is, returns an error; every call returns;
    what is delivered is the front of `x`; with room in every call, and input as long as there is
    any, `BZ_STREAM_END` is reached, after at most as many calls as there are bytes in `z` and `x`;
    and then exactly `x` has been delivered. -/
theorem codec_roundTrip (hsais : SaisSucceeds) (h1 : 1 ≤ blockSize100k) (h9 : blockSize100k ≤ 9)
    {calls : List Call} {s : EState} (h : CompressRun blockSize100k calls s)
    (hend : EndsStream calls) (small : Bool) {decalls : List DecompressCall} {d : DState FlatMtf}
    {rest : List Byte} (hd : DecompressRun .qbz2 small (calls.flatMap Call.given) decalls d rest) :
    let x := calls.flatMap Call.taken
    let z := calls.flatMap Call.given
    (lastRet decalls = .ok ∨ lastRet decalls = .streamEnd) ∧
    (lastRet decalls = .ok →
      ∀ strm : BzStream, ∃ r d' strm', bzDecompress .qbz2 d strm = some (r, d', strm')) ∧
    delivered decalls <+: x ∧
    (Steady z decalls → z.length + x.length < decalls.length → lastRet decalls = .streamEnd) ∧
    (Finished .qbz2 decalls d rest → lastRet decalls = .streamEnd) ∧
    (lastRet decalls = .streamEnd → delivered decalls = x) := by
  intro x z
  obtain ⟨u, hz, -⟩ := h.decodes hsais h1 h9 hend small
  obtain ⟨hret, hpre, hall, hfin⟩ := hz.run hd
  refine ⟨hret, fun hok strm => ?_, hpre, fun hsteady hlong => hz.reaches hd hsteady hlong, hfin, hall⟩
  obtain ⟨hrest, -, -⟩ := run_sim .qbz2 hd (hd.all_ok hok)
  obtain ⟨r, d', strm', _, _, _, he, _⟩ := bzDecompress_sim .qbz2 hrest strm
  exact ⟨r, d', strm', he⟩

end

/-- A run of one call delivers `oneByteFile`. -/
theorem oneByte_run : ∃ (calls : List Call) (s : EState), @CompressRun sortingEnv 9 calls s ∧
    EndsStream calls ∧ calls.flatMap Call.given = oneByteFile ∧
    calls.flatMap Call.taken = [0x61] := by
  obtain ⟨s, strm', hc, hout, hin, -⟩ := oneByte_compressed
  refine ⟨_, s, @CompressRun.call sortingEnv 9 _ _ _ (@CompressRun.init sortingEnv 9)
    ⟨oneByteRoom, bzFinish, .streamEnd, strm'⟩ hc, rfl, ?_, ?_⟩
  · rw [List.nil_append, List.flatMap_singleton, Call.given]
    dsimp only
    rw [hout]
    rfl
  · rw [List.nil_append, List.flatMap_singleton, Call.taken]
    dsimp only
    rw [hin]
    rfl

/-- So it is a stream. -/
theorem oneByte_decodes (small : Bool) :
    ∃ u : List Bool, Decodes small oneByteFile [0x61] u ∧ u.length < 8 := by
  let _ : CompressEnv := sortingEnv
  obtain ⟨calls, s, h, hend, hgiven, htaken⟩ := oneByte_run
  have hz := h.decodes sortingEnv_succeeds (by decide) (by decide) hend small
  rwa [hgiven, htaken] at hz

/-- All of `l`, and room for two bytes. -/
def offeringTwo (l : List Byte) : BzStream := { offering l with availOut := 2 }

theorem input_offeringTwo (l : List Byte) : (offeringTwo l).input = l := by
  show bytesAt (fun a => l.getD a.toNat 0) ((0 : Nat) : Int) l.length = l
  rw [bytesAt_eq_map]
  refine List.ext_getElem (by rw [List.length_map, List.length_range']) fun i h1 h2 => ?_
  rw [List.getElem_map, List.getElem_range', Nat.zero_add, Nat.one_mul, Int.toNat_natCast,
    List.getD_eq_getElem _ _ h2]

/-- One call takes all of it. -/
theorem oneByte_decoded [Build] (small : Bool) : ∃ (d : DState FlatMtf) (strm' : BzStream)
    (rest : List Byte),
    DecompressRun .qbz2 small oneByteFile [⟨offeringTwo oneByteFile, .streamEnd, strm'⟩] d rest ∧
    strm'.out = [0x61] := by
  obtain ⟨u, hz, -⟩ := oneByte_decodes small
  have hin := input_offeringTwo oneByteFile
  obtain ⟨d, strm', hc, hout⟩ := hz.whole hin (show 1 < 2 by decide)
  exact ⟨d, strm', _, .call .init (fun c hc => absurd hc List.not_mem_nil)
    ⟨offeringTwo oneByteFile, .streamEnd, strm'⟩ (by rw [hin]) hc, hout⟩

/-- And so do two, however it is cut. -/
theorem oneByte_decoded_twice [Build] (small : Bool) {n : Nat} (hn : n < 37) (more : List Byte) :
    ∃ (d d' : DState FlatMtf) (s s' : BzStream) (rest : List Byte),
    DecompressRun .qbz2 small (oneByteFile ++ more) [⟨offeringTwo (oneByteFile.take n), .ok, s⟩] d
      (oneByteFile.drop n ++ more) ∧
    DecompressRun .qbz2 small (oneByteFile ++ more) [⟨offeringTwo (oneByteFile.take n), .ok, s⟩,
      ⟨offeringTwo (oneByteFile.drop n ++ more), .streamEnd, s'⟩] d' rest := by
  obtain ⟨u, hz, hu⟩ := oneByte_decodes small
  have hlen : (oneByteFile.take n).length = n := by
    rw [List.length_take, show oneByteFile.length = 37 from rfl]
    omega
  have hin := input_offeringTwo (oneByteFile.take n)
  have hne : (offeringTwo (oneByteFile.take n)).input ≠ oneByteFile := by
    rw [hin]
    intro he
    rw [he] at hlen
    exact absurd hlen (by show ¬ 37 = n; omega)
  obtain ⟨d, s, hc, -, h0⟩ :=
    hz.cut hu (by rw [hin]; exact List.take_prefix n _) hne (show 1 < 2 by decide)
  have hpre : (offeringTwo (oneByteFile.take n)).input <+: oneByteFile ++ more := by
    rw [hin]
    exact (List.take_prefix n _).trans (List.prefix_append _ _)
  have hrun : DecompressRun .qbz2 small (oneByteFile ++ more)
      [⟨offeringTwo (oneByteFile.take n), .ok, s⟩] d _ :=
    .call .init (fun c hc => absurd hc List.not_mem_nil)
      ⟨offeringTwo (oneByteFile.take n), .ok, s⟩ hpre hc
  have hrest : (oneByteFile ++ more).drop
      (DecompressCall.taken ⟨offeringTwo (oneByteFile.take n), .ok, s⟩) =
        oneByteFile.drop n ++ more := by
    have htaken : DecompressCall.taken ⟨offeringTwo (oneByteFile.take n), .ok, s⟩ = n := by
      unfold DecompressCall.taken
      dsimp only
      rw [h0]
      exact hlen
    rw [htaken, List.drop_append_of_le_length (by show n ≤ 37; omega)]
  rw [hrest] at hrun
  have hok : ∀ c ∈ [(⟨offeringTwo (oneByteFile.take n), .ok, s⟩ : DecompressCall)], c.ret = .ok := by
    intro c hc
    rw [List.mem_singleton.mp hc]
  have hin' := input_offeringTwo (oneByteFile.drop n ++ more)
  obtain ⟨d', s', hc'⟩ := (hz.followed more).last hrun hok hin' (show 1 < 2 by decide)
  exact ⟨d, d', s, s', _, hrun, .call hrun hok
    ⟨offeringTwo (oneByteFile.drop n ++ more), .streamEnd, s'⟩ (by rw [hin']) hc'⟩

theorem codec_roundTrip_oneByte : ∃ (calls : List Call) (s : EState) (d : DState FlatMtf)
    (strm' : BzStream) (rest : List Byte), @CompressRun sortingEnv 9 calls s ∧
    @DecompressRun _ _ sortingEnv.toBuild .qbz2 true (calls.flatMap Call.given)
      [⟨offeringTwo (calls.flatMap Call.given), .streamEnd, strm'⟩] d rest ∧
    delivered [⟨offeringTwo (calls.flatMap Call.given), .streamEnd, strm'⟩] = [0x61] := by
  let _ : CompressEnv := sortingEnv
  obtain ⟨calls, s, h, hend, hgiven, htaken⟩ := oneByte_run
  obtain ⟨d, strm', rest, hrun, -⟩ := oneByte_decoded true
  rw [← hgiven] at hrun
  have hall := codec_roundTrip sortingEnv_succeeds (by decide) (by decide) h hend true hrun
  exact ⟨calls, s, d, strm', rest, h, hrun, (hall.2.2.2.2.2 rfl).trans htaken⟩

/-! ## 5. A part of a stream -/

/-- **A stream that has been cut off** is not taken for a whole one, and not for a corrupt one: for
    every run of `BZ2_bzCompress` that ends with `BZ_STREAM_END` and every proper part at the front
    of what it has delivered, `BZ2_bzBuffToBuffDecompress` of it into a buffer larger than the input
    returns `BZ_UNEXPECTED_EOF` in either mode, and leaves `*destLen` unchanged. -/
theorem truncated_stream [CompressEnv] (hsais : SaisSucceeds) {blockSize100k : Nat}
    (h1 : 1 ≤ blockSize100k) (h9 : blockSize100k ≤ 9) {calls : List Call} {s : EState}
    (h : CompressRun blockSize100k calls s) (hend : EndsStream calls) (small : Bool)
    {strm : BzStream} (hpre : strm.input <+: calls.flatMap Call.given)
    (hne : strm.input ≠ calls.flatMap Call.given)
    (hroom : (calls.flatMap Call.taken).length < strm.availOut) :
    ∃ out : List Byte, bzBuffToBuffDecompress FlatMtf .qbz2 strm small =
      some (.unexpectedEof, out, strm.availOut) := by
  obtain ⟨u, hz, hu⟩ := h.decodes hsais h1 h9 hend small
  have hinit : strm.decompressInit.input <+: calls.flatMap Call.given := hpre
  obtain ⟨d, strm', hc, hpos, -⟩ := hz.cut hu hinit hne hroom
  refine ⟨strm'.out, ?_⟩
  unfold bzBuffToBuffDecompress
  rw [hc]
  exact if_pos hpos

/-- Without its last byte, and up to the middle of the block. -/
theorem truncated_stream_oneByte : (∃ out : List Byte,
    @bzBuffToBuffDecompress sortingEnv.toBuild FlatMtf _ .qbz2 (offeringTwo (oneByteFile.take 36))
      false = some (.unexpectedEof, out, 2)) ∧
    ∃ out : List Byte,
    @bzBuffToBuffDecompress sortingEnv.toBuild FlatMtf _ .qbz2 (offeringTwo (oneByteFile.take 26))
      true = some (.unexpectedEof, out, 2) := by
  let _ : CompressEnv := sortingEnv
  obtain ⟨calls, s, h, hend, hgiven, htaken⟩ := oneByte_run
  have hcut : ∀ (n : Nat) (small : Bool), n < 37 → ∃ out : List Byte,
      bzBuffToBuffDecompress FlatMtf .qbz2 (offeringTwo (oneByteFile.take n)) small =
        some (.unexpectedEof, out, 2) := by
    intro n small hn
    refine truncated_stream sortingEnv_succeeds (by decide) (by decide) h hend small ?_ ?_ ?_
    · rw [hgiven, input_offeringTwo]
      exact List.take_prefix _ _
    · rw [hgiven, input_offeringTwo]
      intro he
      have hlen := congrArg List.length he
      rw [List.length_take, show oneByteFile.length = 37 from rfl] at hlen
      omega
    · rw [htaken]
      exact show 1 < 2 by decide
  exact ⟨hcut 36 false (by decide), hcut 26 true (by decide)⟩

end Qbz2
