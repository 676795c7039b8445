/-
  File:      Qbz2/Decompress/Decodes.lean
  Subject:   What a run of `BZ2_bzDecompress` does on an input that holds a whole stream.

  * `Decodes small z x u` -- the machine takes the stream at the front of `z`, gives out `x` and has
    the bits `u` left;
  * `Decodes.run` -- no call on the way returns an error, and what is delivered is the front of `x`;
    `Decodes.call` -- and what a call does then;
  * `Steady` -- every call has room, and input as long as there is any; `DecompressRun.progress`:
    then every call that returns `BZ_OK` takes or delivers a byte;
  * **`Decodes.reaches`** -- and so the run reaches `BZ_STREAM_END`;
  * `Decodes.whole`, `Decodes.held` -- one call with the stream and enough room ends it, and with
    too little it stops in a block; `Decodes.last` -- so does one with the rest of it;
    `Decodes.cut` -- a part of the stream is taken as far as it goes.
-/
import Qbz2.Decompress.Rest

namespace Qbz2

open Transducer Bits

/-! ## 1. Streams -/

/-- **The stream at the front of `z` stands for `x`**, and the bits `u` follow it. -/
def Decodes (small : Bool) (z x : List Byte) (u : List Bool) : Prop :=
  ∃ c : Core FlatMtf,
    Steps (bitDecoder .qbz2 small) (atStart small) (bytesBits z) x (c, .parser (.ret .streamEnd)) u ∧
    c.calculatedCombinedCRC = c.p.storedCombinedCRC

/-- The machine has come to its end there. -/
theorem decodes_halt {small : Bool} {c : Core FlatMtf}
    (h : c.calculatedCombinedCRC = c.p.storedCombinedCRC) :
    bitDecoder .qbz2 small (c, .parser (.ret .streamEnd)) = .halt .streamEnd :=
  if_neg (not_not_intro h)

/-- What follows a stream has no part in it. -/
theorem Decodes.followed {small : Bool} {z x : List Byte} {u : List Bool} (h : Decodes small z x u)
    (more : List Byte) : Decodes small (z ++ more) x (u ++ bytesBits more) := by
  obtain ⟨c, hs, hcrc⟩ := h
  refine ⟨c, ?_, hcrc⟩
  rw [bytesBits_append]
  exact hs.extend _

/-- A valid stream, padded to whole bytes, and what it stands for. -/
def ValidStream (z x : List Byte) : Prop := ∃ u, Decodes false z x u ∧ u.length < 8

/-- The two modes take the same streams. -/
theorem Decodes.either {small : Bool} {z x : List Byte} {u : List Bool} (h : Decodes small z x u)
    (small' : Bool) : Decodes small' z x u := by
  obtain ⟨c, hs, hcrc⟩ := h
  have hstart : TwinState (Eq : FlatMtf → FlatMtf → Prop) small small' (atStart small)
      (atStart small') := ⟨⟨rfl, rfl, fun _ => rfl, fun h => h.elim⟩, trivial⟩
  obtain ⟨⟨c', pt⟩, hs', htwin⟩ := hs.simulate (bitDecoder_twin mtfSim_eq .qbz2 .qbz2) hstart
  cases pt with
  | output => exact htwin.elim
  | parser ctl =>
    obtain ⟨ht, -⟩ := htwin
    obtain rfl : ctl = .ret .streamEnd := ht.ctl
    refine ⟨c', hs', ?_⟩
    rw [show c'.p = c.p from ht.parse nofun]
    exact ht.combined.trans hcrc

/-- In the middle of the stream the machine has the bits it asks for. -/
theorem Decodes.has_bits {small : Bool} {z x : List Byte} {u : List Bool} (hz : Decodes small z x u)
    {w : List Byte} {d : DState FlatMtf} {l : Label} {t : List Bool}
    (hs : Steps (bitDecoder .qbz2 small) (atStart small) (bytesBits z) w (d.core, d.point) t)
    (hst : d.state = .parsing l) : l.nbits ≤ t.length := by
  obtain ⟨c, hs', hcrc⟩ := hz
  have hhalt := @decodes_halt small _ hcrc
  by_contra hlt
  have hnode : bitDecoder .qbz2 small (d.core, d.point) = .read l.nbits
      fun bits => standing (d.core.resume .qbz2 small l (bitsVal bits)) := by
    rw [point_parsing hst]
    rfl
  obtain ⟨-, hy, -⟩ := hs'.unique (.halted hhalt) hs (.starved hnode (by omega))
  rw [← hy, hhalt] at hnode
  cases hnode

/-- A decoder that is starved of bits has too few on its tape when the input is used up. -/
theorem starved_short {d : DState FlatMtf} (hd : d.Resting .qbz2) {l : Label}
    (hst : d.state = .parsing l) {strm : BzStream} (h0 : strm.availIn = 0) :
    (tape d.bits strm).length < l.nbits := by
  have hempty : strm.input = [] := by
    unfold BzStream.input
    rw [h0]
    rfl
  rw [tape, hempty, bytesBits_nil, List.append_nil, BitBuf.length_bits]
  exact hd.starved l hst

section

variable [Build] {small : Bool} {z x : List Byte} {u : List Bool} {calls : List DecompressCall}
  {d : DState FlatMtf} {rest : List Byte}

/-! ## 2. Calls -/

/-- **No call on the way returns an error**, and what is delivered is the front of `x`; a run to its
    end has delivered all of it and ends with `BZ_STREAM_END`. -/
theorem Decodes.run (hz : Decodes small z x u) (h : DecompressRun .qbz2 small z calls d rest) :
    (lastRet calls = .ok ∨ lastRet calls = .streamEnd) ∧ delivered calls <+: x ∧
      (lastRet calls = .streamEnd → delivered calls = x) ∧
      (Finished .qbz2 calls d rest → lastRet calls = .streamEnd) := by
  obtain ⟨c, hs, hcrc⟩ := hz
  have hhalt := @decodes_halt small _ hcrc
  -- a call that ends the run has come to the same end
  have hends : lastRet calls ≠ .ok → lastRet calls = .streamEnd ∧ delivered calls = x := by
    intro hne
    obtain ⟨w, y, v, hs', hM, hw⟩ := run_halts .qbz2 h hne
    obtain ⟨rfl, rfl, rfl⟩ := hs.unique (.halted hhalt) hs' (.halted hM)
    have hret : lastRet calls = .streamEnd := Node.halt.inj (hM.symm.trans hhalt)
    exact ⟨hret, (hw hret).symm⟩
  have hfin : Finished .qbz2 calls d rest → lastRet calls = .streamEnd := by
    intro hf
    obtain ⟨w, y, v, hs', hstuck, hret, -⟩ := finished_stuck .qbz2 h hf
    obtain ⟨rfl, rfl, rfl⟩ := hs.unique (.halted hhalt) hs' hstuck
    rw [hret, hhalt]
    rfl
  refine ⟨?_, ?_, fun hr => (hends (by rw [hr]; decide)).2, hfin⟩
  · by_cases hok : lastRet calls = .ok
    · exact .inl hok
    · exact .inr (hends hok).1
  · by_cases hok : lastRet calls = .ok
    · obtain ⟨-, -, hs'⟩ := run_sim .qbz2 h (h.all_ok hok)
      rcases hs.confluent hs' with ⟨w, hw, he⟩ | ⟨w, -, he⟩
      · obtain ⟨rfl, -, -⟩ := hw.of_stuck (.halted hhalt)
        rw [he, List.append_nil]
      · rw [he]
        exact List.prefix_append _ _
    · rw [(hends hok).2]

/-- The bytes of a stream are `z`, whatever follows. -/
theorem Decodes.ends (hz : Decodes small z x u) (hu : u.length < 8) {more : List Byte}
    (h : DecompressRun .qbz2 small (z ++ more) calls d rest) (hend : lastRet calls = .streamEnd) :
    rest = more := by
  obtain ⟨c, hs, hcrc⟩ := hz.followed more
  obtain ⟨y, v, hs', hy, hlen⟩ := ended_rest .qbz2 h hend
  obtain ⟨-, -, rfl⟩ := hs.unique (.halted (@decodes_halt small _ hcrc)) hs' (.halted hy)
  obtain ⟨hdrop, hle⟩ := run_rest h
  rw [List.length_append, length_bytesBits] at hlen
  have hall := congrArg List.length hdrop
  rw [List.length_drop, List.length_append] at hall
  rw [List.length_append] at hle
  rw [hdrop, show (calls.map DecompressCall.taken).sum = z.length by omega, List.drop_left]

/-- **A run to `BZ_STREAM_END` that leaves nothing of its input** has read a valid stream. -/
theorem validStream_of_run (h : DecompressRun .qbz2 small z calls d [])
    (hend : lastRet calls = .streamEnd) : ValidStream z (delivered calls) := by
  obtain ⟨u, hs, hcrc⟩ := run_ended .qbz2 h hend
  obtain ⟨y, v, hs', hy, hlen⟩ := ended_rest .qbz2 h hend
  obtain ⟨-, -, rfl⟩ := hs.unique (.halted (@decodes_halt small _ hcrc)) hs' (.halted hy)
  rw [List.length_nil] at hlen
  exact ⟨u, Decodes.either ⟨_, hs, hcrc⟩ false, by omega⟩

/-- Every call has room, and is offered input as long as there is any. -/
def Steady (z : List Byte) (calls : List DecompressCall) : Prop :=
  ∀ (before : List DecompressCall) (c : DecompressCall) (after : List DecompressCall),
    calls = before ++ c :: after → 1 ≤ c.strm.availOut ∧
      ((before.map DecompressCall.taken).sum < z.length → 1 ≤ c.strm.availIn)

omit [Build] in
theorem Steady.front {calls more : List DecompressCall} (h : Steady z (calls ++ more)) :
    Steady z calls := by
  intro before c after he
  exact h before c (after ++ more) (by rw [he, List.append_assoc, List.cons_append])

/-- **A call in the middle of a stream** returns `BZ_OK` or `BZ_STREAM_END`, hands back no more than
    it has taken, and where it returns `BZ_OK` with room left, input is still to come. -/
theorem Decodes.call (hz : Decodes small z x u) (h : DecompressRun .qbz2 small z calls d rest)
    (hok : ∀ c ∈ calls, c.ret = .ok) {c : DecompressCall} {d' : DState FlatMtf}
    (hoffer : c.strm.input <+: rest) (hc : bzDecompress .qbz2 d c.strm = some (c.ret, d', c.strm')) :
    Served c.strm c.strm' c.given ∧ c.strm'.availIn ≤ c.strm.availIn ∧
      (c.ret = .ok ∧ (c.strm'.availOut = 0 ∨ c.strm'.availIn = 0 ∧ rest.drop c.taken ≠ []) ∨
        c.ret = .streamEnd) := by
  have hret := (hz.run (h.call hok c hoffer hc)).1
  rw [lastRet_concat] at hret
  obtain ⟨hd, rfl, hs₀⟩ := run_sim .qbz2 h hok
  obtain ⟨more, hmore⟩ := hoffer
  obtain ⟨w, y, v, hs', hown, hC, -⟩ := call_sim .qbz2 hd hmore.symm hc
  rcases hret with hret | hret
  · rw [hret] at hC
    cases hC with
    | full hserved hle _ h0 _ =>
      rw [hserved.given]
      exact ⟨hserved, hle, .inl ⟨hret, .inl h0⟩⟩
    | starved hserved hle hd' hst h0 =>
      refine ⟨hserved.given ▸ hserved, hle, .inl ⟨hret, .inr ⟨h0, fun hnil => ?_⟩⟩⟩
      have hdrop : rest.drop c.taken = c.strm'.input ++ more := by
        rw [← hmore]
        exact rest_drop hserved hle
      obtain ⟨-, rfl⟩ := List.append_eq_nil_iff.mp (hdrop.symm.trans hnil)
      rw [bytesBits_nil, List.append_nil] at hs'
      have hbits := hz.has_bits (hs₀.trans hs') hst
      have hshort := starved_short hd' hst h0
      omega
    | failed _ _ _ _ hne _ => exact absurd rfl hne
  · rw [hret] at hC
    cases hC with
    | failed _ _ _ _ _ hne => exact absurd rfl hne
    | ended hserved _ hgive _ =>
      have hall := hserved.trans (giveBack_served hgive)
      rw [List.append_nil] at hall
      rw [hall.given]
      exact ⟨hall, (ended_forward hd hown hgive).1, .inr hret⟩

/-- **A call that returns `BZ_OK` takes or delivers a byte**, if it has room, and input or nothing
    left to wait for. -/
theorem Decodes.moves (hz : Decodes small z x u) (h : DecompressRun .qbz2 small z calls d rest)
    (hok : ∀ c ∈ calls, c.ret = .ok) {c : DecompressCall} {d' : DState FlatMtf}
    (hoffer : c.strm.input <+: rest) (hc : bzDecompress .qbz2 d c.strm = some (c.ret, d', c.strm'))
    (hret : c.ret = .ok) (hroom : 1 ≤ c.strm.availOut) (hin : rest ≠ [] → 1 ≤ c.strm.availIn) :
    1 ≤ c.taken + c.given.length := by
  obtain ⟨hserved, -, hcase⟩ := hz.call h hok hoffer hc
  rcases hcase with ⟨-, h0 | ⟨h0, hleft⟩⟩ | hend
  · have hav := hserved.availOut
    omega
  · have htaken : c.taken = c.strm.availIn := by
      unfold DecompressCall.taken
      omega
    have := hin fun hnil => hleft (by rw [hnil, List.drop_nil])
    omega
  · rw [hret] at hend
    cases hend

/-- The calls of a steady run that returned `BZ_OK` are no more than the bytes they moved. -/
theorem Decodes.count (hz : Decodes small z x u) (h : DecompressRun .qbz2 small z calls d rest)
    (hsteady : Steady z calls) (hok : ∀ c ∈ calls, c.ret = .ok) :
    calls.length ≤ (calls.map DecompressCall.taken).sum + (delivered calls).length := by
  induction h with
  | init => exact Nat.zero_le _
  | @call calls d d' rest h hok' c hoffer hc ih =>
    obtain ⟨hrest, hle⟩ := run_rest h
    obtain ⟨hroom, hin⟩ := hsteady calls c [] rfl
    have hmoves := hz.moves h hok' hoffer hc (hok c (List.mem_append_right _ List.mem_cons_self)) hroom
      (fun hne => hin (by
        by_contra hge
        exact hne (by rw [hrest]; exact List.drop_eq_nil_of_le (by omega))))
    have hcount := ih hsteady.front hok'
    rw [List.length_append, List.length_singleton, List.map_append, List.sum_append,
      List.map_singleton, List.sum_singleton, delivered_concat, List.length_append]
    omega

/-- **A steady run reaches `BZ_STREAM_END`**: at most as many calls return `BZ_OK` as there are
    bytes to take and to deliver. -/
theorem Decodes.reaches (hz : Decodes small z x u) (h : DecompressRun .qbz2 small z calls d rest)
    (hsteady : Steady z calls) (hlong : z.length + x.length < calls.length) :
    lastRet calls = .streamEnd := by
  obtain ⟨hret, hpre, -⟩ := hz.run h
  refine hret.resolve_left fun hok => ?_
  have hcount := hz.count h hsteady (h.all_ok hok)
  have htaken := (run_rest h).2
  have hgiven := hpre.length_le
  omega

/-! ## 3. One call -/

/-- A call from the start: on more input it would do the same, and it gives out no more than `x`. -/
theorem Decodes.first (hz : Decodes small z x u) {strm : BzStream} (hpre : strm.input <+: z) :
    ∃ (r : Ret) (d' : DState FlatMtf) (strm' : BzStream) (w : List Byte) (y : Core FlatMtf × Point)
      (v : List Bool) (more : List Byte),
      bzDecompress .qbz2 (DState.init small) strm = some (r, d', strm') ∧
      strm.input ++ more = z ∧ Steps (bitDecoder .qbz2 small) (atStart small) (bytesBits z) w y
        (v ++ bytesBits more) ∧ CallEnds .qbz2 small strm r d' strm' w y v ∧ w <+: x := by
  obtain ⟨e, hs, hcrc⟩ := hz
  obtain ⟨more, hmore⟩ := hpre
  obtain ⟨r, d', strm', w, y, v, he, hsim, hC, -⟩ :=
    bzDecompress_sim .qbz2 (@resting_decompressInit FlatMtf _ .qbz2 small) strm
  have hext : Steps (bitDecoder .qbz2 small) (atStart small) (bytesBits z) w y
      (v ++ bytesBits more) := by
    rw [← hmore, bytesBits_append]
    exact Steps.extend hsim _
  refine ⟨r, d', strm', w, y, v, more, he, hmore, hext, hC, ?_⟩
  rcases hs.confluent hext with ⟨w', hw, he⟩ | ⟨w', -, he⟩
  · obtain ⟨rfl, -, -⟩ := hw.of_stuck (.halted (decodes_halt hcrc))
    rw [he, List.append_nil]
  · rw [he]
    exact List.prefix_append _ _

/-- **A call on a whole stream** ends it, or it has used up its room and holds the rest of a block
    back. -/
theorem Decodes.answers (hz : Decodes small z x u) {strm : BzStream} (hin : strm.input = z) :
    ∃ (r : Ret) (d : DState FlatMtf) (strm' : BzStream),
      bzDecompress .qbz2 (DState.init small) strm = some (r, d, strm') ∧
      (r = .ok ∧ d.state = .output ∧ strm.availOut ≤ x.length ∨
        r = .streamEnd ∧ strm'.out = strm.out ++ x ∧ x.length ≤ strm.availOut) := by
  have hpre : strm.input <+: z := by rw [hin]
  obtain ⟨r, d', strm', w, y, v, more, he, hmore, hext, hC, hwx⟩ := hz.first hpre
  have ⟨e, hs, hcrc⟩ := hz
  have hhalt := @decodes_halt small _ hcrc
  have hnil : more = [] := by
    rw [hin] at hmore
    exact List.append_right_eq_self.mp hmore
  rw [hnil, bytesBits_nil, List.append_nil] at hext
  have hlen := hwx.length_le
  refine ⟨r, d', strm', he, ?_⟩
  cases hC with
  | full hserved _ _ h0 hst =>
    have := hserved.availOut
    exact .inl ⟨rfl, hst, by omega⟩
  | starved hserved _ hd' hst h0 =>
    have hbits := hz.has_bits hext hst
    have hshort := starved_short hd' hst h0
    omega
  | failed _ _ _ hh _ hend =>
    obtain ⟨-, rfl, -⟩ := hs.unique (.halted hhalt) hext (.halted hh)
    exact absurd (Node.halt.inj (hh.symm.trans hhalt)) hend
  | ended hserved _ hgive hcrc' =>
    obtain ⟨rfl, -, -⟩ := hs.unique (.halted hhalt) hext (.halted (decodes_halt hcrc'))
    have hout := (hserved.trans (giveBack_served hgive)).out
    have hroom := hserved.availOut
    rw [List.append_nil] at hout
    exact .inr ⟨rfl, hout, by omega⟩

/-- With room for more than the stream stands for, it ends the stream. -/
theorem Decodes.whole (hz : Decodes small z x u) {strm : BzStream} (hin : strm.input = z)
    (hroom : x.length < strm.availOut) :
    ∃ (d : DState FlatMtf) (strm' : BzStream),
      bzDecompress .qbz2 (DState.init small) strm = some (.streamEnd, d, strm') ∧
        strm'.out = strm.out ++ x := by
  obtain ⟨r, d, strm', he, ⟨-, -, hfull⟩ | ⟨rfl, hout, -⟩⟩ := hz.answers hin
  · omega
  · exact ⟨d, strm', he, hout⟩

/-- With room for less, it stops in a block. -/
theorem Decodes.held (hz : Decodes small z x u) {strm : BzStream} (hin : strm.input = z)
    (hroom : strm.availOut < x.length) :
    ∃ (d : DState FlatMtf) (strm' : BzStream),
      bzDecompress .qbz2 (DState.init small) strm = some (.ok, d, strm') ∧ d.state = .output := by
  obtain ⟨r, d, strm', he, ⟨rfl, hst, -⟩ | ⟨-, -, hfits⟩⟩ := hz.answers hin
  · exact ⟨d, strm', he, hst⟩
  · omega

/-- **A call on the rest of a stream**, with room for more than the stream stands for, ends it,
    wherever the calls before have got to. -/
theorem Decodes.last (hz : Decodes small z x u) (h : DecompressRun .qbz2 small z calls d rest)
    (hok : ∀ c ∈ calls, c.ret = .ok) {strm : BzStream} (hin : strm.input = rest)
    (hroom : x.length < strm.availOut) :
    ∃ (d' : DState FlatMtf) (strm' : BzStream),
      bzDecompress .qbz2 d strm = some (.streamEnd, d', strm') := by
  obtain ⟨hd, -, -⟩ := run_sim .qbz2 h hok
  obtain ⟨r, d', strm', w, y, v, he, -⟩ := bzDecompress_sim .qbz2 hd strm
  have hoffer : strm.input <+: rest := by rw [hin]
  obtain ⟨hserved, hle, hcase⟩ := hz.call h hok (c := ⟨strm, r, strm'⟩) hoffer he
  -- what the call has delivered is a part of what the stream stands for
  have hgiven : (DecompressCall.given ⟨strm, r, strm'⟩).length ≤ x.length := by
    have hpre := (hz.run (h.call hok ⟨strm, r, strm'⟩ hoffer he)).2.1.length_le
    rw [delivered_concat, List.length_append] at hpre
    omega
  have hav := hserved.availOut
  dsimp only at hav hcase
  rcases hcase with ⟨-, hfull | ⟨h0, hmore⟩⟩ | rfl
  · omega
  · refine absurd ?_ hmore
    have hlen : rest.length = strm.availIn := by rw [← hin, BzStream.input, length_bytesAt]
    refine List.drop_eq_nil_of_le ?_
    unfold DecompressCall.taken
    dsimp only
    omega
  · exact ⟨d', strm', he⟩

/-- **A call on a proper part of a stream**, with room for more than the stream stands for: it takes
    all of it, and asks for more. -/
theorem Decodes.cut (hz : Decodes small z x u) (hu : u.length < 8) {strm : BzStream}
    (hpre : strm.input <+: z) (hne : strm.input ≠ z) (hroom : x.length < strm.availOut) :
    ∃ (d : DState FlatMtf) (strm' : BzStream),
      bzDecompress .qbz2 (DState.init small) strm = some (.ok, d, strm') ∧ 0 < strm'.availOut ∧
        strm'.availIn = 0 := by
  obtain ⟨r, d, strm', w, y, v, more, he, hmore, hext, hC, hwx⟩ := hz.first hpre
  obtain ⟨e, hs, hcrc⟩ := hz
  have hhalt := @decodes_halt small _ hcrc
  have hpos : 0 < more.length := by
    refine List.length_pos_iff.mpr fun hnil => hne ?_
    rw [← hmore, hnil, List.append_nil]
  have hlen := hwx.length_le
  cases hC with
  | full hserved _ _ h0 _ =>
    have := hserved.availOut
    omega
  | starved hserved _ _ _ h0 =>
    have := hserved.availOut
    exact ⟨d, strm', he, by omega, h0⟩
  | failed _ _ _ hh _ hend =>
    obtain ⟨-, rfl, -⟩ := hs.unique (.halted hhalt) hext (.halted hh)
    exact absurd (Node.halt.inj (hh.symm.trans hhalt)) hend
  | ended _ _ _ hcrc' =>
    obtain ⟨-, -, hv⟩ := hs.unique (.halted hhalt) hext (.halted (decodes_halt hcrc'))
    have hbits := congrArg List.length hv
    rw [List.length_append, length_bytesBits] at hbits
    omega

end

end Qbz2
