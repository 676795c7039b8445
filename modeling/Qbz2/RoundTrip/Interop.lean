/-
  File:      Qbz2/RoundTrip/Interop.lean
  Subject:   Streams that go between this library and the reference decoder of
             `src/reference/bzip2`, in any portions and through the one-shot functions.

  * `TakenBy` -- what a decoder does on a stream that it takes, in runs and in one call;
  * **`streaming_conforms`** -- both decoders come to the same end of an input, however it is cut;
  * **`reference_roundTrip`** -- the reference decoder gives back what has been compressed;
  * **`decodeAll_concat`** -- streams one after the other, each with a decoder of its own;
  * **`oneShot_roundTrip`** -- the one-shot functions, there and back, into any room.
-/
import Qbz2.Decompress.Reference
import Qbz2.RoundTrip.Stream

namespace Qbz2

open Transducer Bits

/-! ## 1. Streams for either decoder -/

/-- **A decoder takes the stream at the front of `z`**, gives out `x` and has the bits `u` left. -/
def TakenBy (μ : Type) [MtfList μ] (ver : Version) (small : Bool) (z x : List Byte)
    (u : List Bool) : Prop :=
  ∃ y : Core μ × Point, Steps (bitDecoder ver small) (atStart small) (bytesBits z) x y u ∧
    bitDecoder ver small y = .halt .streamEnd

theorem Decodes.taken {small : Bool} {z x : List Byte} {u : List Bool} (h : Decodes small z x u) :
    TakenBy FlatMtf .qbz2 small z x u := by
  obtain ⟨c, hs, hcrc⟩ := h
  exact ⟨_, hs, decodes_halt hcrc⟩

/-- What the library takes, the reference decoder takes. -/
theorem Decodes.takenByReference {small : Bool} {z x : List Byte} {u : List Bool}
    (h : Decodes small z x u) (small' : Bool) : TakenBy RefMtf .reference small' z x u := by
  obtain ⟨c, hs, hcrc⟩ := h
  obtain ⟨y, hs', hy⟩ := hs.simulate (bitDecoder_twin mtfSim_reference .qbz2 .reference)
    (twin_atStart Shows small small')
  have hnode := bitDecoder_twin mtfSim_reference .qbz2 .reference _ y hy
  rw [decodes_halt hcrc] at hnode
  refine ⟨y, hs', ?_⟩
  cases hM : bitDecoder .reference small' y with
  | halt r =>
    rw [hM] at hnode
    exact congrArg Node.halt (show Ret.streamEnd = r from hnode).symm
  | _ => rw [hM] at hnode; exact hnode.elim

section

variable [Build] {μ : Type} [MtfList μ] {ver : Version} {small : Bool} {z x more rest : List Byte}
  {u : List Bool} {calls : List DecompressCall} {d : DState μ}

omit [Build] in
theorem TakenBy.followed (h : TakenBy μ ver small z x u) (more : List Byte) :
    TakenBy μ ver small (z ++ more) x (u ++ bytesBits more) := by
  obtain ⟨y, hs, hM⟩ := h
  refine ⟨y, ?_, hM⟩
  rw [bytesBits_append]
  exact hs.extend _

/-- **A run of a decoder over a stream it takes**, whatever follows the stream: no call returns an
    error, what is delivered is the front of `x`, the run comes to its end with `BZ_STREAM_END`, and
    then all of `x` has been delivered and what follows is left. -/
theorem TakenBy.run (hz : TakenBy μ ver small z x u) (hu : u.length < 8)
    (h : DecompressRun ver small (z ++ more) calls d rest) :
    (lastRet calls = .ok ∨ lastRet calls = .streamEnd) ∧ delivered calls <+: x ∧
      (lastRet calls = .streamEnd → delivered calls = x ∧ rest = more) ∧
      (Finished ver calls d rest → lastRet calls = .streamEnd) := by
  obtain ⟨y, hs, hM⟩ := hz.followed more
  have hk : Stuck (bitDecoder ver small) y (u ++ bytesBits more) := .halted hM
  -- a call that ends the run has come to the same end
  have hends : lastRet calls ≠ .ok → lastRet calls = .streamEnd ∧ delivered calls = x := by
    intro hne
    obtain ⟨w, y', v, hs', hM', hw⟩ := run_halts ver h hne
    obtain ⟨rfl, rfl, rfl⟩ := hs.unique hk hs' (.halted hM')
    have hret : lastRet calls = .streamEnd := Node.halt.inj (hM'.symm.trans hM)
    exact ⟨hret, (hw hret).symm⟩
  refine ⟨?_, ?_, fun hr => ⟨(hends (by rw [hr]; decide)).2, ?_⟩, fun hf => ?_⟩
  · by_cases hok : lastRet calls = .ok
    · exact .inl hok
    · exact .inr (hends hok).1
  · by_cases hok : lastRet calls = .ok
    · obtain ⟨-, -, hs'⟩ := run_sim ver h (h.all_ok hok)
      obtain ⟨w, -, he⟩ := hs'.to_stuck hs hk
      rw [he]
      exact List.prefix_append _ _
    · rw [(hends hok).2]
  · obtain ⟨y', v, hs', hM', hlen⟩ := ended_rest ver h hr
    obtain ⟨-, -, rfl⟩ := hs.unique hk hs' (.halted hM')
    obtain ⟨hdrop, hle⟩ := run_rest h
    have hn := congrArg List.length hdrop
    rw [List.length_drop, List.length_append] at hn
    rw [List.length_append] at hle
    rw [List.length_append, length_bytesBits] at hlen
    rw [hdrop, show (calls.map DecompressCall.taken).sum = z.length by omega, List.drop_left]
  · obtain ⟨w, y', v, hs', hk', hret, -⟩ := finished_stuck ver h hf
    obtain ⟨rfl, rfl, rfl⟩ := hs.unique hk hs' hk'
    rw [hret, hM]
    rfl

/-- Where the code is not `BZ_OK`, `*destLen` is left as it was. -/
theorem bzBuffToBuffDecompress_destLen {strm : BzStream} {r : Ret} {out : List Byte}
    {destLen : Nat} (h : bzBuffToBuffDecompress μ ver strm small = some (r, out, destLen))
    (hne : r ≠ .ok) : destLen = strm.availOut := by
  unfold bzBuffToBuffDecompress at h
  dsimp only at h
  split at h
  · cases h
  · split at h <;> cases h <;> rfl
  · cases h
    exact absurd rfl hne
  · cases h
    rfl

/-- **`BZ2_bzBuffToBuffDecompress` on a stream**, and anything after it: `BZ_OK` with the contents
    where they fit, and `BZ_OUTBUFF_FULL` with `*destLen` as it was where they do not. -/
theorem TakenBy.oneShot (hz : TakenBy μ ver small z x u) {strm : BzStream}
    (hin : strm.input = z ++ more) :
    ∃ (r : Ret) (out : List Byte) (destLen : Nat),
      bzBuffToBuffDecompress μ ver strm small = some (r, out, destLen) ∧
      (x.length ≤ strm.availOut → r = .ok ∧ out = strm.out ++ x ∧ destLen = x.length) ∧
      (strm.availOut < x.length → r = .outbuffFull ∧ destLen = strm.availOut) := by
  obtain ⟨y, hs, hM⟩ := hz.followed more
  obtain ⟨r, out, destLen, w, y', u', he, hs', hans, hok⟩ :=
    @buffToBuff_answer μ _ _ ver small strm
  rw [hin] at hs'
  refine ⟨r, out, destLen, he, fun hfit => ?_, fun hlong => ?_⟩
  · -- the answer of the machine at its end
    have hpoint : ¬ Overrun small y := by
      rintro ⟨hout, -, hover⟩
      obtain ⟨c, pt⟩ := y
      obtain rfl : pt = .output := hout
      dsimp only at hover
      unfold bitDecoder at hM
      dsimp only at hM
      split at hM
      · cases hM
      · cases hM
    have hend : Answer ver small strm.availOut .ok x y (u ++ bytesBits more) := by
      have := Answer.stuck (.halted hM : Stuck (bitDecoder ver small) y (u ++ bytesBits more)) hfit
        fun h => absurd h hpoint
      rwa [hM] at this
    obtain ⟨hr, hw⟩ := Answer.unique hs hend (twin_atStart Eq small small) hs' hans
    obtain ⟨hout, hlen⟩ := hok hr
    rw [hw rfl] at hout hlen
    exact ⟨hr, hout, hlen⟩
  · have hr : r = .outbuffFull := by
      cases hans with
      | full => rfl
      | stuck hk hw _ =>
        obtain ⟨rfl, -, -⟩ := hs.unique (.halted hM) hs' hk
        omega
    exact ⟨hr, bzBuffToBuffDecompress_destLen he (by rw [hr]; decide)⟩

/-- **One call with room enough** takes the stream and ends there. -/
theorem TakenBy.whole (hz : TakenBy μ ver small z x u) {strm : BzStream}
    (hin : strm.input = z ++ more) (hroom : x.length ≤ strm.availOut) :
    ∃ (d : DState μ) (strm' : BzStream),
      bzDecompress ver (DState.init small) strm.decompressInit = some (.streamEnd, d, strm') ∧
        strm'.out = strm.out ++ x := by
  obtain ⟨r, out, destLen, he, hfit, -⟩ := hz.oneShot hin
  obtain ⟨rfl, hout, -⟩ := hfit hroom
  unfold bzBuffToBuffDecompress at he
  dsimp only at he
  split at he
  · cases he
  · split at he <;> cases he
  · rename_i d strm' hc
    cases he
    exact ⟨d, strm', hc, hout⟩
  · rename_i hok _ _
    cases he
    exact absurd rfl hok

/-- The run of that call. -/
theorem TakenBy.runOnce (hz : TakenBy μ ver small z x u) (more : List Byte) (hroom : x.length ≤ 2) :
    ∃ (d : DState μ) (strm' : BzStream) (rest : List Byte),
      DecompressRun ver small (z ++ more) [⟨offeringTwo (z ++ more), .streamEnd, strm'⟩] d rest := by
  have hin := input_offeringTwo (z ++ more)
  obtain ⟨d, strm', hc, -⟩ := hz.whole hin hroom
  exact ⟨d, strm', _, .call .init (fun c hc => absurd hc List.not_mem_nil)
    ⟨offeringTwo (z ++ more), .streamEnd, strm'⟩ (by rw [hin]) hc⟩

end

theorem oneByte_takenBy (small : Bool) :
    (∃ u, TakenBy FlatMtf .qbz2 small oneByteFile [0x61] u) ∧
      ∃ u, TakenBy RefMtf .reference small oneByteFile [0x61] u := by
  obtain ⟨u, hz, -⟩ := oneByte_decodes small
  exact ⟨⟨u, hz.taken⟩, ⟨u, hz.takenByReference small⟩⟩

/-! ## 2. Both decoders on any input -/

/-- Where one machine has come to its end, so has the other, with the same code. -/
theorem verdict_related {μ μ' : Type} {R : Core μ × Point → Core μ' × Point → Prop}
    {n : Node (Core μ × Point) Bool Byte Ret} {n' : Node (Core μ' × Point) Bool Byte Ret}
    (h : NodeRel R n n') : Qbz2.verdict n' = Qbz2.verdict n := by
  cases n with
  | halt r =>
    cases n' with
    | halt r' => exact (show r = r' from h).symm
    | _ => exact h.elim
  | _ => cases n' <;> first | rfl | exact h.elim

/-- **Both decoders come to the same end of an input**: for every byte string, valid or not, either
    memory mode of either decoder, and any portions and room for both, the library and the
    reference decoder end with the same code; unless it is an error they have delivered the same
    bytes, and at the end of a stream they leave the same rest of the input. -/
theorem streaming_conforms [Build] {small small' : Bool} {x rest rest' : List Byte}
    {calls calls' : List DecompressCall} {d : DState FlatMtf} {d' : DState RefMtf}
    (h : DecompressRun .qbz2 small x calls d rest) (hfin : Finished .qbz2 calls d rest)
    (h' : DecompressRun .reference small' x calls' d' rest')
    (hfin' : Finished .reference calls' d' rest') :
    lastRet calls' = lastRet calls ∧
      (lastRet calls = .streamEnd ∨ lastRet calls = .ok → delivered calls' = delivered calls) ∧
      (lastRet calls = .streamEnd → rest' = rest) := by
  obtain ⟨w, y, u, hs, hk, hret, hw⟩ := finished_stuck .qbz2 h hfin
  obtain ⟨w', y', u', hs', hk', hret', hw'⟩ := finished_stuck .reference h' hfin'
  -- the reference machine on the same tape
  obtain ⟨y'', hs'', hy⟩ := hs.simulate (bitDecoder_twin mtfSim_reference .qbz2 .reference)
    (twin_atStart Shows small small')
  have hnode := bitDecoder_twin mtfSim_reference .qbz2 .reference y y'' hy
  obtain ⟨rfl, rfl, rfl⟩ := hs''.unique (hnode.stuck hk) hs' hk'
  have hsame : lastRet calls' = lastRet calls := by
    rw [hret, hret', verdict_related hnode]
  refine ⟨hsame, fun hr => ?_, fun hend => ?_⟩
  · rw [← hw hr, ← hw' (hsame.symm ▸ hr)]
  · obtain ⟨z, v, hz, hzh, hlen⟩ := ended_rest .qbz2 h hend
    obtain ⟨z', v', hz', hzh', hlen'⟩ := ended_rest .reference h' (hsame.trans hend)
    obtain ⟨-, -, rfl⟩ := hs.unique hk hz (.halted hzh)
    obtain ⟨-, -, rfl⟩ := hs'.unique hk' hz' (.halted hzh')
    obtain ⟨hdrop, hle⟩ := run_rest h
    obtain ⟨hdrop', hle'⟩ := run_rest h'
    have hn := congrArg List.length hdrop
    have hn' := congrArg List.length hdrop'
    rw [List.length_drop] at hn hn'
    rw [hdrop, hdrop', show (calls'.map DecompressCall.taken).sum =
      (calls.map DecompressCall.taken).sum by omega]

/-- The stream of one byte, and something after it. -/
theorem streaming_conforms_oneByte : ∃ (calls calls' : List DecompressCall) (d : DState FlatMtf)
    (d' : DState RefMtf) (rest rest' : List Byte),
    @DecompressRun _ _ sortingEnv.toBuild .qbz2 false (oneByteFile ++ [0xff]) calls d rest ∧
    @DecompressRun _ _ sortingEnv.toBuild .reference true (oneByteFile ++ [0xff]) calls' d' rest' ∧
    lastRet calls' = .streamEnd ∧ delivered calls' = delivered calls ∧ rest' = rest := by
  let _ : CompressEnv := sortingEnv
  obtain ⟨u, hz⟩ := (oneByte_takenBy false).1
  obtain ⟨u', hz'⟩ := (oneByte_takenBy true).2
  obtain ⟨d, strm, rest, h⟩ := hz.runOnce [0xff] (by decide)
  obtain ⟨d', strm', rest', h'⟩ := hz'.runOnce [0xff] (by decide)
  obtain ⟨hret, hout, hrest⟩ := streaming_conforms h (.inl nofun) h' (.inl nofun)
  exact ⟨_, _, d, d', rest, rest', h, h', hret, hout (.inl rfl), hrest rfl⟩

/-! ## 3. There and back -/

/-- **What the library has compressed, the reference decoder gives back**: for every run of
    `BZ2_bzCompress` that ends with `BZ_STREAM_END`, let `x` be what it has taken and `z` what it
    has delivered. In either mode, no run of the reference decoder over `z` and anything after it,
    however it is cut and whatever room there is, returns an error; what is delivered is the front
    of `x`; a run that goes on until it has nothing to go on with ends with `BZ_STREAM_END`, having
    delivered exactly `x` and leaving what follows `z`. -/
theorem reference_roundTrip [CompressEnv] (hsais : SaisSucceeds) {blockSize100k : Nat}
    (h1 : 1 ≤ blockSize100k) (h9 : blockSize100k ≤ 9) {calls : List Call} {s : EState}
    (h : CompressRun blockSize100k calls s) (hend : EndsStream calls) (small : Bool)
    {more rest : List Byte} {decalls : List DecompressCall} {d : DState RefMtf}
    (hd : DecompressRun .reference small (calls.flatMap Call.given ++ more) decalls d rest) :
    let x := calls.flatMap Call.taken
    (lastRet decalls = .ok ∨ lastRet decalls = .streamEnd) ∧
    delivered decalls <+: x ∧
    (lastRet decalls = .streamEnd → delivered decalls = x ∧ rest = more) ∧
    (Finished .reference decalls d rest → lastRet decalls = .streamEnd) := by
  obtain ⟨u, hz, hu⟩ := h.decodes hsais h1 h9 hend small
  exact (hz.takenByReference small).run hu hd

theorem reference_roundTrip_oneByte : ∃ (decalls : List DecompressCall) (d : DState RefMtf)
    (rest : List Byte), @DecompressRun _ _ sortingEnv.toBuild .reference true
      (oneByteFile ++ [0xff]) decalls d rest ∧
    lastRet decalls = .streamEnd ∧ delivered decalls = [0x61] ∧ rest = [0xff] := by
  let _ : CompressEnv := sortingEnv
  obtain ⟨calls, s, h, hend, hgiven, htaken⟩ := oneByte_run
  obtain ⟨u, hz⟩ := (oneByte_takenBy true).2
  obtain ⟨d, strm', rest, hd⟩ := hz.runOnce [0xff] (by decide)
  have hd' := hd
  rw [← hgiven] at hd'
  have hall := (reference_roundTrip sortingEnv_succeeds (by decide) (by decide) h hend true
    hd').2.2.1 rfl
  rw [htaken, hgiven] at hall
  exact ⟨_, d, rest, hd, rfl, hall⟩

/-! ## 4. Streams one after the other -/

section

variable [Build]

/-- **A caller that reads the streams of an input one after the other**: for each a decoder of
    either kind and in either mode is set up, and called to its `BZ_STREAM_END` on what the one
    before has left. The last index is what is left in the end. -/
inductive DecodeAll : List Byte → List (List DecompressCall) → List Byte → Prop
  | done (x : List Byte) : DecodeAll x [] x
  | own {small : Bool} {x rest rest' : List Byte} {calls : List DecompressCall}
      {more : List (List DecompressCall)} {d : DState FlatMtf}
      (h : DecompressRun .qbz2 small x calls d rest) (hend : lastRet calls = .streamEnd)
      (hmore : DecodeAll rest more rest') : DecodeAll x (calls :: more) rest'
  | reference {small : Bool} {x rest rest' : List Byte} {calls : List DecompressCall}
      {more : List (List DecompressCall)} {d : DState RefMtf}
      (h : DecompressRun .reference small x calls d rest) (hend : lastRet calls = .streamEnd)
      (hmore : DecodeAll rest more rest') : DecodeAll x (calls :: more) rest'

/-- **Streams stored back to back**, and anything after them: reading as many streams as there are
    delivers what each stands for, in order, and leaves what comes after them. -/
theorem decodeAll_concat {streams : List (List Byte × List Byte)}
    (hvalid : ∀ s ∈ streams, ValidStream s.1 s.2) {more rest : List Byte}
    {runs : List (List DecompressCall)}
    (h : DecodeAll ((streams.map Prod.fst).flatten ++ more) runs rest)
    (hlen : runs.length = streams.length) :
    runs.map delivered = streams.map Prod.snd ∧ rest = more := by
  induction streams generalizing runs with
  | nil =>
    obtain rfl := List.eq_nil_of_length_eq_zero hlen
    cases h
    exact ⟨rfl, rfl⟩
  | cons st streams ih =>
    obtain ⟨z, x⟩ := st
    obtain ⟨u, hz, hu⟩ := hvalid (z, x) List.mem_cons_self
    have hrest := fun s hs => hvalid s (List.mem_cons_of_mem _ hs)
    rw [List.map_cons, List.flatten_cons, List.append_assoc] at h
    cases h with
    | done => cases hlen
    | @own small _ _ _ _ _ _ hrun hend hmore =>
      obtain ⟨hx, rfl⟩ := ((hz.either small).taken.run hu hrun).2.2.1 hend
      obtain ⟨hmap, hr⟩ := ih hrest hmore (Nat.succ.inj hlen)
      exact ⟨by rw [List.map_cons, List.map_cons, hx, hmap], hr⟩
    | @reference small _ _ _ _ _ _ hrun hend hmore =>
      obtain ⟨hx, rfl⟩ := ((hz.takenByReference small).run hu hrun).2.2.1 hend
      obtain ⟨hmap, hr⟩ := ih hrest hmore (Nat.succ.inj hlen)
      exact ⟨by rw [List.map_cons, List.map_cons, hx, hmap], hr⟩

end

/-- Two streams, the first for the library and the second for the reference. -/
theorem decodeAll_concat_two : ∃ runs rest,
    @DecodeAll sortingEnv.toBuild (oneByteFile ++ (oneByteFile ++ [0xff])) runs rest ∧
    runs.map delivered = [[0x61], [0x61]] ∧ rest = [0xff] := by
  let _ : CompressEnv := sortingEnv
  obtain ⟨u, hz, hu⟩ := oneByte_decodes false
  have hz' := hz.takenByReference true
  obtain ⟨d, strm, rest, h⟩ := hz.taken.runOnce (oneByteFile ++ [0xff]) (by decide)
  obtain ⟨d', strm', rest', h'⟩ := hz'.runOnce [0xff] (by decide)
  obtain ⟨-, rfl⟩ := (hz.taken.run hu h).2.2.1 rfl
  have hall : DecodeAll (oneByteFile ++ (oneByteFile ++ [0xff])) _ rest' :=
    .own h rfl (.reference h' rfl (.done _))
  refine ⟨_, _, hall, @decodeAll_concat _ [(oneByteFile, [0x61]), (oneByteFile, [0x61])] ?_ _ _ _
    hall rfl⟩
  intro st hst
  obtain rfl : st = (oneByteFile, [0x61]) := by simpa using hst
  exact ⟨u, hz, hu⟩

/-! ## 5. The one-shot functions -/

/-- **The one-shot functions, there and back.** Where `BZ2_bzBuffToBuffCompress` has returned
    `BZ_OK`, `*destLen` is the number of bytes it has written, and `BZ2_bzBuffToBuffDecompress` of
    these bytes, with anything after them, in either mode, of this library or of the reference, into
    room for any number of bytes, returns `BZ_OK` with the source where that fits, and
    `BZ_OUTBUFF_FULL` with `*destLen` as it was where it does not. -/
theorem oneShot_roundTrip [CompressEnv] (hsais : SaisSucceeds) {dest : Int} {destLen : Nat}
    {mem : Int → Byte} {source : Int} {sourceLen : Nat} {blockSize100k verbosity workFactor : Int}
    {z : List Byte} {n : Nat}
    (hc : bzBuffToBuffCompress dest destLen mem source sourceLen blockSize100k verbosity workFactor =
      .ok (.ok, z, n)) :
    let x := bytesAt mem source sourceLen
    n = z.length ∧ ∀ (small : Bool) (more : List Byte) (strm : BzStream),
      strm.input = z ++ more →
      ∃ (r : Ret) (out out' : List Byte) (m : Nat),
        bzBuffToBuffDecompress FlatMtf .qbz2 strm small = some (r, out, m) ∧
        bzBuffToBuffDecompress RefMtf .reference strm small = some (r, out', m) ∧
        (sourceLen ≤ strm.availOut →
          r = .ok ∧ out = strm.out ++ x ∧ out' = strm.out ++ x ∧ m = sourceLen) ∧
        (strm.availOut < sourceLen → r = .outbuffFull ∧ m = strm.availOut) := by
  intro x
  have hx : x.length = sourceLen := length_bytesAt _ _ _
  unfold bzBuffToBuffCompress at hc
  split at hc
  · cases hc
  rename_i hparams
  have h1 : 1 ≤ blockSize100k.toNat := by omega
  have h9 : blockSize100k.toNat ≤ 9 := by omega
  obtain ⟨⟨ret, s', strm'⟩, hcall, hc⟩ := bind_ok hc
  obtain ⟨r, s₁, strm₁, given, hcall₁, hout, hsum, -, -, -, hcase⟩ := finish_cases hsais h1 h9
    (CompressRun.init) (accepts_init blockSize100k.toNat (.oneShot mem source sourceLen dest destLen))
  rw [hcall] at hcall₁
  cases hcall₁
  dsimp only at hc
  rcases hcase with ⟨rfl, -, h0, -⟩ | ⟨hret, -, -, -, -⟩
  · rw [if_neg (by decide), if_neg (fun h => h rfl)] at hc
    cases hc
    have hrun : CompressRun blockSize100k.toNat
        [⟨.oneShot mem source sourceLen dest destLen, bzFinish, .streamEnd, strm'⟩] s' :=
      CompressRun.init.call _ hcall
    have htaken : [(⟨.oneShot mem source sourceLen dest destLen, bzFinish, .streamEnd, strm'⟩ :
        Call)].flatMap Call.taken = x := by
      rw [List.flatMap_singleton, Call.taken]
      dsimp only
      rw [h0]
      rfl
    have hgiven : [(⟨.oneShot mem source sourceLen dest destLen, bzFinish, .streamEnd, strm'⟩ :
        Call)].flatMap Call.given = strm'.out := by
      rw [List.flatMap_singleton]
      rfl
    have hlen : destLen - strm'.availOut = strm'.out.length := by
      have hgiven := congrArg List.length hout
      have hav : (BzStream.oneShot mem source sourceLen dest destLen).availOut = destLen := rfl
      have hnil : (BzStream.oneShot mem source sourceLen dest destLen).out = [] := rfl
      rw [hnil, List.nil_append] at hgiven
      omega
    refine ⟨hlen, fun small more strm hin => ?_⟩
    obtain ⟨u, hz, -⟩ := hrun.decodes hsais h1 h9 rfl small
    rw [htaken, hgiven] at hz
    obtain ⟨r, out, m, he, hfit, hlong⟩ := hz.taken.oneShot hin
    obtain ⟨r', out', m', he', hfit', hlong'⟩ := (hz.takenByReference small).oneShot hin
    rw [hx] at hfit hfit' hlong hlong'
    obtain ⟨rfl, rfl⟩ : r' = r ∧ m' = m := by
      by_cases hle : sourceLen ≤ strm.availOut
      · obtain ⟨h1, -, h2⟩ := hfit hle
        obtain ⟨h1', -, h2'⟩ := hfit' hle
        exact ⟨h1'.trans h1.symm, h2'.trans h2.symm⟩
      · obtain ⟨h1, h2⟩ := hlong (by omega)
        obtain ⟨h1', h2'⟩ := hlong' (by omega)
        exact ⟨h1'.trans h1.symm, h2'.trans h2.symm⟩
    exact ⟨r', out, out', m', he, he', fun hle => ⟨(hfit hle).1, (hfit hle).2.1, (hfit' hle).2.1,
      (hfit hle).2.2⟩, hlong⟩
  · rcases hret with rfl | rfl <;> cases hc

/-- Into room for two bytes, and into none. -/
theorem oneShot_roundTrip_oneByte :
    @bzBuffToBuffCompress sortingEnv 0 100 (fun _ => 0x61) 0 1 9 0 30 =
      .ok (.ok, oneByteFile, 37) ∧
    @bzBuffToBuffDecompress sortingEnv.toBuild FlatMtf _ .qbz2 (offeringTwo oneByteFile) false =
      some (.ok, [0x61], 1) ∧
    @bzBuffToBuffDecompress sortingEnv.toBuild RefMtf _ .reference (offeringTwo oneByteFile) false =
      some (.ok, [0x61], 1) ∧
    ∃ out, @bzBuffToBuffDecompress sortingEnv.toBuild FlatMtf _ .qbz2
      { offeringTwo oneByteFile with availOut := 0 } true = some (.outbuffFull, out, 0) := by
  let _ : CompressEnv := sortingEnv
  obtain ⟨s, strm, hc, hout, -, hroom⟩ := oneByte_compressed
  have hcall : bzBuffToBuffCompress 0 100 (fun _ => 0x61) 0 1 9 0 30 =
      .ok (.ok, oneByteFile, 37) := by
    unfold bzBuffToBuffCompress
    rw [if_neg (by decide)]
    change bzCompress (EState.init 9) oneByteRoom bzFinish >>= _ = _
    rw [hc, ← hout, show 37 = 100 - strm.availOut by omega]
    rfl
  have hback := (oneShot_roundTrip sortingEnv_succeeds hcall).2
  have hin := (input_offeringTwo oneByteFile).trans (List.append_nil _).symm
  obtain ⟨r, out, out', m, h, h', hfit, -⟩ := hback false [] (offeringTwo oneByteFile) hin
  obtain ⟨rfl, rfl, rfl, rfl⟩ := hfit (by decide)
  obtain ⟨r, out, out', m, hfull, -, -, hno⟩ :=
    hback true [] { offeringTwo oneByteFile with availOut := 0 } hin
  obtain ⟨rfl, rfl⟩ := hno (by decide)
  exact ⟨hcall, h, h', out, hfull⟩

end Qbz2
