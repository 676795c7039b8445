/-
  File:      Qbz2/Decompress/Portions.lean
  Subject:   What the caller of `BZ2_bzDecompress` may rely on, in whatever portions it hands over
             the input and the room.

  * **`bzDecompress_chunks`** -- two runs to the end over the same input end with the same code and
    the same output;
  * `StreamBits` -- how many bits a stream has; **`bzDecompress_exactEnd`** -- a run that ends with
    `BZ_STREAM_END` has consumed the bytes of the stream and no more;
  * **`bzDecompress_returns`** -- every call returns.
-/
import Qbz2.RoundTrip.Stream

namespace Qbz2

open Transducer Bits

section

variable [Build]

/-! ## 1. The code and the output -/

/-- **Decompression does not depend on how the input is cut and how much room there is**: two runs
    over the same bytes, to a code other than `BZ_OK` or until the input is used up and nothing more
    comes, end with the same code, and unless it is an error have delivered the same bytes. -/
theorem bzDecompress_chunks (small : Bool) (x : List Byte) {calls calls' : List DecompressCall}
    {d d' : DState FlatMtf} {rest rest' : List Byte}
    (h : DecompressRun .qbz2 small x calls d rest) (hfin : Finished .qbz2 calls d rest)
    (h' : DecompressRun .qbz2 small x calls' d' rest') (hfin' : Finished .qbz2 calls' d' rest') :
    lastRet calls = lastRet calls' ∧
      (lastRet calls = .streamEnd ∨ lastRet calls = .ok → delivered calls = delivered calls') :=
  finished_unique .qbz2 h hfin h' hfin'

omit [Build] in
/-- The stream of one byte, in one call, and cut in the middle of its block. -/
theorem bzDecompress_chunks_oneByte : ∃ (calls calls' : List DecompressCall) (d d' : DState FlatMtf)
    (rest rest' : List Byte),
    @DecompressRun _ _ sortingEnv.toBuild .qbz2 true oneByteFile calls d rest ∧
    @DecompressRun _ _ sortingEnv.toBuild .qbz2 true oneByteFile calls' d' rest' ∧
    calls.length = 1 ∧ calls'.length = 2 ∧ lastRet calls' = .streamEnd ∧
    delivered calls' = [0x61] := by
  let _ : CompressEnv := sortingEnv
  obtain ⟨d, s, rest, h, hout⟩ := oneByte_decoded true
  obtain ⟨-, d', s₁, s₂, rest', -, h'⟩ := oneByte_decoded_twice true (show 26 < 37 by decide) []
  rw [List.append_nil, List.append_nil] at h'
  obtain ⟨hret, hsame⟩ := bzDecompress_chunks true oneByteFile h (.inl nofun) h' (.inl nofun)
  refine ⟨_, _, d, d', rest, rest', h, h', rfl, rfl, hret.symm, (hsame (.inl rfl)).symm.trans ?_⟩
  rw [delivered, List.flatMap_singleton, DecompressCall.given, hout]
  rfl

/-! ## 2. The end of the stream -/

/-- **The stream at the front of `x` has `n` bits**: the machine, which reads no bit before it
    needs it, comes to its end with the rest before it. -/
def StreamBits (small : Bool) (x : List Byte) (n : Nat) : Prop :=
  ∃ (w : List Byte) (y : Core FlatMtf × Point) (u : List Bool),
    Steps (bitDecoder .qbz2 small) (atStart small) (bytesBits x) w y u ∧
    bitDecoder .qbz2 small y = .halt .streamEnd ∧ n + u.length = (bytesBits x).length

omit [Build] in
theorem streamBits_unique {small : Bool} {x : List Byte} {n m : Nat} (h : StreamBits small x n)
    (h' : StreamBits small x m) : m = n := by
  obtain ⟨w, y, u, hs, hM, hn⟩ := h
  obtain ⟨w', y', u', hs', hM', hm⟩ := h'
  obtain ⟨-, -, rfl⟩ := hs.unique (.halted hM) hs' (.halted hM')
  omega

/-- **A stream is consumed exactly**: when `BZ_STREAM_END` is returned, the calls have consumed the
    bytes of the stream, the last of them filled up, and what the last one leaves is what follows
    it. No call hands back more than it has taken. -/
theorem bzDecompress_exactEnd (small : Bool) (x : List Byte) {calls : List DecompressCall}
    {d : DState FlatMtf} {rest : List Byte} (h : DecompressRun .qbz2 small x calls d rest)
    (hend : lastRet calls = .streamEnd) :
    ∃ n, StreamBits small x n ∧ (∀ m, StreamBits small x m → m = n) ∧
      (calls.map DecompressCall.taken).sum = (n + 7) / 8 ∧ rest = x.drop ((n + 7) / 8) ∧
      (∀ c ∈ calls, c.Forward) ∧
      ∀ c, calls.getLast? = some c → c.strm'.input <+: x.drop ((n + 7) / 8) := by
  have hfwd := run_rest h
  cases h with
  | init => cases hend
  | @call calls d₀ _ rest h hok c hoffer hc =>
    obtain ⟨hd, rfl, hs⟩ := run_sim .qbz2 h hok
    have hcalls := run_forward .qbz2 h hok
    obtain ⟨more, hmore⟩ := hoffer
    obtain ⟨w, y, u, hs', hcall, hC, -⟩ := call_sim .qbz2 hd hmore.symm hc
    rw [lastRet_concat] at hend
    rw [hend] at hC
    cases hC with
    | failed _ _ _ _ _ hne => exact absurd rfl hne
    | @ended d₁ _ strm₁ _ _ hserved _ hgive hcrc =>
      obtain ⟨hle', hbits⟩ := ended_forward hd hcall hgive
      have hall := hserved.trans (giveBack_served hgive)
      have hlast : c.Forward := hall.forward hle'
      have hrest : rest.drop c.taken = c.strm'.input ++ more := by
        rw [← hmore]
        exact rest_drop hall hle'
      have hmach := hs.trans hs'
      obtain ⟨pre, hpre⟩ := hmach.suffix
      have hlen := congrArg List.length hpre
      rw [length_bytesBits, List.length_append, List.length_append, ← hbits, length_bytesBits]
        at hlen
      obtain ⟨hdrop, hsum⟩ := hfwd
      have hcount := congrArg List.length (hrest.symm.trans hdrop)
      rw [List.length_append, BzStream.input, length_bytesAt, List.length_drop] at hcount
      have hn : ((calls ++ [c]).map DecompressCall.taken).sum = (pre.length + 7) / 8 := by omega
      have hbitsn : StreamBits d₀.small x pre.length :=
        ⟨_, _, _, hmach, if_neg (not_not_intro hcrc),
          ((congrArg List.length hpre).trans List.length_append).symm⟩
      rw [hn] at hdrop
      refine ⟨pre.length, hbitsn, fun m hm => streamBits_unique hbitsn hm, hn, hdrop, ?_, ?_⟩
      · intro c' hc'
        rcases List.mem_append.mp hc' with hmem | hmem
        · exact hcalls c' hmem
        · rw [List.mem_singleton.mp hmem]
          exact hlast
      · intro c' hc'
        rw [List.getLast?_concat] at hc'
        cases hc'
        rw [← hdrop, hrest]
        exact List.prefix_append _ _

omit [Build] in
/-- The stream of one byte, cut in the middle of its block, with something after it. -/
theorem bzDecompress_exactEnd_oneByte : ∃ (calls : List DecompressCall) (d : DState FlatMtf) (n : Nat),
    @DecompressRun _ _ sortingEnv.toBuild .qbz2 true (oneByteFile ++ [0xff]) calls d [0xff] ∧
    calls.length = 2 ∧ StreamBits true (oneByteFile ++ [0xff]) n ∧
    (calls.map DecompressCall.taken).sum = 37 ∧ (n + 7) / 8 = 37 := by
  let _ : CompressEnv := sortingEnv
  obtain ⟨-, d, s₁, s₂, rest, -, h⟩ := oneByte_decoded_twice true (show 26 < 37 by decide) [0xff]
  obtain ⟨u, hz, hu⟩ := oneByte_decodes true
  obtain ⟨c, hs, hcrc⟩ := hz.followed [0xff]
  have hlen : (bytesBits (oneByteFile ++ [0xff])).length = 304 := by
    rw [length_bytesBits]
    rfl
  have hbits : StreamBits true (oneByteFile ++ [0xff]) (296 - u.length) := by
    refine ⟨_, _, _, hs, decodes_halt hcrc, ?_⟩
    rw [List.length_append, length_bytesBits, hlen, List.length_singleton]
    omega
  obtain ⟨n, hn, huniq, hsum, hrest, -⟩ :=
    bzDecompress_exactEnd true (oneByteFile ++ [0xff]) h rfl
  have hbytes : (n + 7) / 8 = 37 := by
    have := huniq _ hbits
    omega
  rw [hbytes] at hsum hrest
  rw [hrest] at h
  exact ⟨_, d, n, h, rfl, hn, hsum, hbytes⟩

/-! ## 3. Every call returns -/

section

variable {μ : Type} [MtfList μ]

theorem bzDecompress_idle (ver : Version) {d : DState μ} (h : d.state = .idle) (strm : BzStream) :
    bzDecompress ver d strm = some (.sequenceError, d, strm) := by
  unfold bzDecompress
  rw [bzDecompressLoop]
  dsimp only
  rw [h]

/-- After `BZ_STREAM_END` the decoder is idle. -/
theorem idle_of_streamEnd (ver : Version) {small : Bool} {x : List Byte}
    {calls : List DecompressCall} {d : DState μ} {rest : List Byte}
    (h : DecompressRun ver small x calls d rest) (hend : lastRet calls = .streamEnd) :
    d.state = .idle := by
  cases h with
  | init => cases hend
  | @call calls d₀ _ rest h hok c hoffer hc =>
    obtain ⟨hd, rfl, -⟩ := run_sim ver h hok
    obtain ⟨more, hmore⟩ := hoffer
    obtain ⟨w, y, u, -, -, hC, -⟩ := call_sim ver hd hmore.symm hc
    rw [lastRet_concat] at hend
    rw [hend] at hC
    cases hC with
    | failed _ _ _ _ _ hne => exact absurd rfl hne
    | ended _ _ hgive _ =>
      have hstate := congrArg (fun r : DState μ × BzStream => r.1.state) hgive
      unfold giveBack at hgive hstate
      cases ver <;> exact hstate.symm

end

/-- **`BZ2_bzDecompress` returns**, whatever calls of it have come before (none of which has returned
    an error, after which only `BZ2_bzDecompressEnd` may follow), whatever bits they have read, and
    whatever input and room this call has: no loop of it goes on for ever, the pointer reversal of
    the small mode among them, which comes back to `origPtr` in a block of any bytes. -/
theorem bzDecompress_returns :
    (∀ (small : Bool) (x : List Byte) (calls : List DecompressCall) (d : DState FlatMtf)
        (rest : List Byte), DecompressRun .qbz2 small x calls d rest →
      lastRet calls = .ok ∨ lastRet calls = .streamEnd →
      ∀ strm : BzStream, ∃ r d' strm', bzDecompress .qbz2 d strm = some (r, d', strm')) ∧
    ∀ (bytes : Int → Nat) (nblock origPtr : Nat) (st : Store FlatMtf),
      Block true bytes nblock st → nblock ≤ 900000 → origPtr < nblock →
      ∃ st', st.makeCftab.buildSmall nblock origPtr = some st' := by
  refine ⟨fun small x calls d rest h hdoc strm => ?_, fun bytes nblock origPtr st hb hn ho => ?_⟩
  · rcases hdoc with hok | hend
    · obtain ⟨hd, -, -⟩ := run_sim .qbz2 h (h.all_ok hok)
      obtain ⟨r, d', strm', _, _, _, he, _⟩ := bzDecompress_sim .qbz2 hd strm
      exact ⟨r, d', strm', he⟩
    · exact ⟨_, _, _, bzDecompress_idle .qbz2 (idle_of_streamEnd .qbz2 h hend) strm⟩
  · obtain ⟨st', he, -, -⟩ := buildSmall_spec hb.makeCftab (makeCftab_get hb) (by omega) ho
    exact ⟨st', he⟩

end

/-- The block `ba` in the store of small mode, its bytes counted. -/
def twoBytesStore : Store FlatMtf where
  mtfa := []
  ll16 := .ofFn fun x => if x = 0 then 98 else 97
  unzftab := .ofFn fun b => if b = 97 ∨ b = 98 then 1 else 0

/-- A call after half of the stream of one byte, and the reversal in the block `ba`. -/
theorem bzDecompress_returns_oneByte :
    (∃ (d : DState FlatMtf) (s : BzStream), @DecompressRun _ _ sortingEnv.toBuild .qbz2 true
      oneByteFile [⟨offeringTwo (oneByteFile.take 26), .ok, s⟩] d (oneByteFile.drop 26) ∧
      ∃ r d' strm', @bzDecompress _ _ sortingEnv.toBuild .qbz2 d (offering []) =
        some (r, d', strm')) ∧
    ∃ st', twoBytesStore.makeCftab.buildSmall 2 1 = some st' := by
  let _ : CompressEnv := sortingEnv
  obtain ⟨hcalls, hblock⟩ := @bzDecompress_returns sortingEnv.toBuild
  obtain ⟨d, -, s, -, -, h, -⟩ := oneByte_decoded_twice true (show 26 < 37 by decide) []
  rw [List.append_nil, List.append_nil] at h
  refine ⟨⟨d, s, h, hcalls true _ _ d _ h (.inl rfl) _⟩, ?_⟩
  refine hblock (fun x => if x = 0 then 98 else 97) 2 1 _ ⟨fun x hx => ?_, fun x hx => ?_, ?_⟩
    (by decide) (by decide)
  · interval_cases x <;> decide
  · interval_cases x <;> rfl
  · decide +kernel

end Qbz2
