/-
  File:      Qbz2/File/Streams.lean
  Subject:   The loop of a caller who reads the streams of a file one after the other, with the bytes
             that `BZ2_bzReadGetUnused` hands back (`src/bzlib.c`).

  * `bzReadGetUnused`, `bzReadClose`; `readStream`, `readStreams` -- the caller;
  * `readStream_ends` -- one stream is read to its end, and what is left is what follows it;
  * **`readStreams_concat`** -- streams stored back to back are read one after the other, and at the
    end of each the unused bytes and the rest of the file are the streams that follow.
-/
import Qbz2.File.Read

namespace Qbz2

open Transducer Bits

/-! ## 1. The caller -/

/-- `BZ2_bzReadGetUnused`, with `unused` and `nUnused` not null: `*bzerror`, the handle, and `*unused`
    with `*nUnused` where they are set. -/
def bzReadGetUnused (b : BzReadFile) : Ret × BzReadFile × Option (Int × Nat) :=
  if b.lastErr ≠ .streamEnd then (.sequenceError, b.setErr .sequenceError, none)
  else (.ok, b.setErr .ok, some (b.strm.nextIn, b.strm.availIn))

/-- `BZ2_bzReadClose`, `writing` not being set: `*bzerror`. `BZ2_bzDecompressEnd` and `free` take the
    handle back; the file is left where it is. -/
def bzReadClose (_ : BzReadFile) : Ret := .ok

/-- The end of a stream: what its `BZ2_bzRead`s have delivered, the handle and the file then,
    `*unused` and `*nUnused`, and the copy of the unused bytes. -/
structure StreamEnd where
  data : List Byte
  b : BzReadFile
  f : InFile
  next : Int
  nUnused : Nat
  unused : List Byte

section

variable [Build]

/-- One stream: open with the unused bytes of the one before, read to `BZ_STREAM_END`, copy the
    unused bytes, close. -/
def readStream (fuel : Nat) (small : Int) (s : Session) (unused : List Byte) (f : InFile) :
    Option StreamEnd :=
  match bzReadOpen f s.mem s.buf 0 small (some fun i => unused.getD i 0) unused.length with
  | (_, none) => none
  | (_, some b) =>
    match readToEnd s fuel 0 b f [] with
    | none => none
    | some (data, r) =>
      match bzReadGetUnused r.b with
      | (_, _, none) => none
      | (_, b, some (next, nUnused)) =>
        if bzReadClose b ≠ .ok then none
        else some ⟨data, r.b, r.f, next, nUnused, bytesAt b.strm.mem next nUnused⟩

/-- One stream after the other. -/
def readStreams (fuel : Nat) (small : Int) : List Session → List Byte → InFile → Option (List StreamEnd)
  | [], _, _ => some []
  | s :: sessions, unused, f =>
    match readStream fuel small s unused f with
    | none => none
    | some e => (readStreams fuel small sessions e.unused e.f).map (e :: ·)

end

/-! ## 2. Reading one stream -/

/-- **A handle at the end of a stream**: the unused bytes and the rest of the file are what follows. -/
structure AtEnd (more : List Byte) (b : BzReadFile) (f : InFile) : Prop where
  rest : b.strm.input ++ f.rest = more
  good : f.Good
  inBuf : b.InBuf

section

variable [Build] {small : Bool} {z x more : List Byte} {u : List Bool}

/-- **One stream**: opened with the bytes the one before left unused. -/
theorem readStream_ends (hz : Decodes small z x u) (hu : u.length < 8) {s : Session}
    (hreads : ∀ j, 1 ≤ (s.reads j).2) {f : InFile} (hf : f.Good) {unused : List Byte}
    (hn : unused.length ≤ bzMaxUnused) (hin : unused ++ f.rest = z ++ more) :
    ∃ e : StreamEnd, e.data = x ∧ AtEnd more e.b e.f ∧ e.next = e.b.strm.nextIn ∧
      e.nUnused = e.b.strm.availIn ∧ e.unused = e.b.strm.input ∧
      ∃ least, ∀ fuel, least ≤ fuel → readStream fuel (smallOf small) s unused f = some e := by
  have hcopy : (List.range unused.length).map
      ((some fun i => unused.getD i 0).getD fun _ => (0 : Byte)) = unused := by
    refine List.ext_getElem (by simp) fun i h1 h2 => ?_
    simp [List.getElem?_eq_getElem h2]
  obtain ⟨b, hopen, hmid⟩ := @bzReadOpen_midway _ small f hf.fair hf.1 s.mem s.buf
    (some fun i => unused.getD i 0) unused.length (fun h => nomatch h) hn
  rw [hcopy, hin] at hmid
  obtain ⟨r, -, herr, hrest, hgood, hbuf, least, hall⟩ := readToEnd_valid hz hu hreads hf hmid
  refine ⟨⟨x, r.b, r.f, r.b.strm.nextIn, r.b.strm.availIn, r.b.strm.input⟩, rfl,
    ⟨hrest, hgood, hbuf⟩, rfl, rfl, rfl, least, fun fuel hfuel => ?_⟩
  unfold readStream
  rw [hopen]
  dsimp only
  rw [hall fuel hfuel]
  dsimp only
  unfold bzReadGetUnused
  rw [if_neg (not_not_intro herr)]
  rfl

/-! ## 3. Streams one after the other -/

/-- **Streams stored back to back**: for every list of valid streams in a file, every way `fread` cuts
    the file, and all lengths asked of `BZ2_bzRead`, opening, reading to `BZ_STREAM_END`, taking the
    unused bytes and opening again with them delivers what the streams stand for, one after the
    other. At the end of each, the unused bytes and the rest of the file are the streams that
    follow; the unused bytes are in the handle's buffer, and no more than it holds. -/
theorem readStreams_concat (small : Bool) {streams : List (List Byte × List Byte)}
    (hvalid : ∀ s ∈ streams, ValidStream s.1 s.2) {f : InFile} (hf : f.Good)
    {unused : List Byte} (hn : unused.length ≤ bzMaxUnused)
    (hin : unused ++ f.rest = (streams.map Prod.fst).flatten) {sessions : List Session}
    (hlen : sessions.length = streams.length) (hreads : ∀ s ∈ sessions, ∀ j, 1 ≤ (s.reads j).2) :
    ∃ ends : List StreamEnd,
      (∃ least, ∀ fuel, least ≤ fuel →
        readStreams fuel (smallOf small) sessions unused f = some ends) ∧
      ends.map StreamEnd.data = streams.map Prod.snd ∧
      ∀ (i : Nat) (e : StreamEnd), ends[i]? = some e →
        e.unused ++ e.f.rest = ((streams.drop (i + 1)).map Prod.fst).flatten ∧
        e.unused.length = e.nUnused ∧ e.nUnused ≤ bzMaxUnused ∧
        e.b.buf ≤ e.next ∧ e.next + e.nUnused ≤ e.b.buf + bzMaxUnused := by
  induction streams generalizing f unused sessions with
  | nil =>
    obtain rfl := List.eq_nil_of_length_eq_zero hlen
    exact ⟨[], ⟨0, fun fuel _ => rfl⟩, rfl, fun i e he => by simp at he⟩
  | cons st streams ih =>
    obtain ⟨s, sessions, rfl⟩ := List.exists_cons_of_length_eq_add_one hlen
    obtain ⟨z, x⟩ := st
    obtain ⟨u, hz, hu⟩ := hvalid (z, x) List.mem_cons_self
    rw [List.map_cons, List.flatten_cons] at hin
    obtain ⟨e, hdata, hend, hnext, hnum, hunused, least, hall⟩ :=
      readStream_ends (hz.either small) hu (hreads s List.mem_cons_self) hf hn hin
    obtain ⟨h1, h2, h3⟩ := hend.inBuf
    have hlenUnused : e.unused.length = e.nUnused := by
      rw [hunused, hnum, BzStream.input, length_bytesAt]
    have hrest : e.unused ++ e.f.rest = (streams.map Prod.fst).flatten := by
      rw [hunused]
      exact hend.rest
    obtain ⟨ends, ⟨least', hends⟩, hmap, hspec⟩ := ih
      (fun st hst => hvalid st (List.mem_cons_of_mem _ hst)) hend.good (by omega) hrest
      (Nat.succ.inj hlen) fun s hs => hreads s (List.mem_cons_of_mem _ hs)
    refine ⟨e :: ends, ⟨max least least', fun fuel hfuel => ?_⟩, ?_, fun i e' he' => ?_⟩
    · unfold readStreams
      rw [hall fuel (by omega)]
      dsimp only
      rw [hends fuel (by omega)]
      rfl
    · rw [List.map_cons, List.map_cons, hdata, hmap]
    · cases i with
      | zero =>
        obtain rfl : e = e' := by simpa using he'
        exact ⟨hrest, hlenUnused, by omega, by omega, by omega⟩
      | succ i => exact hspec i e' (by simpa using he')

end

theorem validStream_emptyFile : ValidStream emptyFile [] := by
  let _ : Build := ⟨false, 0⟩
  obtain ⟨d, strm', hc, hin, hout⟩ : ∃ (d : DState FlatMtf) (strm' : BzStream),
      bzDecompress .qbz2 (DState.init false) (offering emptyFile) = some (.streamEnd, d, strm') ∧
        strm'.availIn = 0 ∧ strm'.out = [] := ⟨_, _, rfl, rfl, rfl⟩
  have hrun : DecompressRun .qbz2 false emptyFile [⟨offering emptyFile, .streamEnd, strm'⟩] d _ :=
    .call .init (fun c hc => absurd hc List.not_mem_nil) _ (List.prefix_refl _) hc
  have hnil : emptyFile.drop (DecompressCall.taken ⟨offering emptyFile, .streamEnd, strm'⟩) = [] := by
    unfold DecompressCall.taken
    dsimp only
    rw [hin]
    rfl
  rw [hnil] at hrun
  have hvalid := validStream_of_run hrun rfl
  have hgiven : delivered [⟨offering emptyFile, .streamEnd, strm'⟩] = [] := by
    unfold delivered DecompressCall.given
    rw [List.flatMap_singleton, hout, List.drop_nil]
  rwa [hgiven] at hvalid

theorem readStreams_concat_two : ∃ ends : List StreamEnd,
    (∃ least, ∀ fuel, least ≤ fuel →
      @readStreams sortingEnv.toBuild fuel 0 (List.replicate 2 ⟨fun _ => 0, 0, fun _ => (0, 1)⟩) []
        (bytewise (oneByteFile ++ emptyFile)) = some ends) ∧
    ends.map StreamEnd.data = [[0x61], []] := by
  let _ : CompressEnv := sortingEnv
  have hvalid : ∀ s ∈ [(oneByteFile, ([0x61] : List Byte)), (emptyFile, [])],
      ValidStream s.1 s.2 := by
    intro st hst
    rcases List.mem_cons.mp hst with rfl | hst
    · exact oneByte_decodes false
    · rw [List.mem_singleton.mp hst]
      exact validStream_emptyFile
  obtain ⟨ends, hall, hmap, -⟩ := @readStreams_concat _ false _ hvalid _
    (bytewise_good (oneByteFile ++ emptyFile)) [] (Nat.zero_le _) (by simp [bytewise]) (List.replicate 2 ⟨fun _ => 0, 0, fun _ => (0, 1)⟩) rfl
    fun s hs j => by rw [List.eq_of_mem_replicate hs]
  exact ⟨ends, hall, hmap⟩

end Qbz2
