/-
  File:      Qbz2/File/Read.lean
  Subject:   Reading through a `BZFILE` (`src/bzlib.c`): `BZ2_bzReadOpen` and `BZ2_bzRead`, on a file
             that may hold anything, and whose `fread` may fail.

  * `InFile` -- the `FILE` of a handle: its error indicator, what has not been read yet, and what
    the coming calls of `fread` will do; `poke` -- `fread` stores into the handle's buffer;
  * `BzReadFile` -- the handle; `bzReadOpen`, `bzRead`;
  * `InFile.Fair` -- `fread` sets the error indicator or gets at least one byte;
  * `Midway` -- a handle between two `BZ2_bzRead`s is a run of `BZ2_bzDecompress` on all that is in
    the file; `Called` -- it is after a call;
  * `bzReadLoop_turn` -- a turn of the loop of `BZ2_bzRead` ends it or goes on from such a handle;
    `readToEnd_any` -- reading goes on to an error of the file or to the end of that run;
    `readToEnd_valid` -- on a stream without errors of the file, to the end of the stream;
  * **`bzRead_outcome`** -- what a file holds decides what its readers get, in whatever portions
    `fread` delivers it and whatever they ask for: all of it and `BZ_STREAM_END`, or the front of it
    and one error code.

  The handle is allocated, at any address and over any contents of the memory; `bzerror` is not
  null.
-/
import Qbz2.Decompress.Ends
import Qbz2.File.Write
import Qbz2.RoundTrip.Stream

namespace Qbz2

open Transducer Bits

/-! ## 1. The file -/

/-- A `FILE` that is read: `ferror`, the bytes to come, and the outcomes of the coming calls of
    `fread`. -/
structure InFile where
  err : Bool
  rest : List Byte
  outcomes : Nat → Outcome

namespace InFile

/-- `fread(buf, sizeof(UChar), BZ_MAX_UNUSED, f)`: the bytes that have been read. -/
def fread (f : InFile) : List Byte × InFile :=
  let o := f.outcomes 0
  let n := min o.count bzMaxUnused
  (f.rest.take n,
    { err := f.err || o.err, rest := f.rest.drop n, outcomes := fun i => f.outcomes (i + 1) })

/-- `myfeof(f)`. It looks ahead with `fgetc`, which is taken not to fail. -/
def eof (f : InFile) : Bool := f.rest.isEmpty

end InFile

/-- Bytes stored from address `a` on. -/
def poke (mem : Int → Byte) (a : Int) : List Byte → Int → Byte
  | [] => mem
  | b :: l => poke (Function.update mem a b) (a + 1) l

theorem poke_before {mem : Int → Byte} {a i : Int} (l : List Byte) (h : i < a) :
    poke mem a l i = mem i := by
  induction l generalizing mem a with
  | nil => rfl
  | cons b l ih =>
    unfold poke
    rw [ih (by omega), Function.update_of_ne (by omega)]

/-- What has been stored is there. -/
theorem bytesAt_poke (mem : Int → Byte) (a : Int) (l : List Byte) :
    bytesAt (poke mem a l) a l.length = l := by
  induction l generalizing mem a with
  | nil => rfl
  | cons b l ih =>
    unfold poke
    rw [List.length_cons, bytesAt_succ, poke_before l (by omega), Function.update_self, ih]

/-! ## 2. The handle -/

/-- A `bzFile` opened for reading: `strm.state`, the rest of `strm`, where `buf` lies, `bufN` and
    `lastErr`. -/
structure BzReadFile where
  state : DState FlatMtf
  strm : BzStream
  buf : Int
  bufN : Nat
  lastErr : Ret

namespace BzReadFile

/-- `BZ_SETERR(eee)`, the part that is kept. -/
def setErr (b : BzReadFile) (eee : Ret) : BzReadFile := { b with lastErr := eee }

/-- `n = fread(bzf->buf, ...); ... bzf->bufN = n; bzf->strm.avail_in = bzf->bufN;
    bzf->strm.next_in = bzf->buf`. -/
def load (b : BzReadFile) (l : List Byte) : BzReadFile :=
  { b with
    bufN := l.length
    strm := { b.strm with mem := poke b.strm.mem b.buf l, nextIn := b.buf, availIn := l.length } }

/-- `if (bzf->strm.avail_in == 0 && !myfeof(bzf->handle)) { ... }`, and whether the error indicator
    is set then. -/
def fill (b : BzReadFile) (f : InFile) : Bool × BzReadFile × InFile :=
  if b.strm.availIn = 0 ∧ f.eof = false then
    let (l, f) := f.fread
    if f.err then (true, b, f) else (false, b.load l, f)
  else (false, b, f)

end BzReadFile

/-- `BZ2_bzReadOpen`, with `f` not null: `unused` gives the bytes behind that pointer, none for a null
    pointer; the handle's buffer is at `buf` in `mem`. -/
def bzReadOpen (f : InFile) (mem : Int → Byte) (buf : Int) (verbosity small : Int)
    (unused : Option (Nat → Byte)) (nUnused : Int) : Ret × Option BzReadFile :=
  if (small ≠ 0 ∧ small ≠ 1) ∨ (verbosity < 0 ∨ verbosity > 4) ∨ (unused.isNone ∧ nUnused ≠ 0) ∨
      (unused.isSome ∧ (nUnused < 0 ∨ nUnused > bzMaxUnused)) then (.paramError, none)
  else if f.err then (.ioError, none)
  else
    let l := (List.range nUnused.toNat).map (unused.getD fun _ => 0)
    (.ok, some
      { state := DState.init (decide (small = 1))
        strm := (BzStream.oneShot (poke mem buf l) buf l.length 0 0).decompressInit
        buf
        bufN := l.length
        lastErr := .ok })

/-- What a `BZ2_bzRead` leaves: the value it returns, `*bzerror`, the handle and the file. -/
structure ReadEnd where
  n : Nat
  ret : Ret
  b : BzReadFile
  f : InFile

/-- The bytes a `BZ2_bzRead` has delivered. -/
def ReadEnd.data (r : ReadEnd) : List Byte := r.b.strm.out.take r.n

section

variable [Build]

/-- The loop of `BZ2_bzRead`. -/
def bzReadLoop (len : Nat) : Nat → BzReadFile → InFile → Option ReadEnd
  | 0, _, _ => none
  | fuel + 1, b, f =>
    if f.err then some ⟨0, .ioError, b.setErr .ioError, f⟩
    else
      let (failed, b, f) := b.fill f
      if failed then some ⟨0, .ioError, b.setErr .ioError, f⟩
      else
        match bzDecompress .qbz2 b.state b.strm with
        | none => none
        | some (ret, state, strm) =>
          let b := { b with state, strm }
          if ret ≠ .ok ∧ ret ≠ .streamEnd then some ⟨0, ret, b.setErr ret, f⟩
          else if ret = .ok ∧ f.eof = true ∧ strm.availIn = 0 ∧ strm.availOut > 0 then
            some ⟨0, .unexpectedEof, b.setErr .unexpectedEof, f⟩
          else if ret = .streamEnd then
            some ⟨len - strm.availOut, .streamEnd, b.setErr .streamEnd, f⟩
          else if strm.availOut = 0 then some ⟨len, .ok, b.setErr .ok, f⟩
          else bzReadLoop len fuel b f

/-- `BZ2_bzRead`: `buf` is the address the bytes go to, none for a null pointer. -/
def bzRead (fuel : Nat) (b : BzReadFile) (f : InFile) (buf : Option Int) (len : Int) :
    Option ReadEnd :=
  match buf with
  | none => some ⟨0, .paramError, b.setErr .paramError, f⟩
  | some nextOut =>
    if len < 0 then some ⟨0, .paramError, b.setErr .paramError, f⟩
    else if len = 0 then some ⟨0, .ok, b.setErr .ok, f⟩
    else
      bzReadLoop len.toNat fuel
        { b.setErr .ok with strm := { b.strm with availOut := len.toNat, nextOut, out := [] } } f

end

/-- What is open in the reading of one stream: the memory the handle is in and where its buffer is,
    and the address and length of each `BZ2_bzRead`. -/
structure Session where
  mem : Int → Byte
  buf : Int
  reads : Nat → Int × Int

section

variable [Build]

/-- `BZ2_bzRead` until it does not return `BZ_OK`, from the `j`-th on; `data` has been delivered
    before. -/
def readToEnd (s : Session) : Nat → Nat → BzReadFile → InFile → List Byte →
    Option (List Byte × ReadEnd)
  | 0, _, _, _, _ => none
  | fuel + 1, j, b, f, data =>
    match bzRead fuel b f (some (s.reads j).1) (s.reads j).2 with
    | none => none
    | some r =>
      if r.ret = .ok then readToEnd s fuel (j + 1) r.b r.f (data ++ r.data)
      else some (data ++ r.data, r)

end

/-- The `small` that stands for a mode. -/
def smallOf (small : Bool) : Int := if small then 1 else 0

/-! ## 3. Refills -/

/-- `fread` comes back without a byte only at the end of the file, or with the error indicator set. -/
def InFile.Fair (f : InFile) : Prop := ∀ i, (f.outcomes i).err = true ∨ 1 ≤ (f.outcomes i).count

/-- `next_in` is inside the handle's buffer. -/
def BzReadFile.InBuf (b : BzReadFile) : Prop :=
  b.buf ≤ b.strm.nextIn ∧ b.strm.nextIn + b.strm.availIn = b.buf + b.bufN ∧ b.bufN ≤ bzMaxUnused

/-- **A refill** fails with the error indicator set, or changes nothing of what is to come, and finds
    input where there is any. -/
theorem fill_any {b : BzReadFile} {f : InFile} (hf : f.Fair) (hclear : f.err = false) (hb : b.InBuf) :
    (∃ f' : InFile, b.fill f = (true, b, f') ∧ f'.err = true) ∨
    ∃ (b' : BzReadFile) (f' : InFile), b.fill f = (false, b', f') ∧ f'.Fair ∧ f'.err = false ∧
      b'.InBuf ∧ b'.state = b.state ∧ b'.strm.out = b.strm.out ∧
      b'.strm.availOut = b.strm.availOut ∧ b'.strm.input ++ f'.rest = b.strm.input ++ f.rest ∧
      (b.strm.input ++ f.rest ≠ [] → 1 ≤ b'.strm.availIn) := by
  have hinput : b.strm.availIn = 0 → b.strm.input = [] := by
    intro h0
    unfold BzStream.input
    rw [h0]
    rfl
  unfold BzReadFile.fill
  by_cases h : b.strm.availIn = 0 ∧ f.eof = false
  · rw [if_pos h]
    cases herr : f.fread.2.err with
    | true =>
      left
      refine ⟨f.fread.2, ?_, herr⟩
      dsimp only
      rw [herr]
      rfl
    | false =>
      right
      have hcount : 1 ≤ (f.outcomes 0).count := by
        refine (hf 0).resolve_left fun he => ?_
        unfold InFile.fread at herr
        dsimp only at herr
        rw [he, Bool.or_true] at herr
        cases herr
      have hrest : f.rest ≠ [] := by
        intro hnil
        have heof := h.2
        unfold InFile.eof at heof
        rw [hnil] at heof
        cases heof
      have hsplit : f.fread.1 ++ f.fread.2.rest = f.rest := List.take_append_drop _ _
      have hsome : f.fread.1.length = min (min (f.outcomes 0).count bzMaxUnused) f.rest.length :=
        List.length_take
      have hmax : 1 ≤ bzMaxUnused := by decide
      have hpos := List.length_pos_iff.mpr hrest
      have hload : (b.load f.fread.1).strm.input = f.fread.1 := bytesAt_poke _ _ _
      refine ⟨b.load f.fread.1, f.fread.2, ?_, fun i => hf (i + 1), herr,
        ⟨Int.le_refl _, rfl, ?_⟩, rfl, rfl, rfl, ?_, fun _ => ?_⟩
      · dsimp only
        rw [herr]
        rfl
      · show f.fread.1.length ≤ bzMaxUnused
        omega
      · rw [hload, hsplit, hinput h.1]
        rfl
      · show 1 ≤ f.fread.1.length
        omega
  · right
    rw [if_neg h]
    refine ⟨b, f, rfl, hf, hclear, hb, rfl, rfl, rfl, rfl, fun hne => ?_⟩
    by_contra h0
    have h0 : b.strm.availIn = 0 := by omega
    have heof : f.rest = [] := by
      by_contra hrest
      refine h ⟨h0, ?_⟩
      unfold InFile.eof
      exact List.isEmpty_eq_false_iff.mpr hrest
    apply hne
    rw [heof, List.append_nil, hinput h0]

/-! ## 4. One call -/

section

variable [Build] {small : Bool} {z : List Byte}

omit [Build] in
/-- An error, or the end of the stream. -/
theorem ne_ok {r : Ret} (h : decide (r = .ok) = false) : r ≠ .ok := of_decide_eq_false h

/-- **A call on the next part of an input**: what is left of it then, and that a call that returns
    `BZ_OK` has filled the buffer, or has used up its input and waits. -/
theorem DecompressRun.next {calls : List DecompressCall} {d : DState FlatMtf} {rest more : List Byte}
    (h : DecompressRun .qbz2 small z calls d rest) (hok : ∀ c ∈ calls, c.ret = .ok) {strm : BzStream}
    (hrest : strm.input ++ more = rest) :
    ∃ (c : DecompressCall) (d' : DState FlatMtf),
      c.strm = strm ∧ bzDecompress .qbz2 d strm = some (c.ret, d', c.strm') ∧
      DecompressRun .qbz2 small z (calls ++ [c]) d' (rest.drop c.taken) ∧
      Served strm c.strm' c.given ∧
      (c.ret = .ok ∨ c.ret = .streamEnd →
        c.strm'.availIn ≤ strm.availIn ∧ rest.drop c.taken = c.strm'.input ++ more) ∧
      (c.ret = .ok → c.strm'.availOut = 0 ∨ c.strm'.availIn = 0 ∧ d'.Waits) := by
  obtain ⟨hd, -, -⟩ := run_sim .qbz2 h hok
  obtain ⟨r, d', strm', w, y, u, hc, hs, hC, -⟩ := bzDecompress_sim .qbz2 hd strm
  have hleft : ∀ {w : List Byte}, Served strm strm' w → strm'.availIn ≤ strm.availIn →
      rest.drop (DecompressCall.taken ⟨strm, r, strm'⟩) = strm'.input ++ more := by
    intro w hserved hle
    rw [← hrest]
    exact rest_drop hserved hle
  have hoffer : strm.input <+: rest := by
    rw [← hrest]
    exact List.prefix_append _ _
  refine ⟨⟨strm, r, strm'⟩, d', rfl, hc, h.call hok ⟨strm, r, strm'⟩ hoffer hc, ?_⟩
  have hgiven : ∀ {w : List Byte}, Served strm strm' w →
      Served strm strm' (DecompressCall.given ⟨strm, r, strm'⟩) := by
    intro w hserved
    rw [Served.given (c := ⟨strm, r, strm'⟩) hserved]
    exact hserved
  cases hC with
  | full hserved hle _ h0 _ =>
    exact ⟨hgiven hserved, fun _ => ⟨hle, hleft hserved hle⟩, fun _ => .inl h0⟩
  | starved hserved hle hd' hst h0 =>
    exact ⟨hgiven hserved, fun _ => ⟨hle, hleft hserved hle⟩,
      fun _ => .inr ⟨h0, _, hst, hd'.starved _ hst⟩⟩
  | failed hserved _ _ _ hne hend =>
    exact ⟨hgiven hserved, fun hr => (hr.elim hne hend).elim, fun hr => (hne hr).elim⟩
  | ended hserved _ hgive _ =>
    have hall := hserved.trans (giveBack_served hgive)
    have hle := (ended_forward hd hs hgive).1
    exact ⟨hgiven hall, fun _ => ⟨hle, hleft hall hle⟩, fun hr => absurd hr (ne_ok rfl)⟩

/-! ## 5. One read -/

/-- The code `BZ2_bzRead` returns for one of the decoder, at the end of its input. -/
def readCode (r : Ret) : Ret := if r = .ok then .unexpectedEof else r

/-- **A handle between two `BZ2_bzRead`s** that returned `BZ_OK`, `data` having been delivered: the
    calls so far are a run on the contents of the file. -/
structure Midway (small : Bool) (z : List Byte) (b : BzReadFile) (f : InFile) (data : List Byte) :
    Prop where
  run : ∃ calls, DecompressRun .qbz2 small z calls b.state (b.strm.input ++ f.rest) ∧
    (∀ c ∈ calls, c.ret = .ok) ∧ delivered calls = data
  fair : f.Fair
  clear : f.err = false
  inBuf : b.InBuf

/-- **How reading ends**: with an error of the file; or with the end of a run on its contents. At the
    end of a stream what the run has delivered has been passed on, else the front of it. -/
inductive Finishes (small : Bool) (z data : List Byte) (r : ReadEnd) : Prop
  | io {calls : List DecompressCall} {d : DState FlatMtf} {rest : List Byte}
      (h : DecompressRun .qbz2 small z calls d rest) (hdata : data <+: delivered calls)
      (hret : r.ret = .ioError) (herr : r.f.err = true)
  | decoded {calls : List DecompressCall} {d : DState FlatMtf} {rest : List Byte}
      (h : DecompressRun .qbz2 small z calls d rest) (hdata : data <+: delivered calls)
      (hfin : Finished .qbz2 calls d rest) (hret : r.ret = readCode (lastRet calls))
      (hall : lastRet calls = .streamEnd →
        data = delivered calls ∧ rest = r.b.strm.input ++ r.f.rest ∧ r.b.InBuf)

/-- How one `BZ2_bzRead` ends: it has delivered what it was asked for, or reading ends. -/
inductive AnyEnds (small : Bool) (z data : List Byte) (len : Nat) (r : ReadEnd) : Prop
  | ok (hr : r.ret = .ok) (hlen : r.data.length = len)
      (h : Midway small z r.b r.f (data ++ r.data))
  | last (hr : r.ret ≠ .ok) (hkept : r.b.lastErr = r.ret)
      (h : Finishes small z (data ++ r.data) r)

/-- **A handle after a call** of the decoder that has returned `r`, in a `BZ2_bzRead` of `len` bytes
    before which `data` had been delivered. -/
structure Called (small : Bool) (z data : List Byte) (len : Nat) (r : Ret) (b : BzReadFile)
    (f : InFile) : Prop where
  run : ∃ calls rest, DecompressRun .qbz2 small z calls b.state rest ∧ lastRet calls = r ∧
    delivered calls = data ++ b.strm.out ∧
    (r = .ok ∨ r = .streamEnd → rest = b.strm.input ++ f.rest ∧ b.InBuf)
  room : b.strm.out.length + b.strm.availOut = len
  waits : r = .ok → b.strm.availOut = 0 ∨ b.strm.availIn = 0 ∧ b.state.Waits
  fair : f.Fair
  clear : f.err = false

omit [Build] in
theorem data_none (b : BzReadFile) (f : InFile) (ret : Ret) : ReadEnd.data ⟨0, ret, b, f⟩ = [] := by
  unfold ReadEnd.data
  exact List.take_zero

section

variable {data : List Byte} {len : Nat} {r : Ret} {b : BzReadFile} {f : InFile}

/-- The decoder has found an error. -/
theorem Called.failed (h : Called small z data len r b f) (hok : r ≠ .ok) (hend : r ≠ .streamEnd) :
    AnyEnds small z data len ⟨0, r, b.setErr r, f⟩ := by
  obtain ⟨calls, rest, hrun, hlast, hdata, -⟩ := h.run
  refine .last hok rfl (.decoded hrun ?_ (.inl (hlast.symm ▸ hok)) ?_ fun he => ?_)
  · rw [data_none, List.append_nil, hdata]
    exact List.prefix_append _ _
  · rw [hlast]
    exact (if_neg hok).symm
  · exact absurd (hlast.symm.trans he) hend

/-- The stream is at its end. -/
theorem Called.ended (h : Called small z data len .streamEnd b f) :
    AnyEnds small z data len ⟨len - b.strm.availOut, .streamEnd, b.setErr .streamEnd, f⟩ := by
  obtain ⟨calls, rest, hrun, hlast, hdata, hleft⟩ := h.run
  have hroom := h.room
  have hall : ReadEnd.data ⟨len - b.strm.availOut, .streamEnd, b.setErr .streamEnd, f⟩ =
      b.strm.out := by
    refine List.take_of_length_le ?_
    show b.strm.out.length ≤ len - b.strm.availOut
    omega
  rw [← hall] at hdata
  refine .last (ne_ok rfl) rfl (.decoded hrun ?_ (.inl ?_) ?_ fun _ => ⟨hdata.symm, hleft (.inr rfl)⟩)
  · rw [hdata]
  · rw [hlast]
    exact ne_ok rfl
  · rw [hlast]
    rfl

/-- The file is at its end, and the stream is not. -/
theorem Called.cutOff (h : Called small z data len .ok b f) (heof : f.eof = true)
    (h0 : b.strm.availIn = 0) (hpos : b.strm.availOut > 0) :
    AnyEnds small z data len ⟨0, .unexpectedEof, b.setErr .unexpectedEof, f⟩ := by
  obtain ⟨calls, rest, hrun, hlast, hdata, hleft⟩ := h.run
  have hwaits := ((h.waits rfl).resolve_left (by omega)).2
  have hnil : b.strm.input ++ f.rest = [] := by
    rw [List.isEmpty_iff.mp heof, List.append_nil, BzStream.input, h0]
    rfl
  have hd := (run_sim .qbz2 hrun (hrun.all_ok hlast)).1
  refine .last (ne_ok rfl) rfl (.decoded hrun ?_ (.inr ⟨?_, waits_exhausted hd hwaits⟩) ?_ fun he => ?_)
  · rw [data_none, List.append_nil, hdata]
    exact List.prefix_append _ _
  · rw [(hleft (.inl rfl)).1, hnil]
  · rw [hlast]
    rfl
  · exact absurd (hlast.symm.trans he) (by decide)

/-- It can go on from there. -/
theorem Called.midway (h : Called small z data len .ok b f) :
    Midway small z b f (data ++ b.strm.out) := by
  obtain ⟨calls, rest, hrun, hlast, hdata, hleft⟩ := h.run
  obtain ⟨hrest, hbuf⟩ := hleft (.inl rfl)
  rw [hrest] at hrun
  exact ⟨⟨calls, hrun, hrun.all_ok hlast, hdata⟩, h.fair, h.clear, hbuf⟩

/-- The caller's buffer is full. -/
theorem Called.full (h : Called small z data len .ok b f) (h0 : b.strm.availOut = 0) :
    AnyEnds small z data len ⟨len, .ok, b.setErr .ok, f⟩ := by
  have hroom := h.room
  have hall : ReadEnd.data ⟨len, .ok, b.setErr .ok, f⟩ = b.strm.out := by
    refine List.take_of_length_le ?_
    show b.strm.out.length ≤ len
    omega
  have hmid := h.midway
  refine .ok rfl ?_ ?_
  · rw [hall]
    omega
  · rw [hall]
    exact ⟨hmid.run, hmid.fair, hmid.clear, hmid.inBuf⟩

/-- What the loop does after a refill and a call. -/
theorem bzReadLoop_called {b₁ : BzReadFile} {f₁ : InFile} {d : DState FlatMtf} {strm : BzStream}
    (hclear : f.err = false) (hfill : b.fill f = (false, b₁, f₁))
    (hc : bzDecompress .qbz2 b₁.state b₁.strm = some (r, d, strm)) (fuel : Nat) :
    bzReadLoop len (fuel + 1) b f =
      if r ≠ .ok ∧ r ≠ .streamEnd then
        some ⟨0, r, BzReadFile.setErr { b₁ with state := d, strm } r, f₁⟩
      else if r = .ok ∧ f₁.eof = true ∧ strm.availIn = 0 ∧ strm.availOut > 0 then
        some ⟨0, .unexpectedEof, BzReadFile.setErr { b₁ with state := d, strm } .unexpectedEof, f₁⟩
      else if r = .streamEnd then
        some ⟨len - strm.availOut, .streamEnd,
          BzReadFile.setErr { b₁ with state := d, strm } .streamEnd, f₁⟩
      else if strm.availOut = 0 then
        some ⟨len, .ok, BzReadFile.setErr { b₁ with state := d, strm } .ok, f₁⟩
      else bzReadLoop len fuel { b₁ with state := d, strm } f₁ := by
  rw [bzReadLoop, if_neg (by rw [hclear]; decide), hfill]
  dsimp only
  rw [if_neg Bool.false_ne_true, hc]

/-- **A refill and a call**, from between two calls: a file that has failed, or a call that takes
    input where there is any. -/
theorem Midway.call (h : Midway small z b f (data ++ b.strm.out))
    (hlen : b.strm.out.length + b.strm.availOut = len) :
    (∃ f', b.fill f = (true, b, f') ∧ AnyEnds small z data len ⟨0, .ioError, b.setErr .ioError, f'⟩) ∨
    ∃ (b₁ : BzReadFile) (f₁ : InFile) (r : Ret) (d : DState FlatMtf) (strm : BzStream),
      b.fill f = (false, b₁, f₁) ∧ bzDecompress .qbz2 b₁.state b₁.strm = some (r, d, strm) ∧
      Called small z data len r { b₁ with state := d, strm } f₁ ∧
      (r = .ok → f₁.rest ≠ [] → strm.availOut ≠ 0 → (strm.input ++ f₁.rest).length + strm.availOut <
        (b.strm.input ++ f.rest).length + b.strm.availOut) := by
  obtain ⟨calls, hrun, hok, hdata⟩ := h.run
  rcases fill_any h.fair h.clear h.inBuf with ⟨f₁, hfill, herr⟩ |
    ⟨b₁, f₁, hfill, hfair, hclear, hbuf, hstate, hout, hav, hrest, hin⟩
  · refine .inl ⟨f₁, hfill, .last (ne_ok rfl) rfl (.io hrun ?_ rfl herr)⟩
    rw [data_none, List.append_nil, hdata]
    exact List.prefix_append _ _
  rw [← hstate, ← hrest] at hrun
  obtain ⟨c, d, hcs, hc, hrun', hserved, hleft, hends⟩ := hrun.next hok rfl
  have hroom := hserved.availOut
  refine .inr ⟨b₁, f₁, c.ret, d, c.strm', hfill, hc, ⟨⟨_, _, hrun', lastRet_concat _ _, ?_,
    fun hr => ⟨(hleft hr).2, ?_⟩⟩, ?_, hends, hfair, hclear⟩, fun hr hfile h0 => ?_⟩
  · rw [delivered_concat, hdata, hserved.out, ← hout, List.append_assoc]
  · obtain ⟨h1, h2, h3⟩ := hbuf
    have hnext := hserved.input
    have hle := (hleft hr).1
    refine ⟨?_, hnext.trans h2, h3⟩
    dsimp only
    omega
  · show c.strm'.out.length + c.strm'.availOut = len
    rw [hserved.out, List.length_append, hout]
    omega
  · -- the input has been used up, and there was some
    have h1 := ((hends hr).resolve_left h0).1
    have hone : 1 ≤ b₁.strm.availIn := hin (by
      rw [← hrest]
      exact fun hnil => hfile (List.append_eq_nil_iff.mp hnil).2)
    have hlen₁ := congrArg List.length hrest
    rw [List.length_append, BzStream.input, length_bytesAt] at hlen₁
    rw [List.length_append, BzStream.input, length_bytesAt]
    omega

/-- **A turn of the loop** of a `BZ2_bzRead` ends it, or goes on with less to read or less room. -/
theorem bzReadLoop_turn (h : Midway small z b f (data ++ b.strm.out))
    (hlen : b.strm.out.length + b.strm.availOut = len) :
    (∃ e, AnyEnds small z data len e ∧ ∀ fuel, bzReadLoop len (fuel + 1) b f = some e) ∨
    ∃ (b' : BzReadFile) (f' : InFile), Midway small z b' f' (data ++ b'.strm.out) ∧
      b'.strm.out.length + b'.strm.availOut = len ∧
      (b'.strm.input ++ f'.rest).length + b'.strm.availOut <
        (b.strm.input ++ f.rest).length + b.strm.availOut ∧
      ∀ fuel, bzReadLoop len (fuel + 1) b f = bzReadLoop len fuel b' f' := by
  rcases h.call hlen with ⟨f', hfill, hends⟩ | ⟨b₁, f₁, r, d, strm, hfill, hc, hcalled, hless⟩
  · refine .inl ⟨_, hends, fun fuel => ?_⟩
    rw [bzReadLoop, if_neg (by rw [h.clear]; decide), hfill]
    rfl
  have hloop := @bzReadLoop_called _ len r b f b₁ f₁ d strm h.clear hfill hc
  by_cases hfail : r ≠ .ok ∧ r ≠ .streamEnd
  · refine .inl ⟨_, hcalled.failed hfail.1 hfail.2, fun fuel => ?_⟩
    rw [hloop, if_pos hfail]
  by_cases hend : r = .streamEnd
  · subst hend
    refine .inl ⟨_, hcalled.ended, fun fuel => ?_⟩
    rw [hloop, if_neg hfail, if_neg (fun h => absurd h.1 (ne_ok rfl)), if_pos rfl]
  obtain rfl : r = .ok := by_contra fun h1 => hfail ⟨h1, hend⟩
  by_cases heof : f₁.eof = true ∧ strm.availIn = 0 ∧ strm.availOut > 0
  · refine .inl ⟨_, hcalled.cutOff heof.1 heof.2.1 heof.2.2, fun fuel => ?_⟩
    rw [hloop, if_neg hfail, if_pos ⟨rfl, heof⟩]
  have hmore : ∀ fuel, bzReadLoop len (fuel + 1) b f =
      if strm.availOut = 0 then
        some ⟨len, .ok, BzReadFile.setErr { b₁ with state := d, strm } .ok, f₁⟩
      else bzReadLoop len fuel { b₁ with state := d, strm } f₁ := by
    intro fuel
    rw [hloop, if_neg hfail, if_neg (fun h => heof h.2), if_neg hend]
  by_cases h0 : strm.availOut = 0
  · refine .inl ⟨_, hcalled.full h0, fun fuel => ?_⟩
    rw [hmore, if_pos h0]
  · have hfile : f₁.rest ≠ [] := by
      intro hnil
      refine heof ⟨?_, ((hcalled.waits rfl).resolve_left h0).1, Nat.pos_of_ne_zero h0⟩
      unfold InFile.eof
      rw [hnil]
      rfl
    refine .inr ⟨_, f₁, hcalled.midway, hcalled.room, hless rfl hfile h0, fun fuel => ?_⟩
    rw [hmore, if_neg h0]

end

/-- **The loop of a `BZ2_bzRead` always comes to an end.** -/
theorem bzReadLoop_any {data : List Byte} {len : Nat} :
    ∀ (m : Nat) (b : BzReadFile) (f : InFile), Midway small z b f (data ++ b.strm.out) →
      b.strm.out.length + b.strm.availOut = len →
      (b.strm.input ++ f.rest).length + b.strm.availOut ≤ m →
      ∃ r, AnyEnds small z data len r ∧ ∀ fuel, m < fuel → bzReadLoop len fuel b f = some r := by
  intro m
  induction m with
  | zero =>
    intro b f h hlen hm
    rcases bzReadLoop_turn h hlen with ⟨r, hr, hloop⟩ | ⟨b', f', -, -, hless, -⟩
    · refine ⟨r, hr, fun fuel hfuel => ?_⟩
      obtain ⟨fuel, rfl⟩ : ∃ k, fuel = k + 1 := ⟨fuel - 1, by omega⟩
      exact hloop fuel
    · omega
  | succ m ih =>
    intro b f h hlen hm
    rcases bzReadLoop_turn h hlen with ⟨r, hr, hloop⟩ | ⟨b', f', h', hlen', hless, hloop⟩
    · refine ⟨r, hr, fun fuel hfuel => ?_⟩
      obtain ⟨fuel, rfl⟩ : ∃ k, fuel = k + 1 := ⟨fuel - 1, by omega⟩
      exact hloop fuel
    · obtain ⟨r, hr, hall⟩ := ih b' f' h' hlen' (by omega)
      refine ⟨r, hr, fun fuel hfuel => ?_⟩
      obtain ⟨fuel, rfl⟩ : ∃ k, fuel = k + 1 := ⟨fuel - 1, by omega⟩
      rw [hloop]
      exact hall fuel (by omega)

theorem bzRead_any {b : BzReadFile} {f : InFile} {data : List Byte} (h : Midway small z b f data)
    (nextOut : Int) {len : Int} (hlen : 1 ≤ len) :
    ∃ r, AnyEnds small z data len.toNat r ∧
      ∃ least, ∀ fuel, least ≤ fuel → bzRead fuel b f (some nextOut) len = some r := by
  have hmid : Midway small z
      { b.setErr .ok with strm := { b.strm with availOut := len.toNat, nextOut, out := [] } } f
      (data ++ []) := by
    rw [List.append_nil]
    exact ⟨h.run, h.fair, h.clear, h.inBuf⟩
  obtain ⟨r, hr, hloop⟩ := bzReadLoop_any _ _ f hmid (Nat.zero_add _) (Nat.le_refl _)
  refine ⟨r, hr, (b.strm.input ++ f.rest).length + len.toNat + 1, fun fuel hfuel => ?_⟩
  unfold bzRead
  dsimp only
  rw [if_neg (by omega), if_neg (by omega)]
  exact hloop fuel hfuel

/-! ## 6. Reading on -/

/-- **Reading always comes to an end**, as no run delivers more than so many bytes. -/
theorem readToEnd_any {s : Session} (hreads : ∀ j, 1 ≤ (s.reads j).2) :
    ∀ (m j : Nat) (b : BzReadFile) (f : InFile) (data : List Byte), Midway small z b f data →
      3600000 * z.length < data.length + m →
      ∃ (all : List Byte) (r : ReadEnd), r.ret ≠ .ok ∧ r.b.lastErr = r.ret ∧
        Finishes small z all r ∧
        ∃ least, ∀ fuel, least ≤ fuel → readToEnd s fuel j b f data = some (all, r) := by
  intro m
  induction m with
  | zero =>
    intro j b f data h hm
    obtain ⟨calls, hrun, hok, hdata⟩ := h.run
    have hle := steps_bounded .qbz2 (run_sim .qbz2 hrun hok).2.2
    rw [hdata] at hle
    omega
  | succ m ih =>
    intro j b f data h hm
    obtain ⟨r, hr, least, hread⟩ := bzRead_any h (s.reads j).1 (hreads j)
    cases hr with
    | ok hret hlen hmid =>
      have hone := hreads j
      obtain ⟨all, e, hne, hkept, he, least', hall⟩ := ih (j + 1) r.b r.f (data ++ r.data) hmid (by
        rw [List.length_append]
        omega)
      refine ⟨all, e, hne, hkept, he, max least least' + 1, fun fuel hfuel => ?_⟩
      obtain ⟨fuel, rfl⟩ : ∃ k, fuel = k + 1 := ⟨fuel - 1, by omega⟩
      unfold readToEnd
      rw [hread fuel (by omega)]
      dsimp only
      rw [if_pos hret]
      exact hall fuel (by omega)
    | last hne hkept he =>
      refine ⟨data ++ r.data, r, hne, hkept, he, least + 1, fun fuel hfuel => ?_⟩
      obtain ⟨fuel, rfl⟩ : ∃ k, fuel = k + 1 := ⟨fuel - 1, by omega⟩
      unfold readToEnd
      rw [hread fuel (by omega)]
      dsimp only
      rw [if_neg hne]

/-- **A handle just opened** is at the start of its unused bytes and its file. -/
theorem bzReadOpen_midway {f : InFile} (hf : f.Fair) (hclear : f.err = false) (mem : Int → Byte)
    (buf : Int) {unused : Option (Nat → Byte)} {n : Nat} (hnone : unused = none → n = 0)
    (hn : n ≤ bzMaxUnused) :
    ∃ b, bzReadOpen f mem buf 0 (smallOf small) unused n = (.ok, some b) ∧
      Midway small ((List.range n).map (unused.getD fun _ => 0) ++ f.rest) b f [] := by
  have hsmall : decide (smallOf small = 1) = small := by cases small <;> rfl
  have h01 : smallOf small = 0 ∨ smallOf small = 1 := by cases small <;> simp [smallOf]
  have hcond : ¬((smallOf small ≠ 0 ∧ smallOf small ≠ 1) ∨ ((0 : Int) < 0 ∨ (0 : Int) > 4) ∨
      (unused.isNone ∧ (n : Int) ≠ 0) ∨
      (unused.isSome ∧ ((n : Int) < 0 ∨ (n : Int) > bzMaxUnused))) := by
    rintro (h | h | ⟨h, hne⟩ | ⟨-, h⟩)
    · omega
    · omega
    · have := hnone (Option.isNone_iff_eq_none.mp h)
      omega
    · omega
  have hlen : ((List.range n).map (unused.getD fun _ => 0)).length = n := by simp
  unfold bzReadOpen
  rw [if_neg hcond, if_neg (by rw [hclear]; decide), hsmall, Int.toNat_natCast]
  refine ⟨_, rfl, ⟨[], ?_, fun c hc => absurd hc List.not_mem_nil, rfl⟩, hf, hclear, Int.le_refl _,
    rfl, by dsimp only; omega⟩
  have hinput : ((BzStream.oneShot (poke mem buf ((List.range n).map (unused.getD fun _ => 0))) buf
      ((List.range n).map (unused.getD fun _ => 0)).length 0 0).decompressInit).input =
      (List.range n).map (unused.getD fun _ => 0) := bytesAt_poke _ _ _
  dsimp only
  rw [hinput]
  exact .init

/-! ## 7. A stream in a file without errors -/

/-- **A file without errors**: every `fread` gets at least one byte, while there is any. -/
def InFile.Good (f : InFile) : Prop :=
  f.err = false ∧ ∀ i, (f.outcomes i).err = false ∧ 1 ≤ (f.outcomes i).count ∧
    (f.outcomes i).count ≤ bzMaxUnused

omit [Build] in
theorem InFile.Good.fair {f : InFile} (h : f.Good) : f.Fair := fun i => .inr (h.2 i).2.1

omit [Build] in
theorem InFile.Good.fill {f f' : InFile} {b b' : BzReadFile} {failed : Bool} (h : f.Good)
    (hfill : b.fill f = (failed, b', f')) : f'.Good := by
  have hread : f.fread.2.Good := by
    refine ⟨?_, fun i => h.2 (i + 1)⟩
    unfold InFile.fread
    dsimp only
    rw [h.1, (h.2 0).1]
    rfl
  unfold BzReadFile.fill at hfill
  split at hfill
  · dsimp only at hfill
    split at hfill <;> cases hfill <;> exact hread
  · cases hfill
    exact h

/-- Such a file stays so. -/
theorem InFile.Good.bzReadLoop {len : Nat} : ∀ (fuel : Nat) {b : BzReadFile} {f : InFile} {r : ReadEnd},
    f.Good → Qbz2.bzReadLoop len fuel b f = some r → r.f.Good := by
  intro fuel
  induction fuel with
  | zero => exact fun _ h => nomatch h
  | succ fuel ih =>
    intro b f r hf h
    obtain ⟨failed, b₁, f₁, hfill⟩ : ∃ failed b₁ f₁, b.fill f = (failed, b₁, f₁) := ⟨_, _, _, rfl⟩
    have hf₁ := hf.fill hfill
    rw [Qbz2.bzReadLoop, if_neg (by rw [hf.1]; decide), hfill] at h
    dsimp only at h
    split at h
    · cases h
      exact hf₁
    split at h
    · cases h
    split at h
    · cases h
      exact hf₁
    split at h
    · cases h
      exact hf₁
    split at h
    · cases h
      exact hf₁
    split at h
    · cases h
      exact hf₁
    · exact ih hf₁ h

theorem InFile.Good.bzRead {fuel : Nat} {b : BzReadFile} {f : InFile} {buf : Option Int} {len : Int}
    {r : ReadEnd} (hf : f.Good) (h : Qbz2.bzRead fuel b f buf len = some r) : r.f.Good := by
  unfold Qbz2.bzRead at h
  split at h
  · cases h
    exact hf
  split at h
  · cases h
    exact hf
  split at h
  · cases h
    exact hf
  · exact hf.bzReadLoop _ h

theorem InFile.Good.readToEnd {s : Session} : ∀ (fuel : Nat) {j : Nat} {b : BzReadFile} {f : InFile}
    {data all : List Byte} {r : ReadEnd},
    f.Good → Qbz2.readToEnd s fuel j b f data = some (all, r) → r.f.Good := by
  intro fuel
  induction fuel with
  | zero => exact fun _ h => nomatch h
  | succ fuel ih =>
    intro j b f data all r hf h
    rw [Qbz2.readToEnd] at h
    split at h
    · cases h
    · rename_i e he
      have hgood := hf.bzRead he
      split at h
      · exact ih hgood h
      · cases h
        exact hgood

/-- **Reading a stream to its end**, from a file without errors: all of it is delivered, and the
    unused bytes and the rest of the file are what follows. -/
theorem readToEnd_valid {x more : List Byte} {u : List Bool} (hz : Decodes small z x u)
    (hu : u.length < 8) {s : Session} (hreads : ∀ j, 1 ≤ (s.reads j).2) {b : BzReadFile} {f : InFile}
    (hf : f.Good) (h : Midway small (z ++ more) b f []) :
    ∃ r : ReadEnd, r.ret = .streamEnd ∧ r.b.lastErr = .streamEnd ∧
      r.b.strm.input ++ r.f.rest = more ∧ r.f.Good ∧ r.b.InBuf ∧
      ∃ least, ∀ fuel, least ≤ fuel → readToEnd s fuel 0 b f [] = some (x, r) := by
  obtain ⟨data, r, -, hkept, hends, least, hall⟩ :=
    readToEnd_any hreads (3600000 * (z ++ more).length + 1) 0 b f [] h (by simp)
  have hgood := hf.readToEnd least (hall least (Nat.le_refl _))
  cases hends with
  | io _ _ _ herr => exact absurd (hgood.1.symm.trans herr) (by decide)
  | decoded hrun hdata hfin hret hleft =>
    have hsteps := (hz.followed more).run hrun
    have hend := hsteps.2.2.2 hfin
    obtain ⟨rfl, hrest, hbuf⟩ := hleft hend
    have hx := hsteps.2.2.1 hend
    rw [hend] at hret
    have hret : r.ret = .streamEnd := hret
    rw [hx] at hall
    exact ⟨r, hret, hkept.trans hret, hrest.symm.trans (hz.ends hu hrun hend), hgood, hbuf, least, hall⟩

/-! ## 8. The outcome -/

/-- **What a file holds decides what its readers get**: there are a code other than `BZ_OK`, an output
    of at most 3600000 bytes for each byte of the file, and a part of the file that is left; and
    whoever opens such a file and reads on until something other than `BZ_OK` is returned comes to
    an end, in whatever portions `fread` delivers it and whatever lengths are asked for. If no
    `fread` fails, it is that code that is returned, and the front of that output that has been
    delivered, all of it at `BZ_STREAM_END`, where the unused bytes and the rest of the file are
    what is left. If one fails, `BZ_IO_ERROR` is returned, or what would have been returned
    without. -/
theorem bzRead_outcome (small : Bool) (z : List Byte) :
    ∃ (ret : Ret) (out left : List Byte), ret ≠ .ok ∧ out.length ≤ 3600000 * z.length ∧
      ∀ {f : InFile}, f.Fair → f.err = false → f.rest = z →
      ∀ {s : Session}, (∀ j, 1 ≤ (s.reads j).2) →
      ∃ (b : BzReadFile) (data : List Byte) (r : ReadEnd),
        bzReadOpen f s.mem s.buf 0 (smallOf small) none 0 = (.ok, some b) ∧
        (∃ least, ∀ fuel, least ≤ fuel → readToEnd s fuel 0 b f [] = some (data, r)) ∧
        data <+: out ∧ r.b.lastErr = r.ret ∧
        (r.ret = .ioError ∧ r.f.err = true ∨
          r.ret = ret ∧ (ret = .streamEnd → data = out ∧ r.b.strm.input ++ r.f.rest = left)) := by
  obtain ⟨out, y, u, hsteps, hstuck⟩ := @exists_stuck FlatMtf _ .qbz2 small z
  obtain ⟨ret, hret⟩ : ∃ ret, verdict (bitDecoder .qbz2 small y) = ret := ⟨_, rfl⟩
  have hread : readCode ret ≠ .ok := by
    unfold readCode
    split
    · decide
    · assumption
  refine ⟨readCode ret, out, z.drop (z.length - u.length / 8), hread, steps_bounded .qbz2 hsteps,
    fun {f} hf hclear hrest {s} hreads => ?_⟩
  obtain ⟨b, hopen, hmid⟩ := @bzReadOpen_midway _ small f hf hclear s.mem s.buf none 0
    (fun _ => rfl) (Nat.zero_le _)
  rw [hrest] at hmid
  obtain ⟨data, r, -, hkept, hends, hloop⟩ :=
    readToEnd_any hreads (3600000 * z.length + 1) 0 b f [] hmid (by simp)
  cases hends with
  | io h hdata hioError herr =>
    exact ⟨b, data, r, hopen, hloop, hdata.trans (h.outcome hsteps hstuck hret).1, hkept,
      .inl ⟨hioError, herr⟩⟩
  | decoded h hdata hfin hcode hsame =>
    obtain ⟨hfront, hfinished⟩ := h.outcome hsteps hstuck hret
    obtain ⟨hlast, hwhole, hleft⟩ := hfinished hfin
    rw [hlast] at hcode hsame
    refine ⟨b, data, r, hopen, hloop, hdata.trans hfront, hkept, .inr ⟨hcode, fun hend => ?_⟩⟩
    have hend : ret = .streamEnd := by
      unfold readCode at hend
      split at hend
      · cases hend
      · exact hend
    obtain ⟨hdata', hrest', -⟩ := hsame hend
    exact ⟨hdata'.trans (hwhole (.inr hend)), hrest'.symm.trans (hleft hend)⟩

end

/-- A file that is read a byte at a time. -/
def bytewise (rest : List Byte) : InFile := ⟨false, rest, fun _ => ⟨1, false⟩⟩

theorem bytewise_good (rest : List Byte) : (bytewise rest).Good :=
  ⟨rfl, fun _ => ⟨rfl, Nat.le_refl 1, (by decide : 1 ≤ bzMaxUnused)⟩⟩

/-- The stream of one byte, read a byte at a time. -/
theorem bzRead_outcome_oneByte :
    ∃ (out left data : List Byte) (b : BzReadFile) (r : ReadEnd),
      (∃ least, ∀ fuel, least ≤ fuel →
        @readToEnd sortingEnv.toBuild ⟨fun _ => 0, 0, fun _ => (0, 1)⟩ fuel 0 b
          (bytewise (oneByteFile ++ [0xff])) [] = some (data, r)) ∧
      r.ret = .streamEnd ∧ data = [0x61] ∧ data = out ∧
      r.b.strm.input ++ r.f.rest = [0xff] ∧ r.b.strm.input ++ r.f.rest = left := by
  let _ : CompressEnv := sortingEnv
  have hgood := bytewise_good (oneByteFile ++ [0xff])
  obtain ⟨ret, out, left, -, -, hall⟩ := bzRead_outcome true (oneByteFile ++ [0xff])
  obtain ⟨b, data, r, hopen, ⟨least, hread⟩, -, -, hcase⟩ :=
    @hall _ hgood.fair hgood.1 rfl ⟨fun _ => 0, 0, fun _ => (0, 1)⟩ fun _ => Int.le_refl 1
  -- the same reading, by what is known of the stream
  obtain ⟨u, hz, hu⟩ := oneByte_decodes true
  obtain ⟨b', hopen', hmid⟩ := @bzReadOpen_midway _ true _ hgood.fair hgood.1 (fun _ => 0) 0 none 0
    (fun _ => rfl) (Nat.zero_le _)
  obtain rfl : b' = b := Option.some.inj (congrArg Prod.snd (hopen'.symm.trans hopen))
  obtain ⟨r', hret', -, hleft', -, -, least', hread'⟩ :=
    @readToEnd_valid _ true oneByteFile [0x61] [0xff] u hz hu ⟨fun _ => 0, 0, fun _ => (0, 1)⟩
      (fun _ => Int.le_refl 1) _ _ hgood hmid
  obtain ⟨rfl, rfl⟩ : data = [0x61] ∧ r = r' := by
    have hsame := (hread (max least least') (le_max_left _ _)).symm.trans
      (hread' (max least least') (le_max_right _ _))
    exact Prod.mk.inj (Option.some.inj hsame)
  rcases hcase with ⟨hio, -⟩ | ⟨hret, hend⟩
  · exact absurd (hret'.symm.trans hio) (by decide)
  · obtain ⟨hout, hleft⟩ := hend (hret.symm.trans hret')
    exact ⟨out, left, _, b', r, ⟨least, hread⟩, hret', rfl, hout, hleft', hleft⟩

end Qbz2
