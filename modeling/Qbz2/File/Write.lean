/-
  File:      Qbz2/File/Write.lean
  Subject:   Writing through a `BZFILE` (`src/bzlib.c`): `BZ2_bzWriteOpen`, `BZ2_bzWrite`,
             `BZ2_bzWriteClose64`, and `BZ2_bzclose` on a handle for writing.

  * `CFile` -- the `FILE` of a handle: its error indicator, and what `fwrite` and `fflush` will do;
  * `BzFile` -- the handle; `Release` -- what gives it back;
  * `Opened` -- the handles one comes by, with everything that may happen to the `FILE` meanwhile;
  * `bzWriteClose64_cases`, `bzclose_cases` -- how a close can end;
  * **`bzclose_releases_iff`** -- a handle is released if and only if the error indicator stays
    clear.

  The handle and its buffer are allocated, and `bzerror` is not null but in the second call of
  `BZ2_bzclose`, which does not look at it.
-/
import Qbz2.Compress.OneShot

namespace Qbz2

/-! ## 1. The file -/

/-- What one `fwrite` or `fflush` does: the bytes `fwrite` gets out, and whether it sets the error
    indicator. -/
structure Outcome where
  count : Nat
  err : Bool

/-- A `FILE`: `ferror`, the outcomes of the operations to come, what has been written, whether it is
    `stdin` or `stdout`, and whether it has been closed. -/
structure CFile where
  err : Bool
  outcomes : List Outcome
  written : List Byte
  std : Bool
  closed : Bool

namespace CFile

/-- `fwrite(buf, sizeof(UChar), n, f)`: the number of bytes written. -/
def fwrite (f : CFile) (buf : List Byte) : Option (Nat × CFile) :=
  match f.outcomes with
  | [] => none
  | o :: outcomes =>
    some (min o.count buf.length,
      { f with err := f.err || o.err, outcomes, written := f.written ++ buf.take o.count })

/-- `fflush(f)`. -/
def fflush (f : CFile) : Option CFile :=
  match f.outcomes with
  | [] => none
  | o :: outcomes => some { f with err := f.err || o.err, outcomes }

/-- `if(fp!=stdin && fp!=stdout) fclose(fp)`. -/
def fclose (f : CFile) : CFile := if f.std then f else { f with closed := true }

end CFile

/-! ## 2. The handle -/

/-- `BZ_MAX_UNUSED`. -/
def bzMaxUnused : Nat := 5000

/-- A `bzFile` opened for writing: `strm.state`, null after `BZ2_bzCompressEnd`, the rest of `strm`,
    where `buf` lies, and `lastErr`. -/
structure BzFile where
  state : Option EState
  strm : BzStream
  buf : Int
  lastErr : Ret

/-- What gives back the memory of a handle: `BZ2_bzCompressEnd(&bzf->strm)` and `free(bzf)`. -/
inductive Release where
  | compressEnd
  | free
  deriving DecidableEq

namespace BzFile

/-- `BZ_SETERR(eee)`, the part that is kept. -/
def setErr (b : BzFile) (eee : Ret) : BzFile := { b with lastErr := eee }

/-- `bzf->strm.avail_out = BZ_MAX_UNUSED; bzf->strm.next_out = bzf->buf`. -/
def emptyBuf (b : BzFile) : BzFile :=
  { b with strm := { b.strm with availOut := bzMaxUnused, nextOut := b.buf, out := [] } }

/-- `BZ2_bzCompress(&(bzf->strm), action)`; none where an assertion ends the program. -/
def compress [CompressEnv] (b : BzFile) (action : Int) : Option (Ret × BzFile) :=
  match b.state with
  | none => some (.paramError, b)
  | some s =>
    match bzCompress s b.strm action with
    | .error _ => none
    | .ok (ret, s, strm) => some (ret, { b with state := some s, strm })

/-- `BZ2_bzCompressEnd(&(bzf->strm))`. -/
def compressEnd (b : BzFile) : BzFile := { b with state := none }

/-- What is in `buf` goes to the file: `if (bzf->strm.avail_out < BZ_MAX_UNUSED) { ... }`, and whether
    that failed. -/
def writeBuf (b : BzFile) (f : CFile) : Option (Bool × CFile) :=
  if b.strm.availOut < bzMaxUnused then
    let n := bzMaxUnused - b.strm.availOut
    match f.fwrite (b.strm.out.take n) with
    | none => none
    | some (n2, f) => some (decide (n ≠ n2) || f.err, f)
  else some (false, f)

end BzFile

/-! ## 3. `BZ2_bzWriteOpen` and `BZ2_bzWrite` -/

/-- `BZ2_bzWriteOpen`, with `f` not null. -/
def bzWriteOpen (f : CFile) (buf : Int) (blockSize100k verbosity workFactor : Int) :
    Ret × Option BzFile :=
  if (blockSize100k < 1 ∨ blockSize100k > 9) ∨ (workFactor < 0 ∨ workFactor > 250) ∨
      (verbosity < 0 ∨ verbosity > 4) then (.paramError, none)
  else if f.err then (.ioError, none)
  else
    (.ok, some
      { state := some (EState.init blockSize100k.toNat)
        strm := .oneShot (fun _ => 0) 0 0 buf 0
        buf
        lastErr := .ok })

section

variable [CompressEnv]

/-- The loop of `BZ2_bzWrite`, with `*bzerror`. -/
def bzWriteLoop : Nat → BzFile → CFile → Option (Ret × BzFile × CFile)
  | 0, _, _ => none
  | fuel + 1, b, f => do
    let (ret, b) ← b.emptyBuf.compress bzRun
    if ret ≠ .runOk then some (ret, b.setErr ret, f)
    else
      let (failed, f) ← b.writeBuf f
      if failed then some (.ioError, b.setErr .ioError, f)
      else if b.strm.availIn = 0 then some (.ok, b.setErr .ok, f)
      else bzWriteLoop fuel b f

/-- `BZ2_bzWrite`: `buf` is the address of the data in `mem`, none for a null pointer. -/
def bzWrite (fuel : Nat) (b : BzFile) (f : CFile) (mem : Int → Byte) (buf : Option Int) (len : Int) :
    Option (Ret × BzFile × CFile) :=
  match buf with
  | none => some (.paramError, b.setErr .paramError, f)
  | some nextIn =>
    if len < 0 then some (.paramError, b.setErr .paramError, f)
    else if f.err then some (.ioError, b.setErr .ioError, f)
    else if len = 0 then some (.ok, b.setErr .ok, f)
    else
      bzWriteLoop fuel
        { b.setErr .ok with strm := { b.strm with mem, nextIn, availIn := len.toNat } } f

/-! ## 4. Closing -/

/-- `*nbytes_in_lo32` .. `*nbytes_out_hi32`. -/
structure NBytes where
  inLo32 : Word32
  inHi32 : Word32
  outLo32 : Word32
  outHi32 : Word32

/-- What a close leaves: `*bzerror`, the handle, the file, the byte counts where they are set, and
    the releases made, in their order. -/
structure Closed where
  ret : Ret
  b : BzFile
  f : CFile
  nbytes : Option NBytes
  released : List Release

/-- A close that returns with an error: nothing is released. -/
def closeError (ret : Ret) (b : BzFile) (f : CFile) (nbytes : Option NBytes) : Closed :=
  { ret, b := b.setErr ret, f, nbytes, released := [] }

/-- The loop over `BZ2_bzCompress(&(bzf->strm), BZ_FINISH)`: the error it returns with, none where it
    leaves at `BZ_STREAM_END`. -/
def finishLoop : Nat → BzFile → CFile → Option (Option Ret × BzFile × CFile)
  | 0, _, _ => none
  | fuel + 1, b, f => do
    let (ret, b) ← b.emptyBuf.compress bzFinish
    if ret ≠ .finishOk ∧ ret ≠ .streamEnd then some (some ret, b, f)
    else
      let (failed, f) ← b.writeBuf f
      if failed then some (some .ioError, b, f)
      else if ret = .streamEnd then some (none, b, f)
      else finishLoop fuel b f

/-- `if ((!abandon) && bzf->lastErr == BZ_OK) { ... }`. -/
def finishStream (fuel : Nat) (b : BzFile) (f : CFile) (abandon : Bool) :
    Option (Option Ret × BzFile × CFile) :=
  if !abandon && decide (b.lastErr = .ok) then finishLoop fuel b f else some (none, b, f)

/-- `fflush(bzf->handle)`, and whether the error indicator is set then. -/
def flushFile (abandon : Bool) (f : CFile) : Option (Bool × CFile) :=
  if !abandon && !f.err then
    match f.fflush with
    | none => none
    | some f => some (f.err, f)
  else some (false, f)

/-- `BZ2_bzWriteClose64`. -/
def bzWriteClose64 (fuel : Nat) (b : BzFile) (f : CFile) (abandon : Bool) : Option Closed :=
  if f.err then some (closeError .ioError b f none)
  else do
    let (failed, b, f) ← finishStream fuel b f abandon
    match failed with
    | some ret => some (closeError ret b f (some ⟨0, 0, 0, 0⟩))
    | none =>
      let (failed, f) ← flushFile abandon f
      if failed then some (closeError .ioError b f (some ⟨0, 0, 0, 0⟩))
      else
        some
          { ret := .ok
            b := (b.setErr .ok).compressEnd
            f
            nbytes := some ⟨b.strm.totalInLo32, b.strm.totalInHi32, b.strm.totalOutLo32,
              b.strm.totalOutHi32⟩
            released := [.compressEnd, .free] }

/-- `if(bzerr != BZ_OK){ BZ2_bzWriteClose(NULL,b,1,NULL,NULL); }`. -/
def abandonFailed (fuel : Nat) (c : Closed) : Option Closed :=
  if c.ret ≠ .ok then
    (bzWriteClose64 fuel c.b c.f true).map fun c' => { c' with released := c.released ++ c'.released }
  else some c

/-- `BZ2_bzclose`, `writing` being set: a normal attempt, and one with `abandon` where it fails. -/
def bzclose (fuel : Nat) (b : BzFile) (f : CFile) : Option Closed := do
  let c ← bzWriteClose64 fuel b f false
  let c ← abandonFailed fuel c
  some { c with f := c.f.fclose }

/-! ## 5. The handles one comes by -/

/-- **An open handle and its file**: after `BZ2_bzWriteOpen`, any calls of `BZ2_bzWrite` and any closes
    that failed. Between two calls anything may become of the `FILE`, and the operations to come
    may have any outcomes. -/
inductive Opened : BzFile → CFile → Prop
  | start {f : CFile} {buf blockSize100k verbosity workFactor : Int} {b : BzFile}
      (ho : bzWriteOpen f buf blockSize100k verbosity workFactor = (.ok, some b)) : Opened b f
  | write {b b' : BzFile} {f f' : CFile} {fuel : Nat} {mem : Int → Byte} {buf : Option Int} {len : Int}
      {ret : Ret} (h : Opened b f) (hw : bzWrite fuel b f mem buf len = some (ret, b', f')) :
      Opened b' f'
  | close {b : BzFile} {f : CFile} {fuel : Nat} {abandon : Bool} {c : Closed} (h : Opened b f)
      (hc : bzWriteClose64 fuel b f abandon = some c) (hne : c.ret ≠ .ok) : Opened c.b c.f
  | elsewhere {b : BzFile} {f : CFile} (h : Opened b f) (f' : CFile) : Opened b f'

/-! ## 6. What a close does to the file -/

/-- The operations between `f` and `f'` are those of some outcomes, and the error indicator is never
    cleared. -/
def Used (f f' : CFile) : Prop :=
  ∃ done, f.outcomes = done ++ f'.outcomes ∧ f'.err = (f.err || done.any Outcome.err)

omit [CompressEnv] in
theorem used_refl (f : CFile) : Used f f := ⟨[], rfl, by simp⟩

omit [CompressEnv] in
theorem Used.trans {f f' f'' : CFile} (h : Used f f') (h' : Used f' f'') : Used f f'' := by
  obtain ⟨done, ho, he⟩ := h
  obtain ⟨done', ho', he'⟩ := h'
  refine ⟨done ++ done', ?_, ?_⟩
  · rw [ho, ho', List.append_assoc]
  · rw [he', he, List.any_append, Bool.or_assoc]

omit [CompressEnv] in
theorem writeBuf_used {b : BzFile} {f f' : CFile} {failed : Bool}
    (h : b.writeBuf f = some (failed, f')) :
    Used f f' ∧ (failed = false → f.err = false → f'.err = false) := by
  unfold BzFile.writeBuf at h
  split at h
  · dsimp only at h
    cases hw : f.fwrite (b.strm.out.take (bzMaxUnused - b.strm.availOut)) with
    | none => rw [hw] at h; cases h
    | some r =>
      obtain ⟨n2, f₁⟩ := r
      rw [hw] at h
      cases h
      refine ⟨?_, fun hf _ => (Bool.or_eq_false_iff.mp hf).2⟩
      unfold CFile.fwrite at hw
      split at hw
      · cases hw
      · rename_i o outcomes ho
        cases hw
        exact ⟨[o], ho, by simp⟩
  · cases h
    exact ⟨used_refl _, fun _ hf => hf⟩

omit [CompressEnv] in
theorem flushFile_used {abandon failed : Bool} {f f' : CFile}
    (h : flushFile abandon f = some (failed, f')) (hf : f.err = false) :
    Used f f' ∧ failed = f'.err := by
  unfold flushFile at h
  split at h
  · cases hw : f.fflush with
    | none => rw [hw] at h; cases h
    | some f₁ =>
      rw [hw] at h
      cases h
      refine ⟨?_, rfl⟩
      unfold CFile.fflush at hw
      split at hw
      · cases hw
      · rename_i o outcomes ho
        cases hw
        exact ⟨[o], ho, by simp⟩
  · cases h
    exact ⟨used_refl _, hf.symm⟩

/-- `BZ2_bzCompress` never answers `BZ_OK`. -/
theorem bzCompress_ne_ok {s s' : EState} {strm strm' : BzStream} {action : Int} {ret : Ret}
    (h : bzCompress s strm action = .ok (ret, s', strm')) : ret ≠ .ok := by
  have hflush : ∀ {s : EState}, compressFlushing s strm action = .ok (ret, s', strm') → ret ≠ .ok := by
    intro s h
    unfold compressFlushing at h
    simp only [bind, Except.bind] at h
    split at h
    · cases h; nofun
    · split at h
      · cases h; nofun
      · split at h
        · cases h
        · split at h
          · cases h; nofun
          · cases h; nofun
  have hfinish : ∀ {s : EState}, compressFinishing s strm action = .ok (ret, s', strm') →
      ret ≠ .ok := by
    intro s h
    unfold compressFinishing at h
    simp only [bind, Except.bind] at h
    split at h
    · cases h; nofun
    · split at h
      · cases h; nofun
      · split at h
        · cases h
        · split at h
          · cases h; nofun
          · split at h
            · cases h; nofun
            · cases h; nofun
  unfold bzCompress at h
  simp only [bind, Except.bind] at h
  split at h
  · cases h; nofun
  · split at h
    · split at h
      · cases h
      · cases h
        split <;> nofun
    · split at h
      · exact hflush h
      · split at h
        · exact hfinish h
        · cases h; nofun
  · exact hflush h
  · exact hfinish h

theorem compress_state {b b' : BzFile} {action : Int} {ret : Ret}
    (h : b.compress action = some (ret, b')) :
    ret ≠ .ok ∧ (b.state.isSome → b'.state.isSome) := by
  unfold BzFile.compress at h
  split at h
  · rename_i hs
    cases h
    exact ⟨nofun, fun h => h⟩
  · rename_i s hs
    split at h
    · cases h
    · rename_i ret' s' strm' hc
      cases h
      exact ⟨bzCompress_ne_ok hc, fun _ => rfl⟩

/-- **The loop of a close**: it leaves for the rest of the close only with the error indicator clear,
    and never returns with `BZ_OK`. -/
theorem finishLoop_used : ∀ {fuel : Nat} {b b' : BzFile} {f f' : CFile} {failed : Option Ret},
    finishLoop fuel b f = some (failed, b', f') → f.err = false →
    Used f f' ∧ (failed = none → f'.err = false) ∧ failed ≠ some .ok ∧
      (b.state.isSome → b'.state.isSome) := by
  intro fuel
  induction fuel with
  | zero => intro b b' f f' failed h _; cases h
  | succ fuel ih =>
    intro b b' f f' failed h hf
    unfold finishLoop at h
    obtain ⟨⟨ret, b₁⟩, hc, h⟩ := Option.bind_eq_some_iff.mp h
    obtain ⟨hne, hstate⟩ := compress_state hc
    dsimp only at h
    split at h
    · cases h
      exact ⟨used_refl _, nofun, fun he => hne (Option.some.inj he), hstate⟩
    · obtain ⟨⟨bad, f₁⟩, hw, h⟩ := Option.bind_eq_some_iff.mp h
      obtain ⟨hu, hclear⟩ := writeBuf_used hw
      dsimp only at h
      split at h
      · cases h
        exact ⟨hu, nofun, nofun, hstate⟩
      · rename_i hbad
        have hf₁ := hclear (by simpa using hbad) hf
        split at h
        · cases h
          exact ⟨hu, fun _ => hf₁, nofun, hstate⟩
        · obtain ⟨hu', hn, ho, hs⟩ := ih h hf₁
          exact ⟨hu.trans hu', hn, ho, fun hb => hs (hstate hb)⟩

theorem finishStream_used {fuel : Nat} {b b' : BzFile} {f f' : CFile} {abandon : Bool}
    {failed : Option Ret} (h : finishStream fuel b f abandon = some (failed, b', f'))
    (hf : f.err = false) :
    Used f f' ∧ (failed = none → f'.err = false) ∧ failed ≠ some .ok ∧
      (b.state.isSome → b'.state.isSome) ∧ (abandon = true → failed = none) := by
  unfold finishStream at h
  split at h
  · rename_i ha
    obtain ⟨h1, h2, h3, h4⟩ := finishLoop_used h hf
    refine ⟨h1, h2, h3, h4, fun he => ?_⟩
    rw [he] at ha
    cases ha
  · cases h
    exact ⟨used_refl _, fun _ => hf, nofun, fun hb => hb, fun _ => rfl⟩

/-- **How `BZ2_bzWriteClose64` ends**: everything is released, each once, and the error indicator was
    clear throughout; or it returns an error and nothing is released. -/
theorem bzWriteClose64_cases {fuel : Nat} {b : BzFile} {f : CFile} {abandon : Bool} {c : Closed}
    (h : bzWriteClose64 fuel b f abandon = some c) :
    Used f c.f ∧ (c.ret = .ok ∧ c.released = [.compressEnd, .free] ∧ c.f.err = false ∨
      c.ret ≠ .ok ∧ c.released = [] ∧ (b.state.isSome → c.b.state.isSome) ∧
        (abandon = true → c.f.err = true)) := by
  unfold bzWriteClose64 at h
  split at h
  · rename_i hf
    cases h
    exact ⟨used_refl _, .inr ⟨nofun, rfl, fun hb => hb, fun _ => hf⟩⟩
  · rename_i hf
    have hf : f.err = false := by simpa using hf
    obtain ⟨⟨failed, b₁, f₁⟩, hloop, h⟩ := Option.bind_eq_some_iff.mp h
    obtain ⟨hu, hclear, hne, hstate, habandon⟩ := finishStream_used hloop hf
    dsimp only at h
    cases failed with
    | some ret =>
      cases h
      refine ⟨hu, .inr ⟨fun he => hne (congrArg some he), rfl, hstate, fun he => ?_⟩⟩
      exact nomatch habandon he
    | none =>
      obtain ⟨⟨bad, f₂⟩, hflush, h⟩ := Option.bind_eq_some_iff.mp h
      obtain ⟨hu', hbad⟩ := flushFile_used hflush (hclear rfl)
      dsimp only at h
      split at h
      · rename_i hb
        cases h
        exact ⟨hu.trans hu', .inr ⟨nofun, rfl, hstate, fun _ => hbad ▸ hb⟩⟩
      · rename_i hb
        cases h
        exact ⟨hu.trans hu', .inl ⟨rfl, rfl, by rw [← hbad]; simpa using hb⟩⟩

omit [CompressEnv] in
theorem used_fclose (f : CFile) : Used f f.fclose ∧ f.fclose.err = f.err := by
  unfold CFile.fclose
  split
  · exact ⟨used_refl f, rfl⟩
  · exact ⟨⟨[], rfl, by simp⟩, rfl⟩

/-- **How `BZ2_bzclose` ends**: everything is released, each once, or nothing is, and the error
    indicator tells which. -/
theorem bzclose_cases {fuel : Nat} {b : BzFile} {f : CFile} {c : Closed}
    (h : bzclose fuel b f = some c) :
    Used f c.f ∧ (c.released = [.compressEnd, .free] ∧ c.f.err = false ∨
      c.released = [] ∧ c.f.err = true) := by
  unfold bzclose at h
  obtain ⟨c₁, h₁, h⟩ := Option.bind_eq_some_iff.mp h
  obtain ⟨c₂, h₂, h⟩ := Option.bind_eq_some_iff.mp h
  cases h
  obtain ⟨hu, hcase⟩ := bzWriteClose64_cases h₁
  obtain ⟨hfc, herr⟩ := used_fclose c₂.f
  dsimp only
  rw [herr]
  unfold abandonFailed at h₂
  rcases hcase with ⟨hret, hrel, hf⟩ | ⟨hret, hrel, -, -⟩
  · rw [if_neg (not_not_intro hret)] at h₂
    cases h₂
    exact ⟨hu.trans hfc, .inl ⟨hrel, hf⟩⟩
  · rw [if_pos hret] at h₂
    obtain ⟨c', hc', rfl⟩ := Option.map_eq_some_iff.mp h₂
    obtain ⟨hu', hcase'⟩ := bzWriteClose64_cases hc'
    dsimp only at hfc ⊢
    rw [hrel, List.nil_append]
    refine ⟨(hu.trans hu').trans hfc, ?_⟩
    rcases hcase' with ⟨_, hrel', hf'⟩ | ⟨_, hrel', _, hf'⟩
    · exact .inl ⟨hrel', hf'⟩
    · exact .inr ⟨hrel', hf' rfl⟩

/-! ## 7. When a handle is released -/

theorem bzWriteLoop_state : ∀ {fuel : Nat} {b b' : BzFile} {f f' : CFile} {ret : Ret},
    bzWriteLoop fuel b f = some (ret, b', f') → b.state.isSome → b'.state.isSome := by
  intro fuel
  induction fuel with
  | zero => intro b b' f f' ret h _; cases h
  | succ fuel ih =>
    intro b b' f f' ret h hb
    unfold bzWriteLoop at h
    obtain ⟨⟨ret₁, b₁⟩, hc, h⟩ := Option.bind_eq_some_iff.mp h
    have hb₁ := (compress_state hc).2 hb
    dsimp only at h
    split at h
    · cases h
      exact hb₁
    · obtain ⟨⟨bad, f₁⟩, hw, h⟩ := Option.bind_eq_some_iff.mp h
      dsimp only at h
      split at h
      · cases h
        exact hb₁
      · split at h
        · cases h
          exact hb₁
        · exact ih h hb₁

/-- A handle one comes by still has its stream. -/
theorem Opened.state {b : BzFile} {f : CFile} (h : Opened b f) : b.state.isSome := by
  induction h with
  | @start f buf bs v w b ho =>
    unfold bzWriteOpen at ho
    split at ho
    · cases ho
    · split at ho
      · cases ho
      · cases ho
        rfl
  | @write b b' f f' fuel mem buf len ret _ hw ih =>
    unfold bzWrite at hw
    split at hw
    · cases hw
      exact ih
    · split at hw
      · cases hw
        exact ih
      · split at hw
        · cases hw
          exact ih
        · split at hw
          · cases hw
            exact ih
          · exact bzWriteLoop_state hw ih
  | close _ hc hne ih =>
    rcases (bzWriteClose64_cases hc).2 with ⟨he, _⟩ | ⟨_, _, hs, _⟩
    · exact absurd he hne
    · exact hs ih
  | elsewhere _ _ ih => exact ih

/-- **When closing releases**: until then nothing has been released; `BZ2_bzclose` releases the stream
    and the handle, each exactly once, if and only if the error indicator is clear at its start and
    none of its operations on the file sets it; `BZ2_bzWriteClose64` with `abandon` does if and only
    if the indicator is clear. Neither releases anything twice. -/
theorem bzclose_releases_iff {b : BzFile} {f : CFile} (h : Opened b f) (fuel : Nat) :
    b.state.isSome ∧
    (∀ c, bzclose fuel b f = some c → c.f.outcomes = [] →
      (c.released = [] ∨ c.released = [.compressEnd, .free]) ∧
      (c.released.count .compressEnd = 1 ∧ c.released.count .free = 1 ↔
        f.err = false ∧ ∀ o ∈ f.outcomes, o.err = false)) ∧
    ∀ c, bzWriteClose64 fuel b f true = some c →
      (c.released = [] ∨ c.released = [.compressEnd, .free]) ∧
      (c.released.count .compressEnd = 1 ∧ c.released.count .free = 1 ↔ f.err = false) := by
  have hcount : ∀ {released : List Release} {P : Prop},
      (released = [.compressEnd, .free] ∧ P ∨ released = [] ∧ ¬ P) →
      (released = [] ∨ released = [.compressEnd, .free]) ∧
        (released.count .compressEnd = 1 ∧ released.count .free = 1 ↔ P) := by
    rintro released P (⟨rfl, hP⟩ | ⟨rfl, hP⟩)
    · exact ⟨.inr rfl, iff_of_true ⟨rfl, rfl⟩ hP⟩
    · exact ⟨.inl rfl, iff_of_false (fun h => nomatch h.1) hP⟩
  refine ⟨h.state, fun c hc hall => ?_, fun c hc => ?_⟩
  · obtain ⟨⟨done, ho, he⟩, hcase⟩ := bzclose_cases hc
    rw [hall, List.append_nil] at ho
    have hclear : c.f.err = false ↔ f.err = false ∧ ∀ o ∈ f.outcomes, o.err = false := by
      rw [he, Bool.or_eq_false_iff, List.any_eq_false, ho]
      simp
    apply hcount
    rcases hcase with ⟨hrel, hf⟩ | ⟨hrel, hf⟩
    · exact .inl ⟨hrel, hclear.mp hf⟩
    · exact .inr ⟨hrel, fun hP => by rw [hclear.mpr hP] at hf; cases hf⟩
  · obtain ⟨⟨done, ho, he⟩, hcase⟩ := bzWriteClose64_cases hc
    apply hcount
    rcases hcase with ⟨_, hrel, hf⟩ | ⟨_, hrel, _, hf⟩
    · rw [hf] at he
      exact .inl ⟨hrel, (Bool.or_eq_false_iff.mp he.symm).1⟩
    · refine .inr ⟨hrel, fun hP => ?_⟩
      unfold bzWriteClose64 at hc
      rw [if_neg (by simp [hP])] at hc
      obtain ⟨⟨failed, b₁, f₁⟩, hloop, hc⟩ := Option.bind_eq_some_iff.mp hc
      cases hloop
      obtain ⟨⟨bad, f₂⟩, hflush, hc⟩ := Option.bind_eq_some_iff.mp hc
      cases hflush
      cases hc
      cases hrel

end

/-- A file of which nothing has been said, with the outcomes of the operations to come. -/
def freshFile (err : Bool) (outcomes : List Outcome) : CFile :=
  { err, outcomes, written := [], std := false, closed := false }

/-- The handle of `BZ2_bzWriteOpen(&bzerror, f, 1, 0, 0)`. -/
def freshHandle : BzFile :=
  { state := some (EState.init 1), strm := .oneShot (fun _ => 0) 0 0 0 0, buf := 0, lastErr := .ok }

/-- **A handle is lost**: the error indicator is set when `BZ2_bzclose` is called, its first attempt
    fails on it, and so does the one that is to release the handle. -/
theorem bzclose_loses_handle :
    ∃ c, @Opened plainEnv freshHandle (freshFile true []) ∧
      @bzclose plainEnv 3 freshHandle (freshFile true []) = some c ∧
      @bzWriteClose64 plainEnv 3 freshHandle (freshFile true []) true =
        some (closeError .ioError freshHandle (freshFile true []) none) ∧
      ¬ (c.released.count .compressEnd = 1 ∧ c.released.count .free = 1) := by
  refine ⟨_, ?_, rfl, rfl, nofun⟩
  exact @Opened.elsewhere plainEnv _ _ (@Opened.start plainEnv (freshFile false []) 0 1 0 0 _ rfl) _

theorem bzclose_releases_iff_empty :
    ∃ c, @bzclose plainEnv 3 freshHandle (freshFile false [⟨5000, false⟩, ⟨0, false⟩]) = some c ∧
      c.released.count .compressEnd = 1 ∧ c.released.count .free = 1 := by
  obtain ⟨c, hc, hall⟩ : ∃ c, @bzclose plainEnv 3 freshHandle
      (freshFile false [⟨5000, false⟩, ⟨0, false⟩]) = some c ∧ c.f.outcomes = [] := ⟨_, rfl, rfl⟩
  have hopen : @Opened plainEnv freshHandle (freshFile false [⟨5000, false⟩, ⟨0, false⟩]) :=
    @Opened.start plainEnv _ 0 1 0 0 _ rfl
  exact ⟨c, hc, ((@bzclose_releases_iff plainEnv _ _ hopen 3).2.1 c hc hall).2.mpr
    ⟨rfl, by decide⟩⟩

end Qbz2
