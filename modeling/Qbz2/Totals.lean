/-
  File:      Qbz2/Totals.lean
  Subject:   `total_in` and `total_out`, each a low and a high word, over every call of
             `BZ2_bzCompress` and `BZ2_bzDecompress`.

  * `wide` -- the two words as one number; `wide_add`, `wide_succ`, `wide_sub` -- the carry tests of
    the source;
  * `Counts` -- the totals have moved by as much as the counts and the pointers; one lemma for each
    way the stream is moved;
  * `Low` -- no label asks for more than 32 bits, whatever the parser has failed on before;
  * **`byteAccounting`**.
-/
import Qbz2.Compress.Protocol
import Qbz2.Decompress.Chunks

namespace Qbz2

/-! ## 1. Two words -/

/-- A high and a low word. -/
def wide (hi lo : Word32) : Word64 := hi ++ lo

theorem toNat_wide (hi lo : Word32) : (wide hi lo).toNat = hi.toNat * 2 ^ 32 + lo.toNat := by
  unfold wide
  rw [BitVec.toNat_append, Nat.shiftLeft_eq, Nat.mul_comm, Nat.two_pow_add_eq_or_of_lt lo.isLt]

/-- The low word has wrapped where it is less than it was. -/
theorem wide_add (hi lo : Word32) {n : Nat} (hn : n < 2 ^ 32) :
    wide (if (lo + BitVec.ofNat 32 n).toNat < lo.toNat then hi + 1 else hi) (lo + BitVec.ofNat 32 n) =
      wide hi lo + BitVec.ofNat 64 n := by
  apply BitVec.eq_of_toNat_eq
  have hlo := lo.isLt
  have hhi := hi.isLt
  have hone : (1 : Word32).toNat = 1 := rfl
  have h32 : (BitVec.ofNat 32 n).toNat = n := by rw [BitVec.toNat_ofNat, Nat.mod_eq_of_lt hn]
  have h64 : (BitVec.ofNat 64 n).toNat = n := by rw [BitVec.toNat_ofNat]; omega
  rw [toNat_wide, BitVec.toNat_add (wide hi lo), toNat_wide, h64, BitVec.toNat_add lo, h32]
  split
  · rw [BitVec.toNat_add, hone]
    omega
  · omega

/-- It has wrapped to zero after a step. -/
theorem wide_succ (hi lo : Word32) :
    wide (if lo + 1 = 0 then hi + 1 else hi) (lo + 1) = wide hi lo + BitVec.ofNat 64 1 := by
  rw [← wide_add hi lo (show 1 < 2 ^ 32 by decide)]
  have hone : BitVec.ofNat 32 1 = (1 : Word32) := rfl
  have hlo := lo.isLt
  have hiff : lo + 1 = 0 ↔ (lo + 1).toNat < lo.toNat := by
    have h1 : (lo + 1).toNat = (lo.toNat + 1) % 2 ^ 32 := BitVec.toNat_add lo 1
    constructor
    · intro h
      have h0 := congrArg BitVec.toNat h
      rw [h1] at h0 ⊢
      have : (0 : Word32).toNat = 0 := rfl
      omega
    · intro h
      apply BitVec.eq_of_toNat_eq
      rw [h1] at h ⊢
      have : (0 : Word32).toNat = 0 := rfl
      omega
  rw [hone]
  congr 1
  exact if_congr hiff rfl rfl

/-- It borrows where it is less than what is taken away. -/
theorem wide_sub (hi lo : Word32) {n : Nat} (hn : n < 2 ^ 32) :
    wide (if lo.toNat < (BitVec.ofNat 32 n).toNat then hi - 1 else hi) (lo - BitVec.ofNat 32 n) =
      wide hi lo - BitVec.ofNat 64 n := by
  apply BitVec.eq_of_toNat_eq
  have hlo := lo.isLt
  have hhi := hi.isLt
  have hone : (1 : Word32).toNat = 1 := rfl
  have h32 : (BitVec.ofNat 32 n).toNat = n := by rw [BitVec.toNat_ofNat, Nat.mod_eq_of_lt hn]
  have h64 : (BitVec.ofNat 64 n).toNat = n := by rw [BitVec.toNat_ofNat]; omega
  rw [toNat_wide, BitVec.toNat_sub (wide hi lo), toNat_wide, h64, BitVec.toNat_sub lo, h32]
  split
  · rw [BitVec.toNat_sub, hone]
    omega
  · omega

/-! ## 2. The totals -/

namespace BzStream

/-- `total_in_hi32:total_in_lo32`. -/
def totalIn (strm : BzStream) : Word64 := wide strm.totalInHi32 strm.totalInLo32

/-- `total_out_hi32:total_out_lo32`. -/
def totalOut (strm : BzStream) : Word64 := wide strm.totalOutHi32 strm.totalOutLo32

end BzStream

/-- What was taken of the input and given of the output, by the counts, the pointers and the
    totals. -/
structure Counts (strm strm' : BzStream) : Prop where
  totalIn : strm'.totalIn = strm.totalIn + BitVec.ofInt 64 (strm.availIn - strm'.availIn)
  nextIn : strm'.nextIn - strm.nextIn = strm.availIn - strm'.availIn
  totalOut : strm'.totalOut = strm.totalOut + BitVec.ofInt 64 (strm.availOut - strm'.availOut)
  nextOut : strm'.nextOut - strm.nextOut = strm.availOut - strm'.availOut
  room : strm'.availOut ≤ strm.availOut

theorem ofInt_self (n : Nat) : BitVec.ofInt 64 ((n : Int) - n) = 0 := by
  rw [Int.sub_self]
  rfl

theorem counts_refl (strm : BzStream) : Counts strm strm :=
  ⟨by rw [ofInt_self]; exact (BitVec.add_zero _).symm, by omega,
    by rw [ofInt_self]; exact (BitVec.add_zero _).symm, by omega, Nat.le_refl _⟩

theorem Counts.trans {s s' s'' : BzStream} (h : Counts s s') (h' : Counts s' s'') :
    Counts s s'' := by
  have hsum : ∀ a b c : Int, BitVec.ofInt 64 (a - b) + BitVec.ofInt 64 (b - c) =
      BitVec.ofInt 64 (a - c) := by
    intro a b c
    rw [← BitVec.ofInt_add]
    congr 1
    omega
  refine ⟨?_, ?_, ?_, ?_, Nat.le_trans h'.room h.room⟩
  · rw [h'.totalIn, h.totalIn, BitVec.add_assoc, hsum]
  · have := h.nextIn
    have := h'.nextIn
    omega
  · rw [h'.totalOut, h.totalOut, BitVec.add_assoc, hsum]
  · have := h.nextOut
    have := h'.nextOut
    omega

theorem ofInt_diff {a b n : Nat} (h : a = b + n) :
    BitVec.ofInt 64 ((a : Int) - b) = BitVec.ofNat 64 n := by
  rw [show (a : Int) - b = (n : Int) by omega]
  exact BitVec.ofInt_natCast 64 n

/-- A byte of the input. -/
theorem counts_skipByte {strm : BzStream} (h : 0 < strm.availIn) : Counts strm strm.skipByte := by
  refine ⟨?_, ?_, (counts_refl strm).totalOut, (counts_refl strm).nextOut, Nat.le_refl _⟩
  · rw [ofInt_diff (n := 1) (show strm.availIn = strm.skipByte.availIn + 1 by
      unfold BzStream.skipByte
      dsimp only
      omega)]
    exact wide_succ _ _
  · unfold BzStream.skipByte
    dsimp only
    omega

/-- Four bytes. -/
theorem counts_skip4 {strm : BzStream} (h : 4 ≤ strm.availIn) : Counts strm strm.skip4 := by
  refine ⟨?_, ?_, (counts_refl strm).totalOut, (counts_refl strm).nextOut, Nat.le_refl _⟩
  · rw [ofInt_diff (n := 4) (show strm.availIn = strm.skip4.availIn + 4 by
      unfold BzStream.skip4
      dsimp only
      omega)]
    exact wide_add _ _ (by decide)
  · unfold BzStream.skip4
    dsimp only
    omega

/-- Bytes handed back. -/
theorem counts_unread (strm : BzStream) {n : Nat} (hn : n < 2 ^ 32) :
    Counts strm (strm.unread n) := by
  refine ⟨?_, ?_, (counts_refl strm).totalOut, (counts_refl strm).nextOut, Nat.le_refl _⟩
  · have hneg : BitVec.ofInt 64 ((strm.availIn : Int) - (strm.unread n).availIn) =
        -BitVec.ofNat 64 n := by
      rw [← BitVec.ofInt_natCast, ← BitVec.ofInt_neg]
      congr 1
      unfold BzStream.unread
      dsimp only
      omega
    rw [hneg, ← BitVec.sub_eq_add_neg]
    exact wide_sub _ _ hn
  · unfold BzStream.unread
    dsimp only
    omega

/-- A byte of the output. -/
theorem counts_putByte {strm : BzStream} (h : 0 < strm.availOut) (b : Byte) :
    Counts strm (strm.putByte b) := by
  refine ⟨(counts_refl strm).totalIn, (counts_refl strm).nextIn, ?_, ?_, Nat.sub_le _ _⟩
  · rw [ofInt_diff (n := 1) (show strm.availOut = (strm.putByte b).availOut + 1 by
      unfold BzStream.putByte
      dsimp only
      omega)]
    exact wide_succ _ _
  · unfold BzStream.putByte
    dsimp only
    omega

/-- Many bytes. -/
theorem counts_putBytes {strm : BzStream} {bs : List Byte} (h : bs.length ≤ strm.availOut)
    (hmax : strm.availOut < 2 ^ 32) : Counts strm (strm.putBytes bs) := by
  refine ⟨(counts_refl strm).totalIn, (counts_refl strm).nextIn, ?_, ?_, Nat.sub_le _ _⟩
  · rw [ofInt_diff (n := bs.length) (show strm.availOut = (strm.putBytes bs).availOut + bs.length by
      unfold BzStream.putBytes
      dsimp only
      omega)]
    exact wide_add _ _ (by omega)
  · unfold BzStream.putBytes
    dsimp only
    omega

/-! ## 3. `BZ2_bzCompress` -/

section

variable [CompressEnv]

theorem counts_copyInputLoop : ∀ (fuel : Nat) (progress : Bool) (s : EState) (strm : BzStream),
    Counts strm (copyInputLoop fuel progress s strm).2.2 := by
  intro fuel
  induction fuel with
  | zero => exact fun _ _ strm => counts_refl strm
  | succ fuel ih =>
    intro progress s strm
    unfold copyInputLoop
    cases hstep : copyInputStep s strm with
    | none => exact counts_refl strm
    | some r =>
      obtain ⟨s₁, strm₁⟩ := r
      obtain ⟨_, hpos, _, rfl, _⟩ := copyInputStep_some hstep
      exact (counts_skipByte hpos).trans (ih true s₁ strm.skipByte)

omit [CompressEnv] in
theorem counts_copyOutputUntilStop (s : EState) {strm : BzStream} (h : strm.availOut < 2 ^ 32) :
    Counts strm (copyOutputUntilStop s strm).2.2 := by
  unfold copyOutputUntilStop
  dsimp only
  split
  · exact counts_refl strm
  · refine counts_putBytes ?_ h
    rw [List.length_take]
    split <;> omega

omit [CompressEnv] in
theorem counts_outputHalf (s : EState) {strm : BzStream} (h : strm.availOut < 2 ^ 32) :
    Counts strm (outputHalf s strm).strm := by
  have hout := counts_copyOutputUntilStop s h
  unfold outputHalf
  split
  · dsimp only
    split
    · exact hout
    · split <;> exact hout
  · exact counts_refl strm

theorem counts_closeBlock {s : EState} {isLastBlock progress : Bool} {strm : BzStream} {h : Half}
    (hc : closeBlock s isLastBlock progress strm = .ok h) : h.strm = strm := by
  unfold closeBlock at hc
  obtain ⟨s', -, he⟩ := bind_ok hc
  cases he
  rfl

theorem counts_inputHalf {s : EState} {strm : BzStream} {h : Half}
    (hi : inputHalf s strm = .ok h) : Counts strm h.strm := by
  have hin := counts_copyInputLoop strm.availIn false s strm
  unfold inputHalf at hi
  split at hi
  · unfold copyInputUntilStop at hi
    dsimp only at hi
    split at hi
    · rw [counts_closeBlock hi]
      exact hin
    · split at hi
      · rw [counts_closeBlock hi]
        exact hin
      · cases hi
        exact hin
  · cases hi
    exact counts_refl strm

theorem counts_handleLoop : ∀ (fuel : Nat) (progress : Bool) (s : EState) (strm : BzStream)
    {r : Bool × EState × BzStream}, strm.availOut < 2 ^ 32 →
    handleLoop fuel progress s strm = .ok r → Counts strm r.2.2 := by
  intro fuel
  induction fuel with
  | zero => exact fun _ _ _ _ _ h => nomatch h
  | succ fuel ih =>
    intro progress s strm r hmax h
    have ho := counts_outputHalf s hmax
    have hroom := ho.room
    unfold handleLoop at h
    dsimp only at h
    split at h
    · cases h
      exact ho
    · obtain ⟨i, hi, h⟩ := bind_ok h
      have hin := counts_inputHalf hi
      have hroom' := hin.room
      split at h
      · cases h
        exact ho.trans hin
      · exact (ho.trans hin).trans (ih _ _ _ (by omega) h)

/-- A call, whatever state it finds. -/
theorem counts_bzCompress {s s' : EState} {strm strm' : BzStream} {action : Int} {r : Ret}
    (hmax : strm.availOut < 2 ^ 32) (h : bzCompress s strm action = .ok (r, s', strm')) :
    Counts strm strm' := by
  have flushing : ∀ {s : EState}, compressFlushing s strm action = .ok (r, s', strm') →
      Counts strm strm' := by
    intro s h
    unfold compressFlushing at h
    split at h
    · cases h
      exact counts_refl strm
    · split at h
      · cases h
        exact counts_refl strm
      · obtain ⟨x, hx, h⟩ := bind_ok h
        have := counts_handleLoop _ _ _ _ hmax hx
        dsimp only at h
        split at h <;> (cases h; exact this)
  have finishing : ∀ {s : EState}, compressFinishing s strm action = .ok (r, s', strm') →
      Counts strm strm' := by
    intro s h
    unfold compressFinishing at h
    split at h
    · cases h
      exact counts_refl strm
    · split at h
      · cases h
        exact counts_refl strm
      · obtain ⟨x, hx, h⟩ := bind_ok h
        have := counts_handleLoop _ _ _ _ hmax hx
        dsimp only at h
        split at h
        · cases h
          exact this
        · split at h <;> (cases h; exact this)
  unfold bzCompress at h
  cases hm : s.mode with
  | idle =>
    rw [hm] at h
    cases h
    exact counts_refl strm
  | running =>
    rw [hm] at h
    dsimp only at h
    split at h
    · obtain ⟨x, hx, h⟩ := bind_ok h
      cases h
      exact counts_handleLoop _ _ _ _ hmax hx
    · split at h
      · exact flushing h
      · split at h
        · exact finishing h
        · cases h
          exact counts_refl strm
  | flushing =>
    rw [hm] at h
    exact flushing h
  | finishing =>
    rw [hm] at h
    exact finishing h

end

/-! ## 4. The output routines -/

section

variable [Build]

omit [Build] in
theorem counts_drainSlow : ∀ (n : Nat) (o : Out) (strm : BzStream), n ≤ strm.availOut →
    Counts strm (drainSlow n o strm).2.2 := by
  intro n
  induction n with
  | zero => exact fun _ strm _ => counts_refl strm
  | succ n ih =>
    intro o strm h
    unfold drainSlow
    split
    · exact counts_refl strm
    · refine (counts_putByte (by omega) o.stateOutCh).trans (ih o.emit (strm.putByte o.stateOutCh) ?_)
      unfold BzStream.putByte
      dsimp only
      omega

omit [Build] in
theorem counts_unRleSlowLoop (e : OutEnv) : ∀ (fuel : Nat) (o : Out) (strm : BzStream)
    {r : Bool × Out × BzStream}, unRleSlowLoop e fuel o strm = some r → Counts strm r.2.2 := by
  intro fuel
  induction fuel with
  | zero => exact fun _ _ _ h => nomatch h
  | succ fuel ih =>
    intro o strm r h
    have hd := counts_drainSlow strm.availOut o strm (Nat.le_refl _)
    unfold unRleSlowLoop at h
    generalize drainSlow strm.availOut o strm = x at h hd
    obtain ⟨full, o₁, strm₁⟩ := x
    cases full with
    | true =>
      cases h
      exact hd
    | false =>
      dsimp only at h
      split at h
      · cases h
        exact hd
      · split at h
        · cases h
          exact hd
        · split at h
          · cases h
            exact hd
          · exact hd.trans (ih _ _ h)

/-- What has been written and what there is room for. -/
def Cached.whole (c : Cached) : Nat := c.written.length + c.avail

theorem whole_fastRun (ver : Version) (nextOut : Int) : ∀ (fuel : Nat) (c : Cached)
    {r : Bool × Cached}, fastRun ver nextOut fuel c = some r → r.2.whole = c.whole := by
  intro fuel
  induction fuel with
  | zero => exact fun _ _ h => nomatch h
  | succ fuel ih =>
    intro c r h
    unfold fastRun at h
    split at h
    · cases h
      rfl
    · split at h
      · cases h
        rfl
      · cases ver with
        | qbz2 =>
          dsimp only at h
          rw [ih _ h]
          unfold Cached.whole Cached.batch
          dsimp only
          rw [List.length_append, List.length_replicate]
          split <;> omega
        | reference =>
          dsimp only at h
          rw [ih _ h]
          unfold Cached.whole Cached.one
          dsimp only
          rw [List.length_append, List.length_singleton]
          omega

omit [Build] in
theorem whole_one {c : Cached} (h : ¬ c.avail = 0) : c.one.whole = c.whole := by
  unfold Cached.whole Cached.one
  dsimp only
  rw [List.length_append, List.length_singleton]
  omega

theorem whole_unRleFastLoop (ver : Version) (e : OutEnv) (nextOut : Int) : ∀ (fuel : Nat)
    (eqOne : Bool) (c : Cached) {c' : Cached},
    unRleFastLoop ver e nextOut fuel eqOne c = some (.notr c') → c'.whole = c.whole := by
  intro fuel
  induction fuel with
  | zero => exact fun _ _ _ h => nomatch h
  | succ fuel ih =>
    have next : ∀ {c c' : Cached}, fastNext ver e nextOut fuel c = some (.notr c') →
        c'.whole = c.whole := by
      intro c c' h
      unfold fastNext at h
      split at h
      · cases h
      · cases h
        rfl
      · exact (ih _ _ h).trans rfl
      · exact (ih _ _ h).trans rfl
    intro eqOne c c' h
    cases eqOne with
    | true =>
      rw [fastLoop_eqOne] at h
      split at h
      · cases h
        rfl
      · rename_i hroom
        exact (next h).trans (whole_one hroom)
    | false =>
      rcases Nat.eq_zero_or_pos c.o.stateOutLen with h0 | hpos
      · rw [fastLoop_noRun ver e nextOut fuel c h0] at h
        exact next h
      · rw [fastLoop_run ver e nextOut fuel c hpos, Option.bind_eq_some_iff] at h
        obtain ⟨⟨full, c₁⟩, hrun, h⟩ := h
        have hw := whole_fastRun ver nextOut _ c hrun
        cases full with
        | true =>
          cases h
          exact hw
        | false =>
          dsimp only at h hw
          split at h
          · cases h
            exact hw
          · rename_i hroom
            refine (next h).trans (Eq.trans ?_ hw)
            split
            · rename_i hlen
              exact whole_one fun h0 => hroom ⟨hlen, h0⟩
            · rfl

theorem counts_unRle (ver : Version) (small : Bool) (e : OutEnv) (o : Out) {strm : BzStream}
    (hmax : strm.availOut < 2 ^ 32) {r : Bool × Out × BzStream}
    (h : unRle ver small e o strm = some r) : Counts strm r.2.2 := by
  unfold unRle at h
  split at h
  · exact counts_unRleSlowLoop e _ o strm h
  · unfold unRleFast at h
    split at h
    · cases h
    · cases h
      exact counts_refl strm
    · rename_i c hc
      cases h
      refine counts_putBytes ?_ hmax
      have hw : c.written.length + c.avail = 0 + strm.availOut :=
        whole_unRleFastLoop ver e strm.nextOut _ _ _ hc
      omega

end

/-! ## 5. The bits asked for -/

/-- The tables never ask for more than 32 bits at once, be they complete or not. -/
structure Low (p : Parse) : Prop where
  gMinlen : p.gMinlen ≤ 32
  tables : ∀ g ∈ p.tables, g.minLen ≤ 32

theorem Low.group {p : Parse} (h : Low p) : p.group.minLen ≤ 32 := by
  unfold Parse.group
  rcases Nat.lt_or_ge p.gSel p.tables.length with hlt | hge
  · rw [List.getD_eq_getElem _ _ hlt]
    exact h.tables _ (List.getElem_mem hlt)
  · rw [List.getD_eq_default _ _ hge]
    exact show (0 : Int) ≤ 32 by decide

/-- Nor does the label a stretch of the parser has led to. -/
def LowRun (r : Parsed) : Prop := Low r.1 ∧ ∀ l, r.2.2 = .get l → l.nbits ≤ 32

theorem low_goto {p : Parse} (h : Low p) {l : Label} (hl : l.nbits ≤ 32) : LowRun (p.goto l) :=
  ⟨h, fun _ he => by cases he; exact hl⟩

theorem low_fail {p : Parse} (h : Low p) (r : Ret) : LowRun (p.fail r) := ⟨h, fun _ he => by cases he⟩

theorem low_beginVal {p : Parse} (h : Low p) (site : MtfSite) : LowRun (p.beginVal site) := by
  have hnat : ∀ {m : Int}, m ≤ 32 → m.toNat ≤ 32 := fun hm => by omega
  unfold Parse.beginVal
  split
  · dsimp only
    split
    · exact low_fail (p := { p with groupNo := p.groupNo + 1 }) ⟨h.gMinlen, h.tables⟩ _
    · have hg := Low.group (p := { p with
        groupNo := p.groupNo + 1
        groupPos := bzGSize
        gSel := p.selector.getD (p.groupNo + 1).toNat 0 }) ⟨h.gMinlen, h.tables⟩
      exact low_goto (by exact ⟨hg, h.tables⟩) (by exact hnat hg)
  · exact low_goto (by exact ⟨h.gMinlen, h.tables⟩) (by exact hnat h.gMinlen)

theorem low_runStep {p : Parse} (h : Low p) : LowRun p.runStep := by
  unfold Parse.runStep
  split
  · exact low_fail h _
  · exact low_beginVal (by exact ⟨h.gMinlen, h.tables⟩) _

theorem low_symbol {p : Parse} (h : Low p) : LowRun p.symbol := by
  unfold Parse.symbol
  split
  · exact ⟨h, fun _ he => by cases he⟩
  · split
    · exact low_runStep (by exact ⟨h.gMinlen, h.tables⟩)
    · split
      · exact low_fail h _
      · exact ⟨⟨h.gMinlen, h.tables⟩, fun _ he => by cases he⟩

theorem low_endRun (ver : Version) {p : Parse} (h : Low p) : LowRun (p.endRun ver) := by
  unfold Parse.endRun
  cases ver with
  | qbz2 =>
    dsimp only
    split
    · exact ⟨⟨h.gMinlen, h.tables⟩, fun _ he => by cases he⟩
    · have hs := low_symbol (p := { p with
        es := p.es + 1, nblock := p.nblock + (p.es + 1).toNat }) ⟨h.gMinlen, h.tables⟩
      exact ⟨hs.1, hs.2⟩
  | reference =>
    dsimp only
    split
    · have hs := low_symbol (p := { p with
        es := p.es + 1
        nblock := (Parse.writeRun p.nblockMAX (p.es + 1).toNat p.nblock).2.1 })
        ⟨h.gMinlen, h.tables⟩
      exact ⟨hs.1, hs.2⟩
    · exact ⟨⟨h.gMinlen, h.tables⟩, fun _ he => by cases he⟩

theorem low_value (ver : Version) {p : Parse} (h : Low p) (site : MtfSite) (sym : Int) :
    LowRun (p.value ver site sym) := by
  have hn : Low { p with nextSym := sym } := ⟨h.gMinlen, h.tables⟩
  cases site with
  | first => exact low_symbol hn
  | literal => exact low_symbol hn
  | run =>
    unfold Parse.value
    dsimp only
    split
    · exact low_runStep hn
    · exact low_endRun ver hn

theorem low_mtf (ver : Version) {p : Parse} (h : Low p) (site : MtfSite) (zn zvec : Int) :
    LowRun (p.mtf ver site zn zvec) := by
  unfold Parse.mtf
  split
  · exact low_fail h _
  · exact low_value ver h site _
  · exact low_goto h (show 1 ≤ 32 by decide)

theorem low_startMtf {p : Parse} (h : Low p) : LowRun p.startMtf := by
  have hb := low_beginVal (p := { p with
    eob := p.nInUse + 1
    nblockMAX := 100000 * p.blockSize100k
    groupNo := -1
    groupPos := 0
    nblock := 0 }) ⟨h.gMinlen, h.tables⟩ .first
  exact ⟨hb.1, hb.2⟩

/-- `minLen` starts at 32. -/
theorem lenRange_le (length : Int → Int) (alphaSize : Nat) : (lenRange length alphaSize).1 ≤ 32 := by
  unfold lenRange
  induction alphaSize with
  | zero => exact Int.le_refl 32
  | succ n ih =>
    rw [Loop.forUpto_succ]
    dsimp only
    split <;> omega

theorem buildTables_minLen (length : Int → Int) (alphaSize : Nat) (g : HuffTables) :
    (buildTables length alphaSize g).minLen ≤ 32 := by
  have h := lenRange_le length alphaSize
  unfold buildTables fastTable
  dsimp only
  split <;> exact h

theorem nbits_outside {l : Label} (hl : ¬AtSymbols (.get l)) : l.nbits ≤ 32 := by
  cases l with
  | mtf site zn => exact absurd trivial hl
  | mtfNext site zn zvec => exact absurd trivial hl
  | _ => decide

/-- **No stretch of the parser leads to a label that asks for more.** -/
theorem low_resume (ver : Version) {p : Parse} (h : Low p) (l : Label) (v : Nat) :
    LowRun (p.resume ver l v) := by
  by_cases hs : AtSymbols (.get l)
  · cases l with
    | mtf site zn => exact low_mtf ver h site zn v
    | mtfNext site zn zvec => exact low_mtf ver h site zn _
    | _ => exact hs.elim
  · have kept : ∀ {q : Parse}, Untouched p q → Low q := fun hk =>
      ⟨by rw [hk.gMinlen]; exact h.gMinlen, by rw [hk.tables]; exact h.tables⟩
    have hcases := resume_cases ver hs v (p := p)
    generalize p.resume ver l v = r at hcases
    cases hcases with
    | fail hk => exact low_fail (kept hk) _
    | goto hk hl' => exact low_goto (kept hk) (nbits_outside hl')
    | start hk =>
      refine low_startMtf ⟨(kept hk).gMinlen, fun g hg => ?_⟩
      obtain ⟨row, -, rfl⟩ := List.mem_map.mp hg
      exact buildTables_minLen _ _ _

/-! ## 6. `BZ2_bzDecompress` -/

section

variable {μ : Type} [MtfList μ]

/-- A decoder, whatever has happened to it: few bits in the buffer, and few asked for. -/
structure Lowered (d : DState μ) : Prop where
  live : d.bits.bsLive ≤ 64
  low : Low d.core.p
  label : ∀ l, d.state = .parsing l → l.nbits ≤ 32

omit [MtfList μ] in
theorem endBlock_p {small : Bool} {c c' : Core μ} {r : Option Ret}
    (h : c.endBlock small = some (c', r)) : c'.p = c.p := by
  have hfirst : ∀ c : Core μ, (c.firstByte small).p = c.p := by
    intro c
    unfold Core.firstByte
    dsimp only
    split <;> rfl
  unfold Core.endBlock at h
  split at h
  · cases h
    rfl
  · split at h
    · cases h
      rfl
    · dsimp only at h
      split at h
      · cases h
        rfl
      · obtain ⟨c₁, hc₁, he⟩ := Option.map_eq_some_iff.mp h
        cases he
        rw [hfirst]
        unfold Core.buildVector at hc₁
        split at hc₁
        · obtain ⟨store, -, he⟩ := Option.map_eq_some_iff.mp hc₁
          cases he
          rfl
        · cases hc₁
          rfl

theorem nbits_after (l : Label) (v : Nat) : (l.after v).nbits = l.nbits := by cases l <;> rfl

/-- Four bytes more in a buffer that has room for them. -/
theorem counts_refill4 (ver : Version) {b : BitBuf} {strm : BzStream}
    (h : canRefill4 ver b strm = true) :
    (refill4 b strm).1.bsLive ≤ 64 ∧ Counts strm (refill4 b strm).2 := by
  obtain ⟨-, h4, h32⟩ := canRefill4_iff h
  refine ⟨?_, counts_skip4 h4⟩
  show b.bsLive + 32 ≤ 64
  omega

theorem counts_fastDecode (ver : Version) {d : DState μ} (hd : Lowered d) (strm : BzStream) :
    Lowered (fastDecode ver d strm).1 ∧
      (∀ l, (fastDecode ver d strm).2.2 = .get l → l.nbits ≤ 32) ∧
      Counts strm (fastDecode ver d strm).2.1 := by
  have slow : ∀ (bits : BitBuf) (strm' : BzStream), bits.bsLive ≤ 64 → Counts strm strm' →
      Lowered { d with bits, core := (d.core.absorb d.small (d.core.p.beginVal .literal)).1 } ∧
        (∀ l, (d.core.absorb d.small (d.core.p.beginVal .literal)).2 = .get l → l.nbits ≤ 32) ∧
        Counts strm strm' := by
    intro bits strm' hb hc
    have hlow := low_beginVal hd.low .literal
    exact ⟨⟨hb, hlow.1, hd.label⟩, hlow.2, hc⟩
  cases ver with
  | reference => exact slow d.bits strm hd.live (counts_refl strm)
  | qbz2 =>
    unfold fastDecode
    dsimp only
    split
    · -- the refill
      obtain ⟨bits, strm', he, hb, hc⟩ : ∃ bits strm',
          (if canRefill4 .qbz2 d.bits strm = true then refill4 d.bits strm else (d.bits, strm)) =
            (bits, strm') ∧ bits.bsLive ≤ 64 ∧ Counts strm strm' := by
        by_cases hcan : canRefill4 .qbz2 d.bits strm = true
        · obtain ⟨hb, hc⟩ := counts_refill4 .qbz2 hcan
          exact ⟨_, _, if_pos hcan, hb, hc⟩
        · exact ⟨_, _, if_neg hcan, hd.live, counts_refl strm⟩
      rw [he]
      dsimp only
      split
      · split
        · rename_i sym k _
          have hlow := low_symbol (p := { d.core.p with
            nextSym := sym, groupPos := d.core.p.groupPos - 1 }) ⟨hd.low.gMinlen, hd.low.tables⟩
          exact ⟨⟨Nat.le_trans (Nat.sub_le _ _) hb, hlow.1, hd.label⟩, hlow.2, hc⟩
        · exact slow bits strm' hb hc
      · exact slow bits strm' hb hc
    · exact slow d.bits strm hd.live (counts_refl strm)

/-- A step that goes on. -/
theorem counts_stepOn (ver : Version) {d d' : DState μ} {strm strm' : BzStream} {ctl ctl' : Ctl}
    (hd : Lowered d) (hl : ∀ l, ctl = .get l → l.nbits ≤ 32)
    (h : decompressStep ver (d, strm, ctl) = some (.inl (d', strm', ctl'))) :
    Lowered d' ∧ (∀ l, ctl' = .get l → l.nbits ≤ 32) ∧ Counts strm strm' := by
  cases ctl with
  | get l =>
    have hn := hl l rfl
    unfold decompressStep at h
    dsimp only at h
    split at h
    · cases h
      have hlow := low_resume ver hd.low l (d.bits.peek l.nbits)
      refine ⟨⟨Nat.le_trans (Nat.sub_le _ _) hd.live, hlow.1, fun l' hl' => ?_⟩, hlow.2,
        counts_refl strm⟩
      cases hl'
      rw [nbits_after]
      exact hn
    · split at h
      · rename_i hcan
        obtain ⟨hb, hc⟩ := counts_refill4 ver hcan
        cases h
        refine ⟨⟨hb, hd.low, fun l' hl' => ?_⟩, hl, hc⟩
        cases hl'
        exact hn
      · split at h
        · cases h
        · rename_i hlive _ hne
          cases h
          refine ⟨⟨?_, hd.low, fun l' hl' => ?_⟩, hl, counts_skipByte (Nat.pos_of_ne_zero hne)⟩
          · show d.bits.bsLive + 8 ≤ 64
            omega
          · cases hl'
            exact hn
  | fast =>
    have hf := counts_fastDecode ver hd strm
    have h' := Sum.inl.inj (Option.some.inj h)
    rw [h'] at hf
    exact hf
  | block =>
    unfold decompressStep at h
    dsimp only at h
    cases he : d.core.endBlock d.small with
    | none =>
      rw [he] at h
      cases h
    | some x =>
      obtain ⟨core, r⟩ := x
      rw [he] at h
      cases r <;> cases h
  | ret r => cases r <;> cases h

/-- A step that returns. -/
theorem counts_stepOut (ver : Version) {d d' : DState μ} {strm strm' : BzStream} {ctl : Ctl}
    {r : Ret} (hd : Lowered d) (hl : ∀ l, ctl = .get l → l.nbits ≤ 32)
    (h : decompressStep ver (d, strm, ctl) = some (.inr (r, d', strm'))) :
    Lowered d' ∧ Counts strm strm' := by
  cases ctl with
  | get l =>
    unfold decompressStep at h
    dsimp only at h
    split at h
    · cases h
    · split at h
      · cases h
      · split at h
        · cases h
          refine ⟨⟨hd.live, hd.low, fun l' hl' => ?_⟩, counts_refl strm⟩
          cases hl'
          exact hl l rfl
        · cases h
  | fast => cases h
  | block =>
    unfold decompressStep at h
    dsimp only at h
    cases he : d.core.endBlock d.small with
    | none =>
      rw [he] at h
      cases h
    | some x =>
      obtain ⟨core, r⟩ := x
      have hp := endBlock_p he
      rw [he] at h
      cases r with
      | none =>
        cases h
        exact ⟨⟨hd.live, hp ▸ hd.low, fun _ hl' => by cases hl'⟩, counts_refl strm⟩
      | some r =>
        cases h
        exact ⟨⟨hd.live, hp ▸ hd.low, hd.label⟩, counts_refl strm⟩
  | ret r =>
    cases r with
    | streamEnd =>
      cases ver with
      | qbz2 =>
        cases h
        have hlive := hd.live
        exact ⟨⟨Nat.zero_le _, hd.low, fun _ hl' => by cases hl'⟩,
          counts_unread strm (show d.bits.bsLive / 8 < 2 ^ 32 by omega)⟩
      | reference =>
        cases h
        exact ⟨⟨hd.live, hd.low, fun _ hl' => by cases hl'⟩, counts_refl strm⟩
    | _ =>
      cases h
      exact ⟨hd, counts_refl strm⟩

theorem counts_decompressLoop (ver : Version) : ∀ (fuel : Nat) {d d' : DState μ}
    {strm strm' : BzStream} {ctl : Ctl} {r : Ret}, Lowered d →
    (∀ l, ctl = .get l → l.nbits ≤ 32) →
    decompressLoop ver fuel (d, strm, ctl) = some (r, d', strm') →
    Lowered d' ∧ Counts strm strm' := by
  intro fuel
  induction fuel with
  | zero => exact fun _ _ h => nomatch h
  | succ fuel ih =>
    intro d d' strm strm' ctl r hd hl h
    unfold decompressLoop at h
    split at h
    · cases h
    · rename_i s hs
      obtain ⟨d₁, strm₁, ctl₁⟩ := s
      obtain ⟨hd₁, hl₁, hc₁⟩ := counts_stepOn ver hd hl hs
      obtain ⟨hd', hc⟩ := ih hd₁ hl₁ h
      exact ⟨hd', hc₁.trans hc⟩
    · rename_i x hs
      cases h
      exact counts_stepOut ver hd hl hs

variable [Build]

theorem counts_bzDecompressLoop (ver : Version) : ∀ (fuel : Nat) {d d' : DState μ}
    {strm strm' : BzStream} {r : Ret}, Lowered d → strm.availOut < 2 ^ 32 →
    bzDecompressLoop ver fuel d strm = some (r, d', strm') → Lowered d' ∧ Counts strm strm' := by
  intro fuel
  induction fuel with
  | zero => exact fun _ _ h => nomatch h
  | succ fuel ih =>
    -- from a label on
    have parse : ∀ {d d' : DState μ} {l : Label} {strm strm' : BzStream} {r : Ret}, Lowered d →
        l.nbits ≤ 32 → strm.availOut < 2 ^ 32 →
        afterParse ver fuel (decompress ver d l strm) = some (r, d', strm') →
        Lowered d' ∧ Counts strm strm' := by
      intro d d' l strm strm' r hd hl hmax h
      cases hdec : decompress ver d l strm with
      | none =>
        rw [hdec] at h
        cases h
      | some x =>
        obtain ⟨r₁, d₁, strm₁⟩ := x
        obtain ⟨hd₁, hc₁⟩ := counts_decompressLoop ver _ hd (fun _ he => by cases he; exact hl) hdec
        have hroom := hc₁.room
        rw [hdec] at h
        unfold afterParse at h
        split at h
        · cases h
        · rename_i he
          cases he
          split at h <;> (cases h; exact ⟨hd₁, hc₁⟩)
        · rename_i he
          cases he
          split at h
          · cases h
            exact ⟨hd₁, hc₁⟩
          · obtain ⟨hd', hc⟩ := ih hd₁ (by omega) h
            exact ⟨hd', hc₁.trans hc⟩
    intro d d' strm strm' r hd hmax h
    cases hst : d.state with
    | idle =>
      unfold bzDecompressLoop at h
      dsimp only at h
      rw [hst] at h
      cases h
      exact ⟨hd, counts_refl strm⟩
    | parsing l =>
      rw [loop_parsing ver fuel hst] at h
      exact parse hd (hd.label l hst) hmax h
    | output =>
      rw [loop_output ver fuel hst] at h
      cases hout : unRle ver d.small (d.core.env d.small) d.core.out strm with
      | none =>
        rw [hout] at h
        cases h
      | some x =>
        obtain ⟨corrupt, out, strm₁⟩ := x
        have hc₁ := counts_unRle ver d.small _ _ hmax hout
        have hroom := hc₁.room
        rw [hout] at h
        dsimp only at h hc₁ hroom
        have hd₁ : Lowered { d with core := { d.core with out } } := ⟨hd.live, hd.low, hd.label⟩
        split at h
        · cases h
          exact ⟨hd₁, hc₁⟩
        · split at h
          · have hp : (Core.finishBlock { d.core with out }).1.p = d.core.p := by
              unfold Core.finishBlock
              dsimp only
              split <;> rfl
            split at h
            · rename_i core hf
              rw [hf] at hp
              cases h
              exact ⟨⟨hd.live, hp ▸ hd.low, hd.label⟩, hc₁⟩
            · rename_i core hf
              rw [hf] at hp
              obtain ⟨hd', hc⟩ := parse (d := { d with core, state := .parsing .blkhdr1 })
                ⟨hd.live, hp ▸ hd.low, fun _ he => by cases he; exact show 8 ≤ 32 by decide⟩
                (by exact show 8 ≤ 32 by decide) (by omega) h
              exact ⟨hd', hc₁.trans hc⟩
          · cases h
            exact ⟨hd₁, hc₁⟩

/-- The decoders any calls of `BZ2_bzDecompress` lead to, with any streams, whatever they
    return. -/
inductive DecompressReach (ver : Version) : DState μ → Prop
  | init (small : Bool) : DecompressReach ver (DState.init small)
  | call {d d' : DState μ} {strm strm' : BzStream} {r : Ret} (h : DecompressReach ver d)
      (hmax : strm.availOut < 2 ^ 32) (hc : bzDecompress ver d strm = some (r, d', strm')) :
      DecompressReach ver d'

theorem DecompressReach.lowered {ver : Version} {d : DState μ} (h : DecompressReach ver d) :
    Lowered d := by
  induction h with
  | init => exact ⟨Nat.zero_le _, ⟨show (0 : Int) ≤ 32 by decide, fun _ hg => nomatch hg⟩,
      fun _ hl => by cases hl; exact show 8 ≤ 32 by decide⟩
  | call h hmax hc ih => exact (counts_bzDecompressLoop ver _ ih hmax hc).1

end

/-- **The totals count every byte**: in every sequence of calls, of `BZ2_bzCompress` from any state
    or of `BZ2_bzDecompress` from `BZ2_bzDecompressInit`, whatever the calls before have returned
    and however much has gone through, each call moves `total_in` by what `avail_in` falls and
    `next_in` advances, and `total_out` likewise, modulo 2 to the 64. -/
theorem byteAccounting [CompressEnv] :
    (∀ (s s' : EState) (strm strm' : BzStream) (action : Int) (r : Ret), strm.availOut < 2 ^ 32 →
      bzCompress s strm action = .ok (r, s', strm') → Counts strm strm') ∧
    ∀ (d d' : DState FlatMtf) (strm strm' : BzStream) (r : Ret), DecompressReach .qbz2 d →
      strm.availOut < 2 ^ 32 → bzDecompress .qbz2 d strm = some (r, d', strm') →
        Counts strm strm' :=
  ⟨fun _ _ _ _ _ _ hmax h => counts_bzCompress hmax h,
    fun _ _ _ _ _ hd hmax h => (counts_bzDecompressLoop .qbz2 _ hd.lowered hmax h).2⟩

/-- One byte, when the low word is full. -/
def wrappingStream : BzStream := { oneByteStream with totalInLo32 := 0xffffffff }

theorem byteAccounting_wraps :
    (∃ s' strm', @bzCompress plainEnv (EState.init 9) wrappingStream bzRun =
        .ok (.runOk, s', strm') ∧
      strm'.totalIn = wrappingStream.totalIn + 1 ∧ strm'.totalIn = 0x100000000) ∧
    ∃ (d' : DState FlatMtf) (strm' : BzStream),
      @bzDecompress _ _ plainEnv.toBuild .qbz2 (DState.init false) (offering emptyFile) =
        some (.streamEnd, d', strm') ∧ Counts (offering emptyFile) strm' :=
  ⟨⟨_, _, rfl, ((@byteAccounting plainEnv).1 (EState.init 9) _ wrappingStream _ bzRun .runOk
      (by decide) rfl).totalIn, rfl⟩,
    _, _, rfl, (@byteAccounting plainEnv).2 (DState.init false) _ (offering emptyFile) _ .streamEnd
      (@DecompressReach.init _ _ plainEnv.toBuild .qbz2 false) (by decide) rfl⟩

end Qbz2
