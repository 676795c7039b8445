/-
  File:      Qbz2/Decompress/Modes.lean
  Subject:   Normal and small-memory decompression, call by call.

  * `Level`, `Alongside` -- two decoders, one in each mode, and the streams they are called with;
  * `Drains` -- two drains side by side: where a buffer is full the one routine may stand a fetch
    ahead of the other (`Beside`); `callStep_level` -- step by step both do the same;
  * `CallCrcs`, `RunCrcs` -- the CRCs of the blocks a call, or a run, has come to the end of;
  * **`modes_agree`** -- runs that are offered the same end alike, and every call but the one that
    reports an error did the same in both.
-/
import Qbz2.Decompress.Bounds
import Qbz2.Decompress.Reference
import Qbz2.RoundTrip.Stream

namespace Qbz2

open Transducer Bits

/-! ## 1. Two streams -/

/-- Two streams that offer the same input and the same room, and have been given the same output
    since they had `o` and `o'`. -/
structure Alongside (o o' : List Byte) (strm strm' : BzStream) : Prop where
  bytes : ∀ i : Nat, i < strm.availIn → strm'.mem (strm'.nextIn + i) = strm.mem (strm.nextIn + i)
  availIn : strm'.availIn = strm.availIn
  availOut : strm'.availOut = strm.availOut
  out : ∃ w, strm.out = o ++ w ∧ strm'.out = o' ++ w

section

variable {o o' : List Byte} {strm strm' t t' : BzStream} {b : BitBuf}

theorem Alongside.refill4 (h : Alongside o o' strm strm') (h4 : 4 ≤ strm.availIn) :
    (Qbz2.refill4 b strm').1 = (Qbz2.refill4 b strm).1 ∧
      Alongside o o' (Qbz2.refill4 b strm).2 (Qbz2.refill4 b strm').2 := by
  have h0 := h.bytes 0 (by omega)
  have h1 := h.bytes 1 (by omega)
  have h2 := h.bytes 2 (by omega)
  have h3 := h.bytes 3 (by omega)
  rw [Int.natCast_zero, Int.add_zero, Int.add_zero] at h0
  unfold Qbz2.refill4
  refine ⟨?_, fun i hi => ?_, ?_, h.availOut, h.out⟩
  · dsimp only
    rw [h0, show strm'.nextIn + 1 = strm'.nextIn + (1 : Nat) from rfl, h1,
      show strm'.nextIn + 2 = strm'.nextIn + (2 : Nat) from rfl, h2,
      show strm'.nextIn + 3 = strm'.nextIn + (3 : Nat) from rfl, h3]
    rfl
  · have hi' : i < strm.availIn - 4 := hi
    have hb := h.bytes (4 + i) (by omega)
    rw [Int.natCast_add, ← Int.add_assoc, ← Int.add_assoc] at hb
    exact hb
  · show strm'.availIn - 4 = strm.availIn - 4
    rw [h.availIn]

theorem Alongside.refill1 (h : Alongside o o' strm strm') (h1 : 0 < strm.availIn) :
    (Qbz2.refill1 .qbz2 b strm').1 = (Qbz2.refill1 .qbz2 b strm).1 ∧
      Alongside o o' (Qbz2.refill1 .qbz2 b strm).2 (Qbz2.refill1 .qbz2 b strm').2 := by
  have h0 := h.bytes 0 h1
  rw [Int.natCast_zero, Int.add_zero, Int.add_zero] at h0
  unfold Qbz2.refill1
  refine ⟨?_, fun i hi => ?_, ?_, h.availOut, h.out⟩
  · dsimp only
    rw [h0]
  · have hi' : i < strm.availIn - 1 := hi
    have hb := h.bytes (1 + i) (by omega)
    rw [Int.natCast_add, ← Int.add_assoc, ← Int.add_assoc] at hb
    exact hb
  · show strm'.availIn - 1 = strm.availIn - 1
    rw [h.availIn]

/-- Both are given the same bytes. -/
theorem Alongside.gives {w : List Byte} (h : Alongside o o' strm strm') (hg : Gives strm t w)
    (hg' : Gives strm' t' w) : Alongside o o' t t' where
  bytes i hi := by
    rw [hg'.mem, hg'.nextIn, hg.mem, hg.nextIn]
    exact h.bytes i (by rw [← hg.availIn]; exact hi)
  availIn := by rw [hg'.availIn, hg.availIn, h.availIn]
  availOut := by
    have h1 := hg.availOut
    have h2 := hg'.availOut
    have h3 := h.availOut
    omega
  out := by
    obtain ⟨v, hv, hv'⟩ := h.out
    exact ⟨v ++ w, by rw [hg.out, hv, List.append_assoc], by rw [hg'.out, hv', List.append_assoc]⟩

end

/-! ## 2. The output of a block by itself -/

section

variable {μ : Type}

/-- The machine from the start of the output of a block to its end, where it stops. -/
def Core.drainer (small : Bool) (c : Core μ) : Machine Out Bool Byte Unit := fun o =>
  if o.stateOutLen > 0 then .emit o.stateOutCh o.emit
  else if o.nblockUsed > c.p.nblock then .halt ()
  else
    match Core.fetch small { c with out := o } with
    | none => .halt ()
    | some q => .move q

/-- The output has come to the end of the block, or beyond. -/
def Core.Over (c : Core μ) (o : Out) : Prop := o.stateOutLen = 0 ∧ c.p.nblock < o.nblockUsed

theorem Core.Over.stuck {c : Core μ} {o : Out} (h : c.Over o) (small : Bool) (t : List Bool) :
    Stuck (c.drainer small) o t := by
  refine .halted (r := ()) ?_
  unfold Core.drainer
  rw [if_neg (by have := h.1; omega), if_pos h.2]

variable [MtfList μ] {ver : Version} {small : Bool} {c : Core μ}

/-- Within the output of a block the machine is that one. -/
theorem drainer_steps_of {o' : Out} {s s' : Core μ × Point} {t u : List Bool} {w : List Byte}
    (h : Steps (bitDecoder ver small) s t w s' u) :
    ∀ o, s = c.giving o → s' = c.giving o' → t = [] → Steps (c.drainer small) o [] w o' [] := by
  induction h with
  | refl s t =>
    intro o hs hs' _
    obtain rfl : o = o' := congrArg (fun x : Core μ × Point => x.1.out) (hs.symm.trans hs')
    exact .refl _ _
  | read hM hn _ _ =>
    rintro o rfl - -
    obtain ⟨l, hl, -⟩ := bitDecoder_read hM
    cases hl
  | emit hM _ ih =>
    rintro o rfl hs' ht
    obtain ⟨-, hpos, rfl, rfl⟩ := bitDecoder_emit hM
    exact .emit (if_pos hpos) (ih _ rfl hs' ht)
  | move hM hrest ih =>
    rintro o rfl hs' rfl
    rcases bitDecoder_move hM with ⟨h, -⟩ | ⟨h, -⟩ | ⟨h, -⟩ | ⟨-, -, -, d, -, rfl⟩ |
      ⟨-, h0, hle, q, hq, rfl⟩
    · cases h
    · cases h
    · cases h
    · -- the label of the next block wants bits
      subst hs'
      cases hrest with
      | read hM hn _ =>
        cases hM
        exact absurd hn (by decide)
      | emit hM _ => cases hM
      | move hM _ => cases hM
    · have h0' : o.stateOutLen = 0 := h0
      have hle' : o.nblockUsed ≤ c.p.nblock := hle
      have hq' : Core.fetch small { c with out := o } = some q := hq
      refine .move ?_ (ih _ rfl hs' rfl)
      unfold Core.drainer
      rw [if_neg (by omega), if_neg (by omega), hq']

theorem drainer_steps {o o' : Out} {w : List Byte}
    (h : Steps (bitDecoder ver small) (c.giving o) [] w (c.giving o') []) :
    Steps (c.drainer small) o [] w o' [] :=
  drainer_steps_of h o rfl rfl rfl

omit [MtfList μ] in
/-- Who comes to the end of a block without giving anything out stood there. -/
theorem drainer_silent {o a : Out} (hS : Sane small (c.giving o))
    (h : Steps (c.drainer small) o [] [] a []) (ha : c.Over a) : a = o := by
  by_cases h0 : o.stateOutLen = 0
  · by_cases hle : o.nblockUsed ≤ c.p.nblock
    · obtain ⟨q, hq, hpos, -⟩ := giving_sane hS hle
      have hmove : c.drainer small o = .move q := by
        unfold Core.drainer
        rw [if_neg (by omega), if_neg (by omega), hq]
      have hemit : Steps (c.drainer small) q [] [q.stateOutCh] q.emit [] :=
        .emit (if_pos hpos) (.refl _ _)
      obtain ⟨v, -, hv⟩ := (Steps.move hmove hemit).to_stuck h (ha.stuck small [])
      cases hv
    · exact (h.of_stuck (Core.Over.stuck ⟨h0, by omega⟩ small [])).2.1
  · have hemit : Steps (c.drainer small) o [] [o.stateOutCh] o.emit [] :=
      .emit (if_pos (Nat.pos_of_ne_zero h0)) (.refl _ _)
    obtain ⟨v, -, hv⟩ := hemit.to_stuck h (ha.stuck small [])
    cases hv

omit [MtfList μ] in
/-- Two decoders give out the same block alike. -/
theorem drainer_twin {small' : Bool} {c c' : Core μ} (q q' : Out)
    (h : TwinBlock small small' { c with out := q } { c' with out := q' }) :
    NodeRel (fun q q' => TwinBlock small small' { c with out := q } { c' with out := q' })
      (c.drainer small q) (c'.drainer small' q') := by
  obtain ⟨p, store, out, crc⟩ := c
  obtain ⟨p', store', out', crc'⟩ := c'
  obtain rfl : p' = p := h.parse
  have hout : TwinOut p'.nblock p'.blockRandomised q q' := h.out
  unfold Core.drainer
  dsimp only
  rw [hout.len, hout.used, hout.ch]
  by_cases hlen : q.stateOutLen > 0
  · obtain ⟨s, hw, hw'⟩ := h.walk
    rw [if_pos hlen, if_pos hlen]
    exact ⟨rfl, rfl, h.combined, hout.emit, s,
      ⟨hw.bs, hw.orig, hw.fits, hw.lane, hw.on, hw.low, hw.high⟩,
      ⟨hw'.bs, hw'.orig, hw'.fits, hw'.lane, hw'.on, hw'.low, hw'.high⟩⟩
  rw [if_neg hlen, if_neg hlen]
  by_cases hover : q.nblockUsed > p'.nblock
  · rw [if_pos hover, if_pos hover]
    rfl
  · rw [if_neg hover, if_neg hover]
    obtain ⟨k, k', hk, hk', -, hB⟩ := fetch_twin h (Nat.le_of_not_lt hover)
    rw [hk, hk']
    exact hB

/-! ## 3. Two decoders -/

/-- **A block being given out in both modes.** Where a buffer was full, whole runs leave the next
    one fetched already, byte by byte it is not. -/
structure Giving (c c' : Core μ) : Prop where
  sane : Sane false (c, .output)
  sane' : Sane true (c', .output)
  beside : Beside (fun q q' => TwinBlock false true { c with out := q } { c' with out := q' })
    (c.drainer false) (c'.drainer true) [] c.out c'.out

/-- **A decoder in normal and one in small mode**, at the same place of a call. -/
structure Level (d d' : DState μ) (pt : Point) : Prop where
  small : d.small = false
  small' : d'.small = true
  bits : d'.bits = d.bits
  state : d'.state = d.state
  parser : ∀ ctl, pt = .parser ctl →
    TwinState Eq false true (d.core, .parser ctl) (d'.core, .parser ctl) ∧ ctl.Quits ∧
      d.state ≠ .output
  output : pt = .output → d.state = .output ∧ Giving d.core d'.core

omit [MtfList μ] in
/-- The two differ in the block and in the mode. -/
theorem Level.fields {pt : Point} (h : Level d d' pt) :
    ∃ (st : XState) (b : BitBuf) (c c' : Core μ), d = ⟨st, b, c, false⟩ ∧ d' = ⟨st, b, c', true⟩ := by
  obtain ⟨st, b, c, small⟩ := d
  obtain ⟨st', b', c', small'⟩ := d'
  obtain rfl : small = false := h.small
  obtain rfl : small' = true := h.small'
  obtain rfl : b' = b := h.bits
  obtain rfl : st' = st := h.state
  exact ⟨st', b', c, c', rfl, rfl⟩

/-- A block given out byte by byte that has turned out corrupt, with no room left to notice. -/
structure Stalled (d : DState μ) : Prop where
  small : d.small = true
  state : d.state = .output
  sane : Sane true (d.core, .output)
  len : d.core.out.stateOutLen = 0
  beyond : d.core.p.nblock + 1 < d.core.out.nblockUsed

/-- What a step has led to, or what the call has returned, in both modes. -/
inductive StepLevel (o o' : List Byte) :
    Place μ ⊕ (Ret × DState μ × BzStream) → Place μ ⊕ (Ret × DState μ × BzStream) → Prop
  | goes {e e' : DState μ} {t t' : BzStream} {pt : Point} (hl : Level e e' pt)
      (hs : Alongside o o' t t') : StepLevel o o' (.inl (e, t, pt)) (.inl (e', t', pt))
  | ok {e e' : DState μ} {t t' : BzStream} (hl : Level e e' e.point) (hs : Alongside o o' t t') :
      StepLevel o o' (.inr (.ok, e, t)) (.inr (.ok, e', t'))
  | ended {e e' : DState μ} {t t' : BzStream} (hin : t'.availIn = t.availIn)
      (hout : ∃ w, t.out = o ++ w ∧ t'.out = o' ++ w) :
      StepLevel o o' (.inr (.streamEnd, e, t)) (.inr (.streamEnd, e', t'))
  | failed {r : Ret} {e e' : DState μ} {t t' : BzStream} (hok : r ≠ .ok) (hend : r ≠ .streamEnd) :
      StepLevel o o' (.inr (r, e, t)) (.inr (r, e', t'))
  | late {e e' : DState μ} {t t' : BzStream} (hstall : Stalled e') (h0 : t'.availOut = 0) :
      StepLevel o o' (.inr (.dataError, e, t)) (.inr (.ok, e', t'))

omit [MtfList μ] in
/-- Each of two decoders that give out the same block is in order. -/
theorem TwinBlock.sane {small small' : Bool} {c c' : Core μ} (h : TwinBlock small small' c c') :
    Sane small (c, .output) ∧ Sane small' (c', .output) := by
  obtain ⟨-, -, -, s, hw, hw'⟩ := h
  exact ⟨⟨rfl, rfl, TwinOut.refl _ _ _, s, hw, hw⟩, ⟨rfl, rfl, TwinOut.refl _ _ _, s, hw', hw'⟩⟩

omit [MtfList μ] in
theorem StepLevel.inv {o o' : List Byte} {r r' : Ret} {e e' : DState μ} {t t' : BzStream}
    (h : StepLevel o o' (.inr (r, e, t)) (.inr (r', e', t'))) :
    r = .ok ∧ r' = .ok ∧ Level e e' e.point ∧ Alongside o o' t t' ∨
    (r = .streamEnd ∧ r' = .streamEnd ∧ t'.availIn = t.availIn ∧
      ∃ w, t.out = o ++ w ∧ t'.out = o' ++ w) ∨
    (r ≠ .ok ∧ r ≠ .streamEnd ∧ r' = r) ∨
    r = .dataError ∧ r' = .ok ∧ Stalled e' ∧ t'.availOut = 0 := by
  cases h with
  | ok hl hs => exact .inl ⟨rfl, rfl, hl, hs⟩
  | ended hin hout => exact .inr (.inl ⟨rfl, rfl, hin, hout⟩)
  | failed hok hend => exact .inr (.inr (.inl ⟨hok, hend, rfl⟩))
  | late hstall h0 => exact .inr (.inr (.inr ⟨rfl, rfl, hstall, h0⟩))

/-! ## 4. A step of the parser -/

section

variable {o o' : List Byte} {strm strm' : BzStream} {d d' : DState μ} {ctl : Ctl}

omit [MtfList μ] in
/-- A place of the parser. -/
theorem level_parsing {b : BitBuf} {c c' : Core μ} {st : XState}
    (h : TwinState Eq false true (c, .parser ctl) (c', .parser ctl)) (hq : ctl.Quits)
    (hst : st ≠ .output) : Level ⟨st, b, c, false⟩ ⟨st, b, c', true⟩ (.parser ctl) where
  small := rfl
  small' := rfl
  bits := rfl
  state := rfl
  parser ctl' hctl := by
    cases hctl
    exact ⟨h, hq, hst⟩
  output := nofun

/-- The table lookup after a literal, or `GET_MTF_VAL`. -/
theorem fastDecode_level {b : BitBuf} {c c' : Core μ} {st : XState}
    (h : TwinState Eq false true (c, .parser .fast) (c', .parser .fast)) (hst : st ≠ .output)
    (hs : Alongside o o' strm strm') :
    ∃ (e e' : DState μ) (t t' : BzStream) (ctl : Ctl),
      fastDecode .qbz2 ⟨st, b, c, false⟩ strm = (e, t, ctl) ∧
      fastDecode .qbz2 ⟨st, b, c', true⟩ strm' = (e', t', ctl) ∧ Level e e' (.parser ctl) ∧
      Alongside o o' t t' := by
  obtain ⟨ht, hb, hc⟩ := h
  have hp : c'.p = c.p := ht.parse nofun
  -- `GET_MTF_VAL`
  have slow : ∀ b₁ : BitBuf, ∃ ctl, (c.absorb false (c.p.beginVal .literal)).2 = ctl ∧
      (c'.absorb true (c'.p.beginVal .literal)).2 = ctl ∧
      Level ⟨st, b₁, (c.absorb false (c.p.beginVal .literal)).1, false⟩
        ⟨st, b₁, (c'.absorb true (c'.p.beginVal .literal)).1, true⟩ (.parser ctl) := by
    intro b₁
    have hlit := twin_literal ht ⟨hb, hc⟩
    refine ⟨_, rfl, hlit.1.ctl, level_parsing ?_ (inner_beginVal c.p .literal).2 hst⟩
    have hctl := hlit.1.ctl
    unfold standing at hlit
    rw [hctl] at hlit
    exact hlit
  unfold fastDecode
  dsimp only
  rw [hp]
  by_cases hpos : c.p.groupPos > 0
  · rw [if_pos hpos, if_pos hpos]
    obtain ⟨bits, t, t', he, he', ht'⟩ : ∃ (bits : BitBuf) (t t' : BzStream),
        (if canRefill4 .qbz2 b strm = true then refill4 b strm else (b, strm)) = (bits, t) ∧
        (if canRefill4 .qbz2 b strm' = true then refill4 b strm' else (b, strm')) = (bits, t') ∧
        Alongside o o' t t' := by
      have hcan : canRefill4 .qbz2 b strm' = canRefill4 .qbz2 b strm := by
        unfold canRefill4
        rw [hs.availIn]
      rw [hcan]
      by_cases h4 : canRefill4 .qbz2 b strm = true
      · rw [if_pos h4, if_pos h4]
        obtain ⟨hbits, hst'⟩ := hs.refill4 (b := b) (canRefill4_iff h4).2.1
        exact ⟨_, _, (refill4 b strm').2, rfl, Prod.ext hbits rfl, hst'⟩
      · rw [if_neg h4, if_neg h4]
        exact ⟨_, _, _, rfl, rfl, hs⟩
    rw [he, he']
    dsimp only
    obtain ⟨ctl, h1, h2, h3⟩ := slow bits
    rw [hp] at h2 h3
    by_cases h11 : bits.bsLive ≥ bzDecodeTableBits
    · rw [if_pos h11, if_pos h11]
      cases hlook : tableLookup c.p.group bits with
      | none => exact ⟨_, _, _, _, ctl, by rw [← h1], by rw [← h2], h3, ht'⟩
      | some hit =>
        obtain ⟨sym, k⟩ := hit
        have hg := CurOk.group hb hc
        obtain ⟨hval, -⟩ := tableLookup_getMtfVal hg h11 hlook
        obtain ⟨h0, hlt⟩ := getMtfVal_sym hg hval
        obtain ⟨q, hq⟩ : ∃ q : Parse,
            q = { c.p with nextSym := sym, groupPos := c.p.groupPos - 1 } := ⟨_, rfl⟩
        have hbq : BlockOk q := by
          rw [hq]
          exact hb.frame _ _ _ _ _ hb.le hb.groupNo (Nat.le_trans (Nat.sub_le _ _) hb.groupPos)
        have hcq : CurOk q.tables q.gSel q.gMinlen := by
          rw [hq]
          exact hc
        have hsym : SymOk q := by
          rw [hq]
          exact ⟨h0, hlt⟩
        have hstore : TwinStore Eq false true q.nblock c.store c'.store := by
          rw [hq]
          exact ht.store trivial
        have htwin := twin_symbol mtfSim_eq ht.combined hstore hbq hcq hsym
        have hready := (sound_symbol hbq hcq hsym).ready
        dsimp only
        rw [← hq]
        refine ⟨_, _, _, _, _, rfl, Prod.ext rfl (Prod.ext rfl htwin.ctl), ?_, ht'⟩
        exact level_parsing ⟨⟨rfl, htwin.combined, htwin.parse, htwin.store⟩, hready⟩
          (inner_symbol q).2 hst
    · rw [if_neg h11, if_neg h11]
      exact ⟨_, _, _, _, ctl, by rw [← h1], by rw [← h2], h3, ht'⟩
  · rw [if_neg hpos, if_neg hpos]
    obtain ⟨ctl, h1, h2, h3⟩ := slow b
    rw [hp] at h2 h3
    exact ⟨_, _, _, _, ctl, by rw [← h1], by rw [← h2], h3, hs⟩

variable [Build]

omit [MtfList μ] [Build] in
/-- What an error of `BZ2_decompress` leads to. -/
theorem returned_failed {st : XState} {c c' : Core μ} {r : Ret} (hst : st ≠ .output) (hne : r ≠ .ok)
    (hend : r ≠ .streamEnd) :
    StepLevel o o' (returned r (⟨st, b, c, false⟩ : DState μ) strm)
      (returned r ⟨st, b, c', true⟩ strm') := by
  unfold returned
  cases r <;> first | exact absurd rfl hend | skip
  all_goals
    dsimp only
    rw [if_pos hst, if_pos hst]
    exact .failed hne hend

omit [MtfList μ] [Build] in
/-- What the end of a stream leads to. -/
theorem returned_end {st : XState} {c c' : Core μ} (hp : c'.p = c.p)
    (hcrc : c'.calculatedCombinedCRC = c.calculatedCombinedCRC)
    (hin : strm'.availIn = strm.availIn) (hout : ∃ w, strm.out = o ++ w ∧ strm'.out = o' ++ w) :
    StepLevel o o' (returned .streamEnd (⟨st, b, c, false⟩ : DState μ) strm)
      (returned .streamEnd ⟨st, b, c', true⟩ strm') := by
  unfold returned
  dsimp only
  rw [hcrc, hp]
  by_cases hne : c.calculatedCombinedCRC ≠ c.p.storedCombinedCRC
  · rw [if_pos hne, if_pos hne]
    exact .failed nofun nofun
  · rw [if_neg hne, if_neg hne]
    exact .ended hin hout

/-- A label: bits taken, or a refill, or `BZ_OK` where there is no input. -/
theorem callStep_get_level {l : Label} (h : Level d d' (.parser (.get l)))
    (hs : Alongside o o' strm strm') :
    ∃ res res', callStep .qbz2 (d, strm, .parser (.get l)) = some res ∧
      callStep .qbz2 (d', strm', .parser (.get l)) = some res' ∧ StepLevel o o' res res' := by
  obtain ⟨st, b, c, c', rfl, rfl⟩ := h.fields
  obtain ⟨⟨ht, hr⟩, hq, -⟩ := h.parser (.get l) rfl
  have hres := resume_twin mtfSim_eq .qbz2 .qbz2 ht hr (b.peek l.nbits)
  have hready := (resume_sound .qbz2 hr (b.peek l.nbits)).ready
  have hquits := (resume_ahead c.p .qbz2 l (b.peek l.nbits)).2
  have here : ∀ b : BitBuf, Level ⟨.parsing l, b, c, false⟩ ⟨.parsing l, b, c', true⟩
      (.parser (.get l)) := fun b => level_parsing ⟨ht, hr⟩ hq nofun
  unfold callStep decompressStep
  dsimp only
  by_cases hle : l.nbits ≤ b.bsLive
  · rw [if_pos hle, if_pos hle]
    have hctl := hres.ctl
    refine ⟨_, _, rfl, rfl, ?_⟩
    rw [hctl]
    exact .goes
      (level_parsing ⟨⟨rfl, hres.combined, hres.parse, hres.store⟩, hready⟩ hquits nofun) hs
  rw [if_neg hle, if_neg hle]
  have hcan : canRefill4 .qbz2 b strm' = canRefill4 .qbz2 b strm := by
    unfold canRefill4
    rw [hs.availIn]
  rw [hcan, hs.availIn]
  by_cases h4 : canRefill4 .qbz2 b strm = true
  · rw [if_pos h4, if_pos h4]
    obtain ⟨hbits, hs'⟩ := hs.refill4 (b := b) (canRefill4_iff h4).2.1
    refine ⟨_, _, rfl, rfl, ?_⟩
    rw [hbits]
    exact .goes (here _) hs'
  rw [if_neg h4, if_neg h4]
  by_cases h0 : strm.availIn = 0
  · rw [if_pos h0, if_pos h0]
    exact ⟨_, _, rfl, rfl, .ok (here b) hs⟩
  · rw [if_neg h0, if_neg h0]
    obtain ⟨hbits, hs'⟩ := hs.refill1 (b := b) (Nat.pos_of_ne_zero h0)
    refine ⟨_, _, rfl, rfl, ?_⟩
    rw [hbits]
    exact .goes (here _) hs'

/-- **A step of `BZ2_decompress`**, and what becomes of its return. -/
theorem callStep_parser_level (h : Level d d' (.parser ctl)) (hs : Alongside o o' strm strm') :
    ∃ res res', callStep .qbz2 (d, strm, .parser ctl) = some res ∧
      callStep .qbz2 (d', strm', .parser ctl) = some res' ∧ StepLevel o o' res res' := by
  cases ctl with
  | get l => exact callStep_get_level h hs
  | fast =>
    obtain ⟨st, b, c, c', rfl, rfl⟩ := h.fields
    obtain ⟨hT, -, hst⟩ := h.parser .fast rfl
    obtain ⟨e, e', t, t', ctl, he, he', hl, hs'⟩ := fastDecode_level (b := b) hT hst hs
    unfold callStep decompressStep
    dsimp only
    rw [he, he']
    exact ⟨_, _, rfl, rfl, .goes hl hs'⟩
  | block =>
    obtain ⟨st, b, c, c', rfl, rfl⟩ := h.fields
    obtain ⟨⟨ht, hr⟩, -, hst⟩ := h.parser .block rfl
    have hp : c'.p = c.p := ht.parse nofun
    unfold callStep decompressStep
    dsimp only
    rcases endBlock_twin hp ht.combined hr (ht.store trivial) with
      ⟨-, he, he'⟩ | ⟨e, e', he, he', hB, -⟩
    · rw [he, he']
      exact ⟨_, _, rfl, rfl, returned_failed hst nofun nofun⟩
    · rw [he, he']
      obtain ⟨hSane, hSane'⟩ := hB.sane
      exact ⟨_, _, rfl, rfl, .goes ⟨rfl, rfl, rfl, rfl, nofun, fun _ => ⟨rfl, hSane, hSane',
        ⟨_, _, .refl _ _, .refl _ _, hB⟩⟩⟩ hs⟩
  | ret r =>
    obtain ⟨st, b, c, c', rfl, rfl⟩ := h.fields
    obtain ⟨⟨ht, -⟩, hq, hst⟩ := h.parser (.ret r) rfl
    have hne : r ≠ .ok := fun hr => hq (congrArg Ctl.ret hr)
    -- at the end of a stream bytes are handed back
    cases r with
    | streamEnd =>
      refine ⟨_, _, rfl, rfl, returned_end (ht.parse nofun) ht.combined ?_ hs.out⟩
      show strm'.availIn + _ = strm.availIn + _
      rw [hs.availIn]
    | _ => exact ⟨_, _, rfl, rfl, returned_failed hst hne nofun⟩

/-! ## 5. A drain -/

omit [MtfList μ] [Build] in
/-- Beside each other at the end of the block, both give out the same of it. -/
theorem giving_over {c c' : Core μ} {q q' : Out} (hS : Sane false (c.giving q))
    (hS' : Sane true (c'.giving q'))
    (h : Beside (fun q q' => TwinBlock false true { c with out := q } { c' with out := q' })
      (c.drainer false) (c'.drainer true) [] q q') (hover : c.Over q ∨ c'.Over q') :
    TwinBlock false true { c with out := q } { c' with out := q' } := by
  obtain ⟨a, a', ha, ha', hB⟩ := h
  have hout : TwinOut c.p.nblock c.p.blockRandomised a a' := hB.out
  have hp : c'.p = c.p := hB.parse
  have hlen := hout.len
  have hused := hout.used
  rcases hover with hover | hover
  · obtain rfl := (ha.of_stuck (hover.stuck false [])).2.1
    obtain ⟨h0, hu⟩ := hover
    have ha'' : c'.Over a' := ⟨by omega, by rw [hp]; omega⟩
    obtain rfl := drainer_silent hS' ha' ha''
    exact hB
  · obtain rfl := (ha'.of_stuck (hover.stuck true [])).2.1
    obtain ⟨h0, hu⟩ := hover
    have ha'' : c.Over a := ⟨by omega, by rw [← hp]; omega⟩
    obtain rfl := drainer_silent hS ha ha''
    exact hB

/-- The CRC of a block, where this step comes to its end. -/
def blockCrc (ver : Version) : Place μ → Option Word32
  | (_, _, .parser _) => none
  | (d, strm, .output) =>
    match unRle ver d.small (d.core.env d.small) d.core.out strm with
    | some (false, out, _) =>
      if out.nblockUsed = d.core.p.nblock + 1 ∧ out.stateOutLen = 0 then
        some (~~~out.calculatedBlockCRC)
      else none
    | _ => none

omit [Build] in
/-- How a drain has ended: at the end of the block, corrupt or not, or with more to come and no room
    left. -/
theorem Drained.ends {ver : Version} {small : Bool} {c : Core μ} {t : List Bool} {q : Out}
    {strm : BzStream} {r : Bool × Out × BzStream} {w : List Byte} {q' : Out}
    (h : Drained ver small c t q strm r w q') :
    c.Over q' ∨ r.1 = false ∧ w.length = strm.availOut ∧ r.2.2.availOut = 0 ∧
      ¬(q'.nblockUsed = c.p.nblock + 1 ∧ q'.stateOutLen = 0) := by
  obtain ⟨corrupt, out, strm'⟩ := r
  cases corrupt with
  | true =>
    obtain ⟨h0, hu⟩ := h.corrupt rfl
    exact .inl ⟨h0, by omega⟩
  | false =>
    obtain ⟨-, hg, hend⟩ := h.fine rfl
    have hroom := hg.availOut
    dsimp only at hroom hend
    by_cases he : q'.nblockUsed = c.p.nblock + 1 ∧ q'.stateOutLen = 0
    · exact .inl ⟨he.2, by omega⟩
    · have h0 := hend.resolve_right he
      exact .inr ⟨rfl, by omega, h0, he⟩

section

variable {ver : Version} {d : DState μ} {strm t : BzStream} {out : Out}

/-- A step that finds the block corrupt. -/
theorem callStep_corrupt
    (he : unRle ver d.small (d.core.env d.small) d.core.out strm = some (true, out, t)) :
    callStep ver (d, strm, .output) =
        some (.inr (.dataError, { d with core := { d.core with out } }, t)) ∧
      blockCrc ver (d, strm, .output) = none := by
  unfold blockCrc
  rw [callStep_output]
  dsimp only
  rw [he]
  exact ⟨if_pos rfl, rfl⟩

/-- A step that fills the buffer. -/
theorem callStep_paused
    (he : unRle ver d.small (d.core.env d.small) d.core.out strm = some (false, out, t))
    (hmore : ¬(out.nblockUsed = d.core.p.nblock + 1 ∧ out.stateOutLen = 0)) :
    callStep ver (d, strm, .output) = some (.inr (.ok, { d with core := { d.core with out } }, t)) ∧
      blockCrc ver (d, strm, .output) = none := by
  unfold blockCrc
  rw [callStep_output]
  dsimp only
  rw [he]
  dsimp only
  exact ⟨(if_neg Bool.false_ne_true).trans (if_neg hmore), if_neg hmore⟩

/-- A step that comes to the end of the block. -/
theorem callStep_blockEnd
    (he : unRle ver d.small (d.core.env d.small) d.core.out strm = some (false, out, t))
    (hend : out.nblockUsed = d.core.p.nblock + 1 ∧ out.stateOutLen = 0) {e : Core μ} {ok : Bool}
    (hf : Core.finishBlock { d.core with out } = (e, ok)) :
    callStep ver (d, strm, .output) = some (if ok then
        .inl ({ d with core := e, state := .parsing .blkhdr1 }, t, .parser (.get .blkhdr1))
      else .inr (.dataError, { d with core := e }, t)) ∧
      blockCrc ver (d, strm, .output) = some (~~~out.calculatedBlockCRC) := by
  unfold blockCrc
  rw [callStep_output]
  dsimp only
  rw [he]
  dsimp only
  rw [if_neg Bool.false_ne_true, if_pos hend, hf]
  refine ⟨?_, if_pos hend⟩
  cases ok <;> rfl

end

/-- Two drains side by side, after which the decoders are beside each other again. -/
structure Drains (c c' : Core μ) (strm strm' : BzStream) (r r' : Bool × Out × BzStream)
    (w : List Byte) (q q' : Out) : Prop where
  fast : Drained .qbz2 false c [] c.out strm r w q
  small : Drained .qbz2 true c' [] c'.out strm' r' w q'
  giving : Giving { c with out := q } { c' with out := q' }

section

variable {c c' : Core μ} {q q' out out' : Out} {w : List Byte}

/-- **Both give out the same.** -/
theorem Giving.drains (h : Giving c c') (hroom : strm'.availOut = strm.availOut) :
    ∃ r r' w q q', unRle .qbz2 false (c.env false) c.out strm = some r ∧
      unRle .qbz2 true (c'.env true) c'.out strm' = some r' ∧ Drains c c' strm strm' r r' w q q' := by
  obtain ⟨hS, hS', hB⟩ := h
  obtain ⟨r, w, q, he, hD⟩ := @unRle_sim _ _ _ _ .qbz2 _ [] hS strm
  obtain ⟨r', w', q', he', hD'⟩ := @unRle_sim _ _ _ _ .qbz2 _ [] hS' strm'
  have hw := hD.room
  have hw' := hD'.room
  obtain ⟨rfl, hb⟩ : w' = w ∧ Beside (fun q q' => TwinBlock false true { c with out := q }
      { c' with out := q' }) (c.drainer false) (c'.drainer true) [] q q' := by
    refine hB.run (fun a a' ha => drainer_twin a a' ha) (drainer_steps hD.steps)
      (drainer_steps hD'.steps) (fun hlt => ?_) (fun hlt => ?_)
    · rcases hD.ends with hover | ⟨-, hfull, -⟩
      · exact hover.stuck false []
      · omega
    · rcases hD'.ends with hover | ⟨-, hfull, -⟩
      · exact hover.stuck true []
      · omega
  exact ⟨r, r', w', q, q', he, he', hD, hD', sane_steps hD.steps hS, sane_steps hD'.steps hS', hb⟩

omit [Build] in
/-- At the end of the block in one mode both stand at the same place. -/
theorem Drains.twin {r r' : Bool × Out × BzStream} (h : Drains c c' strm strm' r r' w q q')
    (hover : c.Over q ∨ c'.Over q') :
    TwinOut c.p.nblock c.p.blockRandomised q q' ∧ c'.p = c.p ∧
      TwinBlock false true { c with out := q } { c' with out := q' } := by
  have hT := giving_over h.giving.sane h.giving.sane' h.giving.beside hover
  exact ⟨hT.out, hT.parse, hT⟩

omit [Build] in
/-- Where whole runs meet a corrupt block, so do single bytes, unless there is no room left. -/
theorem Drains.late {r' : Bool × Out × BzStream} (h : Drains c c' strm strm' (true, out, t) r' w q q') :
    r'.1 = true ∨ r'.2.1 = q' ∧ r'.2.2.availOut = 0 ∧ q'.stateOutLen = 0 ∧
      c'.p.nblock + 1 < q'.nblockUsed := by
  obtain ⟨corrupt', out', t'⟩ := r'
  obtain ⟨h0, hu⟩ := h.fast.corrupt rfl
  obtain ⟨hout, hp, -⟩ := h.twin (.inl ⟨h0, by omega⟩)
  have hlen := hout.len
  have hused := hout.used
  cases corrupt' with
  | true => exact .inl rfl
  | false =>
    obtain ⟨hq, -, hend⟩ := h.small.fine rfl
    rw [hp]
    rw [hp] at hend
    exact .inr ⟨hq, hend.resolve_right (by omega), by omega, by omega⟩

omit [Build] in
/-- Where whole runs meet no corrupt block, single bytes do not either. -/
theorem Drains.not_corrupt {r' : Bool × Out × BzStream}
    (h : Drains c c' strm strm' (false, out, t) r' w q q')
    (hroom : strm'.availOut = strm.availOut) : r'.1 = false := by
  obtain ⟨corrupt', out', t'⟩ := r'
  cases corrupt' with
  | false => rfl
  | true =>
    -- there would have been room
    obtain ⟨-, hg, hend⟩ := h.fast.fine rfl
    obtain ⟨h0, hu⟩ := h.small.corrupt rfl
    obtain ⟨hout, hp, -⟩ := h.twin (.inr ⟨h0, by omega⟩)
    have hleft := hg.availOut
    have hused := hout.used
    have hlate := h.small.late rfl rfl
    rw [hp] at hu
    dsimp only at hleft hend
    omega

omit [Build] in
/-- Both come to the end of the block, or neither. -/
theorem Drains.end_iff {r r' : Bool × Out × BzStream} (h : Drains c c' strm strm' r r' w q q') :
    q'.nblockUsed = c'.p.nblock + 1 ∧ q'.stateOutLen = 0 ↔
      q.nblockUsed = c.p.nblock + 1 ∧ q.stateOutLen = 0 := by
  constructor
  · intro hend
    obtain ⟨hout, hp, -⟩ := h.twin (.inr ⟨hend.2, show c'.p.nblock < q'.nblockUsed by omega⟩)
    have hlen := hout.len
    have hused := hout.used
    rw [hp] at hend
    omega
  · intro hend
    obtain ⟨hout, hp, -⟩ := h.twin (.inl ⟨hend.2, show c.p.nblock < q.nblockUsed by omega⟩)
    have hlen := hout.len
    have hused := hout.used
    rw [hp]
    omega

omit [MtfList μ] [Build] in
/-- **The end of the block**, in both modes. -/
theorem finishBlock_level {b : BitBuf}
    (hT : TwinBlock false true { c with out } { c' with out := out' }) (hs : Alongside o o' t t') :
    ∃ e e' ok, Core.finishBlock { c with out } = (e, ok) ∧
      Core.finishBlock { c' with out := out' } = (e', ok) ∧
      StepLevel o o'
        (if ok then .inl (⟨.parsing .blkhdr1, b, e, false⟩, t, .parser (.get .blkhdr1))
          else .inr (.dataError, ⟨.output, b, e, false⟩, t))
        (if ok then .inl (⟨.parsing .blkhdr1, b, e', true⟩, t', .parser (.get .blkhdr1))
          else .inr (.dataError, ⟨.output, b, e', true⟩, t')) := by
  obtain ⟨hok, hcrc, hfp', hfp⟩ := finishBlock_twin hT
  obtain ⟨s, hw, -⟩ := hT.walk
  cases hf : Core.finishBlock { c with out } with
  | mk e ok =>
    cases hf' : Core.finishBlock { c' with out := out' } with
    | mk e' ok' =>
      rw [hf, hf'] at hok hcrc
      rw [hf] at hfp
      rw [hf'] at hfp'
      obtain rfl : ok' = ok := hok
      refine ⟨e, e', ok', rfl, rfl, ?_⟩
      cases ok' with
      | false => exact .failed nofun nofun
      | true =>
        have htwin : Twin Eq false true (e, .get .blkhdr1) (e', .get .blkhdr1) :=
          ⟨rfl, hcrc, fun _ => hfp'.trans hfp.symm, fun hb => hb.elim⟩
        refine .goes (level_parsing ⟨htwin, ?_⟩ nofun nofun) hs
        show BsOk e.p.blockSize100k
        rw [show e.p = c.p from hfp]
        exact hw.bs

end

/-- **A drain**, and what becomes of its return. -/
theorem callStep_output_level (h : Level d d' .output) (hs : Alongside o o' strm strm') :
    ∃ res res', callStep .qbz2 (d, strm, .output) = some res ∧
      callStep .qbz2 (d', strm', .output) = some res' ∧
      blockCrc .qbz2 (d', strm', .output) = blockCrc .qbz2 (d, strm, .output) ∧
      StepLevel o o' res res' := by
  obtain ⟨st, b, c, c', rfl, rfl⟩ := h.fields
  obtain ⟨hst, hG⟩ := h.output rfl
  obtain rfl : st = .output := hst
  obtain ⟨⟨corrupt, out, t⟩, ⟨corrupt', out', t'⟩, w, q, q', he, he', hD⟩ := hG.drains hs.availOut
  cases corrupt with
  | true =>
    obtain ⟨hstep, hno⟩ := callStep_corrupt (d := ⟨.output, b, c, false⟩) he
    rw [hstep, hno]
    cases corrupt' with
    | true =>
      obtain ⟨hstep', hno'⟩ := callStep_corrupt (d := ⟨.output, b, c', true⟩) he'
      rw [hstep', hno']
      exact ⟨_, _, rfl, rfl, rfl, .failed nofun nofun⟩
    | false =>
      obtain ⟨rfl, h0, hlen, hused⟩ := hD.late.resolve_left Bool.false_ne_true
      dsimp only at hused
      obtain ⟨hstep', hno'⟩ := callStep_paused (d := ⟨.output, b, c', true⟩) he'
        (show ¬(out'.nblockUsed = c'.p.nblock + 1 ∧ out'.stateOutLen = 0) by omega)
      rw [hstep', hno']
      exact ⟨_, _, rfl, rfl, rfl, .late ⟨rfl, rfl, hD.giving.sane', hlen, hused⟩ h0⟩
  | false =>
    obtain rfl : corrupt' = false := hD.not_corrupt hs.availOut
    obtain ⟨rfl, hg, -⟩ := hD.fast.fine rfl
    obtain ⟨rfl, hg', -⟩ := hD.small.fine rfl
    dsimp only at hg hg' hD
    by_cases hend : out.nblockUsed = c.p.nblock + 1 ∧ out.stateOutLen = 0
    · obtain ⟨hout, -, hT⟩ := hD.twin (.inl ⟨hend.2, show c.p.nblock < out.nblockUsed by omega⟩)
      obtain ⟨e, e', ok, hf, hf', hl⟩ := finishBlock_level (b := b) hT (hs.gives hg hg')
      obtain ⟨hstep, hcrc⟩ := callStep_blockEnd (d := ⟨.output, b, c, false⟩) he hend hf
      obtain ⟨hstep', hcrc'⟩ := callStep_blockEnd (d := ⟨.output, b, c', true⟩) he'
        (hD.end_iff.mpr hend) hf'
      rw [hstep, hstep', hcrc, hcrc', hout.crc]
      exact ⟨_, _, rfl, rfl, rfl, hl⟩
    · obtain ⟨hstep, hno⟩ := callStep_paused (d := ⟨.output, b, c, false⟩) he hend
      obtain ⟨hstep', hno'⟩ := callStep_paused (d := ⟨.output, b, c', true⟩) he'
        fun h => hend (hD.end_iff.mp h)
      rw [hstep, hstep', hno, hno']
      exact ⟨_, _, rfl, rfl, rfl, .ok ⟨rfl, rfl, rfl, rfl, nofun, fun _ => ⟨rfl, hD.giving⟩⟩
        (hs.gives hg hg')⟩

/-- **A step of a call.** -/
theorem callStep_level {pt : Point} (h : Level d d' pt) (hs : Alongside o o' strm strm') :
    ∃ res res', callStep .qbz2 (d, strm, pt) = some res ∧
      callStep .qbz2 (d', strm', pt) = some res' ∧
      blockCrc .qbz2 (d', strm', pt) = blockCrc .qbz2 (d, strm, pt) ∧ StepLevel o o' res res' := by
  cases pt with
  | parser ctl =>
    obtain ⟨res, res', he, he', hl⟩ := callStep_parser_level h hs
    exact ⟨res, res', he, he', rfl, hl⟩
  | output => exact callStep_output_level h hs

/-! ## 6. A call -/

/-- The CRCs of the blocks the steps of a call come to the end of, and what it returns. -/
inductive CallCrcs (ver : Version) :
    Place μ → List Word32 → Ret × DState μ × BzStream → Prop
  | last {s : Place μ} {res : Ret × DState μ × BzStream} (h : callStep ver s = some (.inr res)) :
      CallCrcs ver s (blockCrc ver s).toList res
  | step {s s' : Place μ} {res : Ret × DState μ × BzStream} {crcs : List Word32}
      (h : callStep ver s = some (.inl s')) (ht : CallCrcs ver s' crcs res) :
      CallCrcs ver s ((blockCrc ver s).toList ++ crcs) res

theorem ComesTo.crcs {ver : Version} {s : Place μ} {res : Ret × DState μ × BzStream}
    (h : ComesTo ver s res) : ∃ crcs, CallCrcs ver s crcs res := by
  obtain ⟨s', hb, he⟩ := h
  induction hb using Relation.ReflTransGen.head_induction_on with
  | refl => exact ⟨_, .last he⟩
  | head hstep _ ih =>
    obtain ⟨crcs, hcrcs⟩ := ih
    exact ⟨_, .step hstep hcrcs⟩

theorem CallCrcs.unique {ver : Version} {s : Place μ} {res res' : Ret × DState μ × BzStream}
    {crcs crcs' : List Word32} (h : CallCrcs ver s crcs res) (h' : CallCrcs ver s crcs' res') :
    crcs' = crcs ∧ res' = res := by
  induction h generalizing crcs' with
  | last h =>
    cases h' with
    | last h' => exact ⟨rfl, Sum.inr.inj (Option.some.inj (h'.symm.trans h))⟩
    | step h' _ => exact nomatch h'.symm.trans h
  | step h _ ih =>
    cases h' with
    | last h' => exact nomatch h'.symm.trans h
    | step h' ht' =>
      obtain rfl := Sum.inl.inj (Option.some.inj (h'.symm.trans h))
      obtain ⟨rfl, rfl⟩ := ih ht'
      exact ⟨rfl, rfl⟩

/-- The steps of a call, side by side. -/
theorem CallCrcs.level {s : Place μ} {crcs : List Word32} {res : Ret × DState μ × BzStream}
    (h : CallCrcs .qbz2 s crcs res) : ∀ {d' : DState μ} {strm' : BzStream}, Level s.1 d' s.2.2 →
    Alongside o o' s.2.1 strm' →
    ∃ res', CallCrcs .qbz2 (d', strm', s.2.2) crcs res' ∧
      StepLevel o o' (.inr res) (.inr res') := by
  induction h with
  | @last s res h =>
    intro d' strm' hl hs
    obtain ⟨r, r', he, he', hcrc, hL⟩ := callStep_level hl hs
    obtain rfl := Option.some.inj (he.symm.trans h)
    rw [← hcrc]
    cases hL with
    | ok hl' hs' => exact ⟨_, .last he', .ok hl' hs'⟩
    | ended hin hout => exact ⟨_, .last he', .ended hin hout⟩
    | failed hok hend => exact ⟨_, .last he', .failed hok hend⟩
    | late hstall h0 => exact ⟨_, .last he', .late hstall h0⟩
  | @step s s₁ res crcs h _ ih =>
    intro d' strm' hl hs
    obtain ⟨r, r', he, he', hcrc, hL⟩ := callStep_level hl hs
    obtain rfl := Option.some.inj (he.symm.trans h)
    rw [← hcrc]
    cases hL with
    | goes hl' hs' =>
      obtain ⟨res', hr, hL'⟩ := ih hl' hs'
      exact ⟨res', .step he' hr, hL'⟩

/-- **A call**, in both modes. -/
theorem call_level (h : Level d d' d.point) (hs : Alongside o o' strm strm')
    {res res' : Ret × DState μ × BzStream} (hc : bzDecompress .qbz2 d strm = some res)
    (hc' : bzDecompress .qbz2 d' strm' = some res') :
    StepLevel o o' (.inr res) (.inr res') ∧ ∃ crcs, CallCrcs .qbz2 (d, strm, d.point) crcs res ∧
      CallCrcs .qbz2 (d', strm', d'.point) crcs res' := by
  have hpt : d'.point = d.point := by
    unfold DState.point
    rw [h.state]
  obtain ⟨crcs, hr⟩ := (bzDecompressLoop_comes _ _ _ _ hc).crcs
  obtain ⟨crcs', hr'⟩ := (bzDecompressLoop_comes _ _ _ _ hc').crcs
  obtain ⟨res₁, hr₁, hL⟩ := hr.level h hs
  rw [hpt] at hr' ⊢
  obtain ⟨rfl, rfl⟩ := hr₁.unique hr'
  exact ⟨hL, _, hr, hr₁⟩

/-- **A corrupt block is noticed as soon as there is room.** -/
theorem Stalled.fails (h : Stalled d) (hroom : 1 ≤ strm.availOut) {res : Ret × DState μ × BzStream}
    (hc : bzDecompress .qbz2 d strm = some res) : res.1 = .dataError := by
  obtain ⟨st, b, c, small⟩ := d
  obtain rfl : small = true := h.small
  obtain rfl : st = .output := h.state
  have hS : Sane true (c, .output) := h.sane
  have hlen : c.out.stateOutLen = 0 := h.len
  have hover : c.p.nblock + 1 < c.out.nblockUsed := h.beyond
  obtain ⟨⟨corrupt, out, t⟩, w, q, he, hD⟩ := @unRle_sim _ _ _ _ .qbz2 _ [] hS strm
  have hstuck : Core.Over c c.out := ⟨hlen, by omega⟩
  obtain ⟨rfl, rfl, -⟩ := (drainer_steps hD.steps).of_stuck (hstuck.stuck true [])
  obtain ⟨crcs, hr⟩ := (bzDecompressLoop_comes _ _ _ _ hc).crcs
  have hstep := callStep_output .qbz2 ⟨.output, b, c, true⟩ strm
  dsimp only at hstep
  rw [he] at hstep
  cases corrupt with
  | true => exact congrArg Prod.fst (hr.unique (.last hstep)).2.symm
  | false =>
    obtain ⟨-, hg, hend⟩ := hD.fine rfl
    have hav := hg.availOut
    have hav' : t.availOut + 0 = strm.availOut := hav
    rcases hend with h0 | ⟨hu, -⟩
    · have h0' : t.availOut = 0 := h0
      omega
    · omega

end

/-! ## 7. Runs -/

/-- The CRCs of the blocks a run has come to the end of. -/
inductive RunCrcs [Build] (ver : Version) (small : Bool) :
    List DecompressCall → DState μ → List Word32 → Prop
  | init : RunCrcs ver small [] (DState.init small) []
  | call {calls : List DecompressCall} {d d' : DState μ} {crcs crcs' : List Word32}
      (h : RunCrcs ver small calls d crcs) (c : DecompressCall)
      (hc : CallCrcs ver (d, c.strm, d.point) crcs' (c.ret, d', c.strm')) :
      RunCrcs ver small (calls ++ [c]) d' (crcs ++ crcs')

end

/-- Both calls are offered the same input and the same room. -/
structure SameOffer (c c' : DecompressCall) : Prop where
  input : c'.strm.input = c.strm.input
  availOut : c'.strm.availOut = c.strm.availOut

/-- Both calls returned the same code, consumed as much and delivered the same. -/
structure Alike (c c' : DecompressCall) : Prop where
  ret : c'.ret = c.ret
  taken : c'.taken = c.taken
  given : c'.given = c.given

theorem bytesAt_inj {m m' : Int → Byte} : ∀ {n : Nat} {a a' : Int},
    bytesAt m' a' n = bytesAt m a n → ∀ i : Nat, i < n → m' (a' + i) = m (a + i) := by
  intro n
  induction n with
  | zero => exact fun _ i hi => absurd hi (Nat.not_lt_zero i)
  | succ n ih =>
    intro a a' h i hi
    obtain ⟨h0, hrest⟩ := List.cons.inj h
    cases i with
    | zero =>
      rw [Int.natCast_zero, Int.add_zero, Int.add_zero]
      exact h0
    | succ i =>
      have hi' := ih hrest i (by omega)
      rw [Int.natCast_succ, Int.add_comm (i : Int) 1, ← Int.add_assoc, ← Int.add_assoc]
      exact hi'

theorem SameOffer.alongside {c c' : DecompressCall} (h : SameOffer c c') :
    Alongside c.strm.out c'.strm.out c.strm c'.strm := by
  have hlen := congrArg List.length h.input
  rw [BzStream.input, BzStream.input, length_bytesAt, length_bytesAt] at hlen
  have hin := h.input
  rw [BzStream.input, BzStream.input, hlen] at hin
  exact ⟨bytesAt_inj hin, hlen, h.availOut, [], (List.append_nil _).symm, (List.append_nil _).symm⟩

/-- Calls that have left the streams alike. -/
theorem SameOffer.alike {c c' : DecompressCall} (h : SameOffer c c') (hret : c'.ret = c.ret)
    (hin : c'.strm'.availIn = c.strm'.availIn)
    (hout : ∃ w, c.strm'.out = c.strm.out ++ w ∧ c'.strm'.out = c'.strm.out ++ w) : Alike c c' := by
  obtain ⟨w, hw, hw'⟩ := hout
  refine ⟨hret, ?_, ?_⟩
  · unfold DecompressCall.taken
    rw [h.alongside.availIn, hin]
  · unfold DecompressCall.given
    rw [hw, hw', List.drop_left, List.drop_left]

variable [Build] {x : List Byte} {calls calls' : List DecompressCall} {d d' : DState FlatMtf}
  {rest rest' : List Byte}

omit [Build] in
theorem getElem?_concat {i : Nat} {c a : DecompressCall} (h : (calls ++ [c])[i]? = some a) :
    calls[i]? = some a ∨ i = calls.length ∧ a = c := by
  by_cases hlt : i < calls.length
  · rw [List.getElem?_append_left hlt] at h
    exact .inl h
  · rw [List.getElem?_append_right (Nat.le_of_not_lt hlt)] at h
    cases hk : i - calls.length with
    | zero =>
      rw [hk] at h
      exact .inr ⟨by omega, (Option.some.inj h).symm⟩
    | succ k =>
      rw [hk] at h
      cases h

omit [Build] in
theorem getElem?_of_take {i j : Nat} {c : DecompressCall} (h : (calls.take i)[j]? = some c) :
    calls[j]? = some c := by
  rw [List.getElem?_take] at h
  split at h
  · exact h
  · cases h

/-- The runs that have made a call have come to it with `BZ_OK`. -/
theorem DecompressRun.at_call {small : Bool} (h : DecompressRun .qbz2 small x calls d rest)
    {i : Nat} {c : DecompressCall} (hi : calls[i]? = some c) :
    ∃ (d₁ d₂ : DState FlatMtf) (rest₁ : List Byte),
      DecompressRun .qbz2 small x (calls.take i) d₁ rest₁ ∧
      (∀ c ∈ calls.take i, c.ret = .ok) ∧
      bzDecompress .qbz2 d₁ c.strm = some (c.ret, d₂, c.strm') ∧
      DecompressRun .qbz2 small x (calls.take (i + 1)) d₂ (rest₁.drop c.taken) ∧
      (c.ret ≠ .ok → i + 1 = calls.length) := by
  induction h with
  | init => cases hi
  | @call calls d d' rest h hok c' hoffer hc ih =>
    rcases getElem?_concat hi with hi | ⟨rfl, rfl⟩
    · have hlt : i < calls.length := (List.getElem?_eq_some_iff.mp hi).1
      obtain ⟨d₁, d₂, rest₁, hrun, hall, hstep, hrun', -⟩ := ih hi
      refine ⟨d₁, d₂, rest₁, ?_, ?_, hstep, ?_, fun hne => ?_⟩
      · rw [List.take_append_of_le_length (Nat.le_of_lt hlt)]
        exact hrun
      · rw [List.take_append_of_le_length (Nat.le_of_lt hlt)]
        exact hall
      · rw [List.take_append_of_le_length hlt]
        exact hrun'
      · exact absurd (hok c (List.mem_of_getElem? hi)) hne
    · refine ⟨d, d', rest, ?_, ?_, hc, ?_, fun _ => ?_⟩
      · rw [List.take_left]
        exact h
      · rw [List.take_left]
        exact hok
      · rw [List.take_of_length_le (by rw [List.length_append, List.length_singleton])]
        exact .call h hok c hoffer hc
      · rw [List.length_append, List.length_singleton]

/-- The calls of a run decide what it leaves. -/
theorem DecompressRun.unique {small : Bool} (h : DecompressRun .qbz2 small x calls d rest)
    (h' : DecompressRun .qbz2 small x calls d' rest') : d' = d := by
  induction h generalizing d' rest' with
  | init =>
    generalize hn : ([] : List DecompressCall) = l at h'
    cases h' with
    | init => rfl
    | call _ _ c _ _ => exact absurd (congrArg List.length hn) (by simp)
  | @call calls d₁ d₂ rest h _ c _ hc ih =>
    generalize hl : calls ++ [c] = l at h'
    cases h' with
    | init => exact absurd (congrArg List.length hl) (by simp)
    | call h₁ _ c₁ _ hc₁ =>
      obtain ⟨rfl, hcc⟩ := List.append_inj' hl rfl
      obtain rfl : c = c₁ := List.cons.inj hcc |>.1
      obtain rfl := ih h₁
      exact congrArg (fun r : Ret × DState FlatMtf × BzStream => r.2.1)
        (Option.some.inj (hc₁.symm.trans hc))

omit [Build] in
/-- Two decoders just set up. -/
theorem level_init : Level (DState.init false : DState FlatMtf) (DState.init true)
    (DState.init false : DState FlatMtf).point :=
  level_parsing (twin_atStart Eq false true) nofun nofun

/-- **Runs of as many calls**, offered the same, none of which reported an error in normal mode. -/
theorem run_level (h : DecompressRun .qbz2 false x calls d rest) :
    ∀ {calls' : List DecompressCall} {d' : DState FlatMtf} {rest' : List Byte},
    DecompressRun .qbz2 true x calls' d' rest' → calls'.length = calls.length →
    (∀ (i : Nat) (c c' : DecompressCall), calls[i]? = some c → calls'[i]? = some c' →
      SameOffer c c') →
    (∀ c ∈ calls, c.ret = .ok ∨ c.ret = .streamEnd) →
    ((∀ c ∈ calls, c.ret = .ok) → Level d d' d.point) ∧
    (∀ (i : Nat) (c c' : DecompressCall), calls[i]? = some c → calls'[i]? = some c' → Alike c c') ∧
      ∃ crcs, RunCrcs .qbz2 false calls d crcs ∧ RunCrcs .qbz2 true calls' d' crcs := by
  induction h with
  | init =>
    intro calls' d' rest' h' hlen _ _
    obtain rfl := List.length_eq_zero_iff.mp hlen
    have hnil : DecompressRun .qbz2 true x [] (DState.init true : DState FlatMtf) x := .init
    have hd : d' = DState.init true := hnil.unique h'
    rw [hd]
    refine ⟨fun _ => level_init, fun i c c' hi _ => ?_, [], .init, .init⟩
    rw [List.getElem?_nil] at hi
    cases hi
  | @call calls d d₁ rest h hprev c hoffer hc ih =>
    intro calls' d₁' rest' h' hlen hsame hall
    cases h' with
    | init => simp at hlen
    | @call calls' d' _ rest' h' _ c' hoffer' hc' =>
      have hlen' : calls'.length = calls.length := by simpa using hlen
      obtain ⟨hl, halike, crcs, hr, hr'⟩ := ih h' hlen'
        (fun i a a' hi hi' => hsame i a a'
          (by rw [List.getElem?_append_left (List.getElem?_eq_some_iff.mp hi).1, hi])
          (by rw [List.getElem?_append_left (List.getElem?_eq_some_iff.mp hi').1, hi']))
        (fun a ha => .inl (hprev a ha))
      have hoff : SameOffer c c' := hsame calls.length c c' List.getElem?_concat_length
        (by rw [← hlen']; exact List.getElem?_concat_length)
      have hret := hall c (List.mem_append_right _ List.mem_cons_self)
      obtain ⟨hL, crcs₁, hk, hk'⟩ := call_level (hl hprev) hoff.alongside hc hc'
      -- the last call
      have hlast : Alike c c' ∧ (c.ret = .ok → Level d₁ d₁' d₁.point) := by
        rcases hL.inv with ⟨h1, h2, hlev, hs⟩ | ⟨h1, h2, hin, hout⟩ | ⟨hok, hend, -⟩ | ⟨h1, -⟩
        · exact ⟨hoff.alike (h2.trans h1.symm) hs.availIn hs.out, fun _ => hlev⟩
        · exact ⟨hoff.alike (h2.trans h1.symm) hin hout, fun h => nomatch h1.symm.trans h⟩
        · exact absurd hret (not_or.mpr ⟨hok, hend⟩)
        · rcases hret with h | h <;> exact nomatch h1.symm.trans h
      refine ⟨fun hok => hlast.2 (hok c (List.mem_append_right _ List.mem_cons_self)),
        fun i a a' hi hi' => ?_, _, .call hr c hk, .call hr' c' hk'⟩
      rcases getElem?_concat hi with hi | ⟨rfl, rfl⟩
      · rcases getElem?_concat hi' with hi' | ⟨rfl, rfl⟩
        · exact halike i a a' hi hi'
        · exact absurd (List.getElem?_eq_some_iff.mp hi).1 (by omega)
      · rcases getElem?_concat hi' with hi' | ⟨-, rfl⟩
        · exact absurd (List.getElem?_eq_some_iff.mp hi').1 (by omega)
        · exact hlast.1

omit [Build] in
/-- Where one machine cannot go on, its twin cannot, for the same reason. -/
theorem TwinState.stuck {y y' : Core FlatMtf × Point} {u : List Bool}
    (hy : TwinState Eq false true y y') (hk : Stuck (bitDecoder .qbz2 false) y u) :
    Stuck (bitDecoder .qbz2 true) y' u ∧
      verdict (bitDecoder .qbz2 true y') = verdict (bitDecoder .qbz2 false y) := by
  have hnode := bitDecoder_twin mtfSim_eq .qbz2 .qbz2 y y' hy
  cases hk with
  | halted hM =>
    rw [hM] at hnode ⊢
    cases hM' : bitDecoder .qbz2 true y' with
    | halt r' =>
      rw [hM'] at hnode
      exact ⟨.halted hM', congrArg _ (congrArg Node.halt (Eq.symm hnode))⟩
    | _ =>
      rw [hM'] at hnode
      exact hnode.elim
  | starved hM hn =>
    rw [hM] at hnode ⊢
    cases hM' : bitDecoder .qbz2 true y' with
    | read n' k' =>
      rw [hM'] at hnode
      obtain ⟨rfl, -⟩ := hnode
      exact ⟨.starved hM' hn, rfl⟩
    | _ =>
      rw [hM'] at hnode
      exact hnode.elim

/-- **Both modes come to the same end**, whatever they are offered. -/
theorem modes_verdict (h : DecompressRun .qbz2 false x calls d rest)
    (h' : DecompressRun .qbz2 true x calls' d' rest') (hfin : Finished .qbz2 calls d rest)
    (hfin' : Finished .qbz2 calls' d' rest') : lastRet calls' = lastRet calls := by
  obtain ⟨w, y, u, hs, hk, hret, -⟩ := finished_stuck .qbz2 h hfin
  obtain ⟨w', y', u', hs', hk', hret', -⟩ := finished_stuck .qbz2 h' hfin'
  obtain ⟨y'', hs'', hy⟩ := hs.simulate (bitDecoder_twin mtfSim_eq .qbz2 .qbz2)
    (twin_atStart Eq false true)
  obtain ⟨hk'', hverdict⟩ := hy.stuck hk
  obtain ⟨-, rfl, -⟩ := hs''.unique hk'' hs' hk'
  rw [hret, hret', hverdict]

/-- The `i`-th call of a run in small mode has filled the buffer with the end of a block whose last
    run count lies behind the end of the block. -/
def LateAt (x : List Byte) (calls : List DecompressCall) (i : Nat) : Prop :=
  ∃ (c : DecompressCall) (d : DState FlatMtf) (rest : List Byte), calls[i]? = some c ∧ c.ret = .ok ∧
    c.strm'.availOut = 0 ∧ DecompressRun .qbz2 true x (calls.take (i + 1)) d rest ∧
    d.state = .output ∧ d.core.out.stateOutLen = 0 ∧ d.core.p.nblock + 1 < d.core.out.nblockUsed

/-- **A call of both runs.** -/
theorem calls_level (h : DecompressRun .qbz2 false x calls d rest)
    (h' : DecompressRun .qbz2 true x calls' d' rest')
    (hsame : ∀ (i : Nat) (c c' : DecompressCall), calls[i]? = some c → calls'[i]? = some c' →
      SameOffer c c') {i : Nat} {c c' : DecompressCall} (hi : calls[i]? = some c)
    (hi' : calls'[i]? = some c') :
    (c.ret = .ok ∨ c.ret = .streamEnd) ∧ Alike c c' ∨
    (c.ret ≠ .ok ∧ c.ret ≠ .streamEnd) ∧ (c'.ret = c.ret ∨ c.ret = .dataError ∧ LateAt x calls' i ∧
      ∀ c'', calls'[i + 1]? = some c'' → 1 ≤ c''.strm.availOut → c''.ret = .dataError) := by
  have hoff := hsame i c c' hi hi'
  have hlt := (List.getElem?_eq_some_iff.mp hi).1
  have hlt' := (List.getElem?_eq_some_iff.mp hi').1
  obtain ⟨d₁, d₂, rest₁, hrun, hok, hc, -, -⟩ := h.at_call hi
  obtain ⟨d₁', d₂', rest₁', hrun', -, hc', hrun'', -⟩ := h'.at_call hi'
  obtain ⟨hl, -, -⟩ := run_level hrun hrun' (by rw [List.length_take, List.length_take]; omega)
    (fun j a a' hj hj' => hsame j a a' (getElem?_of_take hj) (getElem?_of_take hj'))
    (fun a ha => .inl (hok a ha))
  obtain ⟨hL, -⟩ := call_level (hl hok) hoff.alongside hc hc'
  rcases hL.inv with ⟨h1, h2, -, hs⟩ | ⟨h1, h2, hin, hout⟩ | ⟨hne, hend, heq⟩ | ⟨h1, h2, hstall, h0⟩
  · exact .inl ⟨.inl h1, hoff.alike (h2.trans h1.symm) hs.availIn hs.out⟩
  · exact .inl ⟨.inr h1, hoff.alike (h2.trans h1.symm) hin hout⟩
  · exact .inr ⟨⟨hne, hend⟩, .inl heq⟩
  · refine .inr ⟨by rw [h1]; exact ⟨nofun, nofun⟩, .inr ⟨h1, ⟨c', d₂', _, hi', h2, h0, hrun'',
      hstall.state, hstall.len, hstall.beyond⟩, fun c'' hi'' hroom => ?_⟩⟩
    obtain ⟨e, e', rest₂, hrun₂, -, hc₂, -⟩ := h'.at_call hi''
    obtain rfl := hrun''.unique hrun₂
    exact hstall.fails hroom hc₂

/-- The code of a run is that of its last call. -/
theorem DecompressRun.lastRet_at {small : Bool} (h : DecompressRun .qbz2 small x calls d rest)
    {i : Nat} {c : DecompressCall} (hi : calls[i]? = some c) :
    (i + 1 = calls.length → lastRet calls = c.ret) ∧ (i + 1 < calls.length → c.ret = .ok) := by
  refine ⟨fun hlast => ?_, fun hlt => ?_⟩
  · unfold lastRet
    rw [List.getLast?_eq_getElem?, show calls.length - 1 = i by omega, hi]
  · obtain ⟨-, -, -, -, -, -, -, hne⟩ := h.at_call hi
    by_contra hret
    have := hne hret
    omega

/-- **Normal and small-memory decompression agree.** For every input, valid or not, and every two
    runs of which the calls are offered the same input and as much room, one byte at least in small
    mode: to their ends they come with the same code. If the run in normal mode has reported no error,
    all calls did the same in both, and the CRCs of the blocks were the same. If it has, all calls
    before did the same, and the call that reported it reports the same error in small mode, or it
    fills the buffer with the end of a block whose last run count lies behind it, and the next one
    reports the error. -/
theorem modes_agree (h : DecompressRun .qbz2 false x calls d rest)
    (h' : DecompressRun .qbz2 true x calls' d' rest')
    (hsame : ∀ (i : Nat) (c c' : DecompressCall), calls[i]? = some c → calls'[i]? = some c' →
      SameOffer c c') (hroom : ∀ c ∈ calls', 1 ≤ c.strm.availOut) :
    (Finished .qbz2 calls d rest → Finished .qbz2 calls' d' rest' →
      lastRet calls' = lastRet calls) ∧
    (lastRet calls = .ok ∨ lastRet calls = .streamEnd →
      (∀ (i : Nat) (c c' : DecompressCall), calls[i]? = some c → calls'[i]? = some c' →
        Alike c c') ∧
      (lastRet calls = .streamEnd → calls'.length ≤ calls.length) ∧
      (calls'.length = calls.length →
        ∃ crcs, RunCrcs .qbz2 false calls d crcs ∧ RunCrcs .qbz2 true calls' d' crcs)) ∧
    (lastRet calls ≠ .ok → lastRet calls ≠ .streamEnd →
      ∃ n, calls.length = n + 1 ∧
        (∀ (i : Nat) (c c' : DecompressCall), i < n → calls[i]? = some c → calls'[i]? = some c' →
          Alike c c') ∧
        ∀ c', calls'[n]? = some c' →
          c'.ret = lastRet calls ∧ calls'.length = n + 1 ∨
          LateAt x calls' n ∧ calls'.length ≤ n + 2 ∧
            ∀ c'', calls'[n + 1]? = some c'' → c''.ret = lastRet calls) := by
  refine ⟨modes_verdict h h', fun hdoc => ?_, fun hne hend => ?_⟩
  · have hall : ∀ c ∈ calls, c.ret = .ok ∨ c.ret = .streamEnd := by
      intro c hc
      obtain ⟨i, hlt, hi⟩ := List.getElem_of_mem hc
      have hi' : calls[i]? = some c := by rw [List.getElem?_eq_getElem hlt, hi]
      obtain ⟨hlast, hprev⟩ := h.lastRet_at hi'
      by_cases hi : i + 1 = calls.length
      · rw [← hlast hi]
        exact hdoc
      · exact .inl (hprev (by omega))
    refine ⟨fun i c c' hi hi' => ?_, fun hend => ?_, fun hlen => ?_⟩
    · rcases calls_level h h' hsame hi hi' with ⟨-, halike⟩ | ⟨hne, -⟩
      · exact halike
      · exact absurd (hall c (List.mem_of_getElem? hi)) (not_or.mpr hne)
    · -- a further call would follow one that returned `BZ_STREAM_END`
      by_contra hlt
      have hpos : 0 < calls.length := by
        rw [List.length_pos_iff]
        rintro rfl
        cases hend
      have hi := List.getElem?_eq_getElem (show calls.length - 1 < calls.length by omega)
      have hi' := List.getElem?_eq_getElem (show calls.length - 1 < calls'.length by omega)
      have hret := (h.lastRet_at hi).1 (by omega)
      have hret' := (h'.lastRet_at hi').2 (by omega)
      rcases calls_level h h' hsame hi hi' with ⟨-, halike⟩ | ⟨hne, -⟩
      · rw [halike.ret, ← hret, hend] at hret'
        cases hret'
      · rw [← hret] at hne
        exact hne.2 hend
    · exact (run_level h h' hlen hsame hall).2.2
  · cases hlen : calls.length with
    | zero =>
      obtain rfl := List.length_eq_zero_iff.mp hlen
      exact absurd rfl hne
    | succ n =>
      refine ⟨n, rfl, fun i c c' hin hi hi' => ?_, fun c' hi' => ?_⟩
      · have hok := (h.lastRet_at hi).2 (by omega)
        rcases calls_level h h' hsame hi hi' with ⟨-, halike⟩ | ⟨⟨hc, -⟩, -⟩
        · exact halike
        · exact absurd hok hc
      · have hi := List.getElem?_eq_getElem (show n < calls.length by omega)
        have hret := (h.lastRet_at hi).1 hlen.symm
        have hlt' := (List.getElem?_eq_some_iff.mp hi').1
        rw [hret] at hne hend
        rcases calls_level h h' hsame hi hi' with ⟨hdoc, -⟩ | ⟨-, heq | ⟨hdata, hlate, hnext⟩⟩
        · exact absurd hdoc (not_or.mpr ⟨hne, hend⟩)
        · left
          obtain ⟨-, -, -, -, -, -, -, hlast⟩ := h'.at_call hi'
          exact ⟨heq.trans hret.symm, (hlast (by rw [heq]; exact hne)).symm⟩
        · right
          have hnext' : ∀ c'', calls'[n + 1]? = some c'' → c''.ret = .dataError := fun c'' hi'' =>
            hnext c'' hi'' (hroom c'' (List.mem_of_getElem? hi''))
          refine ⟨hlate, ?_, fun c'' hi'' => by rw [hret, hdata, hnext' c'' hi'']⟩
          by_contra hlong
          have hi'' := List.getElem?_eq_getElem (show n + 1 < calls'.length by omega)
          obtain ⟨-, -, -, -, -, -, -, hlast⟩ := h'.at_call hi''
          have := hlast (by rw [hnext' _ hi'']; exact nofun)
          omega

omit [Build] in
/-- The stream of one byte, in both modes. -/
theorem modes_agree_oneByte : ∃ (c c' : DecompressCall) (d d' : DState FlatMtf)
    (rest rest' : List Byte) (crcs : List Word32),
    @DecompressRun _ _ sortingEnv.toBuild .qbz2 false oneByteFile [c] d rest ∧
    @DecompressRun _ _ sortingEnv.toBuild .qbz2 true oneByteFile [c'] d' rest' ∧
    c.strm'.out = [0x61] ∧ Alike c c' ∧ c'.ret = .streamEnd ∧
    @RunCrcs _ _ sortingEnv.toBuild .qbz2 false [c] d crcs ∧
    @RunCrcs _ _ sortingEnv.toBuild .qbz2 true [c'] d' crcs := by
  let _ : CompressEnv := sortingEnv
  obtain ⟨d, s, rest, h, hout⟩ := oneByte_decoded false
  obtain ⟨d', s', rest', h', -⟩ := oneByte_decoded true
  have hsame : ∀ (i : Nat) (c c' : DecompressCall),
      ([⟨offeringTwo oneByteFile, .streamEnd, s⟩] : List DecompressCall)[i]? = some c →
      ([⟨offeringTwo oneByteFile, .streamEnd, s'⟩] : List DecompressCall)[i]? = some c' →
      SameOffer c c' := by
    intro i c c' hi hi'
    rw [List.mem_singleton.mp (List.mem_of_getElem? hi),
      List.mem_singleton.mp (List.mem_of_getElem? hi')]
    exact ⟨rfl, rfl⟩
  have hroom : ∀ c ∈ ([⟨offeringTwo oneByteFile, .streamEnd, s'⟩] : List DecompressCall),
      1 ≤ c.strm.availOut := by
    intro c hc
    rw [List.mem_singleton.mp hc]
    exact show 1 ≤ 2 by decide
  obtain ⟨-, hdoc, -⟩ := modes_agree h h' hsame hroom
  obtain ⟨halike, -, hcrcs⟩ := hdoc (.inr rfl)
  obtain ⟨crcs, hn, hs⟩ := hcrcs rfl
  exact ⟨_, _, d, d', rest, rest', crcs, h, h', hout, halike 0 _ _ rfl rfl, rfl, hn, hs⟩

end Qbz2
