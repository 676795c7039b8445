/-
  File:      Qbz2/Decompress/Calls.lean
  Subject:   A call of `BZ2_bzDecompress` as a run of the machine on the bits at hand.

  * `ParseEnds` -- how `BZ2_decompress` returns, and where the machine stands then;
  * `decompress_sim` -- it always returns, and its steps are steps of the machine;
  * `CallEnds` -- how a call returns; **`bzDecompress_sim`** -- a call always returns, what it gives
    out is what the machine emits, and where it returns `BZ_OK` with room left, the machine is
    starved of bits.
-/
import Qbz2.Decompress.Drain

namespace Qbz2

open Transducer

section

variable {μ : Type} [MtfList μ]

/-! ## 1. Progress -/

theorem getMtfLoop_live (g : HuffTables) {r : Option Int} {b' : BitBuf} :
    ∀ (fuel : Nat) (zn zvec : Int) (b : BitBuf), getMtfLoop g fuel zn zvec b = some (r, b') →
      b'.bsLive ≤ b.bsLive := by
  intro fuel
  induction fuel with
  | zero => exact fun _ _ _ h => nomatch h
  | succ fuel ih =>
    intro zn zvec b h
    unfold getMtfLoop at h
    cases hm : mtfVal g zn zvec with
    | error =>
      rw [hm] at h
      cases h
      exact Nat.le_refl _
    | symbol sym =>
      rw [hm] at h
      cases h
      exact Nat.le_refl _
    | more =>
      rw [hm] at h
      dsimp only at h
      unfold BitBuf.getBits at h
      split at h
      · exact Nat.le_trans (ih _ _ _ h) (Nat.sub_le _ _)
      · cases h

/-- A symbol takes at least one bit. -/
theorem getMtfVal_live {n : Nat} {g : HuffTables} (hg : GroupOk n g) {r : Option Int}
    {b b' : BitBuf} (h : getMtfVal g b = some (r, b')) : b'.bsLive < b.bsLive := by
  have hmin := hg.minLen_range
  unfold getMtfVal BitBuf.getBits at h
  split at h
  · rename_i hle
    have := getMtfLoop_live g _ _ _ _ h
    dsimp only [BitBuf.skip] at this
    omega
  · cases h

/-- What is left to do: bits, bytes to be read, and the one step that takes neither. -/
def workLeft (d : DState μ) (strm : BzStream) (ctl : Ctl) : Nat :=
  3 * bitsAvail d strm + strm.availIn + if ctl = .fast then 1 else 0

theorem beginVal_ctl (p : Parse) (site : MtfSite) : (p.beginVal site).2.2 ≠ .fast := by
  unfold Parse.beginVal
  split
  · dsimp only
    split <;> exact nofun
  · exact nofun

theorem fastDecode_less (ver : Version) {d : DState μ} {strm : BzStream} (hi : Fits ver d .fast) :
    workLeft (fastDecode ver d strm).1 (fastDecode ver d strm).2.1 (fastDecode ver d strm).2.2 <
      workLeft d strm .fast := by
  obtain ⟨⟨hb, hc⟩, hlive⟩ := hi
  have hfast : (if Ctl.fast = .fast then 1 else 0) = 1 := rfl
  -- without the table
  have slow : ∀ (bits : BitBuf) (strm' : BzStream),
      3 * (bits.bsLive + 8 * strm'.availIn) + strm'.availIn ≤
        3 * (d.bits.bsLive + 8 * strm.availIn) + strm.availIn →
      workLeft { d with bits, core := (d.core.absorb d.small (d.core.p.beginVal .literal)).1 } strm'
        (d.core.absorb d.small (d.core.p.beginVal .literal)).2 < workLeft d strm .fast := by
    intro bits strm' h
    unfold workLeft bitsAvail
    rw [hfast, if_neg (show (d.core.absorb d.small (d.core.p.beginVal .literal)).2 ≠ .fast from
      beginVal_ctl _ _)]
    dsimp only
    omega
  cases ver with
  | reference => exact slow d.bits strm (Nat.le_refl _)
  | qbz2 =>
    unfold fastDecode
    dsimp only
    by_cases hpos : d.core.p.groupPos > 0
    · rw [if_pos hpos]
      obtain ⟨bits, strm', he, hwork⟩ : ∃ (bits : BitBuf) (strm' : BzStream),
          (if canRefill4 .qbz2 d.bits strm = true then refill4 d.bits strm else (d.bits, strm)) =
            (bits, strm') ∧ 3 * (bits.bsLive + 8 * strm'.availIn) + strm'.availIn ≤
              3 * (d.bits.bsLive + 8 * strm.availIn) + strm.availIn := by
        by_cases hcan : canRefill4 .qbz2 d.bits strm = true
        · obtain ⟨-, h4, -⟩ := canRefill4_iff hcan
          refine ⟨_, _, if_pos hcan, ?_⟩
          show 3 * (d.bits.bsLive + 32 + 8 * (strm.availIn - 4)) + (strm.availIn - 4) ≤ _
          omega
        · exact ⟨_, _, if_neg hcan, Nat.le_refl _⟩
      rw [he]
      dsimp only
      by_cases h11 : bits.bsLive ≥ bzDecodeTableBits
      · rw [if_pos h11]
        cases hlook : tableLookup d.core.p.group bits with
        | none => exact slow bits strm' hwork
        | some hit =>
          obtain ⟨sym, k⟩ := hit
          have hg := CurOk.group hb hc
          obtain ⟨hval, hk⟩ := tableLookup_getMtfVal hg h11 hlook
          have hless := getMtfVal_live hg hval
          dsimp only [BitBuf.skip] at hless
          unfold workLeft bitsAvail
          rw [hfast]
          dsimp only [BitBuf.skip]
          split <;> omega
      · rw [if_neg h11]
        exact slow bits strm' hwork
    · rw [if_neg hpos]
      exact slow d.bits strm (Nat.le_refl _)

/-- **A step that goes on leaves less to do.** -/
theorem decompressStep_less (ver : Version) {d d' : DState μ} {strm strm' : BzStream}
    {ctl ctl' : Ctl} (hi : Fits ver d ctl)
    (h : decompressStep ver (d, strm, ctl) = some (.inl (d', strm', ctl'))) :
    workLeft d' strm' ctl' < workLeft d strm ctl := by
  cases ctl with
  | get l =>
    obtain ⟨hn1, -⟩ := nbits_range hi.ready
    have hget : (if Ctl.get l = .fast then 1 else 0) = 0 := rfl
    unfold decompressStep at h
    dsimp only at h
    split at h
    · rename_i hle
      cases h
      unfold workLeft bitsAvail
      rw [hget]
      dsimp only [BitBuf.skip]
      split <;> omega
    · split at h
      · rename_i hcan
        obtain ⟨rfl, h4, -⟩ := canRefill4_iff hcan
        cases h
        unfold workLeft bitsAvail
        rw [hget]
        show 3 * (d.bits.bsLive + 32 + 8 * (strm.availIn - 4)) + (strm.availIn - 4) + 0 < _
        omega
      · split at h
        · cases h
        · rename_i hne
          cases h
          unfold workLeft bitsAvail
          rw [hget]
          show 3 * (d.bits.bsLive + 8 + 8 * (strm.availIn - 1)) + (strm.availIn - 1) + 0 < _
          omega
  | fast =>
    unfold decompressStep at h
    obtain ⟨rfl, rfl, rfl⟩ : (fastDecode ver d strm).1 = d' ∧ (fastDecode ver d strm).2.1 = strm' ∧
        (fastDecode ver d strm).2.2 = ctl' := by
      have h' := Sum.inl.inj (Option.some.inj h)
      rw [h']
      exact ⟨rfl, rfl, rfl⟩
    exact fastDecode_less ver hi
  | block =>
    unfold decompressStep at h
    dsimp only at h
    cases he : d.core.endBlock d.small with
    | none =>
      rw [he] at h
      cases h
    | some r =>
      obtain ⟨core, r⟩ := r
      rw [he] at h
      cases r <;> cases h
  | ret r => cases r <;> cases h

/-! ## 2. `BZ2_decompress` -/

/-- **How `BZ2_decompress` returns**: the code, the decoder, the stream, and the machine with its
    tape. -/
inductive ParseEnds (ver : Version) (small : Bool) (strm : BzStream) :
    Ret → DState μ → BzStream → Core μ × Point → List Bool → Prop
  | starved {d : DState μ} {strm' : BzStream} {l : Label} (hr : Reads strm strm')
      (hle : strm'.availIn ≤ strm.availIn) (hst : d.state = .parsing l) (h0 : strm'.availIn = 0)
      (hlt : d.bits.bsLive < l.nbits) :
      ParseEnds ver small strm .ok d strm' (d.core, .parser (.get l)) (tape d.bits strm')
  | output {d : DState μ} {strm' : BzStream} (hr : Reads strm strm')
      (hle : strm'.availIn ≤ strm.availIn) (hst : d.state = .output) :
      ParseEnds ver small strm .ok d strm' (d.core, .output) (tape d.bits strm')
  | failed {r : Ret} {d : DState μ} {strm' : BzStream} {x : Core μ × Point} {u : List Bool}
      (hr : Reads strm strm') (hh : bitDecoder ver small x = .halt r) (hok : r ≠ .ok)
      (hend : r ≠ .streamEnd) (hst : d.state ≠ .output) (hpt : x.2 ≠ .output) :
      ParseEnds ver small strm r d strm' x u
  | ended {d d' : DState μ} {strm₁ strm' : BzStream} (hr : Reads strm strm₁)
      (hle : strm₁.availIn ≤ strm.availIn)
      (hgive : giveBack ver { d with state := .idle } strm₁ = (d', strm')) :
      ParseEnds ver small strm .streamEnd d' strm' (d.core, .parser (.ret .streamEnd))
        (tape d.bits strm₁)

theorem ParseEnds.after {ver : Version} {small : Bool} {strm strm₁ strm' : BzStream} {r : Ret}
    {d : DState μ} {x : Core μ × Point} {u : List Bool} (hr : Reads strm strm₁)
    (hle : strm₁.availIn ≤ strm.availIn) (h : ParseEnds ver small strm₁ r d strm' x u) :
    ParseEnds ver small strm r d strm' x u := by
  cases h with
  | starved hr' hle' hst h0 hlt => exact .starved (hr.trans hr') (Nat.le_trans hle' hle) hst h0 hlt
  | output hr' hle' hst => exact .output (hr.trans hr') (Nat.le_trans hle' hle) hst
  | failed hr' hh hok hend hst hpt => exact .failed (hr.trans hr') hh hok hend hst hpt
  | ended hr' hle' hgive => exact .ended (hr.trans hr') (Nat.le_trans hle' hle) hgive

/-- How many bits there are to be read, at least, before the end of the stream. -/
def Label.ahead : Label → Nat
  | .endhdr2 => 72
  | .endhdr3 => 64
  | .endhdr4 => 56
  | .endhdr5 => 48
  | .endhdr6 => 40
  | .ccrc1 => 32
  | .ccrc2 => 24
  | .ccrc3 => 16
  | .ccrc4 => 8
  | _ => 80

def Ctl.ahead : Ctl → Nat
  | .get l => l.ahead
  | .ret .streamEnd => 0
  | _ => 80

/-- The parser never returns the code of a call that may go on. -/
def Ctl.Quits (ctl : Ctl) : Prop := ctl ≠ .ret .ok

/-- A stretch that stays before the trailer of the stream. -/
def Inner (r : Parsed) : Prop := r.2.2.ahead = 80 ∧ r.2.2.Quits

section

variable (p : Parse) (ver : Version)

theorem inner_beginVal (site : MtfSite) : Inner (p.beginVal site) := by
  unfold Parse.beginVal
  split
  · dsimp only
    split <;> exact ⟨rfl, nofun⟩
  · exact ⟨rfl, nofun⟩

theorem inner_runStep : Inner p.runStep := by
  unfold Parse.runStep
  split
  · exact ⟨rfl, nofun⟩
  · exact inner_beginVal _ _

theorem inner_symbol : Inner p.symbol := by
  unfold Parse.symbol
  split
  · exact ⟨rfl, nofun⟩
  · split
    · exact inner_runStep _
    · split <;> exact ⟨rfl, nofun⟩

theorem inner_endRun : Inner (p.endRun ver) := by
  unfold Parse.endRun
  cases ver with
  | qbz2 =>
    dsimp only
    split
    · exact ⟨rfl, nofun⟩
    · exact inner_symbol _
  | reference =>
    dsimp only
    split
    · exact inner_symbol _
    · exact ⟨rfl, nofun⟩

theorem inner_mtf (site : MtfSite) (zn zvec : Int) : Inner (p.mtf ver site zn zvec) := by
  unfold Parse.mtf
  split
  · exact ⟨rfl, nofun⟩
  · unfold Parse.value
    cases site with
    | first => exact inner_symbol _
    | literal => exact inner_symbol _
    | run =>
      dsimp only
      split
      · exact inner_runStep _
      · exact inner_endRun _ _
  · exact ⟨rfl, nofun⟩

theorem inner_codingFrom : Inner p.codingFrom := by
  unfold Parse.codingFrom
  split <;> exact ⟨rfl, nofun⟩

theorem inner_endLength : Inner p.endLength := by
  unfold Parse.endLength
  dsimp only
  split
  · exact inner_codingFrom _
  · split
    · exact ⟨rfl, nofun⟩
    · unfold Parse.startMtf
      exact inner_beginVal _ _

theorem inner_mappingFrom (i : Nat) : Inner (p.mappingFrom i) := by
  unfold Parse.mappingFrom
  dsimp only
  split
  · exact ⟨rfl, nofun⟩
  · split <;> exact ⟨rfl, nofun⟩

theorem inner_endSelector : Inner p.endSelector := by
  unfold Parse.endSelector
  dsimp only
  split <;> exact ⟨rfl, nofun⟩

/-- **Every label is as far from the end of the stream as `ahead` says.** -/
theorem resume_ahead (l : Label) (v : Nat) :
    l.ahead ≤ (p.resume ver l v).2.2.ahead + l.nbits ∧ (p.resume ver l v).2.2.Quits := by
  have h80 : l.ahead ≤ 80 := by cases l <;> exact Nat.le_of_ble_eq_true rfl
  have inner : ∀ {r : Parsed}, Inner r → l.ahead ≤ r.2.2.ahead + l.nbits ∧ r.2.2.Quits := by
    intro r h
    refine ⟨?_, h.2⟩
    rw [h.1]
    omega
  have goto : ∀ {q : Parse} {l' : Label}, l.ahead ≤ l'.ahead + l.nbits →
      l.ahead ≤ (q.goto l').2.2.ahead + l.nbits ∧ (q.goto l').2.2.Quits := fun h => ⟨h, nofun⟩
  have expect : ∀ {w k : Nat} {r : Ret} {l' : Label}, l.ahead ≤ l'.ahead + l.nbits → r ≠ .ok →
      r ≠ .streamEnd →
      l.ahead ≤ (p.expect w k r l').2.2.ahead + l.nbits ∧ (p.expect w k r l').2.2.Quits := by
    intro w k r l' hl hok hend
    unfold Parse.expect
    split
    · refine inner ⟨?_, fun h => hok (Ctl.ret.inj h)⟩
      cases r <;> first | rfl | exact absurd rfl hend
    · exact goto hl
  cases l with
  | mtf site zn => exact inner (inner_mtf _ _ _ _ _)
  | mtfNext site zn zvec => exact inner (inner_mtf _ _ _ _ _)
  | mapping1 =>
    unfold Parse.resume
    dsimp only
    split
    · exact goto (by decide)
    · exact inner (inner_mappingFrom _ _)
  | mapping2 =>
    unfold Parse.resume
    dsimp only
    split
    · exact goto (by decide)
    · exact inner (inner_mappingFrom _ _)
  | selector3 =>
    unfold Parse.resume
    dsimp only
    split
    · exact inner (inner_endSelector _)
    · split
      · exact inner ⟨rfl, nofun⟩
      · exact goto (by decide)
  | coding1 => exact inner (inner_codingFrom _)
  | coding2 =>
    unfold Parse.resume
    dsimp only
    split
    · exact inner (inner_endLength _)
    · exact goto (by decide)
  | coding3 => exact inner (inner_codingFrom _)
  | blkhdr1 =>
    unfold Parse.resume
    dsimp only
    split
    · exact goto (by decide)
    · exact expect (by decide) nofun nofun
  | magic1 => exact expect (by decide) nofun nofun
  | magic2 => exact expect (by decide) nofun nofun
  | magic3 => exact expect (by decide) nofun nofun
  | blkhdr2 => exact expect (by decide) nofun nofun
  | blkhdr3 => exact expect (by decide) nofun nofun
  | blkhdr4 => exact expect (by decide) nofun nofun
  | blkhdr5 => exact expect (by decide) nofun nofun
  | endhdr2 => exact expect (by decide) nofun nofun
  | endhdr3 => exact expect (by decide) nofun nofun
  | endhdr4 => exact expect (by decide) nofun nofun
  | endhdr5 => exact expect (by decide) nofun nofun
  | magic4 | blkhdr6 | origptr3 | selector1 | selector2 | endhdr6 =>
    unfold Parse.resume
    dsimp only
    split
    · exact inner ⟨rfl, nofun⟩
    · exact goto (by decide)
  | ccrc4 => exact ⟨Nat.le_refl _, nofun⟩
  | _ => exact goto (by decide)

end

/-- **A step that returns.** -/
theorem decompressStep_ends (ver : Version) {d : DState μ} {strm : BzStream} {ctl : Ctl}
    (hi : Fits ver d ctl) (hS : Sane d.small (standing (d.core, ctl))) (hq : ctl.Quits)
    (hst : d.state ≠ .output) :
    (∃ s, decompressStep ver (d, strm, ctl) = some (.inl s)) ∨
    ∃ (r : Ret) (d' : DState μ) (strm' : BzStream) (x : Core μ × Point) (u : List Bool),
      decompressStep ver (d, strm, ctl) = some (.inr (r, d', strm')) ∧
      Steps (bitDecoder ver d.small) (standing (d.core, ctl)) (tape d.bits strm) [] x u ∧
      ParseEnds ver d.small strm r d' strm' x u ∧ d'.small = d.small ∧
      d'.bits.bsLive ≤ ver.capacity := by
  cases ctl with
  | get l =>
    unfold decompressStep
    dsimp only
    split
    · exact Or.inl ⟨_, rfl⟩
    · split
      · exact Or.inl ⟨_, rfl⟩
      · split
        · rename_i hlt _ h0
          exact Or.inr ⟨.ok, { d with state := .parsing l }, strm, _, _, rfl, .refl _ _,
            .starved (Reads.refl strm) (Nat.le_refl _) rfl h0 (by dsimp only; omega), rfl, hi.live⟩
        · exact Or.inl ⟨_, rfl⟩
  | fast => exact Or.inl ⟨_, rfl⟩
  | block =>
    right
    obtain ⟨ht, hr⟩ := hS
    unfold decompressStep
    dsimp only
    rcases endBlock_twin rfl rfl hr (ht.store trivial) with ⟨-, he, -⟩ | ⟨e, -, he, -, -⟩
    · rw [he]
      refine ⟨.dataError, _, strm, _, _, rfl, .refl _ _,
        .failed (Reads.refl strm) ?_ nofun nofun hst nofun, rfl, hi.live⟩
      unfold bitDecoder standing
      dsimp only
      rw [he]
    · rw [he]
      refine ⟨.ok, { d with core := e, state := .output }, strm, (e, .output), _, rfl,
        .move ?_ (.refl _ _), .output (Reads.refl strm) (Nat.le_refl _) rfl, rfl, hi.live⟩
      unfold bitDecoder standing
      dsimp only
      rw [he]
  | ret r =>
    right
    cases r with
    | streamEnd =>
      unfold decompressStep
      dsimp only
      cases hg : giveBack ver { d with state := .idle } strm with
      | mk d' strm' =>
        refine ⟨.streamEnd, d', strm', _, _, rfl, .refl _ _, .ended (Reads.refl strm) (Nat.le_refl _) hg, ?_, ?_⟩
        · cases ver <;> (cases hg; rfl)
        · cases ver with
          | qbz2 =>
            cases hg
            exact Nat.zero_le _
          | reference =>
            cases hg
            exact hi.live
    | ok => exact absurd rfl hq
    | _ => exact ⟨_, d, strm, _, _, rfl, .refl _ _,
        .failed (Reads.refl strm) rfl nofun nofun hst nofun, rfl, hi.live⟩

theorem refilled_le (b : BitBuf) (strm : BzStream) :
    (if canRefill4 .qbz2 b strm = true then refill4 b strm else (b, strm)).2.availIn ≤ strm.availIn := by
  split
  · exact Nat.sub_le _ _
  · exact Nat.le_refl _

/-- The table leaves the label alone, and stays in the block. -/
theorem fastDecode_keeps (ver : Version) (d : DState μ) (strm : BzStream) :
    (fastDecode ver d strm).1.state = d.state ∧ (fastDecode ver d strm).2.2.Quits ∧
      (fastDecode ver d strm).2.1.availIn ≤ strm.availIn := by
  have slow : (d.core.absorb d.small (d.core.p.beginVal .literal)).2.Quits :=
    (inner_beginVal d.core.p .literal).2
  cases ver with
  | reference => exact ⟨rfl, slow, Nat.le_refl _⟩
  | qbz2 =>
    have hle := refilled_le d.bits strm
    unfold fastDecode
    dsimp only
    generalize (if canRefill4 .qbz2 d.bits strm = true then refill4 d.bits strm
      else (d.bits, strm)) = refilled at hle ⊢
    split
    · split
      · cases tableLookup d.core.p.group refilled.1 with
        | some hit => exact ⟨rfl, (inner_symbol _).2, hle⟩
        | none => exact ⟨rfl, slow, hle⟩
      · exact ⟨rfl, slow, hle⟩
    · exact ⟨rfl, slow, Nat.le_refl _⟩

theorem decompressStep_keeps (ver : Version) {d d' : DState μ} {strm strm' : BzStream}
    {ctl ctl' : Ctl} (hst : d.state ≠ .output)
    (h : decompressStep ver (d, strm, ctl) = some (.inl (d', strm', ctl'))) :
    d'.state ≠ .output ∧ ctl'.Quits ∧ strm'.availIn ≤ strm.availIn := by
  cases ctl with
  | get l =>
    unfold decompressStep at h
    dsimp only at h
    split at h
    · cases h
      exact ⟨nofun, (resume_ahead d.core.p ver l _).2, Nat.le_refl _⟩
    · split at h
      · cases h
        exact ⟨nofun, nofun, Nat.sub_le _ _⟩
      · split at h
        · cases h
        · cases h
          exact ⟨nofun, nofun, Nat.sub_le _ _⟩
  | fast =>
    unfold decompressStep at h
    obtain ⟨rfl, rfl, rfl⟩ : (fastDecode ver d strm).1 = d' ∧ (fastDecode ver d strm).2.1 = strm' ∧
        (fastDecode ver d strm).2.2 = ctl' := by
      have h' := Sum.inl.inj (Option.some.inj h)
      rw [h']
      exact ⟨rfl, rfl, rfl⟩
    obtain ⟨h1, h2, h3⟩ := fastDecode_keeps ver d strm
    exact ⟨by rw [h1]; exact hst, h2, h3⟩
  | block =>
    unfold decompressStep at h
    dsimp only at h
    cases he : d.core.endBlock d.small with
    | none =>
      rw [he] at h
      cases h
    | some r =>
      obtain ⟨core, r⟩ := r
      rw [he] at h
      cases r <;> cases h
  | ret r => cases r <;> cases h

/-- **`BZ2_decompress` always returns**, its steps being steps of the machine. -/
theorem decompressLoop_sim (ver : Version) : ∀ (fuel : Nat) (d : DState μ) (strm : BzStream)
    (ctl : Ctl), Fits ver d ctl → Sane d.small (standing (d.core, ctl)) → ctl.Quits →
    d.state ≠ .output → workLeft d strm ctl < fuel →
    ∃ (r : Ret) (d' : DState μ) (strm' : BzStream) (x : Core μ × Point) (u : List Bool),
      decompressLoop ver fuel (d, strm, ctl) = some (r, d', strm') ∧
      Steps (bitDecoder ver d.small) (standing (d.core, ctl)) (tape d.bits strm) [] x u ∧
      ParseEnds ver d.small strm r d' strm' x u ∧ d'.small = d.small ∧
      d'.bits.bsLive ≤ ver.capacity := by
  intro fuel
  induction fuel with
  | zero => exact fun _ _ _ _ _ _ _ h => absurd h (Nat.not_lt_zero _)
  | succ fuel ih =>
    intro d strm ctl hi hS hq hst hwork
    rw [decompressLoop]
    rcases @decompressStep_ends μ _ ver d strm ctl hi hS hq hst with ⟨⟨d₁, strm₁, ctl₁⟩, he⟩ |
      ⟨r, d', strm', x, u, he, hrest⟩
    · obtain ⟨hs, hi₁, hsmall, hr⟩ := decompressStep_sim ver hi he
      obtain ⟨hst₁, hq₁, hle₁⟩ := decompressStep_keeps ver hst he
      have hless := decompressStep_less ver hi he
      have hS₁ := sane_steps hs hS
      rw [← hsmall] at hS₁
      obtain ⟨r, d', strm', x, u, he', hs', hP, hsmall', hlive⟩ :=
        ih d₁ strm₁ ctl₁ hi₁ hS₁ hq₁ hst₁ (by omega)
      rw [hsmall] at hs' hP
      rw [he]
      exact ⟨r, d', strm', x, u, he', hs.trans hs', hP.after hr hle₁, hsmall'.trans hsmall, hlive⟩
    · rw [he]
      exact ⟨r, d', strm', x, u, rfl, hrest⟩

theorem decompress_sim (ver : Version) {d : DState μ} {strm : BzStream} {l : Label}
    (hl : LabelOk d.core.p l) (hlive : d.bits.bsLive ≤ ver.capacity)
    (hS : Sane d.small (d.core, .parser (.get l))) (hst : d.state ≠ .output) :
    ∃ (r : Ret) (d' : DState μ) (strm' : BzStream) (x : Core μ × Point) (u : List Bool),
      decompress ver d l strm = some (r, d', strm') ∧
      Steps (bitDecoder ver d.small) (d.core, .parser (.get l)) (tape d.bits strm) [] x u ∧
      ParseEnds ver d.small strm r d' strm' x u ∧ d'.small = d.small ∧
      d'.bits.bsLive ≤ ver.capacity := by
  refine decompressLoop_sim ver _ d strm (.get l) ⟨hl, hlive⟩ hS nofun hst ?_
  show 3 * bitsAvail d strm + strm.availIn + 0 < _
  omega

/-! ## 3. `BZ2_bzDecompress` -/

/-- Where the machine stands. -/
def DState.point (d : DState μ) : Point :=
  match d.state with
  | .idle => .parser (.ret .sequenceError)
  | .output => .output
  | .parsing l => .parser (.get l)

omit [MtfList μ] in
theorem point_parsing {d : DState μ} {l : Label} (h : d.state = .parsing l) :
    d.point = .parser (.get l) := by
  unfold DState.point
  rw [h]

omit [MtfList μ] in
theorem point_output {d : DState μ} (h : d.state = .output) : d.point = .output := by
  unfold DState.point
  rw [h]

/-- **A decoder between two calls** of a stream that has not ended. -/
structure DState.Resting (ver : Version) (d : DState μ) : Prop where
  busy : d.state ≠ .idle
  live : d.bits.bsLive ≤ ver.capacity
  sane : Sane d.small (d.core, d.point)
  starved : ∀ l, d.state = .parsing l → d.bits.bsLive < l.nbits

/-- The stream after a call: some of the input has been read, `w` has been written. -/
structure Served (strm strm' : BzStream) (w : List Byte) : Prop where
  mem : strm'.mem = strm.mem
  input : strm'.nextIn + strm'.availIn = strm.nextIn + strm.availIn
  nextOut : strm'.nextOut = strm.nextOut + w.length
  out : strm'.out = strm.out ++ w
  availOut : strm'.availOut + w.length = strm.availOut

theorem Reads.served {s s' : BzStream} (h : Reads s s') : Served s s' [] :=
  ⟨h.mem, h.input, by rw [h.nextOut]; exact (Int.add_zero _).symm,
    by rw [h.out, List.append_nil], h.availOut⟩

/-- Giving bytes out leaves the bits to be read as they are. -/
theorem Gives.tape_eq {strm strm' : BzStream} {w : List Byte} (h : Gives strm strm' w) (bits : BitBuf) :
    tape bits strm = tape bits strm' := by
  unfold tape BzStream.input
  rw [h.mem, h.nextIn, h.availIn]

theorem Gives.served {s s' : BzStream} {w : List Byte} (h : Gives s s' w) : Served s s' w :=
  ⟨h.mem, by rw [h.nextIn, h.availIn], h.nextOut, h.out, h.availOut⟩

theorem Served.trans {s s' s'' : BzStream} {w w' : List Byte} (h : Served s s' w)
    (h' : Served s' s'' w') : Served s s'' (w ++ w') where
  mem := h'.mem.trans h.mem
  input := h'.input.trans h.input
  nextOut := by
    have h1 := h.nextOut
    have h2 := h'.nextOut
    rw [List.length_append]
    push_cast
    omega
  out := by rw [h'.out, h.out, List.append_assoc]
  availOut := by
    have h1 := h.availOut
    have h2 := h'.availOut
    rw [List.length_append]
    omega

omit [MtfList μ] in
/-- Handing bytes back moves the pointer and the count together. -/
theorem giveBack_served {ver : Version} {d d' : DState μ} {strm strm' : BzStream}
    (h : giveBack ver d strm = (d', strm')) : Served strm strm' [] := by
  cases ver with
  | qbz2 =>
    cases h
    refine ⟨rfl, ?_, (Int.add_zero _).symm, (List.append_nil _).symm, rfl⟩
    unfold BzStream.unread
    dsimp only
    push_cast
    omega
  | reference =>
    cases h
    exact (Reads.refl _).served

/-- **How a call returns**: the code, the decoder, the stream, the bytes the machine has emitted,
    the machine and its tape. A block that is found corrupt may have been delivered in part; byte by
    byte it is found corrupt only where there is room left (`hlate`). -/
inductive CallEnds (ver : Version) (small : Bool) (strm : BzStream) :
    Ret → DState μ → BzStream → List Byte → Core μ × Point → List Bool → Prop
  | full {d : DState μ} {strm' : BzStream} {w : List Byte} (hs : Served strm strm' w)
      (hle : strm'.availIn ≤ strm.availIn) (hd : d.Resting ver) (h0 : strm'.availOut = 0)
      (hst : d.state = .output)
      (hmore : ¬(d.core.out.nblockUsed = d.core.p.nblock + 1 ∧ d.core.out.stateOutLen = 0))
      (hheld : (small || d.core.p.blockRandomised) = false → 0 < d.core.out.stateOutLen) :
      CallEnds ver small strm .ok d strm' w (d.core, d.point) (tape d.bits strm')
  | starved {d : DState μ} {strm' : BzStream} {w : List Byte} {l : Label} (hs : Served strm strm' w)
      (hle : strm'.availIn ≤ strm.availIn) (hd : d.Resting ver) (hst : d.state = .parsing l)
      (h0 : strm'.availIn = 0) :
      CallEnds ver small strm .ok d strm' w (d.core, d.point) (tape d.bits strm')
  | failed {r : Ret} {d : DState μ} {strm' : BzStream} {w w' : List Byte} {x : Core μ × Point}
      {u : List Bool} (hs : Served strm strm' w') (hpre : w' <+: w)
      (hroom : w.length ≤ strm.availOut) (hh : bitDecoder ver small x = .halt r) (hok : r ≠ .ok)
      (hend : r ≠ .streamEnd)
      (hlate : x.2 = .output → (small || x.1.p.blockRandomised) = true →
        x.1.p.nblock + 1 < x.1.out.nblockUsed → w.length < strm.availOut) :
      CallEnds ver small strm r d strm' w x u
  | ended {d d' : DState μ} {strm₁ strm' : BzStream} {w : List Byte} (hs : Served strm strm₁ w)
      (hle : strm₁.availIn ≤ strm.availIn)
      (hgive : giveBack ver { d with state := .idle } strm₁ = (d', strm'))
      (hcrc : d.core.calculatedCombinedCRC = d.core.p.storedCombinedCRC) :
      CallEnds ver small strm .streamEnd d' strm' w (d.core, .parser (.ret .streamEnd))
        (tape d.bits strm₁)

theorem CallEnds.after {ver : Version} {small : Bool} {strm strm₁ strm' : BzStream} {r : Ret}
    {d : DState μ} {x : Core μ × Point} {u : List Bool} {w₁ w : List Byte}
    (hs₁ : Served strm strm₁ w₁) (hle₁ : strm₁.availIn ≤ strm.availIn)
    (h : CallEnds ver small strm₁ r d strm' w x u) :
    CallEnds ver small strm r d strm' (w₁ ++ w) x u := by
  cases h with
  | full hs hle hd h0 hst hmore hheld =>
    exact .full (hs₁.trans hs) (Nat.le_trans hle hle₁) hd h0 hst hmore hheld
  | starved hs hle hd hst h0 => exact .starved (hs₁.trans hs) (Nat.le_trans hle hle₁) hd hst h0
  | failed hs hpre hroom hh hok hend hlate =>
    have := hs₁.availOut
    refine .failed (hs₁.trans hs) ((List.prefix_append_right_inj w₁).mpr hpre) ?_ hh hok hend
      fun hpt hslow hover => ?_
    · rw [List.length_append]
      omega
    · have := hlate hpt hslow hover
      rw [List.length_append]
      omega
  | ended hs hle hgive hcrc => exact .ended (hs₁.trans hs) (Nat.le_trans hle hle₁) hgive hcrc

/-- Who has left a label has read its bits. -/
theorem steps_read {ver : Version} {small : Bool} {c : Core μ} {l : Label} {y : Core μ × Point}
    {t u : List Bool} {w : List Byte}
    (h : Steps (bitDecoder ver small) (c, .parser (.get l)) t w y u)
    (hne : (c, Point.parser (.get l)) ≠ y) : u.length + l.nbits ≤ t.length := by
  cases h with
  | refl => exact absurd rfl hne
  | read hM hn hs =>
    cases hM
    have := hs.length_le
    rw [List.length_drop] at this
    omega
  | emit hM _ => cases hM
  | move hM _ => cases hM

/-- Where a block has been given out, its CRC decides. -/
theorem giving_end {ver : Version} {small : Bool} {c : Core μ} {o : Out}
    (h : o.nblockUsed = c.p.nblock + 1 ∧ o.stateOutLen = 0) :
    bitDecoder ver small (c.giving o) =
      match Core.finishBlock { c with out := o } with
      | (_, false) => .halt .dataError
      | (c, true) => .move (c, .parser (.get .blkhdr1)) := by
  unfold Core.giving bitDecoder
  dsimp only
  exact (if_neg (by omega)).trans ((if_neg (by omega)).trans (if_pos h.1))

variable [Build]

/-- What `BZ2_bzDecompress` does with the result of `BZ2_decompress`. -/
def afterParse (ver : Version) (fuel : Nat) (r : Option (Ret × DState μ × BzStream)) :
    Option (Ret × DState μ × BzStream) :=
  match r with
  | none => none
  | some (.streamEnd, d, strm) =>
    if d.core.calculatedCombinedCRC ≠ d.core.p.storedCombinedCRC then some (.dataError, d, strm)
    else some (.streamEnd, d, strm)
  | some (r, d, strm) =>
    if d.state ≠ .output then some (r, d, strm) else bzDecompressLoop ver fuel d strm

theorem afterParse_failed (ver : Version) (fuel : Nat) {r : Ret} {d : DState μ} (strm : BzStream)
    (hend : r ≠ .streamEnd) (hst : d.state ≠ .output) :
    afterParse ver fuel (some (r, d, strm)) = some (r, d, strm) := by
  unfold afterParse
  cases r <;> first | exact absurd rfl hend | exact if_pos hst

theorem loop_parsing (ver : Version) (fuel : Nat) {d : DState μ} {l : Label} (h : d.state = .parsing l)
    (strm : BzStream) : bzDecompressLoop ver (fuel + 1) d strm =
      afterParse ver fuel (decompress ver d l strm) := by
  rw [bzDecompressLoop]
  dsimp only
  rw [h]
  rfl

theorem loop_output (ver : Version) (fuel : Nat) {d : DState μ} (h : d.state = .output)
    (strm : BzStream) : bzDecompressLoop ver (fuel + 1) d strm =
      match unRle ver d.small (d.core.env d.small) d.core.out strm with
      | none => none
      | some (corrupt, out, strm) =>
        if corrupt then some (.dataError, { d with core := { d.core with out } }, strm)
        else if out.nblockUsed = d.core.p.nblock + 1 ∧ out.stateOutLen = 0 then
          match Core.finishBlock { d.core with out } with
          | (core, false) => some (.dataError, { d with core }, strm)
          | (core, true) =>
            afterParse ver fuel (decompress ver { d with core, state := .parsing .blkhdr1 } .blkhdr1 strm)
        else some (.ok, { d with core := { d.core with out } }, strm) := by
  rw [bzDecompressLoop]
  dsimp only
  rw [h]
  rfl

/-- What holds of a decoder within a call. -/
structure DState.Going (ver : Version) (d : DState μ) : Prop where
  busy : d.state ≠ .idle
  live : d.bits.bsLive ≤ ver.capacity
  sane : Sane d.small (d.core, d.point)

omit [MtfList μ] [Build] in
theorem DState.Going.draining {ver : Version} {d : DState μ} (h : d.Going ver)
    (hst : d.state = .output) : Sane d.small (d.core, .output) := by
  have hS := h.sane
  rw [point_output hst] at hS
  exact hS

/-- What holds of a call, or of its rest. -/
def CallSim (ver : Version) (d : DState μ) (strm : BzStream)
    (res : Option (Ret × DState μ × BzStream)) : Prop :=
  ∃ (r : Ret) (d' : DState μ) (strm' : BzStream) (w : List Byte) (x : Core μ × Point)
    (u : List Bool), res = some (r, d', strm') ∧
    Steps (bitDecoder ver d.small) (d.core, d.point) (tape d.bits strm) w x u ∧
    CallEnds ver d.small strm r d' strm' w x u ∧ d'.small = d.small

/-- From a label on. -/
theorem parse_sim (ver : Version) (fuel : Nat)
    (ih : ∀ (d : DState μ) (strm : BzStream), d.Going ver → bitsAvail d strm < fuel →
      CallSim ver d strm (bzDecompressLoop ver fuel d strm))
    {d : DState μ} {strm : BzStream} {l : Label} (hd : d.Going ver) (hst : d.state = .parsing l)
    (hfuel : bitsAvail d strm ≤ fuel) :
    CallSim ver d strm (afterParse ver fuel (decompress ver d l strm)) := by
  have hpt := point_parsing hst
  have hS := hd.sane
  rw [hpt] at hS
  have hl : LabelOk d.core.p l := hS.2
  obtain ⟨r, d', strm', x, u, he, hs, hP, hsmall, hlive⟩ := decompress_sim ver hl hd.live hS
    (by rw [hst]; exact nofun)
  have hS' := sane_steps hs hS
  rw [← hpt] at hs
  rw [he]
  cases hP with
  | @starved d' strm' l' hr hle hst' h0 hlt =>
    have hpt' := point_parsing hst'
    refine ⟨.ok, d', strm', [], _, _, afterParse_failed ver fuel strm' nofun (by rw [hst']; exact nofun),
      ?_, .starved hr.served hle ⟨by rw [hst']; exact nofun, hlive, ?_, fun l'' h => ?_⟩ hst' h0,
      hsmall⟩
    · rw [hpt']
      exact hs
    · rw [hpt', hsmall]
      exact hS'
    · rw [hst'] at h
      cases h
      exact hlt
  | output hr hle hst' =>
    have hpt' := point_output hst'
    unfold afterParse
    dsimp only
    rw [if_neg (by rw [hst']; decide)]
    have hs' := hs
    rw [hpt] at hs'
    have hless := steps_read hs' fun h => nomatch congrArg Prod.snd h
    have hn := (nbits_range hl).1
    rw [length_tape, length_tape] at hless
    obtain ⟨r, d₂, strm₂, w, y, v, he₂, hs₂, hC, hsmall₂⟩ := ih d' strm'
      ⟨by rw [hst']; exact nofun, hlive, by rw [hpt', hsmall]; exact hS'⟩ (by
        unfold bitsAvail at *
        omega)
    rw [hsmall, hpt'] at hs₂
    rw [hsmall] at hC
    exact ⟨r, d₂, strm₂, w, y, v, he₂, hs.trans hs₂, hC.after hr.served hle, hsmall₂.trans hsmall⟩
  | failed hr hh hok hend hst' hpt' =>
    exact ⟨r, d', strm', [], x, u, afterParse_failed ver fuel strm' hend hst', hs,
      .failed hr.served List.nil_prefix (Nat.zero_le _) hh hok hend fun h => absurd h hpt', hsmall⟩
  | @ended d₁ d' strm₁ strm' hr hle hgive =>
    have hcore : d'.core = d₁.core := by
      cases ver <;> (cases hgive; rfl)
    unfold afterParse
    dsimp only
    rw [hcore]
    by_cases hcrc : d₁.core.calculatedCombinedCRC ≠ d₁.core.p.storedCombinedCRC
    · rw [if_pos hcrc]
      refine ⟨.dataError, d', strm', [], _, _, rfl, hs,
        .failed (hr.served.trans (giveBack_served hgive)) List.nil_prefix (Nat.zero_le _) ?_ nofun
          nofun nofun, hsmall⟩
      · unfold bitDecoder
        dsimp only
        rw [if_pos hcrc]
    · rw [if_neg hcrc]
      exact ⟨.streamEnd, d', strm', [], _, _, rfl, hs,
        .ended hr.served hle hgive (not_not.mp hcrc), hsmall⟩

omit [Build] in
/-- A drain that finds the block to hold more than it should. -/
theorem drain_corrupt_sim {ver : Version} {d : DState μ} {strm strm₁ : BzStream} {out o' : Out}
    {w : List Byte} (hst : d.state = .output)
    (hD : Drained ver d.small d.core (tape d.bits strm) d.core.out strm (true, out, strm₁) w o') :
    CallSim ver d strm (some (.dataError, { d with core := { d.core with out } }, strm₁)) := by
  obtain ⟨w', hpre, hg⟩ := hD.gives
  obtain ⟨h0, hover⟩ := hD.corrupt rfl
  refine ⟨.dataError, _, strm₁, w, d.core.giving o', tape d.bits strm, rfl, ?_,
    .failed hg.served hpre hD.room ?_ nofun nofun fun _ hslow _ => hD.late hslow rfl, rfl⟩
  · rw [point_output hst]
    exact hD.steps
  · unfold Core.giving bitDecoder
    dsimp only
    rw [if_neg (by omega), if_pos hover]

omit [Build] in
/-- The caller's room is used up before the block has ended. -/
theorem drain_full_sim {ver : Version} {d : DState μ} {strm strm₁ : BzStream} {out o' : Out}
    {w : List Byte} (hd : d.Going ver) (hst : d.state = .output)
    (hD : Drained ver d.small d.core (tape d.bits strm) d.core.out strm (false, out, strm₁) w o')
    (hend : ¬(out.nblockUsed = d.core.p.nblock + 1 ∧ out.stateOutLen = 0)) :
    CallSim ver d strm (some (.ok, { d with core := { d.core with out } }, strm₁)) := by
  obtain ⟨rfl, hg, hroom⟩ := hD.fine rfl
  dsimp only at hg hroom
  have hpt := point_output hst
  have hs := hD.steps
  have hsane : Sane d.small (d.core.giving out) := sane_steps hs (hd.draining hst)
  have htape := hg.tape_eq d.bits
  obtain ⟨d', hd'⟩ : ∃ d' : DState μ, d' = { d with core := { d.core with out } } := ⟨_, rfl⟩
  have hpt' : d'.point = .output := by
    rw [hd']
    exact point_output hst
  have hcore : (d'.core, d'.point) = d.core.giving out := by
    rw [hpt', hd']
    rfl
  have hfull : strm₁.availOut = 0 := hroom.resolve_right hend
  rw [← hd']
  refine ⟨.ok, d', strm₁, w, (d'.core, d'.point), tape d'.bits strm₁, rfl, ?_,
    .full hg.served (Nat.le_of_eq hg.availIn) ⟨?_, ?_, ?_, fun l hl => ?_⟩ hfull ?_ ?_ ?_, ?_⟩
  · rw [hpt, hcore, hd', ← htape]
    exact hs
  · rw [hd']
    exact hd.busy
  · rw [hd']
    exact hd.live
  · rw [hcore, hd']
    exact hsane
  · rw [hd'] at hl
    exact nomatch hst.symm.trans hl
  · rw [hd']
    exact hst
  · rw [hd']
    exact hend
  · rw [hd']
    exact fun hfast => hD.held hfast rfl hend
  · rw [hd']

/-- The block has ended: its CRC is checked, and the next block's header is read. -/
theorem drain_end_sim (ver : Version) (fuel : Nat)
    (ih : ∀ (d : DState μ) (strm : BzStream), d.Going ver → bitsAvail d strm < fuel →
      CallSim ver d strm (bzDecompressLoop ver fuel d strm))
    {d : DState μ} {strm strm₁ : BzStream} {out o' : Out} {w : List Byte} (hd : d.Going ver)
    (hst : d.state = .output) (hfuel : bitsAvail d strm ≤ fuel)
    (hD : Drained ver d.small d.core (tape d.bits strm) d.core.out strm (false, out, strm₁) w o')
    (hend : out.nblockUsed = d.core.p.nblock + 1 ∧ out.stateOutLen = 0) :
    CallSim ver d strm
      (match Core.finishBlock { d.core with out } with
      | (core, false) => some (.dataError, { d with core }, strm₁)
      | (core, true) =>
        afterParse ver fuel
          (decompress ver { d with core, state := .parsing .blkhdr1 } .blkhdr1 strm₁)) := by
  obtain ⟨rfl, hg, -⟩ := hD.fine rfl
  dsimp only at hg
  have hpt := point_output hst
  have hs := hD.steps
  have hsane : Sane d.small (d.core.giving out) := sane_steps hs (hd.draining hst)
  have htape := hg.tape_eq d.bits
  have hnode := @giving_end _ _ ver d.small d.core out hend
  cases hf : Core.finishBlock { d.core with out } with
  | mk core ok =>
    rw [hf] at hnode
    cases ok with
    | false =>
      exact ⟨.dataError, _, strm₁, w, d.core.giving out, _, rfl, by rw [hpt]; exact hs,
        .failed hg.served (List.prefix_refl w) hD.room hnode nofun nofun
          fun _ _ hover => absurd hend.1 (Nat.ne_of_gt hover), rfl⟩
    | true =>
      have hmove : Steps (bitDecoder ver d.small) (d.core.giving out) (tape d.bits strm) []
          (core, .parser (.get .blkhdr1)) (tape d.bits strm₁) := by
        rw [htape]
        exact .move hnode (.refl _ _)
      obtain ⟨r, d', strm', w', x, u, he', hs', hC, hsmall⟩ := @parse_sim μ _ _ ver fuel ih
        { d with core, state := .parsing .blkhdr1 } strm₁ .blkhdr1
        ⟨nofun, hd.live, sane_steps hmove hsane⟩ rfl (by
          have := hg.availIn
          unfold bitsAvail at *
          dsimp only
          omega)
      refine ⟨r, d', strm', w ++ w', x, u, he', ?_, hC.after hg.served
        (Nat.le_of_eq hg.availIn), hsmall⟩
      rw [hpt]
      exact hs.trans (hmove.trans hs')

theorem bzDecompressLoop_sim (ver : Version) : ∀ (fuel : Nat) (d : DState μ) (strm : BzStream),
    d.Going ver → bitsAvail d strm < fuel → CallSim ver d strm (bzDecompressLoop ver fuel d strm) := by
  intro fuel
  induction fuel with
  | zero => exact fun _ _ _ h => absurd h (Nat.not_lt_zero _)
  | succ fuel ih =>
    intro d strm hd hfuel
    cases hst : d.state with
    | idle => exact absurd hst hd.busy
    | parsing l =>
      rw [loop_parsing ver fuel hst]
      exact parse_sim ver fuel ih hd hst (by omega)
    | output =>
      rw [loop_output ver fuel hst]
      obtain ⟨⟨corrupt, out, strm₁⟩, w, o', he, hD⟩ :=
        unRle_sim (t := tape d.bits strm) (hd.draining hst) strm
      rw [he]
      dsimp only
      cases corrupt with
      | true =>
        rw [if_pos rfl]
        exact drain_corrupt_sim hst hD
      | false =>
        rw [if_neg (by decide)]
        by_cases hend : out.nblockUsed = d.core.p.nblock + 1 ∧ out.stateOutLen = 0
        · rw [if_pos hend]
          exact drain_end_sim ver fuel ih hd hst (by omega) hD hend
        · rw [if_neg hend]
          exact drain_full_sim hd hst hD hend

/-- **A call of `BZ2_bzDecompress` always returns**, and it is a run of the machine. -/
theorem bzDecompress_sim (ver : Version) {d : DState μ} (hd : d.Resting ver) (strm : BzStream) :
    CallSim ver d strm (bzDecompress ver d strm) :=
  bzDecompressLoop_sim ver _ d strm ⟨hd.busy, hd.live, hd.sane⟩ (by omega)

omit [Build] in
/-- The decoder `BZ2_bzDecompressInit` makes is ready for a call. -/
theorem resting_decompressInit (ver : Version) (small : Bool) :
    (DState.init small : DState μ).Resting ver where
  busy := nofun
  live := Nat.zero_le _
  sane := ⟨⟨rfl, rfl, fun _ => rfl, fun h => h.elim⟩, trivial⟩
  starved l h := by
    cases h
    exact Nat.zero_lt_succ 7

end

end Qbz2
