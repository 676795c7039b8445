/-
  File:      Qbz2/Decompress/Rest.lean
  Subject:   What a decoder leaves of its input at the end of a stream.

  * `reference_spare` -- between two calls the reference decoder, which has no bytes to give back,
    holds less than a byte more than it waits for;
  * **`ended_rest`** -- so both decoders leave the whole bytes that follow the stream.
-/
import Qbz2.Decompress.Chunks

namespace Qbz2

open Transducer Bits

/-! ## 1. What the reference decoder holds back -/

/-- The buffer of the reference decoder has fewer bits than this. -/
def Ctl.spare : Ctl → Nat
  | .get l => l.nbits + 8
  | _ => 8

/-- And between two calls fewer than this. -/
def XState.spare : XState → Nat
  | .parsing l => l.nbits + 8
  | _ => 8

theorem Ctl.spare_ge (ctl : Ctl) : 8 ≤ ctl.spare := by
  cases ctl <;> simp [Ctl.spare]

theorem XState.spare_ge (st : XState) : 8 ≤ st.spare := by
  cases st <;> simp [XState.spare]

section

variable {μ : Type} [MtfList μ]

theorem decompressStep_spare {d d' : DState μ} {strm strm' : BzStream} {ctl ctl' : Ctl}
    (h : decompressStep .reference (d, strm, ctl) = some (.inl (d', strm', ctl')))
    (hb : d.bits.bsLive < ctl.spare) : d'.bits.bsLive < ctl'.spare := by
  have hge := ctl'.spare_ge
  unfold decompressStep at h
  cases ctl with
  | get l =>
    change d.bits.bsLive < l.nbits + 8 at hb
    dsimp only at h
    split at h
    · cases h
      change d.bits.bsLive - l.nbits < _
      omega
    · rename_i hlt
      split at h
      · rename_i h4
        exact nomatch h4
      · split at h
        · cases h
        · cases h
          change d.bits.bsLive + 8 < l.nbits + 8
          omega
  | fast =>
    cases h
    exact Nat.lt_of_lt_of_le hb hge
  | block =>
    obtain ⟨x, -, hx⟩ := Option.map_eq_some_iff.mp h
    split at hx <;> cases hx
  | ret r => cases r <;> cases h

theorem decompressStep_spare_end {d d' : DState μ} {strm strm' : BzStream} {ctl : Ctl} {r : Ret}
    (h : decompressStep .reference (d, strm, ctl) = some (.inr (r, d', strm')))
    (hb : d.bits.bsLive < ctl.spare) :
    d'.bits.bsLive < d'.state.spare ∧ (r = .streamEnd → d'.bits.bsLive < 8) := by
  have hge := d.state.spare_ge
  unfold decompressStep at h
  cases ctl with
  | get l =>
    dsimp only at h
    split at h
    · cases h
    · split at h
      · cases h
      · split at h
        · cases h
          exact ⟨hb, nofun⟩
        · cases h
  | fast => cases h
  | block =>
    change d.bits.bsLive < 8 at hb
    obtain ⟨x, -, hx⟩ := Option.map_eq_some_iff.mp h
    split at hx
    · cases hx
      exact ⟨Nat.lt_of_lt_of_le hb hge, fun _ => hb⟩
    · cases hx
      exact ⟨hb, fun _ => hb⟩
  | ret r' =>
    change d.bits.bsLive < 8 at hb
    have hsame : d'.bits = d.bits ∧ (d'.state = d.state ∨ d'.state = .idle) := by
      cases r' <;> cases h <;> simp
    rw [hsame.1]
    exact ⟨Nat.lt_of_lt_of_le hb d'.state.spare_ge, fun _ => hb⟩

theorem decompressLoop_spare : ∀ {fuel : Nat} {d d' : DState μ} {strm strm' : BzStream} {ctl : Ctl}
    {r : Ret}, decompressLoop .reference fuel (d, strm, ctl) = some (r, d', strm') →
    d.bits.bsLive < ctl.spare →
    d'.bits.bsLive < d'.state.spare ∧ (r = .streamEnd → d'.bits.bsLive < 8) := by
  intro fuel
  induction fuel with
  | zero => intro d d' strm strm' ctl r h _; cases h
  | succ fuel ih =>
    intro d d' strm strm' ctl r h hb
    unfold decompressLoop at h
    split at h
    · cases h
    · rename_i s he
      obtain ⟨d₁, strm₁, ctl₁⟩ := s
      exact ih h (decompressStep_spare he hb)
    · rename_i s he
      cases h
      exact decompressStep_spare_end he hb

theorem decompress_spare {d d' : DState μ} {l : Label} {strm strm' : BzStream} {r : Ret}
    (h : decompress .reference d l strm = some (r, d', strm'))
    (hb : d.bits.bsLive < l.nbits + 8) :
    d'.bits.bsLive < d'.state.spare ∧ (r = .streamEnd → d'.bits.bsLive < 8) :=
  decompressLoop_spare h hb

section

variable [Build]

/-- **A call leaves less than a byte** in the buffer of the reference decoder, besides what a label
    still waits for. -/
theorem bzDecompressLoop_spare : ∀ {fuel : Nat} {d d' : DState μ} {strm strm' : BzStream} {r : Ret},
    bzDecompressLoop .reference fuel d strm = some (r, d', strm') →
    d.bits.bsLive < d.state.spare →
    d'.bits.bsLive < d'.state.spare ∧ (r = .streamEnd → d'.bits.bsLive < 8) := by
  intro fuel
  induction fuel with
  | zero => intro d d' strm strm' r h _; cases h
  | succ fuel ih =>
    intro d d' strm strm' r h hb
    -- from a label on
    have parse : ∀ {d : DState μ} {l : Label} {strm : BzStream}, d.bits.bsLive < l.nbits + 8 →
        afterParse .reference fuel (decompress .reference d l strm) = some (r, d', strm') →
        d'.bits.bsLive < d'.state.spare ∧ (r = .streamEnd → d'.bits.bsLive < 8) := by
      intro d l strm hb h
      cases hdec : decompress .reference d l strm with
      | none =>
        rw [hdec] at h
        cases h
      | some x =>
        obtain ⟨r₁, d₁, strm₁⟩ := x
        obtain ⟨h1, h2⟩ := decompress_spare hdec hb
        rw [hdec] at h
        unfold afterParse at h
        split at h
        · cases h
        · rename_i he
          cases he
          split at h
          · cases h
            exact ⟨h1, fun he => absurd he (by decide)⟩
          · cases h
            exact ⟨h1, fun _ => h2 rfl⟩
        · rename_i he
          cases he
          split at h
          · cases h
            exact ⟨h1, h2⟩
          · exact ih h h1
    cases hst : d.state with
    | idle =>
      unfold bzDecompressLoop at h
      dsimp only at h
      rw [hst] at h
      cases h
      exact ⟨hb, fun he => absurd he (by decide)⟩
    | parsing l =>
      rw [loop_parsing .reference fuel hst] at h
      rw [hst] at hb
      exact parse hb h
    | output =>
      rw [loop_output .reference fuel hst] at h
      rw [hst] at hb
      have hb' : d.bits.bsLive < XState.spare d.state := by
        rw [hst]
        exact hb
      split at h
      · cases h
      · split at h
        · cases h
          exact ⟨hb', fun he => absurd he (by decide)⟩
        · split at h
          · split at h
            · cases h
              exact ⟨hb', fun he => absurd he (by decide)⟩
            · refine parse ?_ h
              exact Nat.lt_of_lt_of_le hb (Nat.le_add_left 8 _)
          · cases h
            exact ⟨hb', fun he => absurd he (by decide)⟩

/-- **In every run** of the reference decoder its buffer has less than a byte to spare, and at the
    end of the stream it has less than a byte. -/
theorem reference_spare {small : Bool} {x rest : List Byte} {calls : List DecompressCall}
    {d : DState μ} (h : DecompressRun .reference small x calls d rest) :
    d.bits.bsLive < d.state.spare ∧ (lastRet calls = .streamEnd → d.bits.bsLive < 8) := by
  induction h with
  | init => exact ⟨Nat.zero_lt_succ _, nofun⟩
  | call h hok c hoffer hc ih =>
    rw [lastRet_concat]
    exact bzDecompressLoop_spare hc ih.1

/-! ## 2. What is left at the end of a stream -/

/-- **What a decoder leaves of its input at the end of a stream**: the whole bytes among the bits
    that have not been read. -/
theorem ended_rest (ver : Version) {small : Bool} {x rest : List Byte}
    {calls : List DecompressCall} {d : DState μ} (h : DecompressRun ver small x calls d rest)
    (hend : lastRet calls = .streamEnd) :
    ∃ (y : Core μ × Point) (u : List Bool),
      Steps (bitDecoder ver small) (atStart small) (bytesBits x) (delivered calls) y u ∧
      bitDecoder ver small y = .halt .streamEnd ∧ rest.length = u.length / 8 := by
  have hspare : ver = .reference → d.bits.bsLive < 8 := by
    rintro rfl
    exact (reference_spare h).2 hend
  cases h with
  | init => cases hend
  | @call calls d₀ _ rest h hok c hoffer hc =>
    obtain ⟨hd, rfl, hs⟩ := run_sim ver h hok
    obtain ⟨more, hmore⟩ := hoffer
    obtain ⟨w, y, u, hs', hown, hC, -⟩ := call_sim ver hd hmore.symm hc
    rw [lastRet_concat] at hend
    rw [hend] at hC
    cases hC with
    | failed _ _ _ _ _ hne => exact absurd rfl hne
    | @ended d₁ _ strm₁ _ _ hserved hle hgive hcrc =>
      have hall := hserved.trans (giveBack_served hgive)
      rw [List.append_nil] at hall
      refine ⟨(d₁.core, .parser (.ret .streamEnd)), tape d₁.bits strm₁ ++ bytesBits more, ?_,
        if_neg (not_not_intro hcrc), ?_⟩
      · rw [delivered_concat, hall.given]
        exact hs.trans hs'
      · have hlive : d₁.bits.bsLive + 8 * strm₁.availIn =
            8 * c.strm'.availIn + d₁.bits.bsLive % 8 ∧ c.strm'.availIn ≤ c.strm.availIn := by
          cases ver with
          | qbz2 =>
            obtain ⟨hle', hbits⟩ := ended_forward hd hown hgive
            rw [length_tape] at hbits
            exact ⟨by omega, hle'⟩
          | reference =>
            cases hgive
            have hlt : d₁.bits.bsLive < 8 := hspare rfl
            exact ⟨by omega, hle⟩
        have hrest := @rest_drop _ _ _ more hall hlive.2
        rw [← hmore, DecompressCall.taken, hrest]
        simp only [List.length_append, length_tape, length_bytesBits, BzStream.input,
          length_bytesAt]
        omega

end

end

end Qbz2
