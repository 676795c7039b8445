/-
  File:      Qbz2/Decompress/Ends.lean
  Subject:   The decoder comes to an end on every input, and what it gives out is bounded by what it
             reads.

  * `Label.since`, `spend` -- the bits of a block read so far; what the machine may still give out
    or do without reading: a whole block, once its header has been read;
  * `bitDecoder_pays` -- every bit read earns at most `bytesPerBit`, every other step costs;
  * `decoder_stuck` -- so on every tape the machine comes to a halt or to where it wants more bits;
  * `DState.Waits`, `waits_exhausted` -- a decoder that waits for bits gives out nothing more;
  * `DecompressRun.count` -- a steady run of so many calls has come to its end;
  * **`bzDecompress_outcome`** -- every input has one outcome, at most 3600000 bytes for each of its
    own; every run delivers the front of it, and every steady run reaches it.
-/
import Qbz2.RoundTrip.Stream

namespace Qbz2

open Transducer Bits

/-! ## 1. What there is to spend -/

/-- The bits of the block read so far, at least. -/
def Label.since : Label → Nat
  | .magic1 | .magic2 | .magic3 | .magic4 | .blkhdr1 => 0
  | .blkhdr2 => 8
  | .blkhdr3 => 16
  | .blkhdr4 => 24
  | .blkhdr5 => 32
  | .blkhdr6 => 40
  | .bcrc1 => 48
  | .bcrc2 => 56
  | .bcrc3 => 64
  | .bcrc4 => 72
  | .randbit => 80
  | .origptr1 => 81
  | .origptr2 => 89
  | .origptr3 => 97
  | .endhdr2 | .endhdr3 | .endhdr4 | .endhdr5 | .endhdr6 => 0
  | .ccrc1 | .ccrc2 | .ccrc3 | .ccrc4 => 0
  | _ => 105

/-- How many bytes a bit may stand for: a block of nine hundred thousand cells, five of them for 259
    bytes, behind a header of 105 bits. -/
def bytesPerBit : Nat := 450000

/-- What the parser has earned. -/
def Ctl.spend : Ctl → Nat
  | .get l => bytesPerBit * l.since
  | .fast => bytesPerBit * 105 + 1
  | .block => bytesPerBit * 105
  | .ret _ => 0

theorem since_le (l : Label) : l.since ≤ 105 := by
  cases l <;> exact Nat.le_of_ble_eq_true rfl

theorem Ctl.spend_le (ctl : Ctl) : ctl.spend ≤ bytesPerBit * 105 + 1 := by
  cases ctl with
  | get l => exact Nat.le_succ_of_le (Nat.mul_le_mul_left _ (since_le l))
  | fast => exact Nat.le_refl _
  | block => exact Nat.le_succ _
  | ret r => exact Nat.zero_le _

theorem beginVal_spend (p : Parse) (site : MtfSite) :
    (p.beginVal site).2.2.spend ≤ bytesPerBit * 105 := by
  unfold Parse.beginVal
  split
  · dsimp only
    split
    · exact Nat.zero_le _
    · exact Nat.le_refl _
  · exact Nat.le_refl _

/-- **A label pays for what follows it with its bits.** -/
theorem resume_spend (ver : Version) (p : Parse) (l : Label) (v : Nat) (hn : 1 ≤ l.nbits) :
    (p.resume ver l v).2.2.spend ≤ (Ctl.get l).spend + bytesPerBit * l.nbits := by
  have earned : (Ctl.get l).spend + bytesPerBit * l.nbits = bytesPerBit * (l.since + l.nbits) :=
    (Nat.mul_add _ _ _).symm
  rw [earned]
  have fail : ∀ {q : Parse} {r : Ret}, (q.fail r).2.2.spend ≤ bytesPerBit * (l.since + l.nbits) :=
    Nat.zero_le _
  have goto : ∀ {q : Parse} {l' : Label}, l'.since ≤ l.since + l.nbits →
      (q.goto l').2.2.spend ≤ bytesPerBit * (l.since + l.nbits) :=
    fun h => Nat.mul_le_mul_left _ h
  have expect : ∀ {w k : Nat} {r : Ret} {l' : Label}, l'.since ≤ l.since + l.nbits →
      (p.expect w k r l').2.2.spend ≤ bytesPerBit * (l.since + l.nbits) := by
    intro w k r l' h
    unfold Parse.expect
    split
    · exact fail
    · exact goto h
  -- behind the header a bit pays for anything
  have inside : l.since = 105 →
      (p.resume ver l v).2.2.spend ≤ bytesPerBit * (l.since + l.nbits) := by
    intro hl
    refine Nat.le_trans (Ctl.spend_le _) ?_
    have hmul := Nat.mul_le_mul_left bytesPerBit (show 106 ≤ l.since + l.nbits by omega)
    have hk : bytesPerBit * 105 + 1 ≤ bytesPerBit * 106 := by decide
    exact Nat.le_trans hk hmul
  cases l with
  | mapping1 | mapping2 | selector1 | selector2 | selector3 | coding1 | coding2 | coding3 =>
    exact inside rfl
  | mtf site zn => exact inside rfl
  | mtfNext site zn zvec => exact inside rfl
  | blkhdr1 =>
    unfold Parse.resume
    dsimp only
    split
    · exact goto (by decide)
    · exact expect (by decide)
  | magic1 | magic2 | magic3 | blkhdr2 | blkhdr3 | blkhdr4 | blkhdr5 =>
    exact expect (by decide)
  | endhdr2 | endhdr3 | endhdr4 | endhdr5 => exact expect (by decide)
  | magic4 | blkhdr6 | origptr3 | endhdr6 =>
    unfold Parse.resume
    dsimp only
    split
    · exact fail
    · exact goto (by decide)
  | ccrc4 => exact fail
  | _ => exact goto (by decide)

/-! ## 2. A run fetched -/

theorem get_used {e : OutEnv} {o q : Out} {k : Byte} (h : o.get e = some (k, q)) :
    q.nblockUsed = o.nblockUsed + 1 ∧ q.stateOutLen = o.stateOutLen := by
  cases hn : e.next o.tPos with
  | none =>
    unfold Out.get at h
    rw [hn] at h
    cases h
  | some r =>
    obtain ⟨b, t⟩ := r
    rw [get_took hn] at h
    cases h
    exact ⟨rfl, rfl⟩

/-- **A run is paid for by the cells it takes**: at most 52 bytes each. -/
theorem fetchSlow_used {e : OutEnv} {o q : Out} (h : fetchSlow e o = (false, q)) :
    q.stateOutLen + 52 * o.nblockUsed < 52 * q.nblockUsed := by
  unfold fetchSlow at h
  dsimp only at h
  split at h
  · cases h
  · rename_i h1
    obtain ⟨u1, l1⟩ := get_used h1
    dsimp only at u1 l1
    split at h
    · cases h
      omega
    · split at h
      · cases h
        dsimp only
        omega
      · split at h
        · cases h
        · rename_i h2
          obtain ⟨u2, l2⟩ := get_used h2
          dsimp only at u2 l2
          split at h
          · cases h
            omega
          · split at h
            · cases h
              dsimp only
              omega
            · split at h
              · cases h
              · rename_i h3
                obtain ⟨u3, l3⟩ := get_used h3
                dsimp only at u3 l3
                split at h
                · cases h
                  omega
                · split at h
                  · cases h
                    dsimp only
                    omega
                  · split at h
                    · cases h
                    · rename_i k _ h4
                      obtain ⟨u4, -⟩ := get_used h4
                      split at h
                      · cases h
                      · rename_i h5
                        obtain ⟨u5, l5⟩ := get_used h5
                        dsimp only at u5 l5
                        have hk := k.isLt
                        cases h
                        dsimp only
                        omega

section

variable {μ : Type} [MtfList μ] {small : Bool} {c : Core μ}

omit [MtfList μ] in
/-- In either routine. -/
theorem fetch_used {s : Int → Nat} (hw : Walk small s c) (hu : c.out.nblockUsed ≤ c.p.nblock) {q : Out}
    (h : c.fetch small = some q) : q.stateOutLen + 52 * c.out.nblockUsed < 52 * q.nblockUsed := by
  obtain ⟨f, s₁, hf, hs₁, hB⟩ := fetch_fast_slow hw.lane hw.lane rfl rfl
    (TwinOut.refl (c.env small).nblock (c.env small).randomised c.out) hw.on hw.on hu
  have hslow := fetchSlow_used hs₁
  rw [fetch_eq, hs₁, hf] at h
  split at h
  · cases h
    exact hslow
  · cases h
    rw [hB.twin.len, hB.twin.used] at hslow
    exact hslow

/-! ## 3. The machine -/

/-- What the machine may still do without reading. -/
def spend : Core μ × Point → Nat
  | (_, .parser ctl) => ctl.spend
  | (c, .output) => 52 * (c.p.nblock + 6 - c.out.nblockUsed) + c.out.stateOutLen + 1

/-- The whole of a block is earned by its header. -/
theorem block_spend {n : Nat} (hn : n ≤ 900000) : 52 * (n + 5) + 1 < bytesPerBit * 105 := by
  have : bytesPerBit * 105 = 47250000 := rfl
  omega

/-- **The machine pays for what it does.** -/
theorem bitDecoder_pays (ver : Version) (small : Bool) (s : Core μ × Point) (hs : Sane small s) :
    NodePays (Sane small) spend bytesPerBit s (bitDecoder ver small s) := by
  -- what follows is in order
  have hsane := bitDecoder_twin mtfSim_eq ver ver s s hs
  obtain ⟨c, pt⟩ := s
  cases hM : bitDecoder ver small (c, pt) with
  | halt r => trivial
  | read n k =>
    rw [hM] at hsane
    obtain ⟨l, rfl, rfl, rfl⟩ := bitDecoder_read hM
    have hpos := (nbits_range hs.2).1
    exact ⟨hpos, fun x hx => ⟨hsane.2 x hx, resume_spend ver c.p l _ hpos⟩⟩
  | emit b s' =>
    rw [hM] at hsane
    obtain ⟨rfl, hlen, -, rfl⟩ := bitDecoder_emit hM
    refine ⟨hsane.2, ?_⟩
    show 52 * (c.p.nblock + 6 - c.out.nblockUsed) + (c.out.stateOutLen - 1) + 1 <
      52 * (c.p.nblock + 6 - c.out.nblockUsed) + c.out.stateOutLen + 1
    omega
  | move s' =>
    rw [hM] at hsane
    refine ⟨hsane, ?_⟩
    rcases bitDecoder_move hM with ⟨rfl, rfl⟩ | ⟨rfl, rfl⟩ | ⟨rfl, d, hd, rfl⟩ |
      ⟨rfl, -, -, d, -, rfl⟩ | ⟨rfl, hlen, hu, q, hq, rfl⟩
    · exact Nat.lt_succ_of_le (beginVal_spend c.p .literal)
    · -- the pointer reversal does not stand still
      exfalso
      obtain ⟨ht, hr⟩ := hs
      unfold bitDecoder at hM
      dsimp only at hM
      rcases endBlock_twin rfl rfl hr (ht.store trivial) with ⟨-, he, -⟩ | ⟨e, -, he, -, -⟩
      · rw [he] at hM
        cases hM
      · rw [he] at hM
        cases hM
    · obtain ⟨ht, hr⟩ := hs
      have hb : BlockOk c.p := hr
      have hbs := hb.alpha.bs.2
      have hmax := hb.max
      have hle := hb.le
      rcases endBlock_twin rfl rfl hr (ht.store trivial) with ⟨-, he, -⟩ |
        ⟨e, -, he, -, -, hp, hlen, hused, -⟩
      · rw [he] at hd
        cases hd
      · rw [he] at hd
        cases hd
        have hspend := block_spend (n := c.p.nblock) (by omega)
        show 52 * (d.p.nblock + 6 - d.out.nblockUsed) + d.out.stateOutLen + 1 < bytesPerBit * 105
        rw [hp, hlen, hused]
        omega
    · exact Nat.succ_pos _
    · obtain ⟨-, -, -, a, hw, -⟩ := hs
      have hused := fetch_used hw hu hq
      obtain ⟨-, -, -, b, hw', -⟩ := hsane
      have hhigh : q.nblockUsed ≤ c.p.nblock + 2 := hw'.high
      show 52 * (c.p.nblock + 6 - q.nblockUsed) + q.stateOutLen + 1 <
        52 * (c.p.nblock + 6 - c.out.nblockUsed) + c.out.stateOutLen + 1
      omega

/-- **On every tape the machine comes to an end**: it halts, or it wants more bits than there are. -/
theorem decoder_stuck (ver : Version) {s : Core μ × Point} (hs : Sane small s) (t : List Bool) :
    ∃ w s' t', Steps (bitDecoder ver small) s t w s' t' ∧ Stuck (bitDecoder ver small) s' t' :=
  exists_stuck (bitDecoder_pays ver small) hs t

/-- From the start of a stream the machine gives out so much, at most. -/
theorem steps_bounded (ver : Version) {x : List Byte} {w : List Byte} {y : Core μ × Point}
    {u : List Bool} (h : Steps (bitDecoder ver small) (atStart small) (bytesBits x) w y u) :
    w.length ≤ 3600000 * x.length := by
  have hstart : Sane small (atStart small : Core μ × Point) :=
    ⟨⟨rfl, rfl, fun _ => rfl, fun h => h.elim⟩, trivial⟩
  obtain ⟨-, hpaid⟩ := h.paid (bitDecoder_pays ver small) hstart
  rw [length_bytesBits] at hpaid
  have h0 : spend (atStart small : Core μ × Point) = 0 := rfl
  have hmul : bytesPerBit * (8 * x.length) = 3600000 * x.length := by
    rw [← Nat.mul_assoc]
    rfl
  omega

/-! ## 4. Waiting for input -/

/-- A decoder that has fewer bits than its label asks for. -/
def DState.Waits (d : DState μ) : Prop := ∃ l, d.state = .parsing l ∧ d.bits.bsLive < l.nbits

variable [Build] {ver : Version} {x rest : List Byte} {calls : List DecompressCall} {d d' : DState μ}

/-- **Without input it goes on waiting.** -/
theorem DState.Waits.call (hd : d.Resting ver) (hw : d.Waits) {strm : BzStream}
    (h0 : strm.availIn = 0) :
    ∃ (d' : DState μ) (strm' : BzStream), bzDecompress ver d strm = some (.ok, d', strm') ∧
      strm'.out = strm.out ∧ strm'.availIn = 0 ∧ d'.Waits := by
  obtain ⟨l, hst, hlt⟩ := hw
  obtain ⟨r, d', strm', w, y, u, he, hs, hC, -⟩ := bzDecompress_sim ver hd strm
  have hempty : strm.input = [] := by
    unfold BzStream.input
    rw [h0]
    rfl
  have hnode : bitDecoder ver d.small (d.core, d.point) = .read l.nbits
      fun bits => standing (d.core.resume ver d.small l (bitsVal bits)) := by
    rw [point_parsing hst]
    rfl
  have hshort : (Qbz2.tape d.bits strm).length < l.nbits := by
    rw [Qbz2.tape, hempty, bytesBits_nil, List.append_nil, BitBuf.length_bits]
    exact hlt
  obtain ⟨rfl, hy, -⟩ := hs.of_stuck (.starved hnode hshort)
  rw [point_parsing hst] at hy
  cases hC with
  | full _ _ _ _ hst' =>
    rw [point_output hst'] at hy
    cases congrArg Prod.snd hy
  | starved hserved _ hd' hst' h0' =>
    refine ⟨d', strm', he, ?_, h0', _, hst', hd'.starved _ hst'⟩
    rw [hserved.out, List.append_nil]
  | failed _ _ _ hh =>
    rw [hy, ← point_parsing hst, hnode] at hh
    cases hh
  | ended => cases congrArg Prod.snd hy

theorem waits_exhausted (hd : d.Resting ver) (hw : d.Waits) : d.Exhausted ver := by
  intro strm h0
  obtain ⟨d', strm', he, hout, -⟩ := hw.call hd h0
  exact ⟨d', strm', he, hout⟩

/-- **A call that returns `BZ_OK` takes or delivers a byte**, if it has room, unless it finds nothing
    left to take and waits. -/
theorem DState.Resting.moves (hd : d.Resting ver) {c : DecompressCall} (hoffer : c.strm.input <+: rest)
    (hc : bzDecompress ver d c.strm = some (c.ret, d', c.strm')) (hret : c.ret = .ok)
    (hroom : 1 ≤ c.strm.availOut) (hin : rest ≠ [] → 1 ≤ c.strm.availIn) :
    1 ≤ c.taken + c.given.length ∨ rest = [] ∧ d'.Waits := by
  obtain ⟨more, hmore⟩ := hoffer
  obtain ⟨w, y, u, -, -, hC, -⟩ := call_sim ver hd hmore.symm hc
  rw [hret] at hC
  cases hC with
  | full hserved _ _ h0 _ =>
    left
    have hav := hserved.availOut
    rw [hserved.given]
    omega
  | starved hserved _ hd' hst h0 =>
    by_cases hrest : rest = []
    · exact .inr ⟨hrest, _, hst, hd'.starved _ hst⟩
    · left
      have := hin hrest
      unfold DecompressCall.taken
      omega
  | failed _ _ _ _ hne _ => exact absurd rfl hne

/-! ## 5. Runs -/

/-- **The calls of a steady run** are no more than the bytes they moved, until there is nothing left
    to take and the decoder waits. -/
theorem DecompressRun.count (h : DecompressRun ver small x calls d rest) (hsteady : Steady x calls)
    (hok : ∀ c ∈ calls, c.ret = .ok) :
    calls.length ≤ (calls.map DecompressCall.taken).sum + (delivered calls).length ∨
      rest = [] ∧ d.Waits := by
  induction h with
  | init => exact .inl (Nat.zero_le _)
  | @call calls d d' rest h hok' c hoffer hc ih =>
    obtain ⟨hd, -, -⟩ := run_sim ver h hok'
    obtain ⟨hrest, hle⟩ := run_rest h
    obtain ⟨hroom, hin⟩ := hsteady calls c [] rfl
    have hret := hok c (List.mem_append_right _ List.mem_cons_self)
    rcases ih hsteady.front hok' with hcount | ⟨rfl, hwaits⟩
    · rcases hd.moves hoffer hc hret hroom (fun hne => hin (by
        by_contra hge
        exact hne (by rw [hrest]; exact List.drop_eq_nil_of_le (by omega)))) with hmoves | ⟨rfl, hw⟩
      · left
        rw [List.length_append, List.length_singleton, List.map_append, List.sum_append,
          List.map_singleton, List.sum_singleton, delivered_concat, List.length_append]
        omega
      · exact .inr ⟨List.drop_nil, hw⟩
    · have h0 : c.strm.availIn = 0 := by
        have hlen := hoffer.length_le
        rw [BzStream.input, length_bytesAt] at hlen
        exact Nat.le_zero.mp hlen
      obtain ⟨e, strm', he, -, -, hw⟩ := hwaits.call hd h0
      obtain rfl : d' = e := congrArg (fun r => r.2.1) (Option.some.inj (hc.symm.trans he))
      exact .inr ⟨List.drop_nil, hw⟩

/-- What a run delivers is what the machine gives out, as far as it goes. -/
theorem DecompressRun.front (h : DecompressRun ver small x calls d rest) :
    ∃ (w : List Byte) (y : Core μ × Point) (u : List Bool),
      Steps (bitDecoder ver small) (atStart small) (bytesBits x) w y u ∧ delivered calls <+: w := by
  cases h with
  | init => exact ⟨[], _, _, .refl _ _, List.prefix_refl _⟩
  | @call calls d₀ _ rest h hok c hoffer hc =>
    obtain ⟨hd, rfl, hs⟩ := run_sim ver h hok
    obtain ⟨more, hmore⟩ := hoffer
    obtain ⟨w, y, u, hs', -, hC, -⟩ := call_sim ver hd hmore.symm hc
    refine ⟨_, y, _, hs.trans hs', ?_⟩
    rw [delivered_concat]
    refine (List.prefix_append_right_inj _).mpr ?_
    generalize c.ret = r at hC
    cases hC with
    | full hserved => rw [hserved.given]
    | starved hserved => rw [hserved.given]
    | failed hserved hpre => rwa [hserved.given]
    | ended hserved _ hgive =>
      have hall := hserved.trans (giveBack_served hgive)
      rw [List.append_nil] at hall
      rw [hall.given]

/-- A steady run of more calls than there are bytes to take and to give out has come to its end. -/
theorem DecompressRun.finished (h : DecompressRun ver small x calls d rest) (hsteady : Steady x calls)
    (hlong : 3600001 * x.length < calls.length) : Finished ver calls d rest := by
  by_cases hok : lastRet calls = .ok
  · obtain ⟨hd, -, hs⟩ := run_sim ver h (h.all_ok hok)
    rcases h.count hsteady (h.all_ok hok) with hcount | ⟨hrest, hwaits⟩
    · have hgiven := steps_bounded ver hs
      have htaken := (run_rest h).2
      omega
    · exact .inr ⟨hrest, waits_exhausted hd hwaits⟩
  · exact .inl hok

/-- **A run on an input over which the machine gives out `w` and is stuck then**: it delivers the front
    of `w`, and where it has come to its end, it has come to that of the machine. -/
theorem DecompressRun.outcome (h : DecompressRun ver small x calls d rest) {w : List Byte}
    {y : Core μ × Point} {u : List Bool}
    (hs : Steps (bitDecoder ver small) (atStart small) (bytesBits x) w y u)
    (hstuck : Stuck (bitDecoder ver small) y u) {r : Ret} (hr : verdict (bitDecoder ver small y) = r) :
    delivered calls <+: w ∧
      (Finished ver calls d rest → lastRet calls = r ∧
        (r = .ok ∨ r = .streamEnd → delivered calls = w) ∧
        (r = .streamEnd → rest = x.drop (x.length - u.length / 8))) := by
  subst hr
  refine ⟨?_, fun hfin => ?_⟩
  · obtain ⟨w', y', u', hs', hpre⟩ := h.front
    obtain ⟨w'', -, rfl⟩ := hs'.to_stuck hs hstuck
    exact hpre.trans (List.prefix_append _ _)
  · obtain ⟨w', y', u', hs', hstuck', hret, hw⟩ := finished_stuck ver h hfin
    obtain ⟨rfl, rfl, rfl⟩ := hs.unique hstuck hs' hstuck'
    refine ⟨hret, fun hr => (hw ?_).symm, fun hr => ?_⟩
    · rw [hret]
      exact hr.symm
    · obtain ⟨y', u', hs', hM, hlen⟩ := ended_rest ver h (hret.trans hr)
      obtain ⟨-, -, rfl⟩ := hs.unique hstuck hs' (.halted hM)
      obtain ⟨hrest, hle⟩ := run_rest h
      have hdrop := congrArg List.length hrest
      rw [List.length_drop] at hdrop
      rw [hrest]
      congr 1
      omega

end

section

variable {μ : Type} [MtfList μ]

/-- The machine is stuck on every input, at the end of it or before. -/
theorem exists_stuck (ver : Version) (small : Bool) (x : List Byte) :
    ∃ (w : List Byte) (y : Core μ × Point) (u : List Bool),
      Steps (bitDecoder ver small) (atStart small) (bytesBits x) w y u ∧
      Stuck (bitDecoder ver small) y u :=
  have hstart : Sane small (atStart small : Core μ × Point) :=
    ⟨⟨rfl, rfl, fun _ => rfl, fun h => h.elim⟩, trivial⟩
  decoder_stuck ver hstart (bytesBits x)

variable [Build]

/-- **Every input has one outcome**, whatever it holds: a code, `BZ_OK` standing for the wish for more
    input, at most 3600000 bytes of output for each byte of it, and what is left of it at the end of
    a stream. Whatever the calls offer, they deliver the front of that output; and a run that comes
    to its end comes to that code, having delivered all of the output unless the code is an error.
    It does come to its end if every call has room, and input as long as there is any: after so many
    calls, at most. -/
theorem bzDecompress_outcome (ver : Version) (small : Bool) (x : List Byte) :
    ∃ (r : Ret) (w left : List Byte), w.length ≤ 3600000 * x.length ∧
      ∀ (calls : List DecompressCall) (d : DState μ) (rest : List Byte),
        DecompressRun ver small x calls d rest →
        delivered calls <+: w ∧
        (Finished ver calls d rest → lastRet calls = r ∧
          (r = .ok ∨ r = .streamEnd → delivered calls = w) ∧ (r = .streamEnd → rest = left)) ∧
        (Steady x calls → 3600001 * x.length < calls.length → Finished ver calls d rest) := by
  obtain ⟨w, y, u, hs, hstuck⟩ := @exists_stuck μ _ ver small x
  refine ⟨verdict (bitDecoder ver small y), w, x.drop (x.length - u.length / 8),
    steps_bounded ver hs, fun calls d rest h => ?_⟩
  obtain ⟨hfront, hends⟩ := h.outcome hs hstuck rfl
  exact ⟨hfront, hends, h.finished⟩

end

/-- The stream of one byte and something after it; and no input at all, in one call. -/
theorem bzDecompress_outcome_oneByte :
    (∃ (calls : List DecompressCall) (d : DState FlatMtf) (rest : List Byte),
      @DecompressRun _ _ sortingEnv.toBuild .qbz2 true (oneByteFile ++ [0xff]) calls d rest ∧
      calls.length = 2) ∧
    (∀ (calls : List DecompressCall) (d : DState FlatMtf) (rest : List Byte),
      @DecompressRun _ _ sortingEnv.toBuild .qbz2 true (oneByteFile ++ [0xff]) calls d rest →
      delivered calls <+: [0x61] ∧
      (@Finished _ _ sortingEnv.toBuild .qbz2 calls d rest →
        lastRet calls = .streamEnd ∧ delivered calls = [0x61] ∧ rest = [0xff])) ∧
    ∃ (c : DecompressCall) (d : DState FlatMtf) (rest : List Byte),
      @DecompressRun _ _ sortingEnv.toBuild .qbz2 true [] [c] d rest ∧
      @Finished _ _ sortingEnv.toBuild .qbz2 [c] d rest := by
  let _ : CompressEnv := sortingEnv
  obtain ⟨u, hz, hu⟩ := oneByte_decodes true
  obtain ⟨-, d, s₁, s₂, rest, -, h⟩ := oneByte_decoded_twice true (show 26 < 37 by decide) [0xff]
  refine ⟨⟨_, d, rest, h, rfl⟩, ?_, ?_⟩
  · -- this run tells what the outcome is
    obtain ⟨r, w, left, -, hall⟩ :=
      @bzDecompress_outcome FlatMtf _ _ .qbz2 true (oneByteFile ++ [0xff])
    obtain ⟨hret, hw, hleft⟩ := (hall _ _ _ h).2.1 (.inl nofun)
    obtain rfl : r = .streamEnd := hret.symm
    have hdelivered := ((hz.followed [0xff]).run h).2.2.1 rfl
    have hrest := hz.ends hu h rfl
    rw [← hw (.inr rfl), hdelivered, ← hleft rfl, hrest] at hall
    exact fun calls d rest h => ⟨(hall calls d rest h).1, fun hfin =>
      ⟨((hall calls d rest h).2.1 hfin).1, ((hall calls d rest h).2.1 hfin).2.1 (.inr rfl),
        ((hall calls d rest h).2.1 hfin).2.2 rfl⟩⟩
  · obtain ⟨d, s, hc⟩ : ∃ (d : DState FlatMtf) (s : BzStream),
        bzDecompress .qbz2 (DState.init true) (offering []) = some (.ok, d, s) := ⟨_, _, rfl⟩
    have hrun : DecompressRun .qbz2 true [] [⟨offering [], .ok, s⟩] d _ :=
      .call .init (fun c hc => absurd hc List.not_mem_nil) ⟨offering [], .ok, s⟩
        (List.prefix_refl _) hc
    obtain ⟨r, w, left, -, hall⟩ := @bzDecompress_outcome FlatMtf _ _ .qbz2 true []
    refine ⟨_, d, _, hrun, (hall _ _ _ hrun).2.2 ?_ (show 3600001 * 0 < 1 by decide)⟩
    intro before c after he
    cases before with
    | nil =>
      cases he
      exact ⟨Nat.le_refl 1, fun h => absurd h (Nat.lt_irrefl 0)⟩
    | cons _ before => cases before <;> cases he

end Qbz2
