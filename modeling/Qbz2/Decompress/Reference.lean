/-
  File:      Qbz2/Decompress/Reference.lean
  Subject:   The decoder against the reference decoder kept in `src/reference/bzip2`.

  * `Answer` -- what `BZ2_bzBuffToBuffDecompress` answers, read off the machine: it has filled the
    buffer with more to come, or it has taken the machine to where it cannot go on;
  * `Answer.unique` -- there is one answer to an input and a room for the output;
  * `Answer.transfer` -- and it is the same for two decoders that cannot be told apart;
  * **`bzBuffToBuffDecompress_conforms`** -- so both decoders return the same code, and with `BZ_OK`
    the same bytes.
-/
import Qbz2.Decompress.Chunks
import Qbz2.Decompress.RefMtf

namespace Qbz2

open Transducer Bits

section

variable {μ : Type}

/-! ## 1. A full buffer -/

/-- A block with more to come, where the output routine has stopped for want of room: whole runs
    leave a byte to be given out. -/
structure Held (small : Bool) (x : Core μ × Point) : Prop where
  output : x.2 = .output
  more : ¬(x.1.out.nblockUsed = x.1.p.nblock + 1 ∧ x.1.out.stateOutLen = 0)
  fast : (small || x.1.p.blockRandomised) = false → 0 < x.1.out.stateOutLen

/-- A corrupt block, given out byte by byte to its end. -/
def Overrun (small : Bool) (x : Core μ × Point) : Prop :=
  x.2 = .output ∧ (small || x.1.p.blockRandomised) = true ∧ x.1.p.nblock + 1 < x.1.out.nblockUsed

section

variable [MtfList μ] {ver : Version} {small : Bool} {y y' : Core μ × Point} {u u' : List Bool}

/-- **Where the output has stopped, more is given out before the machine comes to its end**, unless
    the block is corrupt. -/
theorem Held.to_stuck (h : Held small y) (hS : Sane small y)
    (hs : Steps (bitDecoder ver small) y u [] y' u') (hk : Stuck (bitDecoder ver small) y' u') :
    Overrun small y ∧ y' = y := by
  obtain ⟨c, pt⟩ := y
  obtain ⟨rfl, hmore, hfast⟩ := h
  dsimp only at hmore hfast
  -- a byte given out on the way
  have emits : ∀ o : Out, 0 < o.stateOutLen →
      Steps (bitDecoder ver small) (c, .output) u [] (c.giving o) u → False := by
    intro o ho hto
    obtain ⟨w, -, hw⟩ := (hto.trans (giving_emit o ho)).to_stuck hs hk
    cases hw
  by_cases h0 : c.out.stateOutLen = 0
  · by_cases hu : c.out.nblockUsed ≤ c.p.nblock
    · obtain ⟨q, hq, hpos, -⟩ := giving_sane (o := c.out) hS hu
      exact (emits q hpos (giving_fetch h0 hu hq)).elim
    · have hover : c.p.nblock + 1 < c.out.nblockUsed := by omega
      have hnode : bitDecoder ver small (c, .output) = .halt .dataError := by
        unfold bitDecoder
        dsimp only
        rw [if_neg (by omega), if_pos hover]
      refine ⟨⟨rfl, ?_, hover⟩, (hs.of_stuck (.halted hnode)).2.1⟩
      cases hslow : small || c.p.blockRandomised with
      | true => rfl
      | false => exact absurd (hfast hslow) (by omega)
  · exact (emits c.out (Nat.pos_of_ne_zero h0) (.refl _ _)).elim

/-! ## 2. The answer -/

/-- The code for a machine that cannot go on, there being room left or not. -/
def codeOf (node : Node (Core μ × Point) Bool Byte Ret) (room : Bool) : Ret :=
  match node with
  | .halt .streamEnd => .ok
  | .halt r => r
  | _ => if room then .unexpectedEof else .outbuffFull

/-- **The answer to an input**, with room for `room` bytes: the code, and what has been given out. -/
inductive Answer (ver : Version) (small : Bool) (room : Nat) :
    Ret → List Byte → Core μ × Point → List Bool → Prop
  | full {w : List Byte} {y : Core μ × Point} {u : List Bool} (hw : w.length = room)
      (hh : Held small y) : Answer ver small room .outbuffFull w y u
  | stuck {w : List Byte} {y : Core μ × Point} {u : List Bool}
      (hk : Stuck (bitDecoder ver small) y u) (hw : w.length ≤ room)
      (hlate : Overrun small y → w.length < room) :
      Answer ver small room (codeOf (bitDecoder ver small y) (decide (w.length < room))) w y u

variable {room : Nat} {r r' : Ret} {w w' : List Byte} {s : Core μ × Point} {t : List Bool}

/-- A buffer filled with more to come is not one that holds everything. -/
theorem Answer.full_or_stuck (hs : Steps (bitDecoder ver small) s t w y u) (hw : w.length = room)
    (hh : Held small y) (hS : Sane small y) (hs' : Steps (bitDecoder ver small) s t w' y' u')
    (hk : Stuck (bitDecoder ver small) y' u') (hw' : w'.length ≤ room)
    (hlate : Overrun small y' → w'.length < room) : False := by
  obtain ⟨v, hv, rfl⟩ := hs.to_stuck hs' hk
  rw [List.length_append] at hw' hlate
  obtain rfl : v = [] := List.length_eq_zero_iff.mp (by omega)
  obtain ⟨hover, rfl⟩ := hh.to_stuck hS hv hk
  have := hlate hover
  omega

/-- **There is one answer.** -/
theorem Answer.unique (hs : Steps (bitDecoder ver small) s t w y u)
    (h : Answer ver small room r w y u) (hS : Sane small s)
    (hs' : Steps (bitDecoder ver small) s t w' y' u') (h' : Answer ver small room r' w' y' u') :
    r' = r ∧ (r = .ok → w' = w) := by
  have hSy := sane_steps hs hS
  have hSy' := sane_steps hs' hS
  cases h with
  | full hw hh =>
    cases h' with
    | full hw' hh' => exact ⟨rfl, nofun⟩
    | stuck hk' hw' hlate' => exact (Answer.full_or_stuck hs hw hh hSy hs' hk' hw' hlate').elim
  | stuck hk hw hlate =>
    cases h' with
    | full hw' hh' => exact (Answer.full_or_stuck hs' hw' hh' hSy' hs hk hw hlate).elim
    | stuck hk' hw' hlate' =>
      obtain ⟨rfl, rfl, rfl⟩ := hs.unique hk hs' hk'
      exact ⟨rfl, fun _ => rfl⟩

/-! ## 3. One call -/

/-- **A call of `BZ2_bzBuffToBuffDecompress` answers as the machine says.** -/
theorem buffToBuff_answer [Build] (ver : Version) (small : Bool) (strm : BzStream) :
    ∃ (r : Ret) (out : List Byte) (destLen : Nat) (w : List Byte) (y : Core μ × Point)
      (u : List Bool), bzBuffToBuffDecompress μ ver strm small = some (r, out, destLen) ∧
      Steps (bitDecoder ver small) (atStart small) (bytesBits strm.input) w y u ∧
      Answer ver small strm.availOut r w y u ∧
      (r = .ok → out = strm.out ++ w ∧ destLen = w.length) := by
  obtain ⟨r, d, strm', w, y, u, he, hs, hC, -⟩ :=
    @bzDecompress_sim μ _ _ ver _ (resting_decompressInit ver small) strm.decompressInit
  unfold bzBuffToBuffDecompress
  rw [he]
  dsimp only
  have hroom : strm.decompressInit.availOut = strm.availOut := rfl
  have hout : strm.decompressInit.out = strm.out := rfl
  cases hC with
  | full hserved hle hd h0 hst hmore hheld =>
    have hav := hserved.availOut
    have hpt := point_output hst
    dsimp only
    rw [if_neg (by omega)]
    refine ⟨.outbuffFull, _, _, w, _, _, rfl, hs, .full (by omega) ?_, fun h => absurd h (by decide)⟩
    rw [hpt]
    exact ⟨rfl, hmore, hheld⟩
  | @starved d strm' w l hserved hle hd hst h0 =>
    have hav := hserved.availOut
    have hpt := point_parsing hst
    have hk : Stuck (bitDecoder ver small) (d.core, d.point) (tape d.bits strm') := by
      have hin : strm'.input = [] := by
        unfold BzStream.input
        rw [h0]
        rfl
      rw [hpt]
      refine .starved rfl ?_
      rw [tape, hin, bytesBits_nil, List.append_nil, BitBuf.length_bits]
      exact hd.starved l hst
    have hcode : codeOf (bitDecoder ver small (d.core, d.point)) (decide (w.length < strm.availOut)) =
        if strm'.availOut > 0 then .unexpectedEof else .outbuffFull := by
      rw [hpt]
      unfold codeOf bitDecoder
      dsimp only
      by_cases hlt : strm'.availOut > 0
      · rw [if_pos hlt, if_pos (decide_eq_true (by omega))]
      · rw [if_neg hlt, if_neg (by rw [decide_eq_true_eq]; omega)]
    have hlate : Overrun small (d.core, d.point) → w.length < strm.availOut := by
      rw [hpt]
      exact fun h => Point.noConfusion h.1
    have hans := Answer.stuck hk (by omega : w.length ≤ strm.availOut) hlate
    rw [hcode] at hans
    dsimp only
    split at hans
    · rename_i hlt
      rw [if_pos hlt]
      exact ⟨_, _, _, w, _, _, rfl, hs, hans, fun h => absurd h (by decide)⟩
    · rename_i hlt
      rw [if_neg hlt]
      exact ⟨_, _, _, w, _, _, rfl, hs, hans, fun h => absurd h (by decide)⟩
  | failed hserved hpre hlen hh hok hend hlate =>
    replace hh : bitDecoder ver small y = .halt r := hh
    have hcode : codeOf (bitDecoder ver small y) (decide (w.length < strm.availOut)) = r := by
      rw [hh]
      unfold codeOf
      cases r <;> first | rfl | exact absurd rfl hend
    have hans := Answer.stuck (.halted hh : Stuck (bitDecoder ver small) y u) hlen
      fun hover => hlate hover.1 hover.2.1 hover.2.2
    rw [hroom, hcode] at hans
    cases r with
    | ok => exact absurd rfl hok
    | streamEnd => exact absurd rfl hend
    | _ => exact ⟨_, _, _, w, y, u, rfl, hs, hans, fun h => absurd h (by decide)⟩
  | @ended d d' strm₁ strm' w hserved hle hgive hcrc =>
    have hall := hserved.trans (giveBack_served hgive)
    rw [List.append_nil] at hall
    have hav := hall.availOut
    have hnode : bitDecoder ver small (d.core, .parser (.ret .streamEnd)) = .halt .streamEnd :=
      if_neg (not_not_intro hcrc)
    have hans := @Answer.stuck μ _ ver small strm.availOut w _ (tape d.bits strm₁) (.halted hnode)
      (by omega) fun h => Point.noConfusion h.1
    rw [hnode] at hans
    exact ⟨.ok, _, _, w, _, _, rfl, hs, hans, fun _ => ⟨hall.out, by omega⟩⟩

end

/-! ## 4. Two decoders -/

section

variable {μ' : Type} [MtfList μ] [MtfList μ'] {R : μ → μ' → Prop} {ver ver' : Version} {small : Bool}
  {y : Core μ × Point} {y' : Core μ' × Point} {u : List Bool}

omit [MtfList μ] [MtfList μ'] in
/-- Both stand at the same place, and where they give out a block, the same of the same block. -/
theorem TwinState.same (h : TwinState R small small y y') : y'.2 = y.2 ∧
    (y.2 = .output → y'.1.p = y.1.p ∧ y'.1.out.stateOutLen = y.1.out.stateOutLen ∧
      y'.1.out.nblockUsed = y.1.out.nblockUsed) := by
  obtain ⟨c, pt⟩ := y
  obtain ⟨c', pt'⟩ := y'
  cases pt with
  | output =>
    cases pt' with
    | output =>
      obtain ⟨hp, -, hout, -⟩ : TwinBlock small small c c' := h
      exact ⟨rfl, fun _ => ⟨hp, hout.len, hout.used⟩⟩
    | parser _ => exact h.elim
  | parser ctl =>
    cases pt' with
    | output => exact h.elim
    | parser ctl' => exact ⟨congrArg Point.parser h.1.ctl, nofun⟩

omit [MtfList μ] [MtfList μ'] in
theorem Held.twin (h : Held small y) (hy : TwinState R small small y y') : Held small y' := by
  obtain ⟨hpt, hsame⟩ := hy.same
  obtain ⟨hp, hlen, hused⟩ := hsame h.output
  refine ⟨hpt.trans h.output, ?_, ?_⟩
  · rw [hp, hlen, hused]
    exact h.more
  · rw [hp, hlen]
    exact h.fast

omit [MtfList μ] [MtfList μ'] in
theorem Overrun.twin (h : Overrun small y') (hy : TwinState R small small y y') : Overrun small y := by
  obtain ⟨hpt, hsame⟩ := hy.same
  obtain ⟨hout, hslow, hover⟩ := h
  obtain ⟨hp, -, hused⟩ := hsame (hpt.symm.trans hout)
  rw [hp] at hslow hover
  rw [hused] at hover
  exact ⟨hpt.symm.trans hout, hslow, hover⟩

/-- **The answer is the same for two decoders that cannot be told apart.** -/
theorem Answer.transfer (hR : MtfSim R) {room : Nat} {r : Ret} {w : List Byte}
    (h : Answer ver small room r w y u) (hy : TwinState R small small y y') :
    Answer ver' small room r w y' u := by
  have hnode := bitDecoder_twin hR ver ver' y y' hy
  cases h with
  | full hw hh => exact .full hw (hh.twin hy)
  | stuck hk hw hlate =>
    have hlate' : Overrun small y' → w.length < room := fun h => hlate (h.twin hy)
    cases hk with
    | @halted q hh =>
      rw [hh] at hnode ⊢
      cases hh' : bitDecoder ver' small y' with
      | halt r' =>
        rw [hh'] at hnode
        obtain rfl : q = r' := hnode
        have hans := Answer.stuck (.halted hh' : Stuck (bitDecoder ver' small) y' u) hw hlate'
        rw [hh'] at hans
        cases q <;> exact hans
      | _ =>
        rw [hh'] at hnode
        exact hnode.elim
    | starved hh hn =>
      rw [hh] at hnode ⊢
      cases hh' : bitDecoder ver' small y' with
      | read n' k' =>
        rw [hh'] at hnode
        obtain ⟨rfl, -⟩ := hnode
        have hans := Answer.stuck (.starved hh' hn : Stuck (bitDecoder ver' small) y' u) hw hlate'
        rw [hh'] at hans
        exact hans
      | _ =>
        rw [hh'] at hnode
        exact hnode.elim

/-- Two decoders at the start of a stream. -/
theorem twin_atStart (R : μ → μ' → Prop) (small small' : Bool) :
    TwinState R small small' (atStart small : Core μ × Point) (atStart small' : Core μ' × Point) :=
  ⟨⟨rfl, rfl, fun _ => rfl, fun h => h.elim⟩, trivial⟩

end

end

/-! ## 5. The reference decoder -/

variable [Build]

/-- **The decoder conforms to the reference decoder**: for every input, valid or not, every room for
    the output and either memory mode, both return the same code, and with `BZ_OK` they have written
    the same bytes and the same `*destLen`. -/
theorem bzBuffToBuffDecompress_conforms (strm : BzStream) (small : Bool) :
    ∃ (r : Ret) (out out' : List Byte) (destLen destLen' : Nat),
      bzBuffToBuffDecompress FlatMtf .qbz2 strm small = some (r, out, destLen) ∧
      bzBuffToBuffDecompress RefMtf .reference strm small = some (r, out', destLen') ∧
      (r = .ok → out' = out ∧ destLen' = destLen) := by
  obtain ⟨r, out, destLen, w, y, u, he, hs, hans, hok⟩ :=
    buffToBuff_answer (μ := FlatMtf) .qbz2 small strm
  obtain ⟨r', out', destLen', w', y', u', he', hs', hans', hok'⟩ :=
    buffToBuff_answer (μ := RefMtf) .reference small strm
  obtain ⟨y'', hs'', hy⟩ := hs.simulate (bitDecoder_twin mtfSim_reference .qbz2 .reference)
    (twin_atStart Shows small small)
  obtain ⟨rfl, hw⟩ := Answer.unique hs'' (hans.transfer mtfSim_reference hy)
    (twin_atStart Eq small small) hs' hans'
  refine ⟨r', out, out', destLen, destLen', he, he', fun hr => ?_⟩
  obtain ⟨hout, hlen⟩ := hok hr
  obtain ⟨hout', hlen'⟩ := hok' hr
  rw [hout, hout', hlen, hlen', hw hr]
  exact ⟨rfl, rfl⟩

end Qbz2
