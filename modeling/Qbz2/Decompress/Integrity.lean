/-
  File:      Qbz2/Decompress/Integrity.lean
  Subject:   The CRCs of a stream that is accepted.

  * `fetch_crc`, `endBlock_crc`, `finishBlock_crc` -- what happens to `calculatedBlockCRC` but the
    bytes that are given out;
  * `StreamBlocks` -- the blocks the machine has been through, each with the CRC that is stored for
    it and the bytes given out for it;
  * `Intact` -- the invariant: the CRC so far is that of the bytes of the block given out so far;
    `intact_steps`: in every run;
  * `cut_crc` -- in particular where a call returns in the middle of a block;
  * **`accepted_integrity`** -- where `BZ_STREAM_END` is returned, every CRC is right.
-/
import Qbz2.RoundTrip.Stream

namespace Qbz2

open Transducer Bits

/-! ## 1. The CRC from step to step -/

/-- A `BZ_GET` leaves the CRC alone. -/
theorem get_crc {e : OutEnv} {o q : Out} {k : Byte} (h : o.get e = some (k, q)) :
    q.calculatedBlockCRC = o.calculatedBlockCRC := by
  cases hn : e.next o.tPos with
  | none =>
    unfold Out.get at h
    rw [hn] at h
    cases h
  | some r =>
    obtain ⟨b, t⟩ := r
    rw [get_took hn] at h
    cases h
    rfl

theorem fetchSlow_crc {e : OutEnv} {o q : Out} (h : fetchSlow e o = (false, q)) :
    q.calculatedBlockCRC = o.calculatedBlockCRC := by
  unfold fetchSlow at h
  dsimp only at h
  split at h
  · cases h
  · rename_i h1
    have e1 := get_crc h1
    dsimp only at e1
    split at h
    · cases h
      exact e1
    · split at h
      · cases h
        exact e1
      · split at h
        · cases h
        · rename_i h2
          have e2 := (get_crc h2).trans e1
          split at h
          · cases h
            exact e2
          · split at h
            · cases h
              exact e2
            · split at h
              · cases h
              · rename_i h3
                have e3 := (get_crc h3).trans e2
                split at h
                · cases h
                  exact e3
                · split at h
                  · cases h
                    exact e3
                  · split at h
                    · cases h
                    · rename_i h4
                      have e4 := (get_crc h4).trans e3
                      split at h
                      · cases h
                      · rename_i h5
                        cases h
                        exact (get_crc h5).trans e4

section

variable {μ : Type} [MtfList μ] {small : Bool} {c : Core μ}

omit [MtfList μ] in
/-- Fetching a run leaves it alone, in either routine. -/
theorem fetch_crc {s : Int → Nat} (hw : Walk small s c) (hu : c.out.nblockUsed ≤ c.p.nblock) {q : Out}
    (h : c.fetch small = some q) : q.calculatedBlockCRC = c.out.calculatedBlockCRC := by
  obtain ⟨f, s₁, hf, hs₁, hB⟩ := fetch_fast_slow hw.lane hw.lane rfl rfl
    (TwinOut.refl (c.env small).nblock (c.env small).randomised c.out) hw.on hw.on hu
  have hslow := fetchSlow_crc hs₁
  rw [fetch_eq, hs₁, hf] at h
  split at h
  · cases h
    exact hslow
  · cases h
    exact hB.twin.crc.symm.trans hslow

omit [MtfList μ] in
theorem buildVector_crc {d : Core μ} (h : c.buildVector small = some d) :
    d.p = c.p ∧ d.calculatedCombinedCRC = c.calculatedCombinedCRC ∧
      d.out.calculatedBlockCRC = c.out.calculatedBlockCRC := by
  unfold Core.buildVector at h
  cases small with
  | true =>
    obtain ⟨st, -, rfl⟩ := Option.map_eq_some_iff.mp h
    exact ⟨rfl, rfl, rfl⟩
  | false =>
    cases h
    exact ⟨rfl, rfl, rfl⟩

omit [MtfList μ] in
theorem firstByte_crc (small : Bool) (c : Core μ) : (c.firstByte small).p = c.p ∧
    (c.firstByte small).calculatedCombinedCRC = c.calculatedCombinedCRC ∧
      (c.firstByte small).out.calculatedBlockCRC = c.out.calculatedBlockCRC := by
  have hmask : (if c.p.blockRandomised then { c.out with rNToGo := 0, rTPos := 0 }
      else c.out : Out).calculatedBlockCRC = c.out.calculatedBlockCRC := by split <;> rfl
  unfold Core.firstByte
  dsimp only
  split
  · exact ⟨rfl, rfl, hmask⟩
  · rename_i hget
    exact ⟨rfl, rfl, (get_crc hget).trans hmask⟩

omit [MtfList μ] in
/-- **A new block** starts with `BZ_INITIALISE_CRC`. -/
theorem endBlock_crc {d : Core μ} (h : c.endBlock small = some (d, none)) :
    d.p = c.p ∧ d.calculatedCombinedCRC = c.calculatedCombinedCRC ∧
      d.out.calculatedBlockCRC = initialiseCrc := by
  unfold Core.endBlock at h
  generalize c.store.makeCftab = st at h
  split at h
  · cases h
  · split at h
    · cases h
    · dsimp only at h
      split at h
      · cases h
      · obtain ⟨e, he, hd⟩ := Option.map_eq_some_iff.mp h
        cases hd
        obtain ⟨h1, h2, h3⟩ := buildVector_crc he
        obtain ⟨k1, k2, k3⟩ := firstByte_crc small e
        exact ⟨k1.trans h1, k2.trans h2, k3.trans h3⟩

/-- The combined CRC takes in that of a block: rotate left by 1, exclusive or. -/
def combineCrc (combined crc : Word32) : Word32 := combined.rotateLeft 1 ^^^ crc

omit [MtfList μ] in
/-- **The end of a block**: its CRC is the one that is stored, and is taken in. -/
theorem finishBlock_crc {d : Core μ} (h : c.finishBlock = (d, true)) :
    c.p.storedBlockCRC = finaliseCrc c.out.calculatedBlockCRC ∧ d.p = c.p ∧
      d.calculatedCombinedCRC = combineCrc c.calculatedCombinedCRC c.p.storedBlockCRC := by
  unfold Core.finishBlock at h
  dsimp only at h
  split at h
  · cases h
  · rename_i heq
    have hcrc : ~~~c.out.calculatedBlockCRC = c.p.storedBlockCRC := not_not.mp heq
    cases h
    refine ⟨hcrc.symm, rfl, ?_⟩
    rw [← hcrc]
    rfl

end

/-! ## 2. The blocks of a stream -/

section

variable {μ : Type} [MtfList μ] {small : Bool} {z : List Byte}

/-- A block: the CRC that is stored for it, and the bytes given out for it. -/
structure BlockOut where
  stored : Word32
  bytes : List Byte

/-- **The blocks the machine has been through** on `z`: each is parsed without output, is given out,
    and ends where the header of the next is expected. -/
inductive StreamBlocks (small : Bool) (z : List Byte) :
    List BlockOut → Core μ × Point → List Bool → Prop
  | start : StreamBlocks small z [] (atStart small) (bytesBits z)
  | block {blocks : List BlockOut} {s : Core μ × Point} {c₁ c₂ c₃ c₄ : Core μ} {t u : List Bool}
      {w : List Byte} (h : StreamBlocks small z blocks s t)
      (hparse : Steps (bitDecoder .qbz2 small) s t [] (c₁, .parser .block) u)
      (hbegin : bitDecoder .qbz2 small (c₁, .parser .block) = .move (c₂, .output))
      (hgive : Steps (bitDecoder .qbz2 small) (c₂, .output) u w (c₃, .output) u)
      (hend : bitDecoder .qbz2 small (c₃, .output) = .move (c₄, .parser (.get .blkhdr1))) :
      StreamBlocks small z (blocks ++ [⟨c₁.p.storedBlockCRC, w⟩]) (c₄, .parser (.get .blkhdr1)) u

/-- Where the machine stands after these blocks, with the bytes `w` given out since. -/
inductive Beyond (small : Bool) (z : List Byte) (blocks : List BlockOut) :
    List Byte → Core μ × Point → List Bool → Prop
  | parsing {s : Core μ × Point} {c : Core μ} {ctl : Ctl} {t u : List Bool}
      (h : StreamBlocks small z blocks s t)
      (hs : Steps (bitDecoder .qbz2 small) s t [] (c, .parser ctl) u) :
      Beyond small z blocks [] (c, .parser ctl) u
  | giving {s : Core μ × Point} {c₁ c₂ c : Core μ} {t u : List Bool} {w : List Byte}
      (h : StreamBlocks small z blocks s t)
      (hparse : Steps (bitDecoder .qbz2 small) s t [] (c₁, .parser .block) u)
      (hbegin : bitDecoder .qbz2 small (c₁, .parser .block) = .move (c₂, .output))
      (hgive : Steps (bitDecoder .qbz2 small) (c₂, .output) u w (c, .output) u)
      (hp : c.p = c₁.p) (hcrc : c.out.calculatedBlockCRC = crcFold initialiseCrc w) :
      Beyond small z blocks w (c, .output) u

/-- **What holds after the bytes `w`**: they are those of some blocks, whose CRCs are right, and of
    the front of the next, whose CRC so far is that of these bytes. -/
def Intact (small : Bool) (z w : List Byte) (y : Core μ × Point) (u : List Bool) : Prop :=
  ∃ (blocks : List BlockOut) (w' : List Byte), w = blocks.flatMap BlockOut.bytes ++ w' ∧
    Beyond small z blocks w' y u ∧
    (∀ b ∈ blocks, b.stored = finaliseCrc (crcFold initialiseCrc b.bytes)) ∧
    y.1.calculatedCombinedCRC = (blocks.map BlockOut.stored).foldl combineCrc 0

theorem intact_start (small : Bool) (z : List Byte) :
    Intact small z [] (atStart small : Core μ × Point) (bytesBits z) :=
  ⟨[], [], rfl, .parsing .start (.refl _ _), fun _ hb => absurd hb List.not_mem_nil, rfl⟩

variable {w : List Byte} {c : Core μ} {ctl : Ctl} {t u : List Bool}

/-- In the parser nothing is given out. -/
theorem Intact.parse (h : Intact small z w (c, .parser ctl) t) {c' : Core μ} {ctl' : Ctl}
    (hs : Steps (bitDecoder .qbz2 small) (c, .parser ctl) t [] (c', .parser ctl') u)
    (hcomb : c'.calculatedCombinedCRC = c.calculatedCombinedCRC) :
    Intact small z w (c', .parser ctl') u := by
  obtain ⟨blocks, w', hw, hb, hgood, hfold⟩ := h
  cases hb with
  | parsing hst hs₀ => exact ⟨blocks, [], hw, .parsing hst (hs₀.trans hs), hgood, hcomb.trans hfold⟩

/-- What is read is parsed. -/
theorem Intact.read {s : Core μ × Point} (h : Intact small z w s t) {n : Nat}
    {k : List Bool → Core μ × Point} (hM : bitDecoder .qbz2 small s = .read n k) (hn : n ≤ t.length) :
    Intact small z w (k (t.take n)) (t.drop n) := by
  obtain ⟨c, pt⟩ := s
  obtain ⟨l, rfl, -, rfl⟩ := bitDecoder_read hM
  exact h.parse (.read hM hn (.refl _ _)) rfl

/-- A byte given out goes into the CRC of its block. -/
theorem Intact.emit {s s₁ : Core μ × Point} (h : Intact small z w s t) {b : Byte}
    (hM : bitDecoder .qbz2 small s = .emit b s₁) : Intact small z (w ++ [b]) s₁ t := by
  obtain ⟨c, pt⟩ := s
  obtain ⟨rfl, -, rfl, rfl⟩ := bitDecoder_emit hM
  obtain ⟨blocks, w', rfl, hb, hgood, hfold⟩ := h
  cases hb with
  | giving hst hparse hbegin hgive hp hcrc =>
    refine ⟨blocks, w' ++ [c.out.stateOutCh], List.append_assoc _ _ _,
      .giving hst hparse hbegin (hgive.trans (.emit hM (.refl _ _))) hp ?_, hgood, hfold⟩
    rw [crcFold_append, ← hcrc]
    rfl

/-- **A step that neither reads nor gives out**: a block begins or ends, or a run is fetched. -/
theorem Intact.move {s s₁ : Core μ × Point} (h : Intact small z w s t) (hsane : Sane small s)
    (hM : bitDecoder .qbz2 small s = .move s₁) : Intact small z w s₁ t := by
  obtain ⟨c, pt⟩ := s
  rcases bitDecoder_move hM with ⟨rfl, rfl⟩ | ⟨rfl, rfl⟩ | ⟨rfl, d, hd, rfl⟩ | ⟨rfl, -, -, d, hd, rfl⟩ |
    ⟨rfl, -, hu, q, hq, rfl⟩
  · exact h.parse (.move hM (.refl _ _)) rfl
  · exact h
  · obtain ⟨hp, hcomb, hcrc⟩ := endBlock_crc hd
    obtain ⟨blocks, w', rfl, hb, hgood, hfold⟩ := h
    cases hb with
    | parsing hst hs =>
      exact ⟨blocks, [], rfl, .giving hst hs hM (.refl _ _) hp hcrc, hgood, hcomb.trans hfold⟩
  · -- the block is over: its CRC was the one that is stored
    obtain ⟨hstored, hp', hcomb⟩ := finishBlock_crc hd
    obtain ⟨blocks, w', rfl, hb, hgood, hfold⟩ := h
    cases hb with
    | @giving s₀ c₁ c₂ _ _ _ _ hst hparse hbegin hgive hp hcrc =>
      refine ⟨blocks ++ [⟨c₁.p.storedBlockCRC, w'⟩], [], ?_,
        .parsing (.block hst hparse hbegin hgive hM) (.refl _ _), fun b hb => ?_, ?_⟩
      · rw [List.flatMap_append, List.flatMap_singleton, List.append_nil]
      · rcases List.mem_append.mp hb with hb | hb
        · exact hgood b hb
        · rw [List.mem_singleton.mp hb, ← hp, hstored, hcrc]
      · rw [hcomb, hfold, ← hp, List.map_append, List.foldl_append]
        rfl
  · obtain ⟨blocks, w', rfl, hb, hgood, hfold⟩ := h
    obtain ⟨-, -, -, k, hw, -⟩ := hsane
    cases hb with
    | giving hst hparse hbegin hgive hp hcrc =>
      have hall := hgive.trans (.move hM (.refl _ _))
      rw [List.append_nil] at hall
      exact ⟨blocks, w', rfl, .giving hst hparse hbegin hall hp ((fetch_crc hw hu hq).trans hcrc),
        hgood, hfold⟩

/-- **In every run of the machine.** -/
theorem intact_steps {s y : Core μ × Point} {b : List Byte}
    (hs : Steps (bitDecoder .qbz2 small) s t b y u) :
    ∀ {w : List Byte}, Sane small s → Intact small z w s t → Intact small z (w ++ b) y u := by
  induction hs with
  | refl =>
    intro w _ h
    rw [List.append_nil]
    exact h
  | read hM hn _ ih =>
    intro w hsane h
    exact ih (sane_steps (.read hM hn (.refl _ _)) hsane) (h.read hM hn)
  | @emit _ _ _ _ _ _ b hM _ ih =>
    intro w hsane h
    have hrest := ih (sane_steps (t := t) (.emit hM (.refl _ _)) hsane) (h.emit hM)
    rw [List.append_assoc] at hrest
    exact hrest
  | move hM _ ih =>
    intro w hsane h
    exact ih (sane_steps (t := t) (.move hM (.refl _ _)) hsane) (h.move hsane hM)

theorem intact_run {b : List Byte} {y : Core μ × Point}
    (hs : Steps (bitDecoder .qbz2 small) (atStart small) (bytesBits z) b y u) :
    Intact small z b y u :=
  intact_steps hs (resting_decompressInit .qbz2 small).sane (intact_start small z)

end

/-! ## 3. The calls -/

section

variable [Build]

/-- **Where a call returns in the middle of a block**, the CRC so far is that of the bytes delivered
    of the block, wherever the room for output has cut it. -/
theorem cut_crc {small : Bool} {z : List Byte} {calls : List DecompressCall} {d : DState FlatMtf}
    {rest : List Byte} (h : DecompressRun .qbz2 small z calls d rest) (hok : lastRet calls = .ok)
    (hst : d.state = .output) :
    ∃ (blocks : List BlockOut) (w : List Byte),
      delivered calls = blocks.flatMap BlockOut.bytes ++ w ∧
      Beyond small z blocks w (d.core, .output) (d.tape rest) ∧
      d.core.out.calculatedBlockCRC = crcFold initialiseCrc w := by
  obtain ⟨-, -, hs⟩ := run_sim .qbz2 h (h.all_ok hok)
  rw [point_output hst] at hs
  obtain ⟨blocks, w, hw, hb, -, -⟩ := intact_run hs
  refine ⟨blocks, w, hw, hb, ?_⟩
  cases hb with
  | giving _ _ _ _ _ hcrc => exact hcrc

/-- **The integrity of a stream that is accepted**: for every input, in any portions and with any
    room for output, in either mode: where `BZ_STREAM_END` is returned, the bytes delivered are those
    of the blocks of the stream, one after the other; the CRC stored for each block is the finalised
    CRC of exactly its bytes; and the combined CRC that is stored is the fold of these. -/
theorem accepted_integrity (small : Bool) (z : List Byte) {calls : List DecompressCall}
    {d : DState FlatMtf} {rest : List Byte} (h : DecompressRun .qbz2 small z calls d rest)
    (hend : lastRet calls = .streamEnd) :
    ∃ (blocks : List BlockOut) (s : Core FlatMtf × Point) (t u : List Bool),
      StreamBlocks small z blocks s t ∧
      Steps (bitDecoder .qbz2 small) s t [] (d.core, .parser (.ret .streamEnd)) u ∧
      delivered calls = blocks.flatMap BlockOut.bytes ∧
      (∀ b ∈ blocks, b.stored = finaliseCrc (crcFold initialiseCrc b.bytes)) ∧
      d.core.p.storedCombinedCRC = (blocks.map BlockOut.stored).foldl combineCrc 0 := by
  obtain ⟨u, hs, hcrc⟩ := run_ended .qbz2 h hend
  obtain ⟨blocks, w, hw, hb, hgood, hfold⟩ := intact_run hs
  cases hb with
  | @parsing s _ _ t _ hst hlast =>
    rw [List.append_nil] at hw
    exact ⟨blocks, s, t, u, hst, hlast, hw, hgood, hcrc.symm.trans hfold⟩

end

theorem accepted_integrity_oneByte : ∃ (calls : List DecompressCall) (d : DState FlatMtf)
    (rest : List Byte) (blocks : List BlockOut),
    @DecompressRun _ _ sortingEnv.toBuild .qbz2 false oneByteFile calls d rest ∧
    blocks.flatMap BlockOut.bytes = [0x61] ∧
    (∀ b ∈ blocks, b.stored = finaliseCrc (crcFold initialiseCrc b.bytes)) ∧
    d.core.p.storedCombinedCRC = (blocks.map BlockOut.stored).foldl combineCrc 0 := by
  let _ : CompressEnv := sortingEnv
  obtain ⟨d, strm', rest, hrun, hout⟩ := oneByte_decoded false
  obtain ⟨blocks, -, -, -, -, -, hall, hgood, hfold⟩ := accepted_integrity false _ hrun rfl
  refine ⟨_, d, _, blocks, hrun, ?_, hgood, hfold⟩
  rw [← hall, delivered, List.flatMap_singleton, DecompressCall.given, hout]
  rfl

end Qbz2
