/-
  File:      Qbz2/Decompress/Twin.lean
  Subject:   Two decoders side by side on the same bits: of either memory mode, of either version,
             with any two MTF lists that show the same bytes.

  * `MtfSim R` -- the two lists show the same bytes;
  * `TwinStore` -- both hold the same bytes of the block, each in its own way;
  * `Twin` -- both parsers stand at the same place; `resume_twin`: and go on to the same place;
  * `Walk`, `TwinOut` -- both give out the same block; `fetch_twin`: and fetch the same runs;
  * **`bitDecoder_twin`** -- the two machines do the same, step by step.

  With one decoder on both sides this is the invariant of that decoder: no step of it leaves the
  block, and the vector is always built (`Sane`).
-/
import Qbz2.Decompress.Abstract
import Qbz2.Decompress.InverseBwt
import Qbz2.Decompress.Symbols
import Qbz2.RoundTrip.Values

namespace Qbz2

open Counting Transducer

section

variable {μ μ' : Type} [MtfList μ] [MtfList μ']

/-! ## 1. The block under construction -/

/-- **Two MTF lists show the same bytes.** -/
structure MtfSim (R : μ → μ' → Prop) : Prop where
  init : R MtfList.init MtfList.init
  front : ∀ {a : μ} {b : μ'}, R a b → MtfList.front b = MtfList.front a
  move : ∀ {a : μ} {b : μ'} {nn : Nat}, R a b → 1 ≤ nn → nn < 256 →
    (MtfList.moveFront b nn).1 = (MtfList.moveFront a nn).1 ∧
      R (MtfList.moveFront a nn).2 (MtfList.moveFront b nn).2

theorem mtfSim_eq : MtfSim (Eq : μ → μ → Prop) :=
  ⟨rfl, fun h => by rw [h], fun h _ _ => by rw [h]; exact ⟨rfl, rfl⟩⟩

/-- Both stores hold the same `n` bytes. -/
def TwinStore (R : μ → μ' → Prop) (small small' : Bool) (n : Nat) (st : Store μ) (st' : Store μ') :
    Prop :=
  ∃ done : List Byte, done.length = n ∧ Decoded small done st ∧ Decoded small' done st' ∧
    R st.mtfa st'.mtfa

/-- **Both parsers stand at the same place**, with the same data. -/
structure Twin (R : μ → μ' → Prop) (small small' : Bool) (x : Core μ × Ctl) (x' : Core μ' × Ctl) :
    Prop where
  ctl : x'.2 = x.2
  combined : x'.1.calculatedCombinedCRC = x.1.calculatedCombinedCRC
  parse : x.2 ≠ .ret .dataError → x'.1.p = x.1.p
  store : AtSymbols x.2 → TwinStore R small small' x.1.p.nblock x.1.store x'.1.store

variable {R : μ → μ' → Prop} {small small' : Bool} {c : Core μ} {c' : Core μ'} {p : Parse}

/-- What is done to the block first. -/
theorem absorb_append (small : Bool) (c : Core μ) (ops : List Op) (r : Parsed) :
    c.absorb small (r.1, ops ++ r.2.1, r.2.2) =
      ({ c with store := ops.foldl (Store.apply small r.1.seqToUnseq) c.store }).absorb small r := by
  unfold Core.absorb
  dsimp only
  rw [List.foldl_append]

/-- A place outside the symbols of a block. -/
theorem twin_goto (hcrc : c'.calculatedCombinedCRC = c.calculatedCombinedCRC) {l : Label}
    (h : ¬AtSymbols (.get l)) : Twin R small small' (c.absorb small (p.goto l))
      (c'.absorb small' (p.goto l)) :=
  ⟨rfl, hcrc, fun _ => rfl, fun hb => absurd hb h⟩

theorem twin_fail (hcrc : c'.calculatedCombinedCRC = c.calculatedCombinedCRC) (p : Parse) (r : Ret) :
    Twin R small small' (c.absorb small (p.fail r)) (c'.absorb small' (p.fail r)) :=
  ⟨rfl, hcrc, fun _ => rfl, fun hb => hb.elim⟩

theorem twin_beginVal (hcrc : c'.calculatedCombinedCRC = c.calculatedCombinedCRC)
    (hs : TwinStore R small small' p.nblock c.store c'.store) (site : MtfSite) :
    Twin R small small' (c.absorb small (p.beginVal site)) (c'.absorb small' (p.beginVal site)) := by
  unfold Parse.beginVal
  split
  · dsimp only
    split
    · exact twin_fail hcrc _ _
    · exact ⟨rfl, hcrc, fun _ => rfl, fun _ => hs⟩
  · exact ⟨rfl, hcrc, fun _ => rfl, fun _ => hs⟩

theorem twin_runStep (hcrc : c'.calculatedCombinedCRC = c.calculatedCombinedCRC)
    (hs : TwinStore R small small' p.nblock c.store c'.store) :
    Twin R small small' (c.absorb small p.runStep) (c'.absorb small' p.runStep) := by
  unfold Parse.runStep
  split
  · exact twin_fail hcrc _ _
  · exact twin_beginVal (p := { p with
      es := if p.nextSym = bzRunA then p.es + p.N else p.es + 2 * p.N
      N := p.N * 2 }) hcrc hs .run

/-- A literal, into both blocks. -/
theorem TwinStore.literal (hR : MtfSim R) {n nn : Nat} {st : Store μ} {st' : Store μ'}
    (h : TwinStore R small small' n st st') (h1 : 1 ≤ nn) (hlt : nn < 256) (seqToUnseq : List Byte) :
    TwinStore R small small' (n + 1) (st.apply small seqToUnseq (.literal n nn))
      (st'.apply small' seqToUnseq (.literal n nn)) := by
  obtain ⟨done, rfl, hd, hd', hm⟩ := h
  obtain ⟨hbyte, hmove⟩ := hR.move hm h1 hlt
  have hlit' := hd'.literal seqToUnseq nn
  rw [hbyte] at hlit'
  refine ⟨_, ?_, hd.literal seqToUnseq nn, hlit', ?_⟩
  · rw [List.length_append, List.length_singleton]
  · unfold Store.apply
    dsimp only
    rw [write_mtfa, write_mtfa]
    exact hmove

theorem twin_symbol (hR : MtfSim R) (hcrc : c'.calculatedCombinedCRC = c.calculatedCombinedCRC)
    (hs : TwinStore R small small' p.nblock c.store c'.store) (hb : BlockOk p)
    (hc : CurOk p.tables p.gSel p.gMinlen) (hsym : SymOk p) :
    Twin R small small' (c.absorb small p.symbol) (c'.absorb small' p.symbol) := by
  have hops := (sound_symbol hb hc hsym).ops
  unfold Parse.symbol at hops ⊢
  split
  · exact ⟨rfl, hcrc, fun _ => rfl, fun _ => hs⟩
  · rename_i heob
    split
    · exact twin_runStep hcrc hs
    · rename_i hrun
      rw [if_neg heob, if_neg hrun] at hops
      split
      · exact twin_fail hcrc _ _
      · rename_i hmax
        rw [if_neg hmax] at hops
        obtain ⟨-, h1, hlt⟩ := hops _ List.mem_cons_self
        have hle := hb.alpha.le
        exact ⟨rfl, hcrc, fun _ => rfl,
          fun _ => hs.literal hR h1 (Nat.lt_of_lt_of_le hlt hle) _⟩

/-! ## 2. A run -/

/-- The writes of a run that fits. -/
def runPuts (ver : Version) (nblockMAX es nblock : Nat) : List Op :=
  match ver with
  | .qbz2 => [.put nblock es]
  | .reference => (Parse.writeRun nblockMAX es nblock).1

theorem writeRun_fits (nblockMAX : Nat) : ∀ es nblock : Nat,
    (Parse.writeRun nblockMAX es nblock).2.2 = decide (es = 0 ∨ nblock + es ≤ nblockMAX) ∧
    (nblock + es ≤ nblockMAX → (Parse.writeRun nblockMAX es nblock).2.1 = nblock + es) := by
  intro es
  induction es with
  | zero => exact fun nblock => ⟨by simp [Parse.writeRun], fun _ => rfl⟩
  | succ es ih =>
    intro nblock
    rw [Parse.writeRun]
    obtain ⟨h1, h2⟩ := ih (nblock + 1)
    split
    · rename_i hge
      refine ⟨?_, fun h => by omega⟩
      rw [eq_comm, decide_eq_false_iff_not]
      omega
    · rename_i hlt
      refine ⟨?_, fun h => ?_⟩
      · dsimp only
        rw [h1]
        congr 1
        apply propext
        omega
      · dsimp only
        rw [h2 (by omega)]
        omega

/-- The cells of a block, the bytes of a run written one by one. -/
theorem writeRun_cells (small : Bool) (seqToUnseq : List Byte) (uc : Byte) (nblockMAX : Nat) :
    ∀ (es : Nat) (done : List Byte) (st : Store μ),
      Store.unseq seqToUnseq (MtfList.front st.mtfa) = uc → done.length + es ≤ nblockMAX →
      (∀ b : Nat, b < 256 →
        st.unzftab b = (done ++ List.replicate es uc).count (BitVec.ofNat 8 b)) →
      (∀ x : Nat, x < done.length →
        if small then st.ll16 x = (done.getD x 0).setWidth 16
        else st.tt x = (done.getD x 0).setWidth 32) →
      Decoded small (done ++ List.replicate es uc)
        ((Parse.writeRun nblockMAX es done.length).1.foldl (Store.apply small seqToUnseq) st) ∧
      ((Parse.writeRun nblockMAX es done.length).1.foldl (Store.apply small seqToUnseq) st).mtfa =
        st.mtfa := by
  intro es
  induction es with
  | zero =>
    intro done st _ _ hcounts hcell
    rw [List.replicate_zero, List.append_nil] at hcounts ⊢
    exact ⟨⟨hcell, hcounts⟩, rfl⟩
  | succ es ih =>
    intro done st huc hmax hcounts hcell
    have hsplit : done ++ List.replicate (es + 1) uc = done ++ [uc] ++ List.replicate es uc := by
      rw [List.replicate_succ, List.append_assoc]
      rfl
    have hlen : (done ++ [uc]).length = done.length + 1 := by
      rw [List.length_append, List.length_singleton]
    rw [hsplit] at hcounts ⊢
    rw [Parse.writeRun, if_neg (by omega)]
    dsimp only
    rw [List.foldl_cons, ← hlen]
    have hst : st.apply small seqToUnseq (.put done.length 1) = st.write small done.length 1 uc := by
      rw [← huc]
      rfl
    rw [hst]
    obtain ⟨hd, hm⟩ := ih (done ++ [uc]) (st.write small done.length 1 uc)
      (by rw [write_mtfa]; exact huc) (by omega)
      (by
        intro b hb
        rw [← hcounts b hb]
        unfold Store.write
        cases small <;> rfl)
      (by
        -- one more cell
        intro x hx
        rw [hlen] at hx
        unfold Store.write
        cases small with
        | true =>
          have hc := hcell x
          rw [if_pos rfl] at hc ⊢
          rw [if_pos rfl, Cells.get_fill]
          by_cases h : x = done.length
          · rw [if_pos (by omega), h, List.getD_append_right _ _ _ _ (Nat.le_refl _), Nat.sub_self]
            rfl
          · rw [if_neg (by omega), List.getD_append _ _ _ _ (by omega)]
            exact hc (by omega)
        | false =>
          have hc := hcell x
          rw [if_neg (by decide)] at hc ⊢
          rw [if_neg (by decide)]
          rw [Cells.get_fill]
          by_cases h : x = done.length
          · rw [if_pos (by omega), h, List.getD_append_right _ _ _ _ (Nat.le_refl _), Nat.sub_self]
            rfl
          · rw [if_neg (by omega), List.getD_append _ _ _ _ (by omega)]
            exact hc (by omega))
    exact ⟨hd, hm.trans (write_mtfa _ _ _ _ _)⟩

/-- **A run**, counted and written by either decoder. -/
theorem Decoded.runPuts {small : Bool} {done : List Byte} {st : Store μ} (h : Decoded small done st)
    (ver : Version) (seqToUnseq : List Byte) {es nblockMAX : Nat} (hmax : done.length + es ≤ nblockMAX) :
    Decoded small (done ++ List.replicate es (Store.unseq seqToUnseq (MtfList.front st.mtfa)))
      ((Op.count es :: runPuts ver nblockMAX es done.length).foldl
        (Store.apply small seqToUnseq) st) ∧
    ((Op.count es :: runPuts ver nblockMAX es done.length).foldl
      (Store.apply small seqToUnseq) st).mtfa = st.mtfa := by
  cases ver with
  | qbz2 => exact ⟨h.run seqToUnseq es, write_mtfa _ _ _ _ _⟩
  | reference =>
    rw [List.foldl_cons]
    exact writeRun_cells small seqToUnseq _ nblockMAX es done (st.apply small seqToUnseq (.count es))
      rfl hmax (fun b hb => decoded_count h es _ hb) h.cell

theorem TwinStore.run (hR : MtfSim R) {n es nblockMAX : Nat} {st : Store μ} {st' : Store μ'}
    (h : TwinStore R small small' n st st') (ver ver' : Version) (hmax : n + es ≤ nblockMAX)
    (seqToUnseq : List Byte) :
    TwinStore R small small' (n + es)
      ((Op.count es :: runPuts ver nblockMAX es n).foldl (Store.apply small seqToUnseq) st)
      ((Op.count es :: runPuts ver' nblockMAX es n).foldl (Store.apply small' seqToUnseq) st') := by
  obtain ⟨done, rfl, hd, hd', hm⟩ := h
  obtain ⟨hrun, hmtf⟩ := hd.runPuts ver seqToUnseq hmax
  obtain ⟨hrun', hmtf'⟩ := hd'.runPuts ver' seqToUnseq hmax
  rw [hR.front hm] at hrun'
  refine ⟨_, ?_, hrun, hrun', ?_⟩
  · rw [List.length_append, List.length_replicate]
  · rw [hmtf, hmtf']
    exact hm

/-- The end of a run that does not fit. -/
theorem endRun_over (ver : Version) (hle : p.nblock ≤ p.nblockMAX)
    (h : p.nblockMAX < p.nblock + (p.es + 1).toNat) :
    ∃ (q : Parse) (ops : List Op), p.endRun ver = (q, ops, .ret .dataError) := by
  unfold Parse.endRun
  cases ver with
  | qbz2 =>
    dsimp only
    rw [if_pos h]
    exact ⟨_, _, rfl⟩
  | reference =>
    obtain ⟨hfits, -⟩ := writeRun_fits p.nblockMAX (p.es + 1).toNat p.nblock
    have hno : decide ((p.es + 1).toNat = 0 ∨ p.nblock + (p.es + 1).toNat ≤ p.nblockMAX) = false := by
      rw [decide_eq_false_iff_not]
      omega
    dsimp only
    rw [hfits, hno, if_neg (by decide)]
    exact ⟨_, _, rfl⟩

/-- The end of a run that fits: both decoders do the same, but for how it is written. -/
theorem endRun_fits (ver : Version) (h : p.nblock + (p.es + 1).toNat ≤ p.nblockMAX) :
    p.endRun ver =
      (({ p with es := p.es + 1, nblock := p.nblock + (p.es + 1).toNat } : Parse).symbol.1,
        (Op.count (p.es + 1).toNat :: runPuts ver p.nblockMAX (p.es + 1).toNat p.nblock) ++
          ({ p with es := p.es + 1, nblock := p.nblock + (p.es + 1).toNat } : Parse).symbol.2.1,
        ({ p with es := p.es + 1, nblock := p.nblock + (p.es + 1).toNat } : Parse).symbol.2.2) := by
  unfold Parse.endRun
  cases ver with
  | qbz2 =>
    dsimp only
    rw [if_neg (by omega)]
    rfl
  | reference =>
    obtain ⟨hfits, hn⟩ := writeRun_fits p.nblockMAX (p.es + 1).toNat p.nblock
    have hyes : decide ((p.es + 1).toNat = 0 ∨ p.nblock + (p.es + 1).toNat ≤ p.nblockMAX) = true :=
      decide_eq_true (Or.inr h)
    dsimp only
    rw [hfits, hyes, if_pos rfl, hn h]
    rfl

theorem twin_endRun (hR : MtfSim R) (hcrc : c'.calculatedCombinedCRC = c.calculatedCombinedCRC)
    (ver ver' : Version) (hs : TwinStore R small small' p.nblock c.store c'.store) (hb : BlockOk p)
    (hc : CurOk p.tables p.gSel p.gMinlen) (hsym : SymOk p) :
    Twin R small small' (c.absorb small (p.endRun ver)) (c'.absorb small' (p.endRun ver')) := by
  by_cases hmax : p.nblock + (p.es + 1).toNat ≤ p.nblockMAX
  · obtain ⟨q, hq⟩ : ∃ q : Parse, q = { p with
      es := p.es + 1
      nblock := p.nblock + (p.es + 1).toNat } := ⟨_, rfl⟩
    have hn : q.nblock = p.nblock + (p.es + 1).toNat := by rw [hq]
    have hb' : BlockOk q := by
      rw [hq]
      exact hb.frame p.gSel p.N p.gMinlen p.nextSym _ hmax hb.groupNo hb.groupPos
    have hc' : CurOk q.tables q.gSel q.gMinlen := by
      rw [hq]
      exact hc
    have hsym' : SymOk q := by
      rw [hq]
      exact hsym
    rw [endRun_fits ver hmax, endRun_fits ver' hmax, ← hq, absorb_append, absorb_append]
    refine twin_symbol hR hcrc ?_ hb' hc' hsym'
    rw [hn]
    exact hs.run hR ver ver' hmax _
  · obtain ⟨q, ops, he⟩ := endRun_over ver hb.le (by omega)
    obtain ⟨q', ops', he'⟩ := endRun_over ver' hb.le (by omega)
    rw [he, he']
    exact ⟨rfl, hcrc, fun h => absurd rfl h, fun h => h.elim⟩

/-! ## 3. The other labels -/

theorem twin_value (hR : MtfSim R) (hcrc : c'.calculatedCombinedCRC = c.calculatedCombinedCRC)
    (ver ver' : Version) {site : MtfSite} {sym : Int}
    (hs : TwinStore R small small' p.nblock c.store c'.store) (hb : BlockOk p)
    (hc : CurOk p.tables p.gSel p.gMinlen) (h0 : 0 ≤ sym) (hlt : sym < p.alphaSize) :
    Twin R small small' (c.absorb small (p.value ver site sym))
      (c'.absorb small' (p.value ver' site sym)) := by
  obtain ⟨q, hq⟩ : ∃ q : Parse, q = { p with nextSym := sym } := ⟨_, rfl⟩
  have hb' : BlockOk q := by
    rw [hq]
    exact hb.frame p.gSel p.N p.gMinlen sym p.es hb.le hb.groupNo hb.groupPos
  have hc' : CurOk q.tables q.gSel q.gMinlen := by
    rw [hq]
    exact hc
  have hsym : SymOk q := by
    rw [hq]
    exact ⟨h0, hlt⟩
  have hs' : TwinStore R small small' q.nblock c.store c'.store := by
    rw [hq]
    exact hs
  unfold Parse.value
  rw [← hq]
  cases site with
  | first => exact twin_symbol hR hcrc hs' hb' hc' hsym
  | literal => exact twin_symbol hR hcrc hs' hb' hc' hsym
  | run =>
    dsimp only
    split
    · exact twin_runStep hcrc hs'
    · exact twin_endRun hR hcrc ver ver' hs' hb' hc' hsym

theorem twin_mtf (hR : MtfSim R) (hcrc : c'.calculatedCombinedCRC = c.calculatedCombinedCRC)
    (ver ver' : Version) {site : MtfSite} {zn zvec : Int}
    (hs : TwinStore R small small' p.nblock c.store c'.store) (hb : BlockOk p)
    (hc : CurOk p.tables p.gSel p.gMinlen) (hv : ValOk p.group zn zvec) :
    Twin R small small' (c.absorb small (p.mtf ver site zn zvec))
      (c'.absorb small' (p.mtf ver' site zn zvec)) := by
  have hrange := mtfVal_range (CurOk.group hb hc) hv
  unfold Parse.mtf
  cases hm : mtfVal p.group zn zvec with
  | error => exact twin_fail hcrc _ _
  | symbol sym =>
    rw [hm] at hrange
    exact twin_value hR hcrc ver ver' hs hb hc hrange.2.1 hrange.2.2
  | more => exact ⟨rfl, hcrc, fun _ => rfl, fun _ => hs⟩

/-- The start of the symbols: both blocks are empty. -/
theorem twin_startMtf (hR : MtfSim R) (hcrc : c'.calculatedCombinedCRC = c.calculatedCombinedCRC)
    (p : Parse) :
    Twin R small small' (c.absorb small p.startMtf) (c'.absorb small' p.startMtf) := by
  obtain ⟨q, hq⟩ : ∃ q : Parse, q = { p with
    eob := p.nInUse + 1
    nblockMAX := 100000 * p.blockSize100k
    groupNo := -1
    groupPos := 0
    nblock := 0 } := ⟨_, rfl⟩
  have empty : ∀ {μ : Type} [MtfList μ] (small : Bool) (st : Store μ) (seqToUnseq : List Byte),
      Decoded small [] (st.apply small seqToUnseq .start) := by
    intro μ _ small st seqToUnseq
    refine ⟨fun x hx => absurd hx (Nat.not_lt_zero x), fun b hb => ?_⟩
    show (st.unzftab.fill 0 256 0) b = _
    rw [Cells.get_fill, if_pos (by omega)]
    rfl
  unfold Parse.startMtf
  dsimp only
  rw [← hq]
  have h0 : q.nblock = 0 := by rw [hq]
  show Twin R small small'
    (({ c with store := c.store.apply small (q.beginVal .first).1.seqToUnseq .start } : Core μ).absorb
      small (q.beginVal .first))
    (({ c' with store := c'.store.apply small' (q.beginVal .first).1.seqToUnseq .start } :
      Core μ').absorb small' (q.beginVal .first))
  refine twin_beginVal ?_ ?_ .first
  · exact hcrc
  · rw [h0]
    exact ⟨[], rfl, empty _ _ [], empty _ _ [], hR.init⟩

/-- **From the same label both parsers go on to the same place.** -/
theorem resume_twin (hR : MtfSim R) (ver ver' : Version) {l : Label}
    (h : Twin R small small' (c, .get l) (c', .get l)) (hl : LabelOk c.p l) (v : Nat) :
    Twin R small small' (c.resume ver small l v) (c'.resume ver' small' l v) := by
  have hp : c'.p = c.p := h.parse nofun
  have hcrc : c'.calculatedCombinedCRC = c.calculatedCombinedCRC := h.combined
  unfold Core.resume
  rw [hp]
  by_cases hs : AtSymbols (.get l)
  · obtain ⟨site, zn, zvec, -, he, hb, hc, -, hv⟩ := hl.symbols hs v
    rw [he, he]
    exact twin_mtf hR hcrc ver ver' (h.store hs) hb hc hv
  · rw [resume_version ver' ver hs]
    have hcases := resume_cases ver hs v (p := c.p)
    generalize c.p.resume ver l v = r at hcases
    cases hcases with
    | fail _ => exact twin_fail hcrc _ _
    | goto _ hl' => exact twin_goto hcrc hl'
    | start _ => exact twin_startMtf hR hcrc _

end

end Qbz2
