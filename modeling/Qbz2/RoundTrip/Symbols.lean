/-
  File:      Qbz2/RoundTrip/Symbols.lean
  Subject:   The codes of the symbols of a block are read as these symbols.

  * `codesFrom` -- the calls of `bsW` for the symbols, each in the table of its group;
    `symbolWrites_eq`: these are what `sendMTFValues` writes;
  * `code_reads` -- a code is read in the table of its group;
  * `Serving p ctl k` -- `k` symbols have been delivered, and the parser waits for the next, with the
    table of its group or on the way to it;
  * **`feed_reads`** -- what the loop does with the symbols of a list, it does on their codes.
-/
import Qbz2.Compress.Stream
import Qbz2.RoundTrip.Codes
import Qbz2.RoundTrip.SideInfo

namespace Qbz2

open Transducer Bits

/-! ## 1. The codes -/

/-- The table the `k`-th symbol is coded in. -/
def tableOf (len : List (Cells Nat)) (selector : List Byte) (k : Nat) : Cells Nat :=
  rowAt len (selector.getD (k / bzGSize) 0).toNat

/-- The calls of `bsW` for the symbols `vs`, of which the first is the `k`-th of the block. -/
def codesFrom (alphaSize : Nat) (len : List (Cells Nat)) (selector : List Byte) :
    Nat → List Nat → List (Nat × Word32)
  | _, [] => []
  | k, v :: vs =>
    (tableOf len selector k v, BitVec.ofNat 32 (rowCodes alphaSize (tableOf len selector k) v)) ::
      codesFrom alphaSize len selector (k + 1) vs

section

variable {alphaSize : Nat} {len : List (Cells Nat)} {selector : List Byte}

theorem codesFrom_append (vs ws : List Nat) : ∀ k, codesFrom alphaSize len selector k (vs ++ ws) =
    codesFrom alphaSize len selector k vs ++
      codesFrom alphaSize len selector (k + vs.length) ws := by
  induction vs with
  | nil => exact fun _ => rfl
  | cons v vs ih =>
    intro k
    rw [List.cons_append, codesFrom, codesFrom, ih, List.length_cons, List.cons_append,
      Nat.add_right_comm, Nat.add_assoc]

/-- Within a group the table stays. -/
theorem codesFrom_group (j : Nat) : ∀ (grp : List Nat) (i : Nat), i + grp.length ≤ bzGSize →
    codesFrom alphaSize len selector (bzGSize * j + i) grp =
      grp.map fun v : Nat => (rowAt len (selector.getD j 0).toNat v,
        BitVec.ofNat 32 (rowCodes alphaSize (rowAt len (selector.getD j 0).toNat) v)) := by
  intro grp
  induction grp with
  | nil => exact fun _ _ => rfl
  | cons v grp ih =>
    intro i hi
    rw [List.length_cons] at hi
    have hdiv : (bzGSize * j + i) / bzGSize = j := by
      unfold bzGSize at hi ⊢
      omega
    rw [codesFrom, tableOf, hdiv, Nat.add_assoc, ih (i + 1) (by omega), List.map_cons]

/-- **What `sendMTFValues` writes for the symbols**, group by group. -/
theorem symbolWrites_eq : ∀ (fuel : Nat) (vs : List Nat) (j : Nat), vs.length ≤ fuel →
    (vs.length + 49) / 50 + j ≤ selector.length →
    symbolWrites alphaSize len (groupsOf fuel vs) (selector.drop j) =
      codesFrom alphaSize len selector (bzGSize * j) vs := by
  intro fuel
  induction fuel with
  | zero =>
    intro vs j h _
    obtain rfl := List.length_eq_zero_iff.mp (Nat.le_zero.mp h)
    cases selector.drop j <;> rfl
  | succ fuel ih =>
    intro vs j h hsel
    by_cases hnil : vs = []
    · subst hnil
      cases selector.drop j <;> rfl
    · have hpos := List.length_pos_iff.mpr hnil
      have hj : j < selector.length := by omega
      have htake : (vs.take bzGSize).length ≤ bzGSize := List.length_take_le _ _
      have hrest := ih (vs.drop bzGSize) (j + 1)
        (by rw [List.length_drop]; unfold bzGSize; omega)
        (by rw [List.length_drop]; unfold bzGSize; omega)
      have hgroup := @codesFrom_group alphaSize len selector j (vs.take bzGSize) 0
        (by rw [Nat.zero_add]; exact htake)
      rw [Nat.add_zero] at hgroup
      have hsplit := @codesFrom_append alphaSize len selector (vs.take bzGSize) (vs.drop bzGSize)
        (bzGSize * j)
      rw [List.take_append_drop] at hsplit
      have hnext : codesFrom alphaSize len selector (bzGSize * j + (vs.take bzGSize).length)
          (vs.drop bzGSize) =
          codesFrom alphaSize len selector (bzGSize * (j + 1)) (vs.drop bzGSize) := by
        by_cases hlong : vs.length ≤ bzGSize
        · rw [List.drop_eq_nil_of_le hlong]
          rfl
        · rw [List.length_take, Nat.min_eq_left (by omega), Nat.mul_succ]
      rw [groupsOf, if_neg hnil, List.drop_eq_getElem_cons hj, symbolWrites, hrest, hsplit, hnext,
        hgroup, List.getD_eq_getElem _ _ hj]

end

/-! ## 2. A code -/

section

variable {μ : Type} [MtfList μ] {ver : Version} {small : Bool} {alphaSize : Nat}

/-- The lengths as the parser has collected them. -/
theorem getD_rowList {row : Cells Nat} {v : Nat} (hv : v < alphaSize) :
    (rowList alphaSize row).getD v 0 = row v := by
  rw [rowList, List.getD_eq_getElem?_getD, List.getElem?_map, List.getElem?_range hv]
  rfl

/-- **A code is read**, in the table of its group. -/
theorem code_reads (ver : Version) (small : Bool) (site : MtfSite) (h3 : 3 ≤ alphaSize)
    (h258 : alphaSize ≤ 258) {row : Cells Nat} (hrow : CompleteCode alphaSize 17 row) {c : Core μ}
    (hg : c.p.group =
      buildTables (fun i => ((rowList alphaSize row).getD i.toNat 0 : Nat)) alphaSize .fresh)
    (hmin : c.p.gMinlen = c.p.group.minLen) {v : Nat} (hv : v < alphaSize) (rest : List Bool) :
    Steps (bitDecoder ver small) (c, .parser (.get (.mtf site c.p.gMinlen)))
      (bitsOf (row v) (rowCodes alphaSize row v) ++ rest) []
      (standing (c.absorb small (c.p.value ver site v))) rest := by
  have hl : Lengths alphaSize (fun i => ((rowList alphaSize row).getD i.toNat 0 : Nat))
      (fun i : Nat => row i) :=
    { pos := by omega
      small := h258
      cast := fun i hi => by
        rw [Int.toNat_natCast, getD_rowList hi]
      one_le := fun i hi => (hrow.range i hi).1
      le_twenty := fun i hi => Nat.le_trans (hrow.range i hi).2 (by decide) }
  obtain ⟨m, M, -, hx, ht⟩ := buildTables_tables hl .fresh
  rw [← hg] at ht
  -- the code of the encoder
  have hbounds := lenBounds_spec alphaSize row
  have hcode : rowCodes alphaSize row v =
      Canonical.codeOf (fun i : Nat => row i) alphaSize
        (Canonical.rank (fun i : Nat => row i) alphaSize v) (row v) :=
    hbAssignCodes_spec (fun _ _ => rfl) (fun j hj => (hbounds j hj).1) (fun j hj => (hbounds j hj).2)
      zeros hv
  have hfit := rowCodes_fit hrow hv
  rw [hcode] at hfit ⊢
  exact symbol_reads hl hx ht hv hfit rfl (hmin.trans ht.minLen) ver small site rest

/-! ## 3. The loop -/

omit [MtfList μ]

/-- `m` symbols have been begun: the group of the last one, and how far it is used up. -/
structure Begun (p : Parse) (m : Nat) : Prop where
  pos : 50 * (p.groupNo + 1) = (m + p.groupPos : Nat)
  lt : p.groupPos < 50
  group : 0 < m → p.groupNo < p.nSelectors ∧ p.gSel = p.selector.getD p.groupNo.toNat 0 ∧
    p.gMinlen = p.group.minLen

/-- `GET_MTF_VAL` begins the next symbol, or there is no selector left. -/
theorem Begun.beginVal {p : Parse} {m : Nat} (h : Begun p m) (site : MtfSite) :
    (∃ r, (p.beginVal site).2.2 = .ret r) ∨
    ∃ p' : Parse, p.beginVal site = p'.goto (.mtf site p'.gMinlen) ∧ Begun p' (m + 1) ∧
      p'.fixed = p.fixed := by
  have hpos := h.pos
  unfold Parse.beginVal
  by_cases h0 : p.groupPos = 0
  · rw [if_pos h0]
    dsimp only
    by_cases hsel : p.groupNo + 1 ≥ p.nSelectors
    · rw [if_pos hsel]
      exact .inl ⟨_, rfl⟩
    · rw [if_neg hsel]
      refine .inr ⟨_, rfl, ⟨?_, ?_, fun _ => ⟨?_, rfl, rfl⟩⟩, rfl⟩
      · show 50 * (p.groupNo + 1 + 1) = ((m + 1 + (50 - 1) : Nat) : Int)
        omega
      · show 50 - 1 < 50
        decide
      · show p.groupNo + 1 < p.nSelectors
        omega
  · have hlt := h.lt
    rw [if_neg h0]
    refine .inr ⟨_, rfl, ⟨?_, ?_, fun _ => h.group (by omega)⟩, rfl⟩
    · show 50 * (p.groupNo + 1) = ((m + 1 + (p.groupPos - 1) : Nat) : Int)
      omega
    · show p.groupPos - 1 < 50
      omega

/-- `k` symbols have been delivered, and the parser waits for the next or is past the last. -/
def Serving (p : Parse) (k : Nat) : Ctl → Prop
  | .get (.mtf _ zn) => Begun p (k + 1) ∧ zn = p.gMinlen
  | .fast => Begun p k
  | .block => True
  | _ => False

/-- What a stretch of the loop leads to: a return, or the wait for the next symbol. -/
def Serves (p : Parse) (k : Nat) (r : Parsed) : Prop :=
  (∃ q, r.2.2 = .ret q) ∨ Serving r.1 k r.2.2 ∧ r.1.fixed = p.fixed

theorem Begun.serves {p p₀ : Parse} {m : Nat} (h : Begun p m) (hf : p.fixed = p₀.fixed)
    (site : MtfSite) : Serves p₀ m (p.beginVal site) := by
  rcases h.beginVal site with hret | ⟨p', he, hb, hfix⟩
  · exact .inl hret
  · rw [he]
    exact .inr ⟨⟨hb, rfl⟩, hfix.trans hf⟩

/-- The counters of a run and of the block have no part in it. -/
theorem Begun.frame {p : Parse} {m : Nat} (h : Begun p m) (nextSym es : Int) (N nblock : Nat) :
    Begun { p with nextSym := nextSym, es := es, N := N, nblock := nblock } m :=
  ⟨h.pos, h.lt, h.group⟩

theorem Begun.runStep {p p₀ : Parse} {m : Nat} (h : Begun p m) (hf : p.fixed = p₀.fixed) :
    Serves p₀ m p.runStep := by
  unfold Parse.runStep
  split
  · exact .inl ⟨_, rfl⟩
  · exact (h.frame p.nextSym (if p.nextSym = bzRunA then p.es + p.N else p.es + 2 * p.N) (p.N * 2)
      p.nblock).serves hf .run

theorem Begun.symbol {p p₀ : Parse} {m : Nat} (h : Begun p m) (hf : p.fixed = p₀.fixed) :
    Serves p₀ m p.symbol := by
  unfold Parse.symbol
  split
  · exact .inr ⟨trivial, hf⟩
  · split
    · exact (h.frame p.nextSym (-1) 1 p.nblock).runStep hf
    · split
      · exact .inl ⟨_, rfl⟩
      · exact .inr ⟨h.frame p.nextSym p.es p.N _, hf⟩

/-- **A symbol delivered**: the loop waits for the next, or is over. -/
theorem Begun.value {p : Parse} {k : Nat} (h : Begun p k) (site : MtfSite) (sym : Int) :
    Serves p k (p.value .qbz2 site sym) := by
  have hs := h.frame sym p.es p.N p.nblock
  unfold Parse.value
  cases site with
  | first => exact hs.symbol rfl
  | literal => exact hs.symbol rfl
  | run =>
    dsimp only
    split
    · exact hs.runStep rfl
    · unfold Parse.endRun
      dsimp only
      split
      · exact .inl ⟨_, rfl⟩
      · exact (h.frame sym (p.es + 1) p.N _).symbol rfl

/-- The tables of the block, as the parser has them. -/
structure Coded (p : Parse) (alphaSize : Nat) (len : List (Cells Nat)) (selector : List Byte) :
    Prop where
  count : p.nSelectors = selector.length
  selector : p.selector = selector.map BitVec.toNat
  tables : p.tables = len.map fun row =>
    buildTables (fun i => ((rowList alphaSize row).getD i.toNat 0 : Nat)) alphaSize .fresh

theorem Coded.of_fixed {p p' : Parse} {len : List (Cells Nat)} {selector : List Byte}
    (h : Coded p alphaSize len selector) (hf : p'.fixed = p.fixed) :
    Coded p' alphaSize len selector :=
  ⟨(Parse.fixed_eq Parse.nSelectors hf fun _ => rfl).trans h.count,
    (Parse.fixed_eq Parse.selector hf fun _ => rfl).trans h.selector,
    (Parse.fixed_eq Parse.tables hf fun _ => rfl).trans h.tables⟩

/-- The table of the symbol that has been begun. -/
theorem Coded.group {p : Parse} {len : List (Cells Nat)} {selector : List Byte}
    (h : Coded p alphaSize len selector) (hsel : ∀ sel ∈ selector, sel.toNat < len.length) {k : Nat}
    (hb : Begun p (k + 1)) :
    tableOf len selector k ∈ len ∧ p.group = buildTables
      (fun i => ((rowList alphaSize (tableOf len selector k)).getD i.toNat 0 : Nat)) alphaSize
      .fresh := by
  obtain ⟨hno, hgsel, -⟩ := hb.group (Nat.succ_pos k)
  have hpos := hb.pos
  have hlt := hb.lt
  have hdiv : p.groupNo.toNat = k / bzGSize := by
    unfold bzGSize
    omega
  have hidx : k / bzGSize < selector.length := by
    rw [← h.count]
    omega
  have hmap : p.gSel = (selector.getD (k / bzGSize) 0).toNat := by
    rw [hgsel, h.selector, hdiv, List.getD_eq_getElem _ _ hidx,
      List.getD_eq_getElem _ _ (by rw [List.length_map]; exact hidx), List.getElem_map]
  have hrow : p.gSel < len.length := by
    rw [hmap, List.getD_eq_getElem _ _ hidx]
    exact hsel _ (List.getElem_mem hidx)
  have htable : tableOf len selector k = rowAt len p.gSel := by rw [tableOf, hmap]
  refine ⟨htable ▸ rowAt_mem hrow, ?_⟩
  rw [htable, Parse.group, h.tables, rowAt, List.getD_eq_getElem _ _ hrow,
    List.getD_eq_getElem _ _ (by rw [List.length_map]; exact hrow), List.getElem_map]

section

variable [MtfList μ] {len : List (Cells Nat)} {selector : List Byte}

/-- A code is read where it is waited for, and the loop goes on with its symbol. -/
theorem serving_reads (h3 : 3 ≤ alphaSize) (h258 : alphaSize ≤ 258)
    (hlen : ∀ row ∈ len, CompleteCode alphaSize 17 row)
    (hsel : ∀ sel ∈ selector, sel.toNat < len.length) {c : Core μ} {site : MtfSite} {k : Nat}
    (hb : Begun c.p (k + 1)) (hc : Coded c.p alphaSize len selector) {v : Nat} (hv : v < alphaSize)
    {w : List Byte} {rest u : List Bool} {y : Core μ × Point}
    (hs : Steps (bitDecoder .qbz2 small) (standing (c.absorb small (c.p.value .qbz2 site v))) rest w
      y u) :
    Steps (bitDecoder .qbz2 small) (c, .parser (.get (.mtf site c.p.gMinlen)))
      (bitsOf (tableOf len selector k v)
        (BitVec.ofNat 32 (rowCodes alphaSize (tableOf len selector k) v)).toNat ++ rest) w y u := by
  obtain ⟨hmem, hgroup⟩ := hc.group hsel hb
  obtain ⟨-, -, hmin⟩ := hb.group (Nat.succ_pos k)
  have hrow := hlen _ hmem
  have hfit := rowCodes_fit hrow hv
  have h17 := (hrow.range v hv).2
  have hcode : (BitVec.ofNat 32 (rowCodes alphaSize (tableOf len selector k) v)).toNat =
      rowCodes alphaSize (tableOf len selector k) v := by
    rw [BitVec.toNat_ofNat, Nat.mod_eq_of_lt]
    refine Nat.lt_of_lt_of_le hfit (Nat.pow_le_pow_right (by decide) (by omega))
  rw [hcode]
  exact (code_reads .qbz2 small site h3 h258 hrow hgroup hmin hv rest).trans hs

/-- **What the loop does with the symbols of a list, it does on their codes.** -/
theorem feed_reads (h3 : 3 ≤ alphaSize) (h258 : alphaSize ≤ 258)
    (hlen : ∀ row ∈ len, CompleteCode alphaSize 17 row)
    (hsel : ∀ sel ∈ selector, sel.toNat < len.length) (rest : List Bool) {c' : Core μ} :
    ∀ (vs : List Nat) (c : Core μ) (ctl : Ctl) (k : Nat), (∀ v ∈ vs, v < alphaSize) →
    Serving c.p k ctl → Coded c.p alphaSize len selector →
    Core.feed .qbz2 small (c, ctl) vs = some (c', .block) →
    Steps (bitDecoder .qbz2 small) (c, .parser ctl)
      (writesBits (codesFrom alphaSize len selector k vs) ++ rest) [] (c', .parser .block) rest := by
  intro vs
  induction vs with
  | nil =>
    intro c ctl k _ _ _ hfeed
    cases hfeed
    exact .refl _ _
  | cons v vs ih =>
    intro c ctl k hvs hserv hc hfeed
    have hv := hvs v List.mem_cons_self
    -- what follows the delivery of `v`
    have hgo : ∀ (d : Core μ) (site : MtfSite), Begun d.p (k + 1) → Coded d.p alphaSize len selector →
        Core.feed .qbz2 small (d.absorb small (d.p.value .qbz2 site v)) vs = some (c', .block) →
        Steps (bitDecoder .qbz2 small) (d, .parser (.get (.mtf site d.p.gMinlen)))
          (writesBits (codesFrom alphaSize len selector k (v :: vs)) ++ rest) []
          (c', .parser .block) rest := by
      intro d site hb hd hf
      rw [codesFrom, writesBits_cons, List.append_assoc]
      refine serving_reads h3 h258 hlen hsel hb hd hv ?_
      rcases hb.value site v with ⟨q, hq⟩ | ⟨hs, hfix⟩
      · -- no symbol is taken after a return
        have hctl : (d.absorb small (d.p.value .qbz2 site v)).2 = .ret q := hq
        generalize d.absorb small (d.p.value .qbz2 site v) = s at hf hctl
        obtain ⟨e, ctl⟩ := s
        obtain rfl : ctl = .ret q := hctl
        cases vs with
        | nil => cases hf
        | cons => cases hf
      · exact ih _ _ (k + 1) (fun w hw => hvs w (List.mem_cons_of_mem _ hw)) hs (hd.of_fixed hfix) hf
    rw [Core.feed] at hfeed
    cases ctl with
    | get l =>
      cases l with
      | mtf site zn =>
        obtain ⟨hb, rfl⟩ := hserv
        exact hgo c site hb hc hfeed
      | _ => exact hserv.elim
    | fast =>
      rcases Begun.beginVal hserv .literal with ⟨q, hq⟩ | ⟨p', he, hb, hfix⟩
      · unfold Core.deliver at hfeed
        dsimp only at hfeed
        have hctl : (c.absorb small (c.p.beginVal .literal)).2 = .ret q := hq
        generalize c.absorb small (c.p.beginVal .literal) = s at hfeed hctl
        obtain ⟨e, ctl⟩ := s
        obtain rfl : ctl = .ret q := hctl
        cases hfeed
      · unfold Core.deliver at hfeed
        rw [he] at hfeed
        refine .move rfl ?_
        rw [he]
        exact hgo { c with p := p' } .literal hb (hc.of_fixed hfix) hfeed
    | block => cases hfeed
    | ret => exact hserv.elim

end

end

end Qbz2
