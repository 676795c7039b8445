/-
  File:      Qbz2/Decompress/Ready.lean
  Subject:   What the parser relies on at each of its labels, for any input bits.

  * `BlockOk`, `CurOk`, `CountOk` -- the block's alphabet, selectors and tables; the current group;
    the run being counted;
  * `LabelOk p l`, `Ready p ctl` -- what holds where the parser stops for bits, and where it goes
    on;
  * `OpOk` -- an operation on the block stays inside it;
  * `resume_sound` -- from a label in order the parser does operations in order, and stops at a
    label in order again;
  * `resume_cases` -- all that the code from a label outside the symbols can do.
-/
import Qbz2.Decompress.Tape

namespace Qbz2

/-! ## 1. Invariants -/

/-- `blockSize100k` is set. -/
def BsOk (blockSize100k : Nat) : Prop := 1 ≤ blockSize100k ∧ blockSize100k ≤ 9

/-- The alphabet of a block. -/
structure AlphaOk (blockSize100k nInUse alphaSize : Nat) (seqToUnseq : List Byte) : Prop where
  bs : BsOk blockSize100k
  pos : 1 ≤ nInUse
  le : nInUse ≤ 256
  size : alphaSize = nInUse + 2
  maps : seqToUnseq.length = nInUse

/-- The selectors, and the number of groups. -/
structure SelOk (nGroups nSelectors : Nat) (selector : List Nat) : Prop where
  groups : 2 ≤ nGroups ∧ nGroups ≤ 6
  length : selector.length = nSelectors
  small : nSelectors ≤ bzMaxSelectors
  lt : ∀ x ∈ selector, x < nGroups

/-- The lengths of a group. -/
def RowOk (row : List Nat) : Prop := ∀ x ∈ row, 1 ≤ x ∧ x ≤ 20

/-- The lengths of the groups read so far. -/
structure CodingOk (p : Parse) : Prop where
  alpha : AlphaOk p.blockSize100k p.nInUse p.alphaSize p.seqToUnseq
  sel : SelOk p.nGroups p.nSelectors p.selector
  t : p.t < p.nGroups
  rows : p.len.length = p.t
  row : ∀ row ∈ p.len, row.length = p.alphaSize ∧ RowOk row

/-- The symbols of a block are being read. -/
structure BlockOk (p : Parse) : Prop where
  alpha : AlphaOk p.blockSize100k p.nInUse p.alphaSize p.seqToUnseq
  sel : SelOk p.nGroups p.nSelectors p.selector
  count : p.tables.length = p.nGroups
  tables : ∀ g ∈ p.tables, GroupOk p.alphaSize g
  eob : p.eob = p.nInUse + 1
  max : p.nblockMAX = 100000 * p.blockSize100k
  le : p.nblock ≤ p.nblockMAX
  groupNo : -1 ≤ p.groupNo
  groupPos : p.groupPos ≤ bzGSize

/-- The current group is one of the block's. -/
structure CurOk (tables : List HuffTables) (gSel : Nat) (gMinlen : Int) : Prop where
  lt : gSel < tables.length
  minLen : gMinlen = (tables.getD gSel .fresh).minLen

/-- A run is being counted: `es` has as many digits as `N` says. -/
structure CountOk (N : Nat) (es : Int) : Prop where
  pos : 1 ≤ N
  le : N ≤ 2 * (2 * 1024 * 1024)
  low : -1 ≤ es
  high : es + 1 ≤ 2 * ((N : Int) - 1)

theorem CountOk.start : CountOk 1 (-1) := ⟨by decide, by decide, by decide, by decide⟩

/-- What holds where the parser waits at a label. -/
def LabelOk (p : Parse) : Label → Prop
  | .magic1 | .magic2 | .magic3 | .magic4 => True
  | .mapping1 => BsOk p.blockSize100k ∧ p.i < 16 ∧ p.inUse16.length = p.i
  | .mapping2 => BsOk p.blockSize100k ∧ p.i < 16 ∧ p.j < 16 ∧ p.inUse.length = 256 ∧
      p.inUse16.length = 16
  | .selector1 => AlphaOk p.blockSize100k p.nInUse p.alphaSize p.seqToUnseq
  | .selector2 => AlphaOk p.blockSize100k p.nInUse p.alphaSize p.seqToUnseq ∧
      2 ≤ p.nGroups ∧ p.nGroups ≤ 6
  | .selector3 => AlphaOk p.blockSize100k p.nInUse p.alphaSize p.seqToUnseq ∧
      (2 ≤ p.nGroups ∧ p.nGroups ≤ 6) ∧ p.i < p.nSelectors ∧ p.j < p.nGroups ∧
      p.selectorMtf.length = min p.i bzMaxSelectors ∧ ∀ x ∈ p.selectorMtf, x < p.nGroups
  | .coding1 => CodingOk p
  | .coding2 | .coding3 => CodingOk p ∧ p.i < p.alphaSize ∧ p.lenRow.length = p.i ∧
      RowOk p.lenRow ∧ 1 ≤ p.curr ∧ p.curr ≤ 20
  | .mtf site zn => BlockOk p ∧ CurOk p.tables p.gSel p.gMinlen ∧ zn = p.gMinlen ∧
      (site = .run → CountOk p.N p.es)
  | .mtfNext site zn zvec => BlockOk p ∧ CurOk p.tables p.gSel p.gMinlen ∧
      (p.gMinlen < zn ∧ zn ≤ 21 ∧ p.group.limit (zn - 1) < zvec) ∧ (site = .run → CountOk p.N p.es)
  | _ => BsOk p.blockSize100k

/-- What holds where the parser goes on. -/
def Ready (p : Parse) : Ctl → Prop
  | .get l => LabelOk p l
  | .fast => BlockOk p ∧ CurOk p.tables p.gSel p.gMinlen
  | .block => BlockOk p
  | .ret _ => True

/-- An operation inside the block. -/
def OpOk (p : Parse) : Op → Prop
  | .start => True
  | .count es => es ≤ 2 ^ 24
  | .put pos es => pos + es ≤ p.nblockMAX
  | .literal pos nn => pos < p.nblockMAX ∧ 1 ≤ nn ∧ nn < p.nInUse

/-- A stretch of the parser in order. -/
structure Sound (r : Parsed) : Prop where
  ready : Ready r.1 r.2.2
  ops : ∀ op ∈ r.2.1, OpOk r.1 op

/-! ## 2. Small steps -/

variable {p : Parse}

theorem sound_goto {l : Label} (h : LabelOk p l) : Sound (p.goto l) :=
  ⟨h, fun _ hop => nomatch hop⟩

theorem sound_fail (p : Parse) (r : Ret) : Sound (p.fail r) :=
  ⟨trivial, fun _ hop => nomatch hop⟩

theorem sound_expect {v c : Nat} {r : Ret} {l : Label} (h : LabelOk p l) :
    Sound (p.expect v c r l) := by
  unfold Parse.expect
  split
  · exact sound_fail p r
  · exact sound_goto h

/-- The locals of the symbol loop are not part of the block. -/
theorem BlockOk.frame (h : BlockOk p) {nblock groupPos : Nat} {groupNo : Int} (gSel N : Nat)
    (gMinlen nextSym es : Int) (hle : nblock ≤ p.nblockMAX) (hno : -1 ≤ groupNo)
    (hpos : groupPos ≤ bzGSize) :
    BlockOk { p with nblock, groupPos, groupNo, gSel, N, gMinlen, nextSym, es } :=
  { alpha := h.alpha, sel := h.sel, count := h.count, tables := h.tables, eob := h.eob
    max := h.max, le := hle, groupNo := hno, groupPos := hpos }

theorem CurOk.group (hb : BlockOk p) (hc : CurOk p.tables p.gSel p.gMinlen) :
    GroupOk p.alphaSize p.group := by
  unfold Parse.group
  rw [List.getD_eq_getElem?_getD, List.getElem?_eq_getElem hc.lt]
  exact hb.tables _ (List.getElem_mem hc.lt)

/-- The first `GET_BITS` of `GET_MTF_VAL`. -/
theorem sound_mtf {site : MtfSite} (hb : BlockOk p) (hc : CurOk p.tables p.gSel p.gMinlen)
    (hr : site = .run → CountOk p.N p.es) :
    Sound ({ p with groupPos := p.groupPos - 1 }.goto (.mtf site p.gMinlen)) :=
  sound_goto ⟨hb.frame _ _ _ _ _ hb.le hb.groupNo (Nat.le_trans (Nat.sub_le _ _) hb.groupPos), hc,
    rfl, hr⟩

theorem sound_beginVal {site : MtfSite} (hb : BlockOk p)
    (hc : 0 < p.groupPos → CurOk p.tables p.gSel p.gMinlen)
    (hr : site = .run → CountOk p.N p.es) : Sound (p.beginVal site) := by
  unfold Parse.beginVal
  split
  · dsimp only
    split
    · exact sound_fail _ _
    · rename_i hlt
      have hno := hb.groupNo
      -- a selector of the block names one of its groups
      have hidx : (p.groupNo + 1).toNat < p.selector.length := by
        rw [hb.sel.length]
        omega
      have hsel : p.selector.getD (p.groupNo + 1).toNat 0 < p.tables.length := by
        rw [hb.count, List.getD_eq_getElem?_getD, List.getElem?_eq_getElem hidx]
        exact hb.sel.lt _ (List.getElem_mem hidx)
      have hb' := @BlockOk.frame _ hb p.nblock bzGSize (p.groupNo + 1)
        (p.selector.getD (p.groupNo + 1).toNat 0) p.N
        (p.tables.getD (p.selector.getD (p.groupNo + 1).toNat 0) .fresh).minLen p.nextSym p.es
        hb.le (by omega) (Nat.le_refl _)
      exact sound_mtf hb' ⟨hsel, rfl⟩ hr
  · exact sound_mtf hb (hc (by omega)) hr

/-! ## 3. The symbols of a block -/

/-- What the symbol loop leaves alone. -/
structure Same (p q : Parse) : Prop where
  blockSize100k : q.blockSize100k = p.blockSize100k
  blockRandomised : q.blockRandomised = p.blockRandomised
  origPtr : q.origPtr = p.origPtr
  nInUse : q.nInUse = p.nInUse
  seqToUnseq : q.seqToUnseq = p.seqToUnseq
  eob : q.eob = p.eob
  nblockMAX : q.nblockMAX = p.nblockMAX

theorem Same.refl (p : Parse) : Same p p := ⟨rfl, rfl, rfl, rfl, rfl, rfl, rfl⟩

theorem Same.trans {p q r : Parse} (h : Same p q) (h' : Same q r) : Same p r :=
  ⟨h'.1.trans h.1, h'.2.trans h.2, h'.3.trans h.3, h'.4.trans h.4, h'.5.trans h.5,
    h'.6.trans h.6, h'.7.trans h.7⟩

theorem same_beginVal (p : Parse) (site : MtfSite) : Same p (p.beginVal site).1 := by
  unfold Parse.beginVal
  split
  · dsimp only
    split <;> exact ⟨rfl, rfl, rfl, rfl, rfl, rfl, rfl⟩
  · exact ⟨rfl, rfl, rfl, rfl, rfl, rfl, rfl⟩

theorem same_runStep (p : Parse) : Same p p.runStep.1 := by
  unfold Parse.runStep
  split
  · exact Same.refl p
  · refine Same.trans ?_ (same_beginVal _ _)
    exact ⟨rfl, rfl, rfl, rfl, rfl, rfl, rfl⟩

theorem same_symbol (p : Parse) : Same p p.symbol.1 := by
  unfold Parse.symbol
  split
  · exact Same.refl p
  · split
    · refine Same.trans ?_ (same_runStep _)
      exact ⟨rfl, rfl, rfl, rfl, rfl, rfl, rfl⟩
    · split <;> exact ⟨rfl, rfl, rfl, rfl, rfl, rfl, rfl⟩

theorem OpOk.same {p q : Parse} (h : Same p q) {op : Op} (ho : OpOk p op) : OpOk q op := by
  cases op with
  | start => trivial
  | count es => exact ho
  | put pos es =>
    unfold OpOk at ho ⊢
    rw [h.nblockMAX]
    exact ho
  | literal pos nn =>
    unfold OpOk at ho ⊢
    rw [h.nblockMAX, h.nInUse]
    exact ho

theorem sound_runStep (hb : BlockOk p) (hc : CurOk p.tables p.gSel p.gMinlen)
    (hr : CountOk p.N p.es) : Sound p.runStep := by
  unfold Parse.runStep
  split
  · exact sound_fail _ _
  · rename_i hN
    obtain ⟨h1, h2, h3, h4⟩ := hr
    have hr' : CountOk (p.N * 2) (if p.nextSym = bzRunA then p.es + p.N else p.es + 2 * p.N) := by
      refine ⟨by omega, by omega, ?_, ?_⟩ <;> split <;> omega
    exact sound_beginVal
      (hb.frame p.gSel (p.N * 2) p.gMinlen p.nextSym _ hb.le hb.groupNo hb.groupPos)
      (fun _ => hc) fun _ => hr'

/-- The symbols of the alphabet. -/
def SymOk (p : Parse) : Prop := 0 ≤ p.nextSym ∧ p.nextSym < p.alphaSize

theorem sound_symbol (hb : BlockOk p) (hc : CurOk p.tables p.gSel p.gMinlen) (hs : SymOk p) :
    Sound p.symbol := by
  obtain ⟨h0, hlt⟩ := hs
  have hsize := hb.alpha.size
  have heob := hb.eob
  unfold Parse.symbol
  split
  · exact ⟨hb, fun _ hop => nomatch hop⟩
  · split
    · exact sound_runStep (p := { p with es := -1, N := 1 })
        (hb.frame _ _ _ _ _ hb.le hb.groupNo hb.groupPos) hc CountOk.start
    · rename_i hne hrun
      split
      · exact sound_fail _ _
      · rename_i hmax
        refine ⟨⟨hb.frame _ _ _ _ _ (by omega) hb.groupNo hb.groupPos, hc⟩, fun op hop => ?_⟩
        obtain rfl := List.mem_singleton.mp hop
        rw [bzRunA, bzRunB] at hrun
        exact ⟨by dsimp only; omega, by omega, by dsimp only; omega⟩

/-- The reference decoder's writes stay inside the block too. -/
theorem writeRun_inside {max : Nat} : ∀ (es nblock : Nat), nblock ≤ max →
    nblock ≤ (Parse.writeRun max es nblock).2.1 ∧ (Parse.writeRun max es nblock).2.1 ≤ max ∧
    ∀ op ∈ (Parse.writeRun max es nblock).1, ∃ pos, op = .put pos 1 ∧ pos < max := by
  intro es
  induction es with
  | zero => exact fun nblock h => ⟨Nat.le_refl _, h, fun _ hop => nomatch hop⟩
  | succ es ih =>
    intro nblock h
    rw [Parse.writeRun]
    split
    · exact ⟨Nat.le_refl _, h, fun _ hop => nomatch hop⟩
    · rename_i hlt
      obtain ⟨h1, h2, h3⟩ := ih (nblock + 1) (by omega)
      refine ⟨by dsimp only; omega, h2, fun op hop => ?_⟩
      rcases List.mem_cons.mp hop with rfl | hop
      · exact ⟨nblock, rfl, by omega⟩
      · exact h3 op hop

theorem sound_endRun (ver : Version) (hb : BlockOk p) (hc : CurOk p.tables p.gSel p.gMinlen)
    (hr : CountOk p.N p.es) (hs : SymOk p) : Sound (p.endRun ver) := by
  obtain ⟨h1, h2, h3, h4⟩ := hr
  have hes : (p.es + 1).toNat ≤ 2 ^ 24 := by omega
  cases ver with
  | qbz2 =>
    unfold Parse.endRun
    dsimp only
    split
    · refine ⟨trivial, fun op hop => ?_⟩
      obtain rfl := List.mem_singleton.mp hop
      exact hes
    · rename_i hfit
      have hsym := sound_symbol (p := { p with es := p.es + 1, nblock := p.nblock + (p.es + 1).toNat })
        (hb.frame _ _ _ _ _ (by omega) hb.groupNo hb.groupPos) hc hs
      have hsame := same_symbol { p with es := p.es + 1, nblock := p.nblock + (p.es + 1).toNat }
      refine ⟨hsym.ready, fun op hop => ?_⟩
      rcases List.mem_cons.mp hop with rfl | hop
      · exact hes
      · rcases List.mem_cons.mp hop with rfl | hop
        · unfold OpOk
          rw [hsame.nblockMAX]
          dsimp only
          omega
        · exact hsym.ops op hop
  | reference =>
    obtain ⟨-, hle, hputs⟩ := writeRun_inside (p.es + 1).toNat p.nblock hb.le
    unfold Parse.endRun
    dsimp only
    split
    · have hsym := sound_symbol (p := { p with
          es := p.es + 1
          nblock := (Parse.writeRun p.nblockMAX (p.es + 1).toNat p.nblock).2.1 })
        (hb.frame _ _ _ _ _ hle hb.groupNo hb.groupPos) hc hs
      have hsame := same_symbol { p with
        es := p.es + 1
        nblock := (Parse.writeRun p.nblockMAX (p.es + 1).toNat p.nblock).2.1 }
      refine ⟨hsym.ready, fun op hop => ?_⟩
      rcases List.mem_cons.mp hop with rfl | hop
      · exact hes
      · rcases List.mem_append.mp hop with hop | hop
        · obtain ⟨pos, rfl, hpos⟩ := hputs op hop
          unfold OpOk
          rw [hsame.nblockMAX]
          exact hpos
        · exact hsym.ops op hop
    · refine ⟨trivial, fun op hop => ?_⟩
      rcases List.mem_cons.mp hop with rfl | hop
      · exact hes
      · obtain ⟨pos, rfl, hpos⟩ := hputs op hop
        exact hpos

theorem sound_value (ver : Version) {site : MtfSite} {sym : Int} (hb : BlockOk p)
    (hc : CurOk p.tables p.gSel p.gMinlen) (hr : site = .run → CountOk p.N p.es)
    (h0 : 0 ≤ sym) (hlt : sym < p.alphaSize) : Sound (p.value ver site sym) := by
  have hb' := hb.frame p.gSel p.N p.gMinlen sym p.es hb.le hb.groupNo hb.groupPos
  unfold Parse.value
  cases site with
  | first => exact sound_symbol hb' hc ⟨h0, hlt⟩
  | literal => exact sound_symbol hb' hc ⟨h0, hlt⟩
  | run =>
    dsimp only
    split
    · exact sound_runStep hb' hc (hr rfl)
    · exact sound_endRun ver hb' hc (hr rfl) ⟨h0, hlt⟩

/-- The loop of `GET_MTF_VAL`. -/
theorem sound_mtfLoop (ver : Version) {site : MtfSite} {zn zvec : Int} (hb : BlockOk p)
    (hc : CurOk p.tables p.gSel p.gMinlen) (hr : site = .run → CountOk p.N p.es)
    (hv : ValOk p.group zn zvec) : Sound (p.mtf ver site zn zvec) := by
  have hrange := mtfVal_range (CurOk.group hb hc) hv
  unfold Parse.mtf
  cases hm : mtfVal p.group zn zvec with
  | error => exact sound_fail _ _
  | symbol sym =>
    rw [hm] at hrange
    exact sound_value ver hb hc hr hrange.2.1 hrange.2.2
  | more =>
    rw [hm] at hrange
    have e : zn + 1 - 1 = zn := by omega
    refine sound_goto ⟨hb, hc, ⟨?_, hrange.2.1, ?_⟩, hr⟩
    · rw [hc.minLen]
      exact hrange.1
    · rw [e]
      exact hrange.2.2

/-! ## 4. The tables of a block -/

/-- The lengths of a group of the alphabet. -/
theorem RowOk.lengths {blockSize100k nInUse alphaSize : Nat} {seqToUnseq : List Byte}
    {row : List Nat} (ha : AlphaOk blockSize100k nInUse alphaSize seqToUnseq)
    (hlen : row.length = alphaSize) (h : RowOk row) :
    Lengths alphaSize (fun i => (row.getD i.toNat 0 : Nat)) fun j => row.getD j 0 := by
  have hsize := ha.size
  have hle := ha.le
  have hget : ∀ j, j < alphaSize → row.getD j 0 ∈ row := fun j hj => by
    rw [List.getD_eq_getElem?_getD, List.getElem?_eq_getElem (by omega)]
    exact List.getElem_mem _
  exact
    { pos := by omega, small := by omega, cast := fun j _ => rfl
      one_le := fun j hj => (h _ (hget j hj)).1
      le_twenty := fun j hj => (h _ (hget j hj)).2 }

theorem startMtf_sound (ha : AlphaOk p.blockSize100k p.nInUse p.alphaSize p.seqToUnseq)
    (hsel : SelOk p.nGroups p.nSelectors p.selector)
    (hrow : ∀ row ∈ p.len, row.length = p.alphaSize ∧ RowOk row)
    (hall : p.len.length = p.nGroups) : Sound p.buildAll.startMtf := by
  have hb : BlockOk { p.buildAll with
      eob := p.nInUse + 1
      nblockMAX := 100000 * p.blockSize100k
      groupNo := -1
      groupPos := 0
      nblock := 0 } :=
    { alpha := ha
      sel := hsel
      count := by
        unfold Parse.buildAll
        dsimp only
        rw [List.length_map]
        exact hall
      tables := fun g hg => by
        obtain ⟨row, hmem, rfl⟩ := List.mem_map.mp hg
        obtain ⟨hlen, hok⟩ := hrow row hmem
        exact buildTables_sound (hok.lengths ha hlen) _
      eob := rfl
      max := rfl
      le := Nat.zero_le _
      groupNo := Int.le_refl _
      groupPos := Nat.zero_le _ }
  have key := @sound_beginVal _ .first hb (fun h => absurd h (Nat.lt_irrefl 0))
    fun h => nomatch h
  refine ⟨key.ready, fun op hop => ?_⟩
  rcases List.mem_cons.mp hop with rfl | hop
  · trivial
  · exact key.ops op hop

theorem makeMaps_alpha (hbs : BsOk p.blockSize100k) (h : p.makeMaps.nInUse ≠ 0) :
    AlphaOk p.blockSize100k p.makeMaps.nInUse (p.makeMaps.nInUse + 2) p.makeMaps.seqToUnseq where
  bs := hbs
  pos := Nat.pos_of_ne_zero h
  le := by
    unfold Parse.makeMaps
    dsimp only
    rw [List.length_map]
    exact Nat.le_trans (List.length_filter_le _ _) (by rw [List.length_range])
  size := rfl
  maps := rfl

theorem sound_mappingFrom (i : Nat) (hbs : BsOk p.blockSize100k) (h256 : p.inUse.length = 256)
    (h16 : p.inUse16.length = 16) : Sound (p.mappingFrom i) := by
  unfold Parse.mappingFrom
  dsimp only
  split
  · rename_i hlt
    exact sound_goto ⟨hbs, hlt, by dsimp only; omega, h256, h16⟩
  · split
    · exact sound_fail _ _
    · rename_i hne
      exact sound_goto (makeMaps_alpha (p := { p with i := Parse.nextInUse16 p.inUse16 i }) hbs hne)

theorem length_undoSelectorMtf (mtf : List Nat) :
    ∀ pos : List Nat, (Parse.undoSelectorMtf pos mtf).length = mtf.length := by
  induction mtf with
  | nil => exact fun _ => rfl
  | cons v mtf ih => intro pos; rw [Parse.undoSelectorMtf, List.length_cons, ih, List.length_cons]

/-- Selectors decoded from positions in a list of groups are groups of that list. -/
theorem undoSelectorMtf_mem {mtf pos : List Nat} (h : ∀ v ∈ mtf, v < pos.length) :
    ∀ x ∈ Parse.undoSelectorMtf pos mtf, x ∈ pos := by
  have getD_mem : ∀ {l : List Nat} {v : Nat}, v < l.length → l.getD v 0 ∈ l := by
    intro l v hv
    rw [List.getD_eq_getElem?_getD, List.getElem?_eq_getElem hv]
    exact List.getElem_mem hv
  induction mtf generalizing pos with
  | nil => exact fun _ hx => nomatch hx
  | cons v mtf ih =>
    have hv : v < pos.length := h v List.mem_cons_self
    have hlen : (Parse.moveToFront pos v).length = pos.length := by
      rw [Parse.moveToFront, List.length_cons, List.length_append, List.length_take,
        List.length_drop]
      omega
    have hsub : ∀ x ∈ Parse.moveToFront pos v, x ∈ pos := by
      intro x hx
      rcases List.mem_cons.mp hx with rfl | hx
      · exact getD_mem hv
      · rcases List.mem_append.mp hx with hx | hx
        · exact List.mem_of_mem_take hx
        · exact List.mem_of_mem_drop hx
    intro x hx
    rcases List.mem_cons.mp hx with rfl | hx
    · exact getD_mem hv
    · refine hsub x (ih (fun w hw => ?_) x hx)
      rw [hlen]
      exact h w (List.mem_cons_of_mem _ hw)

theorem sound_endSelectors
    (ha : AlphaOk p.blockSize100k p.nInUse p.alphaSize p.seqToUnseq)
    (hg : 2 ≤ p.nGroups ∧ p.nGroups ≤ 6)
    (hlen : p.selectorMtf.length = min p.nSelectors bzMaxSelectors)
    (hlt : ∀ x ∈ p.selectorMtf, x < p.nGroups) : Sound p.endSelectors := by
  unfold Parse.endSelectors
  have hn : (if p.nSelectors > bzMaxSelectors then bzMaxSelectors else p.nSelectors) =
      p.selectorMtf.length := by
    rw [hlen]
    split <;> omega
  dsimp only
  rw [hn, List.take_length]
  refine sound_goto { alpha := ha, sel := ?_, t := ?_, rows := rfl, row := fun _ h => nomatch h }
  · refine { groups := hg, length := length_undoSelectorMtf _ _, small := ?_, lt := fun x hx => ?_ }
    · dsimp only
      omega
    · have hmem := undoSelectorMtf_mem
        (fun v hv => by rw [List.length_range]; exact hlt v hv) x hx
      exact List.mem_range.mp hmem
  · dsimp only
    omega

theorem sound_codingFrom (hc : CodingOk p) (hi : p.i < p.alphaSize) (hl : p.lenRow.length = p.i)
    (hr : RowOk p.lenRow) : Sound p.codingFrom := by
  unfold Parse.codingFrom
  split
  · exact sound_fail _ _
  · exact sound_goto ⟨hc, hi, hl, hr, by omega, by omega⟩

/-- One more length keeps a group in order. -/
theorem RowOk.concat {row : List Nat} {curr : Nat} (h : RowOk row) (h1 : 1 ≤ curr)
    (h20 : curr ≤ 20) : RowOk (row ++ [curr]) := fun x hx => by
  rcases List.mem_append.mp hx with hx | hx
  · exact h x hx
  · obtain rfl := List.mem_singleton.mp hx
    exact ⟨h1, h20⟩

/-- One more group keeps them all in order. -/
theorem CodingOk.concat (hc : CodingOk p) (hl : p.lenRow.length + 1 = p.alphaSize)
    (hr : RowOk (p.lenRow ++ [p.curr])) :
    ∀ row ∈ p.len ++ [p.lenRow ++ [p.curr]], row.length = p.alphaSize ∧ RowOk row := by
  intro row hrow
  rcases List.mem_append.mp hrow with hrow | hrow
  · exact hc.row row hrow
  · obtain rfl := List.mem_singleton.mp hrow
    refine ⟨?_, hr⟩
    rw [List.length_append, List.length_singleton]
    exact hl

theorem sound_endLength (hc : CodingOk p) (hl : p.lenRow.length = p.i) (hr : RowOk p.lenRow)
    (h1 : 1 ≤ p.curr) (h20 : p.curr ≤ 20) (hi : p.i < p.alphaSize) : Sound p.endLength := by
  have hr' := hr.concat h1 h20
  have hl' : (p.lenRow ++ [p.curr]).length = p.i + 1 := by
    rw [List.length_append, hl, List.length_singleton]
  unfold Parse.endLength
  dsimp only
  split
  · rename_i hlt
    exact sound_codingFrom (p := { p with lenRow := p.lenRow ++ [p.curr], i := p.i + 1 })
      { alpha := hc.alpha, sel := hc.sel, t := hc.t, rows := hc.rows, row := hc.row } hlt hl' hr'
  · have hrow := hc.concat (by omega) hr'
    have hrows : (p.len ++ [p.lenRow ++ [p.curr]]).length = p.t + 1 := by
      rw [List.length_append, hc.rows, List.length_singleton]
    have ht := hc.t
    split
    · rename_i hlt
      exact sound_goto { alpha := hc.alpha, sel := hc.sel, t := hlt, rows := hrows, row := hrow }
    · rename_i hge
      obtain ⟨q, hq⟩ : ∃ q : Parse, q = { p with
          lenRow := p.lenRow ++ [p.curr], i := p.i + 1, t := p.t + 1
          len := p.len ++ [p.lenRow ++ [p.curr]] } := ⟨_, rfl⟩
      have hall : q.len.length = q.nGroups := by
        rw [hq]
        dsimp only
        omega
      have halpha : AlphaOk q.blockSize100k q.nInUse q.alphaSize q.seqToUnseq := by
        rw [hq]
        exact hc.alpha
      have hsel : SelOk q.nGroups q.nSelectors q.selector := by
        rw [hq]
        exact hc.sel
      have hrow' : ∀ row ∈ q.len, row.length = q.alphaSize ∧ RowOk row := by
        rw [hq]
        exact hrow
      rw [← hq]
      exact startMtf_sound halpha hsel hrow' hall

/-- One more selector keeps them all among the groups. -/
theorem selectorMtf_concat (hj : p.j < p.nGroups) (hlt : ∀ x ∈ p.selectorMtf, x < p.nGroups) :
    ∀ x ∈ (if p.i < bzMaxSelectors then p.selectorMtf ++ [p.j] else p.selectorMtf),
      x < p.nGroups := by
  intro x hx
  split at hx
  · rcases List.mem_append.mp hx with hx | hx
    · exact hlt x hx
    · obtain rfl := List.mem_singleton.mp hx
      exact hj
  · exact hlt x hx

theorem sound_endSelector
    (ha : AlphaOk p.blockSize100k p.nInUse p.alphaSize p.seqToUnseq)
    (hg : 2 ≤ p.nGroups ∧ p.nGroups ≤ 6) (hi : p.i < p.nSelectors) (hj : p.j < p.nGroups)
    (hlen : p.selectorMtf.length = min p.i bzMaxSelectors)
    (hlt : ∀ x ∈ p.selectorMtf, x < p.nGroups) : Sound p.endSelector := by
  obtain ⟨mtf', hmtf'⟩ : ∃ m : List Nat, m =
      if p.i < bzMaxSelectors then p.selectorMtf ++ [p.j] else p.selectorMtf := ⟨_, rfl⟩
  have hlen' : mtf'.length = min (p.i + 1) bzMaxSelectors := by
    rw [hmtf']
    split
    · rw [List.length_append, hlen, List.length_singleton]
      omega
    · rw [hlen]
      omega
  have hlt' : ∀ x ∈ mtf', x < p.nGroups := by
    rw [hmtf']
    exact selectorMtf_concat hj hlt
  unfold Parse.endSelector
  rw [← hmtf']
  dsimp only
  split
  · rename_i hlt2
    exact sound_goto ⟨ha, hg, hlt2, by dsimp only; omega, hlen', hlt'⟩
  · refine sound_endSelectors (p := { p with selectorMtf := mtf', i := p.i + 1 }) ha hg ?_ hlt'
    dsimp only
    rw [hlen']
    congr 1
    omega

/-! ## 5. All labels -/

/-- The block size. -/
theorem resume_magic4 (ver : Version) (v : Nat) :
    Sound (p.resume ver .magic4 v) := by
  unfold Parse.resume
  dsimp only
  split
  · exact sound_fail _ _
  · refine sound_goto ⟨?_, ?_⟩ <;> dsimp only <;> omega

/-- The first byte of a block header, or of the trailer. -/
theorem resume_blkhdr1 (ver : Version) (h : LabelOk p .blkhdr1) (v : Nat) :
    Sound (p.resume ver .blkhdr1 v) := by
  unfold Parse.resume
  dsimp only
  split
  · exact sound_goto h
  · exact sound_expect h

/-- The last byte of a block header. -/
theorem resume_blkhdr6 (ver : Version) (h : LabelOk p .blkhdr6) (v : Nat) :
    Sound (p.resume ver .blkhdr6 v) := by
  unfold Parse.resume
  dsimp only
  split
  · exact sound_fail _ _
  · exact sound_goto h

/-- The last byte of `origPtr`. -/
theorem resume_origptr3 (ver : Version) (h : LabelOk p .origptr3) (v : Nat) :
    Sound (p.resume ver .origptr3 v) := by
  unfold Parse.resume
  dsimp only
  split
  · exact sound_fail _ _
  · exact sound_goto ⟨h, Nat.zero_lt_succ 15, rfl⟩

/-- A bit of the table of used groups of 16. -/
theorem resume_mapping1 (ver : Version) (h : LabelOk p .mapping1) (v : Nat) :
    Sound (p.resume ver .mapping1 v) := by
  obtain ⟨hbs, hi, hlen⟩ := h
  have hlen' : (p.inUse16 ++ [decide (v = 1)]).length = p.i + 1 := by
    rw [List.length_append, hlen, List.length_singleton]
  unfold Parse.resume
  dsimp only
  split
  · rename_i hlt
    exact sound_goto ⟨hbs, hlt, hlen'⟩
  · exact sound_mappingFrom 0 hbs List.length_replicate (by dsimp only; omega)

/-- A bit of the table of used bytes. -/
theorem resume_mapping2 (ver : Version) (h : LabelOk p .mapping2) (v : Nat) :
    Sound (p.resume ver .mapping2 v) := by
  obtain ⟨hbs, hi, hj, h256, h16⟩ := h
  have h256' : (if v = 1 then p.inUse.set (p.i * 16 + p.j) true else p.inUse).length = 256 := by
    split
    · rw [List.length_set, h256]
    · exact h256
  unfold Parse.resume
  dsimp only
  split
  · rename_i hlt
    exact sound_goto ⟨hbs, hi, hlt, h256', h16⟩
  · exact sound_mappingFrom _ hbs h256' h16

/-- The number of tables. -/
theorem resume_selector1 (ver : Version) (h : LabelOk p .selector1) (v : Nat) :
    Sound (p.resume ver .selector1 v) := by
  unfold Parse.resume
  dsimp only
  split
  · exact sound_fail _ _
  · exact sound_goto ⟨h, by dsimp only; omega, by dsimp only; omega⟩

/-- The number of selectors. -/
theorem resume_selector2 (ver : Version) (h : LabelOk p .selector2) (v : Nat) :
    Sound (p.resume ver .selector2 v) := by
  obtain ⟨ha, h2, h6⟩ := h
  unfold Parse.resume
  dsimp only
  split
  · exact sound_fail _ _
  · refine sound_goto ⟨ha, ⟨h2, h6⟩, ?_, ?_, ?_, fun _ hx => nomatch hx⟩
    · dsimp only
      omega
    · dsimp only
      omega
    · dsimp only
      rw [Nat.zero_min, List.length_nil]

/-- A bit of a selector. -/
theorem resume_selector3 (ver : Version) (h : LabelOk p .selector3) (v : Nat) :
    Sound (p.resume ver .selector3 v) := by
  obtain ⟨ha, hg, hi, hj, hlen, hlt⟩ := h
  unfold Parse.resume
  dsimp only
  split
  · exact sound_endSelector ha hg hi hj hlen hlt
  · split
    · exact sound_fail _ _
    · exact sound_goto ⟨ha, hg, hi, by dsimp only; omega, hlen, hlt⟩

/-- The first length of a table. -/
theorem resume_coding1 (ver : Version) (h : LabelOk p .coding1) (v : Nat) :
    Sound (p.resume ver .coding1 v) := by
  have hc : CodingOk p := h
  have hsize := hc.alpha.size
  exact sound_codingFrom (p := { p with curr := v, i := 0, lenRow := [] })
    { alpha := hc.alpha, sel := hc.sel, t := hc.t, rows := hc.rows, row := hc.row }
    (by dsimp only; omega) rfl fun _ hx => nomatch hx

/-- Whether a length is done. -/
theorem resume_coding2 (ver : Version) (h : LabelOk p .coding2) (v : Nat) :
    Sound (p.resume ver .coding2 v) := by
  obtain ⟨hc, hi, hl, hr, h1, h20⟩ := h
  unfold Parse.resume
  dsimp only
  split
  · exact sound_endLength hc hl hr h1 h20 hi
  · exact sound_goto ⟨hc, hi, hl, hr, h1, h20⟩

/-- A step of a length. -/
theorem resume_coding3 (ver : Version) (h : LabelOk p .coding3) (v : Nat) :
    Sound (p.resume ver .coding3 v) := by
  obtain ⟨hc, hi, hl, hr, h1, h20⟩ := h
  exact sound_codingFrom (p := { p with curr := if v = 0 then p.curr + 1 else p.curr - 1 })
    { alpha := hc.alpha, sel := hc.sel, t := hc.t, rows := hc.rows, row := hc.row } hi hl hr

/-- The symbols of a block are being read, or have been. -/
def AtSymbols : Ctl → Prop
  | .get (.mtf _ _) | .get (.mtfNext _ _ _) | .fast | .block => True
  | _ => False

/-- `zn` and `zvec` where the loop of `GET_MTF_VAL` looks at them, once `GET_BITS` has delivered. -/
def Label.code : Label → Nat → Option (Int × Int)
  | .mtf _ zn, v => some (zn, v)
  | .mtfNext _ zn zvec, v => some (zn, zvec * 2 + v)
  | _, _ => none

/-- **The labels of the symbols**: the current group's tables are in order, and so are `zn` and `zvec`
    where the loop of `GET_MTF_VAL` looks at them. -/
theorem LabelOk.symbols {l : Label} (h : LabelOk p l) (hl : AtSymbols (.get l)) (v : Nat) :
    ∃ site zn zvec, l.code v = some (zn, zvec) ∧
      (∀ ver, p.resume ver l v = p.mtf ver site zn zvec) ∧ BlockOk p ∧
      CurOk p.tables p.gSel p.gMinlen ∧ (site = .run → CountOk p.N p.es) ∧
      ValOk p.group zn zvec := by
  cases l with
  | mtf site zn =>
    obtain ⟨hb, hc, rfl, hr⟩ := h
    refine ⟨site, _, _, rfl, fun ver => rfl, hb, hc, hr, ?_, Or.inl ⟨hc.minLen, by omega⟩⟩
    rw [hc.minLen]
    exact Int.le_trans (CurOk.group hb hc).minLen_range.2 (by decide)
  | mtfNext site zn zvec =>
    obtain ⟨hb, hc, ⟨hgt, h21, hlim⟩, hr⟩ := h
    have hml := hc.minLen
    refine ⟨site, _, _, rfl, fun ver => rfl, hb, hc, hr, h21, Or.inr ⟨?_, by omega⟩⟩
    unfold Parse.group
    omega
  | _ => exact hl.elim

/-- More bits of a symbol. -/
theorem resume_symbols (ver : Version) {l : Label} (h : LabelOk p l) (hl : AtSymbols (.get l)) (v : Nat) :
    Sound (p.resume ver l v) := by
  obtain ⟨site, zn, zvec, -, he, hb, hc, hr, hv⟩ := h.symbols hl v
  rw [he]
  exact sound_mtfLoop ver hb hc hr hv

/-- The last byte of the trailer's header. -/
theorem resume_endhdr6 (ver : Version) (h : LabelOk p .endhdr6) (v : Nat) :
    Sound (p.resume ver .endhdr6 v) := by
  unfold Parse.resume
  dsimp only
  split
  · exact sound_fail _ _
  · exact sound_goto h

/-- **From a label in order, whatever is read, the parser goes on in order.** -/
theorem resume_sound (ver : Version) {l : Label} (h : LabelOk p l) (v : Nat) :
    Sound (p.resume ver l v) := by
  cases l with
  | magic1 => exact sound_expect trivial
  | magic2 => exact sound_expect trivial
  | magic3 => exact sound_expect trivial
  | magic4 => exact resume_magic4 ver v
  | blkhdr1 => exact resume_blkhdr1 ver h v
  | blkhdr2 => exact sound_expect h
  | blkhdr3 => exact sound_expect h
  | blkhdr4 => exact sound_expect h
  | blkhdr5 => exact sound_expect h
  | blkhdr6 => exact resume_blkhdr6 ver h v
  | bcrc1 => exact sound_goto h
  | bcrc2 => exact sound_goto h
  | bcrc3 => exact sound_goto h
  | bcrc4 => exact sound_goto h
  | randbit => exact sound_goto h
  | origptr1 => exact sound_goto h
  | origptr2 => exact sound_goto h
  | origptr3 => exact resume_origptr3 ver h v
  | mapping1 => exact resume_mapping1 ver h v
  | mapping2 => exact resume_mapping2 ver h v
  | selector1 => exact resume_selector1 ver h v
  | selector2 => exact resume_selector2 ver h v
  | selector3 => exact resume_selector3 ver h v
  | coding1 => exact resume_coding1 ver h v
  | coding2 => exact resume_coding2 ver h v
  | coding3 => exact resume_coding3 ver h v
  | mtf _ _ => exact resume_symbols ver h trivial v
  | mtfNext _ _ _ => exact resume_symbols ver h trivial v
  | endhdr2 => exact sound_expect h
  | endhdr3 => exact sound_expect h
  | endhdr4 => exact sound_expect h
  | endhdr5 => exact sound_expect h
  | endhdr6 => exact resume_endhdr6 ver h v
  | ccrc1 => exact sound_goto h
  | ccrc2 => exact sound_goto h
  | ccrc3 => exact sound_goto h
  | ccrc4 => exact sound_fail _ _

/-! ## 6. Labels outside the symbols -/

/-- What the labels outside the symbols leave alone. -/
structure Untouched (p q : Parse) : Prop where
  es : q.es = p.es
  nblock : q.nblock = p.nblock
  gMinlen : q.gMinlen = p.gMinlen
  tables : q.tables = p.tables

/-- **All that the code from such a label can do**: it returns, goes on to another one, or builds
    the tables and starts the symbols. -/
inductive Outside (p : Parse) : Parsed → Prop
  | fail {q : Parse} {r : Ret} (h : Untouched p q) : Outside p (q.fail r)
  | goto {q : Parse} {l : Label} (h : Untouched p q) (hl : ¬AtSymbols (.get l)) :
    Outside p (q.goto l)
  | start {q : Parse} (h : Untouched p q) : Outside p q.buildAll.startMtf

section

variable {q : Parse}

theorem outside_expect (v c : Nat) (r : Ret) {l : Label} (hl : ¬AtSymbols (.get l)) :
    Outside p (p.expect v c r l) := by
  unfold Parse.expect
  split
  · exact .fail ⟨rfl, rfl, rfl, rfl⟩
  · exact .goto ⟨rfl, rfl, rfl, rfl⟩ hl

theorem outside_mappingFrom {i : Nat} (h : Untouched p q) : Outside p (q.mappingFrom i) := by
  unfold Parse.mappingFrom
  dsimp only
  split
  · exact .goto ⟨h.es, h.nblock, h.gMinlen, h.tables⟩ id
  · split
    · exact .fail ⟨h.es, h.nblock, h.gMinlen, h.tables⟩
    · exact .goto ⟨h.es, h.nblock, h.gMinlen, h.tables⟩ id

theorem outside_endSelector : Outside p p.endSelector := by
  unfold Parse.endSelector
  dsimp only
  split
  · exact .goto ⟨rfl, rfl, rfl, rfl⟩ id
  · exact .goto ⟨rfl, rfl, rfl, rfl⟩ id

theorem outside_codingFrom (h : Untouched p q) : Outside p q.codingFrom := by
  unfold Parse.codingFrom
  split
  · exact .fail h
  · exact .goto h id

theorem outside_endLength : Outside p p.endLength := by
  unfold Parse.endLength
  dsimp only
  split
  · exact outside_codingFrom ⟨rfl, rfl, rfl, rfl⟩
  · split
    · exact .goto ⟨rfl, rfl, rfl, rfl⟩ id
    · exact .start ⟨rfl, rfl, rfl, rfl⟩

end

/-- **The code from a label outside the symbols**, one case for each. -/
theorem resume_cases (ver : Version) {l : Label} (hl : ¬AtSymbols (.get l)) (v : Nat) :
    Outside p (p.resume ver l v) := by
  have same : Untouched p p := ⟨rfl, rfl, rfl, rfl⟩
  cases l with
  | mtf site zn => exact absurd trivial hl
  | mtfNext site zn zvec => exact absurd trivial hl
  | blkhdr1 =>
    unfold Parse.resume
    dsimp only
    split
    · exact .goto same id
    · exact outside_expect _ _ _ id
  | magic4 | blkhdr6 | origptr3 | selector1 | selector2 | endhdr6 =>
    unfold Parse.resume
    dsimp only
    split
    · exact .fail ⟨rfl, rfl, rfl, rfl⟩
    · exact .goto ⟨rfl, rfl, rfl, rfl⟩ id
  | mapping1 | mapping2 =>
    unfold Parse.resume
    dsimp only
    split
    · exact .goto ⟨rfl, rfl, rfl, rfl⟩ id
    · exact outside_mappingFrom ⟨rfl, rfl, rfl, rfl⟩
  | selector3 =>
    unfold Parse.resume
    dsimp only
    split
    · exact outside_endSelector
    · split
      · exact .fail ⟨rfl, rfl, rfl, rfl⟩
      · exact .goto ⟨rfl, rfl, rfl, rfl⟩ id
  | coding2 =>
    unfold Parse.resume
    dsimp only
    split
    · exact outside_endLength
    · exact .goto same id
  | coding1 | coding3 => exact outside_codingFrom ⟨rfl, rfl, rfl, rfl⟩
  | magic1 | magic2 | magic3 | blkhdr2 | blkhdr3 | blkhdr4 | blkhdr5 => exact outside_expect _ _ _ id
  | endhdr2 | endhdr3 | endhdr4 | endhdr5 => exact outside_expect _ _ _ id
  | ccrc4 => exact .fail ⟨rfl, rfl, rfl, rfl⟩
  | _ => exact .goto ⟨rfl, rfl, rfl, rfl⟩ id

/-- Both decoders have the same code there. -/
theorem resume_version (ver ver' : Version) {l : Label} (hl : ¬AtSymbols (.get l)) {v : Nat} :
    p.resume ver l v = p.resume ver' l v := by
  cases l with
  | mtf site zn => exact absurd trivial hl
  | mtfNext site zn zvec => exact absurd trivial hl
  | _ => rfl

/-- No label asks for less than a bit, or for more than 20. -/
theorem nbits_range {l : Label} (h : LabelOk p l) : 1 ≤ l.nbits ∧ l.nbits ≤ 20 := by
  cases l with
  | mtf site zn =>
    obtain ⟨hb, hc, rfl, -⟩ := h
    have hml := (CurOk.group hb hc).minLen_range
    have hm := hc.minLen
    unfold Label.nbits
    unfold Parse.group at hml
    dsimp only
    omega
  | mtfNext site zn zvec => exact ⟨Nat.le_refl 1, Nat.le_of_ble_eq_true rfl⟩
  | _ => exact ⟨by decide, by decide⟩

end Qbz2
