/-
  File:      Qbz2/Decompress/Bounds.lean
  Subject:   No input bits take the decoder out of range.

  * `InRange d pt` -- what the decoder does next at a place is in range: `StretchIn`, `LookupIn`,
    `VectorIn`, `GetsIn`;
  * `Stretch` -- what a stretch of the parser leaves, one lemma for each of its functions;
  * `callStep`, `ComesBy` -- the steps of a call, and the places it comes by;
    `bzDecompressLoop_comes`: a call is the steps it takes;
  * `Ranged` -- what every step of a call keeps;
  * **`decoder_in_range`** -- in every run, at every place of every call, everything is in range.
-/
import Qbz2.RoundTrip.Stream
import Mathlib.Logic.Relation

namespace Qbz2

open Transducer Bits Loop Counting

/-! ## 1. What is in range -/

/-- `es` and `nblock + es` are far from the limits of an `Int32`. -/
structure Counted (p : Parse) : Prop where
  low : -1 ≤ p.es
  high : p.es ≤ 2 ^ 23
  nblock : p.nblock ≤ 900000

/-- The selector of the current group has been read from the selectors of this block, and names one
    of its groups. -/
structure GroupIn (p : Parse) : Prop where
  selector : 0 ≤ p.groupNo ∧ p.groupNo < p.selector.length
  count : p.selector.length = p.nSelectors ∧ p.nSelectors ≤ bzMaxSelectors
  gSel : p.gSel = p.selector.getD p.groupNo.toNat 0 ∧ p.gSel < p.nGroups
  tables : p.tables.length = p.nGroups ∧ p.nGroups ≤ 6

/-- What an operation writes to `tt` or `ll16` is in the array, `nn` is an index of the alphabet, and
    `nblock + es` is an `Int32`. -/
def OpIn (p : Parse) : Op → Prop
  | .start => True
  | .count es => p.nblock + es < 2 ^ 31
  | .put pos es => pos + es ≤ 100000 * p.blockSize100k
  | .literal pos nn => pos < 100000 * p.blockSize100k ∧ nn < p.nInUse

/-- The selectors decoded: each position names a place of the list of groups, each selector a
    group. -/
structure SelectorsIn (p : Parse) : Prop where
  mtf : ∀ v ∈ p.selectorMtf.take p.nSelectors, v < p.nGroups
  lt : ∀ x ∈ p.selector, x < p.nGroups
  count : p.selector.length = p.nSelectors ∧ p.nSelectors ≤ bzMaxSelectors

/-- The tables built: whatever was in the arrays before, only the 2048 entries of `decode_fast` and
    the 512 of `decode_overflow` are written, and the `alphaSize` entries of `perm` are all
    written. -/
def TablesIn (p : Parse) : Prop :=
  p.tables = p.len.map
    (fun row => buildTables (fun i => (row.getD i.toNat 0 : Nat)) p.alphaSize .fresh) ∧
  ∀ row ∈ p.len, ∀ g : HuffTables,
    (∀ i : Int, ¬(0 ≤ i ∧ i < 2048) →
      (buildTables (fun i => (row.getD i.toNat 0 : Nat)) p.alphaSize g).decodeFast i =
        g.decodeFast i) ∧
    (∀ i : Int, ¬(0 ≤ i ∧ i < 512) →
      (buildTables (fun i => (row.getD i.toNat 0 : Nat)) p.alphaSize g).decodeOverflow i =
        g.decodeOverflow i) ∧
    ∀ q : Nat, q < p.alphaSize →
      (buildTables (fun i => (row.getD i.toNat 0 : Nat)) p.alphaSize g).perm q =
        (buildTables (fun i => (row.getD i.toNat 0 : Nat)) p.alphaSize .fresh).perm q

/-- **The code from label `l`**, whose `GET_BITS` delivers `v`: `perm` is read at an index below
    `alphaSize` and gives a symbol of the alphabet, and so on for what the stretch writes. -/
structure StretchIn (p : Parse) (l : Label) (v : Nat) : Prop where
  symbol : ∀ zn zvec sym, l.code v = some (zn, zvec) → mtfVal p.group zn zvec = .symbol sym →
    (0 ≤ zvec - p.group.base zn ∧ zvec - p.group.base zn < p.alphaSize) ∧
      0 ≤ sym ∧ sym < p.alphaSize
  ops : ∀ op ∈ (p.resume .qbz2 l v).2.1, OpIn p op
  selectors : l = .selector3 → (p.resume .qbz2 l v).2.2 = .get .coding1 →
    SelectorsIn (p.resume .qbz2 l v).1
  tables : l = .coding2 → (∃ zn, (p.resume .qbz2 l v).2.2 = .get (.mtf .first zn)) →
    TablesIn (p.resume .qbz2 l v).1

/-- **The table lookup**, whatever is in the bit buffer. -/
def LookupIn (p : Parse) : Prop :=
  ∀ (bits : BitBuf) (sym : Int) (k : Nat), bzDecodeTableBits ≤ bits.bsLive →
    tableLookup p.group bits = some (sym, k) →
    (0 ≤ sym ∧ sym < p.alphaSize) ∧ k ≤ bits.bsLive ∧
      ∀ op ∈ ({ p with nextSym := sym, groupPos := p.groupPos - 1 } : Parse).symbol.2.1, OpIn p op

/-- The index `k` `BZ_GET`s on from `tPos`; none where one of them takes its early return. -/
def getsFrom (next : Word32 → Option (Byte × Word32)) : Nat → Word32 → Option Word32
  | 0, tPos => some tPos
  | k + 1, tPos =>
    match next tPos with
    | none => none
    | some (_, tPos) => getsFrom next k tPos

/-- **Every `BZ_GET` from `tPos` on** finds its index below `nblock`, and never returns early. -/
def GetsIn (next : Word32 → Option (Byte × Word32)) (nblock : Nat) (tPos : Word32) : Prop :=
  ∀ k, ∃ t, getsFrom next k tPos = some t ∧ t.toNat < nblock

section

variable {μ : Type}

/-- The rounds that build the vector write cells of the block. -/
def RoundsIn (small : Bool) (nblock origPtr : Nat) (st : Store μ) : Prop :=
  if small then
    (st.tVector nblock).ReversesBelow nblock origPtr nblock origPtr
      ((st.tVector nblock).getLL origPtr)
  else
    ∀ i < nblock, 0 ≤ Store.ttCell i (forUpto i Store.ttStep st) ∧
      Store.ttCell i (forUpto i Store.ttStep st) < nblock

/-- **The end of a block**: it fits the arrays; if `origPtr` lies in it, the vector is built inside
    it, and all `BZ_GET`s from its start on stay inside it. -/
structure VectorIn (small : Bool) (c : Core μ) : Prop where
  fits : c.p.nblock ≤ 100000 * c.p.blockSize100k
  rounds : c.p.origPtr < c.p.nblock → RoundsIn small c.p.nblock c.p.origPtr c.prepared.store
  gets : c.p.origPtr < c.p.nblock → ∃ c' : Core μ, c.prepared.buildVector small = some c' ∧
    c.endBlock small = some (c'.firstByte small, none) ∧
    GetsIn (c'.env small).next c.p.nblock c'.out.tPos

end

/-- **In range**: what the decoder does next at a place. -/
def InRange (d : DState FlatMtf) : Point → Prop
  | .parser ctl =>
    Counted d.core.p ∧ (AtSymbols ctl → GroupIn d.core.p) ∧
      (∀ l v, ctl = .get l → StretchIn d.core.p l v) ∧ (ctl = .fast → LookupIn d.core.p) ∧
      (ctl = .block → VectorIn d.small d.core)
  | .output =>
    Counted d.core.p ∧ d.core.p.nblock ≤ 100000 * d.core.p.blockSize100k ∧
      GetsIn (d.core.env d.small).next d.core.p.nblock d.core.out.tPos

/-! ## 2. A stretch of the parser -/

/-- The current group's selector has been read. -/
structure GroupRead (p : Parse) : Prop where
  groupNo : 0 ≤ p.groupNo ∧ p.groupNo < p.nSelectors
  gSel : p.gSel = p.selector.getD p.groupNo.toNat 0

/-- What a stretch leaves; outside the symbols (`symbols` false) it does nothing to the block but
    to start it. -/
structure Stretch (symbols : Prop) (r : Parsed) : Prop where
  counted : Counted r.1
  current : AtSymbols r.2.2 → GroupRead r.1
  plain : ¬symbols → ∀ op ∈ r.2.1, op = .start

section

variable {p : Parse} {symbols : Prop}

theorem stretch_quiet {symbols : Prop} {r : Parsed} (h : Counted r.1) (ha : ¬AtSymbols r.2.2)
    (hops : r.2.1 = []) : Stretch symbols r :=
  ⟨h, fun hs => absurd hs ha, fun _ op hop => by rw [hops] at hop; cases hop⟩

theorem stretch_symbols {r : Parsed} (h : Counted r.1) (hc : AtSymbols r.2.2 → GroupRead r.1) :
    Stretch True r :=
  ⟨h, hc, fun hn => absurd trivial hn⟩

theorem stretch_beginVal {site : MtfSite} (h : Counted p) (hno : -1 ≤ p.groupNo)
    (hc : 0 < p.groupPos → GroupRead p) : Stretch symbols (p.beginVal site) := by
  unfold Parse.beginVal
  split
  · dsimp only
    split
    · exact stretch_quiet ⟨h.low, h.high, h.nblock⟩ id rfl
    · rename_i hlt
      refine ⟨⟨h.low, h.high, h.nblock⟩, fun _ => ⟨?_, rfl⟩, fun _ _ hop => nomatch hop⟩
      dsimp only [Parse.goto]
      omega
  · rename_i hpos
    have hc := hc (by omega)
    exact ⟨⟨h.low, h.high, h.nblock⟩, fun _ => ⟨hc.groupNo, hc.gSel⟩, fun _ _ hop => nomatch hop⟩

theorem stretch_runStep (h : Counted p) (hr : CountOk p.N p.es) (hc : GroupRead p) :
    Stretch True p.runStep := by
  unfold Parse.runStep
  split
  · exact stretch_quiet h id rfl
  · rename_i hN
    obtain ⟨h1, h2, h3, h4⟩ := hr
    refine stretch_beginVal ⟨?_, ?_, h.nblock⟩ (by have := hc.groupNo.1; dsimp only; omega)
      fun _ => ⟨hc.groupNo, hc.gSel⟩
    · dsimp only
      split <;> omega
    · dsimp only
      split <;> omega

theorem stretch_symbol (h : Counted p) (hb : BlockOk p) (hc : GroupRead p) : Stretch True p.symbol := by
  have hbs := hb.alpha.bs.2
  have hmax := hb.max
  unfold Parse.symbol
  split
  · exact stretch_symbols h fun _ => hc
  · split
    · exact stretch_runStep (p := { p with es := -1, N := 1 })
        ⟨Int.le_refl _, Int.le_of_lt (by decide : (-1 : Int) < 2 ^ 23), h.nblock⟩ CountOk.start
        ⟨hc.groupNo, hc.gSel⟩
    · split
      · exact stretch_quiet h id rfl
      · exact stretch_symbols ⟨h.low, h.high, by dsimp only; omega⟩
          fun _ => ⟨hc.groupNo, hc.gSel⟩

theorem stretch_endRun (h : Counted p) (hb : BlockOk p) (hr : CountOk p.N p.es) (hc : GroupRead p) :
    Stretch True (p.endRun .qbz2) := by
  obtain ⟨h1, h2, h3, h4⟩ := hr
  have hbs := hb.alpha.bs.2
  have hmax := hb.max
  unfold Parse.endRun
  dsimp only
  split
  · exact stretch_symbols ⟨by dsimp only; omega, by dsimp only; omega, h.nblock⟩ fun ha => ha.elim
  · have key := stretch_symbol (p := { p with es := p.es + 1, nblock := p.nblock + (p.es + 1).toNat })
      ⟨by dsimp only; omega, by dsimp only; omega, by dsimp only; omega⟩
      (hb.frame _ _ _ _ _ (by omega) hb.groupNo hb.groupPos) ⟨hc.groupNo, hc.gSel⟩
    exact stretch_symbols key.counted key.current

theorem stretch_mtf {site : MtfSite} (zn zvec : Int) (h : Counted p) (hb : BlockOk p)
    (hr : site = .run → CountOk p.N p.es) (hc : GroupRead p) :
    Stretch True (p.mtf .qbz2 site zn zvec) := by
  unfold Parse.mtf
  split
  · exact stretch_quiet h id rfl
  · rename_i sym _
    have h' : Counted { p with nextSym := sym } := ⟨h.low, h.high, h.nblock⟩
    have hb' := hb.frame p.gSel p.N p.gMinlen sym p.es hb.le hb.groupNo hb.groupPos
    have hc' : GroupRead { p with nextSym := sym } := ⟨hc.groupNo, hc.gSel⟩
    unfold Parse.value
    cases site with
    | first => exact stretch_symbol h' hb' hc'
    | literal => exact stretch_symbol h' hb' hc'
    | run =>
      dsimp only
      split
      · exact stretch_runStep h' (hr rfl) hc'
      · exact stretch_endRun h' hb' (hr rfl) hc'
  · exact stretch_symbols h fun _ => hc

theorem stretch_startMtf (h : Counted p) : Stretch False p.startMtf := by
  have key := @stretch_beginVal
    { p with
      eob := p.nInUse + 1
      nblockMAX := 100000 * p.blockSize100k
      groupNo := -1
      groupPos := 0
      nblock := 0 } False .first ⟨h.low, h.high, Nat.zero_le _⟩ (Int.le_refl _)
    fun hpos => absurd hpos (Nat.lt_irrefl 0)
  refine ⟨key.counted, key.current, fun hs op hop => ?_⟩
  rcases List.mem_cons.mp hop with rfl | hop
  · rfl
  · exact key.plain hs op hop

/-- **From a label in order** the counts stay small, and the current group is read when a symbol
    is. -/
theorem resume_stretch {l : Label} (h : LabelOk p l) (hcount : Counted p)
    (hcur : AtSymbols (.get l) → GroupRead p) (v : Nat) : Stretch (AtSymbols (.get l)) (p.resume .qbz2 l v) := by
  by_cases hs : AtSymbols (.get l)
  · obtain ⟨site, zn, zvec, -, he, hb, -, hr, -⟩ := h.symbols hs v
    rw [he, eq_true hs]
    exact stretch_mtf zn zvec hcount hb hr (hcur hs)
  · have kept : ∀ {q : Parse}, Untouched p q → Counted q := fun hk =>
      ⟨by rw [hk.es]; exact hcount.low, by rw [hk.es]; exact hcount.high,
        by rw [hk.nblock]; exact hcount.nblock⟩
    have hcases := resume_cases .qbz2 hs v (p := p)
    generalize p.resume .qbz2 l v = r at hcases
    rw [eq_false hs]
    cases hcases with
    | fail hk => exact stretch_quiet (kept hk) id rfl
    | goto hk hl' => exact stretch_quiet (kept hk) hl' rfl
    | start hk =>
      have hc := kept hk
      exact stretch_startMtf ⟨hc.low, hc.high, hc.nblock⟩

/-! ## 3. What a stretch writes and reads -/

theorem same_endRun (p : Parse) : Same p (p.endRun .qbz2).1 := by
  unfold Parse.endRun
  dsimp only
  split
  · exact ⟨rfl, rfl, rfl, rfl, rfl, rfl, rfl⟩
  · refine Same.trans ?_ (same_symbol _)
    exact ⟨rfl, rfl, rfl, rfl, rfl, rfl, rfl⟩

theorem same_mtf (p : Parse) (site : MtfSite) (zn zvec : Int) : Same p (p.mtf .qbz2 site zn zvec).1 := by
  unfold Parse.mtf
  split
  · exact Same.refl p
  · rename_i sym _
    have h : Same p { p with nextSym := sym } := ⟨rfl, rfl, rfl, rfl, rfl, rfl, rfl⟩
    unfold Parse.value
    cases site with
    | first => exact h.trans (same_symbol _)
    | literal => exact h.trans (same_symbol _)
    | run =>
      dsimp only
      split
      · exact h.trans (same_runStep _)
      · exact h.trans (same_endRun _)
  · exact Same.refl p

/-- An operation inside the block is one inside the arrays. -/
theorem OpOk.inside {q : Parse} {op : Op} (hb : BlockOk p) (hcount : Counted p) (hsame : Same p q)
    (h : OpOk q op) : OpIn p op := by
  have hmax := hb.max
  have hn := hcount.nblock
  cases op with
  | start => trivial
  | count es =>
    have hes : es ≤ 2 ^ 24 := h
    show p.nblock + es < 2 ^ 31
    omega
  | put pos es =>
    have hpos : pos + es ≤ q.nblockMAX := h
    rw [hsame.nblockMAX, hmax] at hpos
    exact hpos
  | literal pos nn =>
    obtain ⟨hpos, -, hnn⟩ := h
    rw [hsame.nblockMAX, hmax] at hpos
    rw [hsame.nInUse] at hnn
    exact ⟨hpos, hnn⟩

theorem resume_ops {l : Label} (h : LabelOk p l) (hcount : Counted p)
    (hcur : AtSymbols (.get l) → GroupRead p) (v : Nat) :
    ∀ op ∈ (p.resume .qbz2 l v).2.1, OpIn p op := by
  intro op hop
  have hok := (resume_sound .qbz2 h v).ops op hop
  by_cases hs : AtSymbols (.get l)
  · cases l with
    | mtf site zn => exact hok.inside h.1 hcount (same_mtf p site _ _)
    | mtfNext site zn zvec => exact hok.inside h.1 hcount (same_mtf p site _ _)
    | _ => exact hs.elim
  · rw [(resume_stretch h hcount hcur v).plain hs op hop]
    trivial

/-- What the loop of `GET_MTF_VAL` looks at, the current tables being in order. -/
theorem LabelOk.val {l : Label} {v : Nat} {zn zvec : Int} (h : LabelOk p l)
    (hl : l.code v = some (zn, zvec)) : GroupOk p.alphaSize p.group ∧ ValOk p.group zn zvec := by
  have hs : AtSymbols (.get l) := by
    cases l with
    | mtf site zn => trivial
    | mtfNext site zn zvec => trivial
    | _ => cases hl
  obtain ⟨_, _, _, hcode, -, hb, hc, -, hv⟩ := h.symbols hs v
  rw [hl] at hcode
  cases hcode
  exact ⟨CurOk.group hb hc, hv⟩

/-- **`perm` is read at an index of the alphabet**, and holds a symbol there. -/
theorem resume_symbol {l : Label} {v : Nat} {zn zvec sym : Int} (h : LabelOk p l)
    (hl : l.code v = some (zn, zvec)) (hsym : mtfVal p.group zn zvec = .symbol sym) :
    (0 ≤ zvec - p.group.base zn ∧ zvec - p.group.base zn < p.alphaSize) ∧
      0 ≤ sym ∧ sym < p.alphaSize := by
  obtain ⟨hg, hv⟩ := h.val hl
  have hrange := mtfVal_range hg hv
  rw [hsym] at hrange
  obtain ⟨h20, h0, hlt⟩ := hrange
  unfold mtfVal at hsym
  rw [if_neg (by omega)] at hsym
  split at hsym
  · rename_i hle
    obtain ⟨hi0, hilt, -⟩ := mtfVal_index hg hv h20 hle
    exact ⟨⟨hi0, hilt⟩, h0, hlt⟩
  · cases hsym

/-! ## 4. Selectors and tables -/

/-- **The selectors decoded name groups of the block.** -/
theorem resume_selectors (h : LabelOk p .selector3) {v : Nat}
    (hctl : (p.resume .qbz2 .selector3 v).2.2 = .get .coding1) :
    SelectorsIn (p.resume .qbz2 .selector3 v).1 := by
  have hready := (resume_sound .qbz2 h v).ready
  rw [hctl] at hready
  have hsel : SelOk _ _ _ := hready.sel
  obtain ⟨-, -, -, hj, -, hlt⟩ := h
  refine ⟨fun w hw => ?_, hsel.lt, hsel.length, hsel.small⟩
  have hmtf := selectorMtf_concat hj hlt
  unfold Parse.resume at hctl hw ⊢
  dsimp only at hctl hw ⊢
  split at hctl
  · rename_i hv
    rw [if_pos hv] at hw ⊢
    unfold Parse.endSelector at hctl hw ⊢
    dsimp only at hctl hw ⊢
    split at hctl
    · cases hctl
    · rename_i hge
      rw [if_neg hge] at hw ⊢
      exact hmtf w (List.mem_of_mem_take hw)
  · split at hctl <;> cases hctl

theorem startMtf_same (p : Parse) : p.startMtf.1.tables = p.tables ∧ p.startMtf.1.len = p.len ∧
    p.startMtf.1.alphaSize = p.alphaSize := by
  unfold Parse.startMtf Parse.beginVal
  dsimp only
  split
  · split <;> exact ⟨rfl, rfl, rfl⟩
  · exact ⟨rfl, rfl, rfl⟩

/-- **The tables are built inside their arrays**, from lengths that have all been read. -/
theorem resume_tables (h : LabelOk p .coding2) {v : Nat} {zn : Int}
    (hctl : (p.resume .qbz2 .coding2 v).2.2 = .get (.mtf .first zn)) :
    TablesIn (p.resume .qbz2 .coding2 v).1 := by
  obtain ⟨hc, hi, hl, hr, h1, h20⟩ := h
  unfold Parse.resume at hctl ⊢
  dsimp only at hctl ⊢
  split at hctl
  · rename_i hv
    rw [if_pos hv]
    unfold Parse.endLength at hctl ⊢
    dsimp only at hctl ⊢
    split at hctl
    · unfold Parse.codingFrom at hctl
      split at hctl <;> cases hctl
    · rename_i hge
      rw [if_neg hge]
      split at hctl
      · cases hctl
      · rename_i hall
        rw [if_neg hall]
        have hrow := hc.concat (by omega) (hr.concat h1 h20)
        obtain ⟨ht, hlen, hsize⟩ := startMtf_same
          ({ p with
            lenRow := p.lenRow ++ [p.curr]
            i := p.i + 1
            len := p.len ++ [p.lenRow ++ [p.curr]]
            t := p.t + 1 } : Parse).buildAll
        refine ⟨?_, fun row hmem g => ?_⟩
        · rw [ht, hlen, hsize]
          rfl
        · rw [hlen] at hmem
          rw [hsize]
          obtain ⟨hlen', hok⟩ := hrow row hmem
          exact buildTables_inside (hok.lengths hc.alpha hlen') g .fresh
  · cases hctl

/-- **What a stretch of the parser does is in range.** -/
theorem resume_in {l : Label} (h : LabelOk p l) (hcount : Counted p)
    (hcur : AtSymbols (.get l) → GroupRead p) (v : Nat) : StretchIn p l v where
  symbol _ _ _ hl hsym := resume_symbol h hl hsym
  ops := resume_ops h hcount hcur v
  selectors hl hctl := by
    subst hl
    exact resume_selectors h hctl
  tables hl := by
    subst hl
    exact fun ⟨_, hctl⟩ => resume_tables h hctl

/-- **What the table yields is in range.** -/
theorem lookup_in (hb : BlockOk p) (hc : CurOk p.tables p.gSel p.gMinlen) (hcount : Counted p) :
    LookupIn p := by
  intro bits sym k h11 hlook
  have hg := CurOk.group hb hc
  obtain ⟨hval, hk⟩ := tableLookup_getMtfVal hg h11 hlook
  obtain ⟨h0, hlt⟩ := getMtfVal_sym hg hval
  refine ⟨⟨h0, hlt⟩, hk, fun op hop => ?_⟩
  have hb' := hb.frame p.gSel p.N p.gMinlen sym p.es hb.le hb.groupNo
    (Nat.le_trans (Nat.sub_le _ _) hb.groupPos : p.groupPos - 1 ≤ bzGSize)
  have hin := ((sound_symbol hb' hc ⟨h0, hlt⟩).ops op hop).inside hb'
    ⟨hcount.low, hcount.high, hcount.nblock⟩ (same_symbol _)
  cases op with
  | start => trivial
  | count es => exact hin
  | put pos es => exact hin
  | literal pos nn => exact hin

end

section

variable {μ : Type} {small : Bool} {c : Core μ} {s : Int → Nat} {n o : Nat} {e : OutEnv}
  {at' : Nat → Word32} {byte : Nat → Byte}

/-! ## 5. The vector -/

theorem getsFrom_lane (h : Lane e at' byte) : ∀ k m : Nat,
    getsFrom e.next k (at' m) = some (at' (m + k)) := by
  intro k
  induction k with
  | zero => exact fun _ => rfl
  | succ k ih =>
    intro m
    rw [getsFrom, h m]
    dsimp only
    rw [ih (m + 1), Nat.succ_add, Nat.add_succ]

/-- **Along the vector of a block every index is below `nblock`.** -/
theorem Lane.getsIn (h : Lane e (posAt s n small o) byte) (ho : o < n) (hn : n ≤ 2 ^ 20) (m : Nat) :
    GetsIn e.next n (posAt s n small o m) := by
  intro k
  refine ⟨_, getsFrom_lane h k m, ?_⟩
  have hpos := pos_lt (s := s) ho (m + k + lead small)
  unfold posAt
  rw [BitVec.toNat_ofNat]
  omega

/-- **The end of a block is in range**: its cells hold what has been decoded. -/
theorem endBlock_in {R : μ → μ → Prop} (hb : BlockOk c.p)
    (hs : TwinStore R small small c.p.nblock c.store c.store) : VectorIn small c := by
  obtain ⟨done, hlen, hd, -⟩ := hs
  have hB := hd.block
  rw [hlen] at hB
  obtain ⟨hfit, h20⟩ := hb.fits
  refine ⟨hfit, fun ho => ?_, fun ho => ?_⟩
  · unfold RoundsIn
    cases small with
    | true => exact reversesBelow hB.prepared hB.cumulated (by omega) ho
    | false => exact fun i hi => ttCell_lt hB.prepared hB.cumulated (by omega) hi
  · obtain ⟨d, hbuild, he, -, -, hdout, hlane⟩ := endBlock_vector hb ho hB
    refine ⟨d, hbuild, he, ?_⟩
    rw [hdout]
    exact hlane.getsIn ho (by omega) 0

/-- **The output of a block is in range.** -/
theorem Walk.getsIn (h : Walk small s c) :
    GetsIn (c.env small).next c.p.nblock c.out.tPos := by
  have hbs := h.bs.2
  have hfits := h.fits
  have hlim : c.limit = 100000 * c.p.blockSize100k := rfl
  rw [h.on]
  exact h.lane.getsIn h.orig (by omega) _

end

section

variable {μ : Type} [MtfList μ] [Build]

/-! ## 6. The steps of a call -/

/-- Where a call of the library stands. -/
abbrev Place (μ : Type) := DState μ × BzStream × Point

/-- What `BZ2_bzDecompress` does with a return of `BZ2_decompress`. -/
def returned (r : Ret) (d : DState μ) (strm : BzStream) : Place μ ⊕ (Ret × DState μ × BzStream) :=
  match r with
  | .streamEnd =>
    if d.core.calculatedCombinedCRC ≠ d.core.p.storedCombinedCRC then .inr (.dataError, d, strm)
    else .inr (.streamEnd, d, strm)
  | r => if d.state ≠ .output then .inr (r, d, strm) else .inl (d, strm, .output)

/-- **One step of `BZ2_bzDecompress`**: a step of `BZ2_decompress`, or a drain of the block. It goes on
    (left) or returns (right). -/
def callStep (ver : Version) : Place μ → Option (Place μ ⊕ (Ret × DState μ × BzStream))
  | (d, strm, .parser ctl) =>
    match decompressStep ver (d, strm, ctl) with
    | none => none
    | some (.inl (d, strm, ctl)) => some (.inl (d, strm, .parser ctl))
    | some (.inr (r, d, strm)) => some (returned r d strm)
  | (d, strm, .output) =>
    match unRle ver d.small (d.core.env d.small) d.core.out strm with
    | none => none
    | some (corrupt, out, strm) =>
      let d := { d with core := { d.core with out } }
      if corrupt then some (.inr (.dataError, d, strm))
      else if out.nblockUsed = d.core.p.nblock + 1 ∧ out.stateOutLen = 0 then
        match d.core.finishBlock with
        | (core, false) => some (.inr (.dataError, { d with core }, strm))
        | (core, true) =>
          some (.inl ({ d with core, state := .parsing .blkhdr1 }, strm, .parser (.get .blkhdr1)))
      else some (.inr (.ok, d, strm))

theorem callStep_output (ver : Version) (d : DState μ) (strm : BzStream) :
    callStep ver (d, strm, .output) =
      match unRle ver d.small (d.core.env d.small) d.core.out strm with
      | none => none
      | some (corrupt, out, strm) =>
        if corrupt then some (.inr (.dataError, { d with core := { d.core with out } }, strm))
        else if out.nblockUsed = d.core.p.nblock + 1 ∧ out.stateOutLen = 0 then
          match Core.finishBlock { d.core with out } with
          | (core, false) => some (.inr (.dataError, { d with core }, strm))
          | (core, true) =>
            some (.inl ({ d with core, state := .parsing .blkhdr1 }, strm, .parser (.get .blkhdr1)))
        else some (.inr (.ok, { d with core := { d.core with out } }, strm)) := rfl

/-- **The places a call comes by**, step by step. -/
def ComesBy (ver : Version) : Place μ → Place μ → Prop :=
  Relation.ReflTransGen fun s s' => callStep ver s = some (.inl s')

/-- The steps of a call end in `res`. -/
def ComesTo (ver : Version) (s : Place μ) (res : Ret × DState μ × BzStream) : Prop :=
  ∃ s', ComesBy ver s s' ∧ callStep ver s' = some (.inr res)

variable {ver : Version}

theorem ComesTo.head {s s' : Place μ} {res : Ret × DState μ × BzStream}
    (h : callStep ver s = some (.inl s')) (ht : ComesTo ver s' res) : ComesTo ver s res :=
  ht.imp fun _ ⟨hb, he⟩ => ⟨.head h hb, he⟩

theorem decompressLoop_comes : ∀ (fuel : Nat) (d : DState μ) (strm : BzStream) (ctl : Ctl)
    (r : Ret) (d' : DState μ) (strm' : BzStream),
    decompressLoop ver fuel (d, strm, ctl) = some (r, d', strm') →
    ∃ s', ComesBy ver (d, strm, .parser ctl) s' ∧ callStep ver s' = some (returned r d' strm') := by
  intro fuel
  induction fuel with
  | zero => exact fun _ _ _ _ _ _ h => nomatch h
  | succ fuel ih =>
    intro d strm ctl r d' strm' h
    rw [decompressLoop] at h
    cases he : decompressStep ver (d, strm, ctl) with
    | none =>
      rw [he] at h
      cases h
    | some res =>
      rw [he] at h
      cases res with
      | inl s =>
        obtain ⟨s', hb, hr⟩ := ih s.1 s.2.1 s.2.2 r d' strm' h
        refine ⟨s', .head ?_ hb, hr⟩
        unfold callStep
        dsimp only
        rw [he]
      | inr res =>
        obtain rfl := Option.some.inj h
        refine ⟨_, .refl, ?_⟩
        unfold callStep
        dsimp only
        rw [he]

/-- What follows a return of `BZ2_decompress`, step by step. -/
theorem afterParse_comes (fuel : Nat)
    (ih : ∀ (d : DState μ) (strm : BzStream) (res : Ret × DState μ × BzStream),
      bzDecompressLoop ver fuel d strm = some res → ComesTo ver (d, strm, d.point) res)
    {d : DState μ} {strm : BzStream} {l : Label} {res : Ret × DState μ × BzStream}
    (h : afterParse ver fuel (decompress ver d l strm) = some res) :
    ComesTo ver (d, strm, .parser (.get l)) res := by
  cases hd : decompress ver d l strm with
  | none =>
    rw [hd] at h
    cases h
  | some ret =>
    obtain ⟨r, d', strm'⟩ := ret
    rw [hd] at h
    obtain ⟨s', hb, hs⟩ := decompressLoop_comes _ _ _ _ _ _ _ hd
    have other : ∀ {o : Option (Ret × DState μ × BzStream)},
        (if d'.state ≠ .output then some (r, d', strm') else bzDecompressLoop ver fuel d' strm') = o →
        o = some res →
        callStep ver s' = some
          (if d'.state ≠ .output then .inr (r, d', strm') else .inl (d', strm', .output)) →
        ComesTo ver (d, strm, .parser (.get l)) res := by
      intro o ho he hs
      rw [he] at ho
      split at ho
      · rename_i hst
        rw [if_pos hst] at hs
        obtain rfl := Option.some.inj ho
        exact ⟨s', hb, hs⟩
      · rename_i hst
        rw [if_neg hst] at hs
        have hrest := ih d' strm' res ho
        rw [point_output (not_not.mp hst)] at hrest
        obtain ⟨s'', hb', he'⟩ := hrest
        exact ⟨s'', hb.trans (.head hs hb'), he'⟩
    unfold afterParse at h
    unfold returned at hs
    cases r with
    | streamEnd =>
      dsimp only at h hs
      split at h
      · rename_i hcrc
        rw [if_pos hcrc] at hs
        obtain rfl := Option.some.inj h
        exact ⟨s', hb, hs⟩
      · rename_i hcrc
        rw [if_neg hcrc] at hs
        obtain rfl := Option.some.inj h
        exact ⟨s', hb, hs⟩
    | _ => exact other rfl h hs

/-- **A call is the steps it takes**: what it returns is what the last of them does. -/
theorem bzDecompressLoop_comes : ∀ (fuel : Nat) (d : DState μ) (strm : BzStream)
    (res : Ret × DState μ × BzStream), bzDecompressLoop ver fuel d strm = some res →
    ComesTo ver (d, strm, d.point) res := by
  intro fuel
  induction fuel with
  | zero => exact fun _ _ _ h => nomatch h
  | succ fuel ih =>
    intro d strm res h
    cases hst : d.state with
    | idle =>
      rw [bzDecompressLoop] at h
      dsimp only at h
      rw [hst] at h
      obtain rfl := Option.some.inj h
      refine ⟨_, .refl, ?_⟩
      unfold DState.point
      rw [hst]
      unfold callStep decompressStep returned
      dsimp only
      rw [hst]
      rfl
    | parsing l =>
      rw [loop_parsing ver fuel hst] at h
      rw [point_parsing hst]
      exact afterParse_comes fuel ih h
    | output =>
      rw [loop_output ver fuel hst] at h
      rw [point_output hst]
      cases he : unRle ver d.small (d.core.env d.small) d.core.out strm with
      | none =>
        rw [he] at h
        cases h
      | some drained =>
        obtain ⟨corrupt, out, strm₁⟩ := drained
        have hstep := callStep_output ver d strm
        rw [he] at h hstep
        dsimp only at h hstep
        split at h
        · rename_i hc
          rw [if_pos hc] at hstep
          obtain rfl := Option.some.inj h
          exact ⟨_, .refl, hstep⟩
        · rename_i hc
          rw [if_neg hc] at hstep
          split at h
          · rename_i hend
            rw [if_pos hend] at hstep
            cases hf : Core.finishBlock { d.core with out } with
            | mk core ok =>
              rw [hf] at h hstep
              cases ok with
              | false =>
                obtain rfl := Option.some.inj h
                exact ⟨_, .refl, hstep⟩
              | true => exact (afterParse_comes fuel ih h).head hstep
          · rename_i hend
            rw [if_neg hend] at hstep
            obtain rfl := Option.some.inj h
            exact ⟨_, .refl, hstep⟩

end

section

variable {μ : Type} [MtfList μ] {d d' : DState μ} {strm strm' : BzStream} {ctl ctl' : Ctl}

/-! ## 7. What a call keeps -/

/-- **What every step of a call keeps.** -/
structure Ranged (d : DState μ) (pt : Point) : Prop where
  sane : Sane d.small (d.core, pt)
  live : d.bits.bsLive ≤ 64
  counted : Counted d.core.p
  current : ∀ ctl, pt = .parser ctl → AtSymbols ctl → GroupRead d.core.p
  parsing : ∀ ctl, pt = .parser ctl → ctl.Quits ∧ d.state ≠ .output
  giving : pt = .output → d.state = .output

omit [MtfList μ] in
theorem Ranged.fits (h : Ranged d (.parser ctl)) : Fits .qbz2 d ctl := ⟨h.sane.2, h.live⟩

/-- The table lookup, or `GET_MTF_VAL`. -/
theorem fastDecode_stretch (strm : BzStream) (hb : BlockOk d.core.p) (hcount : Counted d.core.p)
    (hcur : GroupRead d.core.p) :
    Counted (fastDecode .qbz2 d strm).1.core.p ∧
      (AtSymbols (fastDecode .qbz2 d strm).2.2 → GroupRead (fastDecode .qbz2 d strm).1.core.p) := by
  have slow := @stretch_beginVal d.core.p True .literal hcount hb.groupNo fun _ => hcur
  unfold fastDecode
  dsimp only
  generalize (if canRefill4 .qbz2 d.bits strm = true then refill4 d.bits strm
    else (d.bits, strm)) = refilled
  split
  · split
    · cases hlook : tableLookup d.core.p.group refilled.1 with
      | none => exact ⟨slow.counted, slow.current⟩
      | some hit =>
        have key := stretch_symbol
          (p := { d.core.p with nextSym := hit.1, groupPos := d.core.p.groupPos - 1 })
          ⟨hcount.low, hcount.high, hcount.nblock⟩
          (hb.frame _ _ _ _ _ hb.le hb.groupNo (Nat.le_trans (Nat.sub_le _ _) hb.groupPos))
          ⟨hcur.groupNo, hcur.gSel⟩
        exact ⟨key.counted, key.current⟩
    · exact ⟨slow.counted, slow.current⟩
  · exact ⟨slow.counted, slow.current⟩

/-- **A step of `BZ2_decompress` that goes on.** -/
theorem Ranged.step (h : Ranged d (.parser ctl))
    (he : decompressStep .qbz2 (d, strm, ctl) = some (.inl (d', strm', ctl'))) :
    Ranged d' (.parser ctl') := by
  obtain ⟨hsteps, hfits, hsmall, -⟩ := decompressStep_sim .qbz2 h.fits he
  obtain ⟨hst, hq, -⟩ := decompressStep_keeps .qbz2 (h.parsing ctl rfl).2 he
  have hsane := sane_steps hsteps h.sane
  rw [← hsmall] at hsane
  have hready := h.sane.2
  have hcount := h.counted
  have hcur := h.current ctl rfl
  have key : Counted d'.core.p ∧ (AtSymbols ctl' → GroupRead d'.core.p) := by
    cases ctl with
    | get l =>
      unfold decompressStep at he
      dsimp only at he
      split at he
      · cases he
        have hstretch := resume_stretch hready hcount hcur (d.bits.peek l.nbits)
        exact ⟨hstretch.counted, hstretch.current⟩
      · split at he
        · cases he
          exact ⟨hcount, hcur⟩
        · split at he
          · cases he
          · cases he
            exact ⟨hcount, hcur⟩
    | fast =>
      unfold decompressStep at he
      have hstretch := fastDecode_stretch strm hready.1 hcount (hcur trivial)
      rw [Sum.inl.inj (Option.some.inj he)] at hstretch
      exact hstretch
    | block =>
      unfold decompressStep at he
      dsimp only at he
      cases hend : d.core.endBlock d.small with
      | none =>
        rw [hend] at he
        cases he
      | some r =>
        obtain ⟨core, r⟩ := r
        rw [hend] at he
        cases r <;> cases he
    | ret r => cases r <;> cases he
  refine ⟨hsane, hfits.live, key.1, fun ctl'' hctl => ?_, fun ctl'' hctl => ?_, nofun⟩
  · cases hctl
    exact key.2
  · cases hctl
    exact ⟨hq, hst⟩

/-- **A return of `BZ2_decompress`**: with `BZ_OK` for want of input, or at the end of the symbols of
    a block. -/
theorem Ranged.returns {r : Ret} (h : Ranged d (.parser ctl))
    (he : decompressStep .qbz2 (d, strm, ctl) = some (.inr (r, d', strm'))) :
    r = .ok ∧ Ranged d' d'.point ∨ r ≠ .ok ∧ d'.state ≠ .output := by
  obtain ⟨hq, hst⟩ := h.parsing ctl rfl
  cases ctl with
  | get l =>
    unfold decompressStep at he
    dsimp only at he
    split at he
    · cases he
    · split at he
      · cases he
      · split at he
        · cases he
          refine Or.inl ⟨rfl, h.sane, h.live, h.counted, fun ctl hctl => ?_, fun ctl hctl => ?_, nofun⟩
          · cases hctl
            exact h.current _ rfl
          · cases hctl
            exact ⟨nofun, nofun⟩
        · cases he
  | fast => cases he
  | block =>
    obtain ⟨ht, hr⟩ := h.sane
    unfold decompressStep at he
    dsimp only at he
    rcases endBlock_twin rfl rfl hr (ht.store trivial) with
      ⟨-, hend, -⟩ | ⟨e, e', hend, hend', hB, hp, -⟩
    · rw [hend] at he
      cases he
      exact Or.inr ⟨nofun, hst⟩
    · obtain rfl : e = e' := congrArg Prod.fst (Option.some.inj (hend.symm.trans hend'))
      rw [hend] at he
      cases he
      refine Or.inl ⟨rfl, hB, h.live, ?_, nofun, nofun, fun _ => rfl⟩
      dsimp only
      rw [hp]
      exact h.counted
  | ret r' =>
    cases r' with
    | ok => exact absurd rfl hq
    | streamEnd =>
      cases he
      exact Or.inr ⟨nofun, nofun⟩
    | _ =>
      cases he
      exact Or.inr ⟨nofun, hst⟩

/-- Where a step has led to, or what a call returned with `BZ_OK` has left. -/
def RangedAfter : Place μ ⊕ (Ret × DState μ × BzStream) → Prop
  | .inl s => Ranged s.1 s.2.2
  | .inr res => res.1 = .ok → Ranged res.2.1 res.2.1.point

omit [MtfList μ] in
theorem returned_after {r : Ret}
    (h : r = .ok ∧ Ranged d' d'.point ∨ r ≠ .ok ∧ d'.state ≠ .output) :
    RangedAfter (returned r d' strm') := by
  unfold returned
  rcases h with ⟨rfl, hR⟩ | ⟨hok, hst⟩
  · dsimp only
    split
    · exact fun _ => hR
    · rename_i hst
      rw [point_output (not_not.mp hst)] at hR
      exact hR
  · cases r with
    | ok => exact absurd rfl hok
    | streamEnd =>
      dsimp only
      split <;> exact nofun
    | _ =>
      dsimp only
      rw [if_pos hst]
      exact nofun

variable [Build]

/-- **A step of a call.** -/
theorem Ranged.callStep {pt : Point} {res : Place μ ⊕ (Ret × DState μ × BzStream)} (h : Ranged d pt)
    (he : callStep .qbz2 (d, strm, pt) = some res) : RangedAfter res := by
  cases pt with
  | parser ctl =>
    unfold Qbz2.callStep at he
    dsimp only at he
    cases hd : decompressStep .qbz2 (d, strm, ctl) with
    | none =>
      rw [hd] at he
      cases he
    | some next =>
      rw [hd] at he
      cases next with
      | inl s =>
        cases he
        exact h.step hd
      | inr ret =>
        obtain rfl := Option.some.inj he
        exact returned_after (h.returns hd)
  | output =>
    have hS : Sane d.small (d.core, .output) := h.sane
    obtain ⟨⟨corrupt, out, strm₁⟩, w, o', hd, hD⟩ :=
      @unRle_sim _ _ _ _ .qbz2 _ (tape d.bits strm) hS strm
    have hsane : Sane d.small (d.core.giving o') := sane_steps hD.steps hS
    rw [callStep_output, hd] at he
    dsimp only at he
    cases corrupt with
    | true =>
      rw [if_pos rfl] at he
      cases he
      exact nofun
    | false =>
      obtain ⟨rfl, -, -⟩ := hD.fine rfl
      dsimp only at hsane
      rw [if_neg (by decide)] at he
      split at he
      · rename_i hend
        have hnode := @giving_end _ _ .qbz2 d.small d.core out hend
        have hp : (Core.finishBlock { d.core with out }).1.p = d.core.p := by
          unfold Core.finishBlock
          dsimp only
          split <;> rfl
        cases hf : Core.finishBlock { d.core with out } with
        | mk core ok =>
          rw [hf] at he hnode hp
          cases ok with
          | false =>
            cases he
            exact nofun
          | true =>
            cases he
            have hmove : Steps (bitDecoder .qbz2 d.small) (d.core.giving out) [] []
                (core, .parser (.get .blkhdr1)) [] := .move hnode (.refl _ _)
            refine ⟨sane_steps hmove hsane, h.live, ?_, fun ctl hctl => ?_, fun ctl hctl => ?_, nofun⟩
            · dsimp only
              rw [hp]
              exact h.counted
            · cases hctl
              exact fun hs => hs.elim
            · cases hctl
              exact ⟨nofun, nofun⟩
      · cases he
        intro _
        have hpt : ({ d with core := { d.core with out } } : DState μ).point = .output :=
          point_output (h.giving rfl)
        dsimp only
        rw [hpt]
        exact ⟨hsane, h.live, h.counted, nofun, nofun, h.giving⟩

/-- **A call**, step by step. -/
theorem Ranged.comesBy {s s' : Place μ} (h : Ranged s.1 s.2.2) (hb : ComesBy .qbz2 s s') :
    Ranged s'.1 s'.2.2 := by
  induction hb with
  | refl => exact h
  | tail _ he ih => exact ih.callStep he

end

/-! ## 8. Every run -/

theorem BlockOk.groupIn {p : Parse} (hb : BlockOk p) (h : GroupRead p) : GroupIn p := by
  obtain ⟨⟨h0, hlt⟩, hg⟩ := h
  have hlen := hb.sel.length
  have hidx : p.groupNo.toNat < p.selector.length := by omega
  refine ⟨by omega, ⟨hlen, hb.sel.small⟩, ⟨hg, ?_⟩, hb.count, hb.sel.groups.2⟩
  rw [hg, List.getD_eq_getElem?_getD, List.getElem?_eq_getElem hidx]
  exact hb.sel.lt _ (List.getElem_mem hidx)

/-- **What every step keeps puts the next one in range.** -/
theorem Ranged.inRange {d : DState FlatMtf} {pt : Point} (h : Ranged d pt) : InRange d pt := by
  cases pt with
  | parser ctl =>
    obtain ⟨ht, hready⟩ := h.sane
    have hcur := h.current ctl rfl
    refine ⟨h.counted, fun hs => ?_, fun l v hctl => ?_, fun hctl => ?_, fun hctl => ?_⟩
    · have hb : BlockOk d.core.p := by
        cases ctl with
        | get l =>
          cases l with
          | mtf site zn => exact hready.1
          | mtfNext site zn zvec => exact hready.1
          | _ => exact hs.elim
        | fast => exact hready.1
        | block => exact hready
        | ret r => exact hs.elim
      exact hb.groupIn (hcur hs)
    · cases hctl
      exact resume_in hready h.counted hcur v
    · cases hctl
      exact lookup_in hready.1 hready.2 h.counted
    · cases hctl
      exact endBlock_in hready (ht.store trivial)
  | output =>
    obtain ⟨s, hw, -⟩ := TwinBlock.walk h.sane
    exact ⟨h.counted, hw.fits, hw.getsIn⟩

theorem ranged_init (small : Bool) :
    Ranged (DState.init small : DState FlatMtf) (DState.init small : DState FlatMtf).point where
  sane := (resting_decompressInit .qbz2 small).sane
  live := Nat.zero_le _
  counted := ⟨show (-1 : Int) ≤ 0 by decide, show (0 : Int) ≤ 2 ^ 23 by decide, Nat.zero_le _⟩
  current ctl hctl := by
    cases hctl
    exact fun hs => hs.elim
  parsing ctl hctl := by
    cases hctl
    exact ⟨nofun, nofun⟩
  giving := nofun

section

variable [Build]

/-- **A run whose calls all returned `BZ_OK`.** -/
theorem DecompressRun.ranged {small : Bool} {x : List Byte} {calls : List DecompressCall}
    {d : DState FlatMtf} {rest : List Byte} (h : DecompressRun .qbz2 small x calls d rest)
    (hok : ∀ c ∈ calls, c.ret = .ok) : Ranged d d.point := by
  induction h with
  | init => exact ranged_init small
  | @call calls d d' rest h hok' c hoffer hc ih =>
    obtain ⟨s', hb, he⟩ := bzDecompressLoop_comes _ _ _ _ hc
    have hret : c.ret = .ok := hok c (List.mem_append_right _ List.mem_cons_self)
    exact ((ih hok').comesBy hb).callStep he hret

/-- **No input bits take the decoder out of range**: whatever the calls before have read and written,
    and whatever input and room the next call has, at every place it comes by the symbol, group,
    selector and MTF indices, the counts, the writes to the tables and to the block and the steps along
    the vector are in range; and those places are all of the call, from its first step to what it
    returns. -/
theorem decoder_in_range {small : Bool} {x : List Byte} {calls : List DecompressCall}
    {d : DState FlatMtf} {rest : List Byte} (h : DecompressRun .qbz2 small x calls d rest)
    (hok : ∀ c ∈ calls, c.ret = .ok) (strm : BzStream) :
    (∀ s, ComesBy .qbz2 (d, strm, d.point) s → InRange s.1 s.2.2) ∧
      ∃ res, bzDecompress .qbz2 d strm = some res ∧ ComesTo .qbz2 (d, strm, d.point) res := by
  have hR := h.ranged hok
  refine ⟨fun s hb => (hR.comesBy hb).inRange, ?_⟩
  obtain ⟨hd, -, -⟩ := run_sim .qbz2 h hok
  obtain ⟨r, d', strm', -, -, -, he, -⟩ := bzDecompress_sim .qbz2 hd strm
  exact ⟨(r, d', strm'), he, bzDecompressLoop_comes _ _ _ _ he⟩

omit [Build] in
/-- Two places of the stream of one byte: before the first symbol of its block, with the rest of the
    stream to come, and before its first byte, with the vector built. -/
theorem decoder_in_range_oneByte :
    (∃ (d : DState FlatMtf) (strm : BzStream),
      @bzDecompress _ _ sortingEnv.toBuild .qbz2 (DState.init true)
        (offering (oneByteFile.take 26)) = some (.ok, d, strm) ∧
      InRange d (.parser (.get (.mtf .first 1))) ∧
      ∃ res, @bzDecompress _ _ sortingEnv.toBuild .qbz2 d (offering (oneByteFile.drop 26)) =
          some res ∧
        @ComesTo _ _ sortingEnv.toBuild .qbz2 (d, offering (oneByteFile.drop 26), d.point) res) ∧
    ∃ (d : DState FlatMtf) (strm : BzStream),
      @bzDecompress _ _ sortingEnv.toBuild .qbz2 (DState.init true)
        { offeringTwo oneByteFile with availOut := 0 } = some (.ok, d, strm) ∧
      InRange d .output := by
  let _ : CompressEnv := sortingEnv
  constructor
  · have heval : (bzDecompress .qbz2 (DState.init true : DState FlatMtf)
        (offering (oneByteFile.take 26))).map (fun x => (x.1, x.2.1.state)) =
          some (.ok, .parsing (.mtf .first 1)) := by decide +kernel
    obtain ⟨⟨r, d, strm⟩, hc, he⟩ := Option.map_eq_some_iff.mp heval
    obtain ⟨rfl, hst⟩ : r = .ok ∧ d.state = .parsing (.mtf .first 1) := by simpa using he
    have hrun : DecompressRun .qbz2 true oneByteFile [⟨offering (oneByteFile.take 26), .ok, strm⟩] d
        _ := .call .init (fun c hc => absurd hc List.not_mem_nil) ⟨_, .ok, strm⟩
          (List.take_prefix 26 oneByteFile) hc
    obtain ⟨hin, hres⟩ := decoder_in_range hrun (fun c hc => by rw [List.mem_singleton.mp hc])
      (offering (oneByteFile.drop 26))
    have hplace := hin _ .refl
    rw [point_parsing hst] at hplace
    exact ⟨d, strm, hc, hplace, hres⟩
  · obtain ⟨u, hz, -⟩ := oneByte_decodes true
    have hinput : ({ offeringTwo oneByteFile with availOut := 0 } : BzStream).input = oneByteFile :=
      input_offeringTwo oneByteFile
    obtain ⟨d, strm, hc, hst⟩ := hz.held hinput (show 0 < 1 by decide)
    have hrun : DecompressRun .qbz2 true oneByteFile
        [⟨{ offeringTwo oneByteFile with availOut := 0 }, .ok, strm⟩] d _ :=
      .call .init (fun c hc => absurd hc List.not_mem_nil) ⟨_, .ok, strm⟩ (by rw [hinput]) hc
    have hplace := (decoder_in_range hrun (fun c hc => by rw [List.mem_singleton.mp hc])
      (offering oneByteFile)).1 _ .refl
    rw [point_output hst] at hplace
    exact ⟨d, strm, hc, hplace⟩

end

end Qbz2
