/-
  File:      Qbz2/RoundTrip/Block.lean
  Subject:   A block that `BZ2_compressBlock` has written is decoded to the bytes it stands for.

  * `begun_startMtf` -- the loop over the symbols waits for the first;
  * `symbols_roundTrip` -- the codes of the symbols leave the last column in the block;
  * `block_given` -- the block is given out as what its bytes expand to, and its CRC is right;
  * **`block_roundTrip`** -- from one block header to the next.
-/
import Qbz2.Compress.Stream
import Qbz2.RoundTrip.Header
import Qbz2.RoundTrip.Output
import Qbz2.RoundTrip.Symbols

namespace Qbz2

open Transducer Bits RunLength

/-! ## 1. The symbols -/

/-- Where the loop over the symbols begins, it waits for the first. -/
theorem begun_startMtf {p : Parse} {zn : Int} (h : p.startMtf.2.2 = .get (.mtf .first zn)) :
    Begun p.startMtf.1 1 ∧ zn = p.startMtf.1.gMinlen ∧ p.startMtf.1.fixed = p.counted.fixed := by
  obtain ⟨p₀, hp₀⟩ : ∃ p₀ : Parse, p₀ = { p with
    eob := p.nInUse + 1
    nblockMAX := 100000 * p.blockSize100k
    groupNo := -1
    groupPos := 0
    nblock := 0 } := ⟨_, rfl⟩
  have hb : Begun p₀ 0 := by
    rw [hp₀]
    exact ⟨rfl, show 0 < 50 by decide, fun h => absurd h (Nat.lt_irrefl 0)⟩
  have hstart : p.startMtf = ((p₀.beginVal .first).1, .start :: (p₀.beginVal .first).2.1,
      (p₀.beginVal .first).2.2) := by rw [hp₀]; rfl
  rw [hstart] at h ⊢
  rcases hb.beginVal .first with ⟨r, hr⟩ | ⟨p', he, hb', hfix⟩
  · exact nomatch h.symm.trans hr
  · rw [he] at h ⊢
    cases h
    exact ⟨hb', rfl, hfix.trans (by rw [hp₀]; rfl)⟩

/-- The last column of a block, as bytes. -/
def BlockCode.last (k : BlockCode) (b : InBlock) (i : Nat) : Byte :=
  lastByte k.block k.values.arrays.ptrs b.nblock i

/-- The symbols of a block are those of its last column. -/
theorem BlockCode.Fits.symbols_eq {k : BlockCode} {b : InBlock} (h : k.Fits b) (hb : Sortable b) :
    k.symbols b = ZeroRun.coded (seqList (usedBytes b.inUse).length) 0
      (seqColumn b.inUse (k.last b) b.nblock) ++ [(usedBytes b.inUse).length + 1] :=
  (generateMTFValues_spec k.sse2 k.block b.nblock b.inUse k.values (fun _ _ => rfl)
    (fun _ hi => lastByte_inUse hb h.block h.sorted hi)).2.1

/-- The decoder has read the side information of a block. -/
structure SideRead (k : BlockCode) (b : InBlock) (p : Parse) : Prop where
  inUse : p.inUse = flagsOf b.inUse
  maps : p.makeMaps = p
  selectors : p.nSelectors = k.selector.length
  selector : p.selector = k.selector.map BitVec.toNat
  len : p.len = k.len.map (rowList (BlockCode.alphaSize b))
  tables : p.tables = p.len.map fun row =>
    buildTables (fun i => (row.getD i.toNat 0 : Nat)) (BlockCode.alphaSize b) .fresh

/-- **The decoder reads the side information** as far as the first code. -/
theorem sideInfo_reads {small : Bool} {k : BlockCode} {b : InBlock} (hk : k.Fits b)
    (hused : usedBytes b.inUse ≠ []) (hne : k.selector ≠ []) (hmax : k.selector.length ≤ 18002)
    (c : Core FlatMtf) (hi : c.p.i = 0) (h16 : c.p.inUse16 = []) (rest : List Bool) :
    ∃ (p : Parse) (zn : Int),
      Steps (bitDecoder .qbz2 small) (c, .parser (.get .mapping1))
        (writesBits (mappingWrites b.inUse ++ selectorWrites k.nGroups
          (selectorMtfs ((List.range k.nGroups).map (BitVec.ofNat 8)) k.selector) ++
          lengthWrites (BlockCode.alphaSize b) k.len) ++ rest) []
        (standing (c.absorb small p.startMtf)) rest ∧
      p.startMtf.2.2 = .get (.mtf .first zn) ∧ SideRead k b p ∧ p.header = c.p.header := by
  obtain ⟨h2, h6⟩ := hk.groups
  -- the three parts, one after the other
  obtain ⟨p₁, hs₁, hm₁, hh₁⟩ := @mapping_reads FlatMtf _ .qbz2 small c b.inUse hused
    (writesBits (selectorWrites k.nGroups
      (selectorMtfs ((List.range k.nGroups).map (BitVec.ofNat 8)) k.selector)) ++
      (writesBits (lengthWrites (BlockCode.alphaSize b) k.len) ++ rest)) c.p hi h16
  obtain ⟨p₂, hs₂, hsel₂, ht₂, hl₂⟩ := @selectorInfo_reads FlatMtf _ .qbz2 small c k.nGroups h2 h6
    k.selector hne hmax hk.tabled.lt (writesBits (lengthWrites (BlockCode.alphaSize b) k.len) ++ rest) p₁
  have hm₂ : Mapped p₂ b.inUse := hm₁.of_maps (congrArg Prod.fst hsel₂)
  have halpha : p₂.alphaSize = BlockCode.alphaSize b := hm₂.alphaSize
  have hgroups : p₂.nGroups = k.nGroups := congrArg (fun x => x.2.1) hsel₂
  have hrows : k.len ≠ [] := fun h => by
    have := hk.tabled.rows
    rw [h, List.length_nil] at this
    omega
  obtain ⟨p₃, hs₃, hsel₃, hl₃⟩ := @lengths_read FlatMtf _ .qbz2 small c rest
    ((usedBytes b.inUse).length + 1) k.len p₂ hrows
    (by rw [ht₂, hgroups, Nat.zero_add]; exact hk.tabled.rows) hm₂.alphaSize fun row hr i hi => by
      obtain ⟨h1, h17⟩ := (hk.tabled.complete row hr).range i (halpha ▸ hi)
      exact ⟨h1, Nat.le_trans h17 (by decide)⟩
  rw [halpha] at hs₃ hl₃
  rw [hl₂, List.nil_append] at hl₃
  have hm₃ : Mapped p₃ b.inUse := hm₂.of_maps (congrArg Prod.fst hsel₃)
  have hsel : p₃.selected = p₂.selected := hsel₃
  have hselectors : p₃.nSelectors = k.selector.length :=
    (congrArg (fun x => x.2.2.1) (hsel.trans hsel₂))
  have hpos := List.length_pos_iff.mpr hne
  obtain ⟨zn, hzn⟩ := startMtf_begins (show 1 ≤ p₃.buildAll.nSelectors from hselectors.symm ▸ hpos)
  refine ⟨p₃.buildAll, zn, ?_, hzn, ⟨hm₃.flags, ?_, hselectors, ?_, hl₃, ?_⟩, ?_⟩
  · rw [writesBits_append, writesBits_append, List.append_assoc, List.append_assoc]
    exact (hs₁.trans hs₂).trans hs₃
  · show { p₃.makeMaps with tables := p₃.buildAll.tables } = p₃.buildAll
    rw [hm₃.makeMaps]
    rfl
  · exact congrArg (fun x => x.2.2.2) (hsel.trans hsel₂)
  · show p₃.len.map _ = p₃.len.map _
    rw [hm₃.alphaSize]
    rfl
  · have h₁ : p₃.header = p₂.header := congrArg (fun x => x.1.1) hsel
    have h₂ : p₂.header = p₁.header := congrArg (fun x => x.1.1) hsel₂
    exact (h₁.trans h₂).trans hh₁

/-- **The codes of the symbols leave the last column in the block.** -/
theorem symbols_roundTrip {small : Bool} {k : BlockCode} {b : InBlock} (hb : Sortable b)
    (hpos : 0 < b.nblock) (hk : k.Fits b) {c : Core FlatMtf} (hc : SideRead k b c.p) {zn : Int}
    (hzn : c.p.startMtf.2.2 = .get (.mtf .first zn)) (hsize : b.nblock ≤ 100000 * c.p.blockSize100k)
    (rest : List Bool) :
    ∃ c' : Core FlatMtf,
      Steps (bitDecoder .qbz2 small) (standing (c.absorb small c.p.startMtf))
        (writesBits (k.codeWrites b) ++ rest) [] (c', .parser .block) rest ∧
      c'.p.nblock = b.nblock ∧ Decoded small ((List.range b.nblock).map (k.last b)) c'.store ∧
      c'.p.fixed = c.p.counted.fixed ∧ c'.calculatedCombinedCRC = c.calculatedCombinedCRC := by
  obtain ⟨hseq, hnIn⟩ := makeMaps_flagsOf hc.inUse
  rw [hc.maps] at hseq hnIn
  obtain ⟨-, -, hlt, -⟩ := hk.symbols hpos hb
  have hcount : k.selector.length = ((k.symbols b).length + 49) / 50 := hk.tabled.count
  have hrows := hk.tabled.rows
  have h256 := length_usedBytes_le b.inUse
  obtain ⟨-, hk1, -⟩ := symbols_bound hpos hb hk.block hk.sorted k.sse2
  obtain ⟨c', hfeed, hn, hdec, hfix, -, hcomb⟩ := symbols_feed small hpos hb.size
    (fun i hi => lastByte_inUse hb hk.block hk.sorted hi) (hk.symbols_eq hb) hseq hnIn
    (by
      rw [hc.selectors]
      unfold bzGSize
      omega) hsize
  refine ⟨c', ?_, hn, hdec, hfix, hcomb⟩
  -- what the loop does with the symbols, it does on their codes
  obtain ⟨hbegun, hmin, hfixed⟩ := begun_startMtf hzn
  have hcodes : k.codeWrites b =
      codesFrom (BlockCode.alphaSize b) k.len k.selector 0 (k.symbols b) :=
    symbolWrites_eq (k.symbols b).length (k.symbols b) 0 (Nat.le_refl _) (by omega)
  have hcoded : Coded c.p.counted (BlockCode.alphaSize b) k.len k.selector := by
    refine ⟨hc.selectors, hc.selector, ?_⟩
    show c.p.tables = _
    rw [hc.tables, hc.len, List.map_map]
    rfl
  have hserv : Serving (c.absorb small c.p.startMtf).1.p 0 (c.absorb small c.p.startMtf).2 := by
    show Serving c.p.startMtf.1 0 c.p.startMtf.2.2
    rw [hzn]
    exact ⟨hbegun, hmin⟩
  rw [hcodes]
  exact feed_reads (by unfold BlockCode.alphaSize; omega) (by unfold BlockCode.alphaSize; omega)
    hk.tabled.complete (fun sel hs => hrows ▸ hk.tabled.lt sel hs) rest _ _ _ 0 hlt hserv
    (hcoded.of_fixed hfixed) hfeed

/-! ## 2. The output -/

/-- The last column, as numbers. -/
def BlockCode.column (k : BlockCode) (b : InBlock) : Int → Nat :=
  Rotation.lastColumn (sym b.block) b.nblock k.values.arrays.ptrs

/-- The row of the block itself. -/
def BlockCode.row (k : BlockCode) : Nat := k.origPtr.toNat

theorem BlockCode.Fits.row_lt {k : BlockCode} {b : InBlock} (h : k.Fits b) : k.row < b.nblock := by
  obtain ⟨h0, h1, -⟩ := h.row
  unfold BlockCode.row
  omega

theorem BlockCode.Fits.row_cast {k : BlockCode} {b : InBlock} (h : k.Fits b) :
    (k.row : Int) = k.origPtr := Int.toNat_of_nonneg h.row.1

/-- The decoder has got the last column of a block. -/
theorem decoded_column {small : Bool} {k : BlockCode} {b : InBlock} (hk : k.Fits b)
    {st : Store FlatMtf} (h : Decoded small ((List.range b.nblock).map (k.last b)) st) :
    Block small (k.column b) b.nblock st := by
  obtain ⟨hcol, hcounts⟩ := h.column
  refine lastColumn_block hk.sorted hk.block hcol fun x hx => ?_
  rw [hcounts x hx]
  refine congrArg Nat.cast (Counting.holding_congr (fun i _ => ?_) x)
  rw [Int.toNat_natCast]
  rfl

/-- The `j`-th `BZ_GET` finds the `j`-th byte of the block. -/
theorem column_byte {k : BlockCode} {b : InBlock} (hk : k.Fits b) {j : Nat} (hj : j < b.nblock) :
    byteAt (k.column b) b.nblock k.row j = b.block j := by
  have h := lastColumn_byte hk.sorted hk.row_lt (by rw [hk.row_cast]; exact hk.row.2.2) j
  rw [Int.emod_eq_of_lt (by omega) (by omega)] at h
  exact h

/-- The first byte of a block that is not randomised. -/
theorem firstByte_plain {small : Bool} {d : Core FlatMtf} {at' : Nat → Word32} {byte : Nat → Byte}
    (hw : Lane (d.env small) at' byte) (ht : d.out.tPos = at' 0) (hr : d.p.blockRandomised = false) :
    d.firstByte small = { d with out := { d.out with
      tPos := at' 1
      nblockUsed := d.out.nblockUsed + 1
      k0 := byte 0 } } := by
  rw [firstByte_eq hw ht]
  unfold Core.masked Out.took
  rw [hr]
  rfl

/-- What the output faces when it begins: the bytes of the block, the first of them taken. -/
theorem facing_first {k : BlockCode} {b : InBlock} (hk : k.Fits b) {x : Byte}
    {ys : List Byte} (hbytes : b.bytes = x :: ys) {e : OutEnv} (he : e.nblock = b.nblock)
    {at' : Nat → Word32} {o : Out} (hon : o.On at') (hu : o.nblockUsed = 1)
    (hk0 : o.k0 = byteAt (k.column b) b.nblock k.row 0) :
    Facing e at' (byteAt (k.column b) b.nblock k.row) x ys o := by
  have hall : ∀ i (h : i < (x :: ys).length), (x :: ys)[i] = b.block i := by
    intro i hi
    have hi' : i < b.bytes.length := hbytes ▸ hi
    have hget : (x :: ys)[i] = b.bytes[i] := List.getElem_of_eq hbytes.symm hi
    rw [hget]
    simp only [InBlock.bytes, show (0 : Int) = ((0 : Nat) : Int) from rfl, bytesAt_eq_map,
      List.getElem_map, List.getElem_range', Nat.zero_add, Nat.one_mul]
  have hlen : ys.length + 1 = b.nblock := by
    rw [← List.length_cons (a := x), ← hbytes, InBlock.bytes, length_bytesAt]
  refine ⟨hon, ?_, fun i hi => ?_, by rw [hu, he]; omega⟩
  · rw [hk0, column_byte hk (by omega)]
    exact (hall 0 (Nat.succ_pos _)).symm
  · rw [hu, column_byte hk (by omega), Nat.add_comm]
    exact (hall (i + 1) (Nat.succ_lt_succ hi)).symm

/-- **The block is given out as what it stands for**, and its CRC is right. -/
theorem block_given {small : Bool} {k : BlockCode} {b : InBlock} {piece : List Byte}
    (hst : Stands b piece) (hpos : 0 < b.nblock) (hk : k.Fits b)
    (hend : (runAfter ⟨0, 0⟩ b.bytes).len ≠ 4) {c : Core FlatMtf} (hok : BlockOk c.p)
    (hn : c.p.nblock = b.nblock) (ho : c.p.origPtr = k.row) (hr : c.p.blockRandomised = false)
    (hcrc : c.p.storedBlockCRC = ~~~b.blockCRC)
    (hdec : Decoded small ((List.range b.nblock).map (k.last b)) c.store) (u : List Bool) :
    ∃ c' : Core FlatMtf,
      Steps (bitDecoder .qbz2 small) (c, .parser .block) u piece (c', .parser (.get .blkhdr1)) u ∧
      c'.p = c.p ∧ c'.calculatedCombinedCRC = nextCombined c.calculatedCombinedCRC b := by
  have hblock := decoded_column hk hdec
  rw [← hn] at hblock
  obtain ⟨d, hblk, hdp, hdcomb, hdout, hlane, hwalk⟩ := endBlock_block hok
    (by rw [hn, ho]; exact hk.row_lt) hblock
  have hdr : d.p.blockRandomised = false := by rw [hdp, hr]
  have hfirst := firstByte_plain hlane (by rw [hdout]) hdr
  obtain ⟨x, ys, hbytes⟩ : ∃ x ys, b.bytes = x :: ys := by
    cases h : b.bytes with
    | nil =>
      have := congrArg List.length h
      rw [InBlock.bytes, length_bytesAt, List.length_nil] at this
      omega
    | cons x ys => exact ⟨x, ys, rfl⟩
  rw [hfirst] at hblk hwalk
  generalize hd₁ : ({ d with out := { d.out with
    tPos := posAt (k.column b) c.p.nblock small c.p.origPtr 1
    nblockUsed := d.out.nblockUsed + 1
    k0 := byteAt (k.column b) c.p.nblock c.p.origPtr 0 } } : Core FlatMtf) = d₁ at hblk hwalk
  have hp₁ : d₁.p = c.p := by rw [← hd₁]; exact hdp
  have hf : Facing (d₁.env small) (posAt (k.column b) d₁.p.nblock small d₁.p.origPtr)
      (byteAt (k.column b) d₁.p.nblock d₁.p.origPtr) x ys d₁.out := by
    have hnb : d₁.p.nblock = b.nblock := by rw [hp₁, hn]
    have hor : d₁.p.origPtr = k.row := by rw [hp₁, ho]
    have hon := hwalk.on
    rw [hnb, hor] at hon ⊢
    refine facing_first hk hbytes hnb hon ?_ ?_
    · rw [← hd₁, hdout]
    · rw [← hd₁, hn, ho]
  obtain ⟨out, hgives, hG⟩ := @output_expands FlatMtf _ .qbz2 small u (k.column b) d₁ x ys hwalk
    (by rw [hp₁, hr]) (by rw [← hd₁, hdout]) hf (by rw [← hbytes]; exact hend)
  rw [show expand (x :: ys) = piece by rw [← hbytes]; exact hst.expands] at hgives hG
  -- the CRC is the one that was stored
  have hsum : ~~~out.calculatedBlockCRC = ~~~b.blockCRC := by
    rw [hG.crc, hst.crc, ← hd₁, hdout]
    rfl
  have hfin : ({ d₁ with out } : Core FlatMtf).finishBlock =
      ({ d₁ with
        out := { out with calculatedBlockCRC := ~~~out.calculatedBlockCRC }
        calculatedCombinedCRC := nextCombined c.calculatedCombinedCRC b }, true) := by
    have hcomb : d₁.calculatedCombinedCRC = c.calculatedCombinedCRC := by rw [← hd₁]; exact hdcomb
    unfold Core.finishBlock nextCombined
    dsimp only
    rw [if_neg (by rw [hp₁, hcrc, hsum]; exact not_not.mpr rfl), if_pos hpos, hcomb, hsum]
  have hblknode : bitDecoder .qbz2 small (c, .parser .block) = .move (d₁, .output) := by
    unfold bitDecoder
    dsimp only
    rw [hblk]
  have hendnode : bitDecoder .qbz2 small ({ d₁ with out }, .output) = .move
      ({ d₁ with
        out := { out with calculatedBlockCRC := ~~~out.calculatedBlockCRC }
        calculatedCombinedCRC := nextCombined c.calculatedCombinedCRC b },
        .parser (.get .blkhdr1)) := by
    have hlen := hG.len
    have hused := hG.used
    unfold bitDecoder
    dsimp only
    rw [if_neg (by omega), if_neg (by omega), if_pos hused, hfin]
  have hlast := Steps.move hendnode (.refl _ u)
  have hall := (Steps.move hblknode hgives).trans hlast
  rw [List.append_nil] at hall
  exact ⟨_, hall, hp₁, rfl⟩

/-! ## 3. The whole block -/

/-- **A block, there and back**: from its header to the next, the decoder reads what was written for
    the block and nothing else, gives out the bytes it stands for, and takes in its CRC. -/
theorem block_roundTrip {small : Bool} {k : BlockCode} {b : InBlock} {piece : List Byte}
    (hst : Stands b piece) (hb : Sortable b) (hpos : 0 < b.nblock) (hk : k.Fits b)
    (hend : (runAfter ⟨0, 0⟩ b.bytes).len ≠ 4) {c : Core FlatMtf}
    (hc : Sane small (c, .parser (.get .blkhdr1))) (hsize : b.nblock ≤ 100000 * c.p.blockSize100k)
    (rest : List Bool) :
    ∃ c' : Core FlatMtf,
      Steps (bitDecoder .qbz2 small) (c, .parser (.get .blkhdr1))
        (writesBits (k.writes b) ++ rest) piece (c', .parser (.get .blkhdr1)) rest ∧
      c'.p.blockSize100k = c.p.blockSize100k ∧
      c'.calculatedCombinedCRC = nextCombined c.calculatedCombinedCRC b := by
  have hrow := hk.row_lt
  have hmax := hb.size
  obtain ⟨hne, hlen, -, -⟩ := hk.symbols hpos hb
  have hpos' := List.length_pos_iff.mpr hne
  have hcount : k.selector.length = ((k.symbols b).length + 49) / 50 := hk.tabled.count
  obtain ⟨-, hused, -⟩ := symbols_bound hpos hb hk.block hk.sorted k.sse2
  -- the header
  have hhead := @blockHeader_reads FlatMtf _ .qbz2 small c (~~~b.blockCRC) k.row (by omega) (by omega)
    (writesBits (mappingWrites b.inUse ++ selectorWrites k.nGroups
      (selectorMtfs ((List.range k.nGroups).map (BitVec.ofNat 8)) k.selector) ++
      lengthWrites (BlockCode.alphaSize b) k.len) ++ (writesBits (k.codeWrites b) ++ rest))
  rw [hk.row_cast] at hhead
  -- the side information
  obtain ⟨p, zn, hside, hzn, hp, hheader⟩ := @sideInfo_reads small k b hk
    (List.length_pos_iff.mp hused) (List.length_pos_iff.mp (by omega)) (by omega)
    { c with p := { c.p with
        storedBlockCRC := ~~~b.blockCRC
        blockRandomised := false
        origPtr := k.row
        i := 0
        inUse16 := [] } } rfl rfl (writesBits (k.codeWrites b) ++ rest)
  -- the symbols
  have hbs : p.blockSize100k = c.p.blockSize100k := congrArg Prod.fst hheader
  obtain ⟨c₁, hsyms, hn, hdec, hfix, hcomb⟩ := @symbols_roundTrip small _ _ hb hpos hk { c with p }
    hp zn hzn (by rw [hbs]; exact hsize) rest
  have hread := (hhead.trans hside).trans hsyms
  have hheader₁ : c₁.p.header = p.header :=
    Parse.fixed_eq (p := p.counted) Parse.header hfix fun _ => rfl
  rw [hheader] at hheader₁
  have hready : Ready c₁.p .block := (sane_steps hread hc).2
  -- the output
  obtain ⟨c', hgives, hp, hcomb'⟩ := block_given hst hpos hk hend hready hn
    (congrArg (fun x => x.2.2.2.2) hheader₁) (congrArg (fun x => x.2.2.2.1) hheader₁)
    (congrArg (fun x => x.2.1) hheader₁) hdec rest
  refine ⟨c', ?_, ?_, ?_⟩
  · have hbits : writesBits (k.writes b) ++ rest =
        writesBits (blockHeaderWrites (~~~b.blockCRC) k.origPtr) ++
        (writesBits (mappingWrites b.inUse ++ selectorWrites k.nGroups
          (selectorMtfs ((List.range k.nGroups).map (BitVec.ofNat 8)) k.selector) ++
          lengthWrites (BlockCode.alphaSize b) k.len) ++ (writesBits (k.codeWrites b) ++ rest)) := by
      unfold BlockCode.writes BlockCode.codeWrites
      rw [writesBits_append, writesBits_append, List.append_assoc, List.append_assoc]
    rw [hbits]
    exact hread.trans hgives
  · rw [hp]
    exact congrArg Prod.fst hheader₁
  · rw [hcomb', hcomb]

end Qbz2
