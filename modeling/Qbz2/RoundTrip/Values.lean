/-
  File:      Qbz2/RoundTrip/Values.lean
  Subject:   The symbols of a block, written by `generateMTFValues` and read by the loop of
             `BZ2_decompress`.

  * `unseq_seqOf` -- `makeMaps_e` and `makeMaps_d` are inverse to each other;
  * **`generateMTFValues_roundTrip`** -- how many symbols there are, how large they are, their
    histogram, and that the decoder takes them back to the last column and its byte counts.
-/
import Qbz2.BlockSort.Agree
import Qbz2.Compress.MtfSymbols
import Qbz2.Decompress.Symbols
import Qbz2.Lib.Counting

namespace Qbz2

open ZeroRun Counting

/-! ## 1. Both maps -/

/-- `inUse[0..255]` as the parser collects it. -/
def flagsOf (inUse : Cells Bool) : List Bool := (List.range 256).map fun b : Nat => inUse b

theorem makeMaps_flagsOf {p : Parse} {inUse : Cells Bool} (h : p.inUse = flagsOf inUse) :
    p.makeMaps.seqToUnseq = (usedBytes inUse).map (BitVec.ofNat 8) ∧
      p.makeMaps.nInUse = (usedBytes inUse).length := by
  have hfilter : ((List.range 256).filter fun i => p.inUse.getD i false) = usedBytes inUse := by
    refine List.filter_congr fun b hb => ?_
    rw [h, flagsOf, List.getD_eq_getElem?_getD, List.getElem?_map,
      List.getElem?_range (List.mem_range.mp hb)]
    rfl
  unfold Parse.makeMaps
  dsimp only
  rw [hfilter, List.length_map]
  exact ⟨rfl, rfl⟩

/-- The sequence number of a byte in use is mapped back to it. -/
theorem unseq_seqOf {inUse : Cells Bool} {b : Byte} (hu : inUse b.toNat) :
    Store.unseq ((usedBytes inUse).map (BitVec.ofNat 8)) (seqOf inUse b) = b := by
  unfold Store.unseq
  rw [(seqOf_lt hu).1, List.getD_eq_getElem?_getD, List.getElem?_map,
    getElem?_usedBytes b.isLt hu, Option.map_some, Option.getD_some, BitVec.ofNat_toNat,
    BitVec.setWidth_eq]

/-- The list of the decoder starts with that of the encoder. -/
theorem seqList_prefix {k m : Nat} (h : k ≤ m) : ∃ rest, seqList m = seqList k ++ rest := by
  refine ⟨((List.range m).drop k).map (BitVec.ofNat 8), ?_⟩
  have e : List.range m = List.range k ++ (List.range m).drop k := by
    conv_lhs => rw [← List.take_append_drop k (List.range m)]
    rw [List.take_range, Nat.min_eq_left h]
  unfold seqList
  conv_lhs => rw [e]
  rw [List.map_append]

/-- Counting the bytes of a column. -/
theorem count_column (last : Nat → Byte) (s : Int → Nat) (hs : ∀ i : Nat, s i = (last i).toNat)
    {b : Nat} (hb : b < 256) (n : Nat) :
    ((List.range n).map last).count (BitVec.ofNat 8 b) = holding s n b := by
  induction n with
  | zero => rfl
  | succ n ih =>
    rw [List.range_succ, List.map_append, List.count_append, ih, holding_succ, List.map_singleton,
      List.count_singleton, hs n]
    congr 1
    by_cases e : last n = BitVec.ofNat 8 b
    · rw [e, if_pos (beq_self_eq_true _), BitVec.toNat_ofNat, if_pos (by omega)]
    · have : (last n).toNat ≠ b := by
        intro h
        refine e (BitVec.eq_of_toNat_eq ?_)
        rw [BitVec.toNat_ofNat, h]
        omega
      rw [if_neg (by simpa using e), if_neg this]

/-! ## 2. The round trip -/

/-- What is set before the symbols of a block and not changed by them. -/
def Parse.counted (p : Parse) : Parse :=
  { p with eob := p.nInUse + 1, nblockMAX := 100000 * p.blockSize100k }

/-- The start of the symbols, the maps being made: the loop waits for the first symbol, and the
    block is empty. -/
theorem startMtf_fresh (small : Bool) {c : Core FlatMtf} {m : Nat} (h1 : 1 ≤ m)
    (hm : m ≤ bzGSize * c.p.nSelectors) :
    ∃ (c' : Core FlatMtf) (ctl : Ctl), c.absorb small c.p.startMtf = (c', ctl) ∧
      Fresh c'.p ctl m ∧ c'.p.fixed = c.p.counted.fixed ∧
      c'.p.nblock = 0 ∧ Decoded small [] c'.store ∧ c'.store.mtfa = seqList 256 ∧
      c'.out = c.out ∧ c'.calculatedCombinedCRC = c.calculatedCombinedCRC := by
  obtain ⟨p₀, hp₀⟩ : ∃ p₀ : Parse, p₀ = { c.p with
    eob := c.p.nInUse + 1
    nblockMAX := 100000 * c.p.blockSize100k
    groupNo := -1
    groupPos := 0
    nblock := 0 } := ⟨_, rfl⟩
  have hleft : p₀.left = bzGSize * c.p.nSelectors := by
    rw [hp₀]
    unfold Parse.left
    dsimp only
    rw [show ((c.p.nSelectors : Int) - (-1 + 1)).toNat = c.p.nSelectors by omega, Nat.add_zero]
  have hgroup : -1 ≤ p₀.groupNo := by rw [hp₀]
  obtain ⟨p', zn, he, hf, hn, _, _, hl, h0⟩ :=
    Parse.beginVal_of_left .first (show 1 ≤ p₀.left by omega) hgroup
  refine ⟨{ c with p := p', store := c.store.apply small p'.seqToUnseq .start },
    .get (.mtf .first zn), ?_, ⟨h0, .inl ⟨_, _, rfl, by decide, ?_⟩⟩, ?_, ?_,
    ⟨fun x hx => absurd hx (Nat.not_lt_zero x), fun b hb => ?_⟩, rfl, rfl, rfl⟩
  · unfold Parse.startMtf
    dsimp only
    rw [← hp₀, he]
    rfl
  · show m ≤ p'.left + 1
    omega
  · exact hf.trans (by rw [hp₀]; rfl)
  · exact hn.trans (by rw [hp₀])
  · show (c.store.unzftab.fill 0 256 0) b = _
    rw [Cells.get_fill, if_pos (by omega)]
    rfl

/-- A column that has been decoded is in the block, and its bytes are counted. -/
theorem Decoded.column {small : Bool} {st : Store FlatMtf} {last : Nat → Byte} {n : Nat}
    (h : Decoded small ((List.range n).map last) st) :
    (∀ i : Nat, i < n →
      if small then st.ll16 i = (last i).setWidth 16 else st.tt i = (last i).setWidth 32) ∧
    ∀ b : Nat, b < 256 → st.unzftab b = holding (fun i => (last i.toNat).toNat) n b := by
  refine ⟨fun i hi => ?_, fun b hb => ?_⟩
  · have := h.cell i (by simpa using hi)
    rw [List.getD_eq_getElem _ _ (by simpa using hi), List.getElem_map, List.getElem_range] at this
    exact this
  · rw [h.counts b hb, count_column last (fun i => (last i.toNat).toNat)
      (fun i => by rw [Int.toNat_natCast]) hb n]

/-- **The symbols of a column, fed to the loop**: it ends with the column in the block. -/
theorem symbols_feed (small : Bool) {inUse : Cells Bool} {last : Nat → Byte} {n : Nat}
    (hn1 : 1 ≤ n) (hn : n ≤ 899990) (hused : ∀ i, i < n → inUse (last i).toNat)
    {symbols : List Nat}
    (hsyms : symbols = coded (seqList (usedBytes inUse).length) 0 (seqColumn inUse last n) ++
      [(usedBytes inUse).length + 1])
    {c : Core FlatMtf} (hseq : c.p.seqToUnseq = (usedBytes inUse).map (BitVec.ofNat 8))
    (hnIn : c.p.nInUse = (usedBytes inUse).length)
    (hsel : symbols.length ≤ bzGSize * c.p.nSelectors) (hsize : n ≤ 100000 * c.p.blockSize100k) :
    ∃ c' : Core FlatMtf,
      Core.feed .qbz2 small (c.absorb small c.p.startMtf) symbols = some (c', .block) ∧
      c'.p.nblock = n ∧ Decoded small ((List.range n).map last) c'.store ∧
      c'.p.fixed = c.p.counted.fixed ∧
      c'.out = c.out ∧ c'.calculatedCombinedCRC = c.calculatedCombinedCRC := by
  obtain ⟨k, hk⟩ : ∃ k, k = (usedBytes inUse).length := ⟨_, rfl⟩
  have h256 := length_usedBytes_le inUse
  rw [← hk] at hsyms hnIn h256
  have hk1 : 1 ≤ k := by
    have := (seqOf_lt (hused 0 hn1)).2
    omega
  obtain ⟨col, hcol⟩ : ∃ col, col = seqColumn inUse last n := ⟨_, rfl⟩
  rw [← hcol] at hsyms
  have hclen : col.length = n := by rw [hcol, seqColumn, List.length_map, List.length_range]
  have hcmem : ∀ b ∈ col, b ∈ seqList k := by
    intro b hb
    rw [hcol] at hb
    obtain ⟨i, hi, rfl⟩ := List.mem_map.mp hb
    refine mem_seqList ?_
    rw [hk]
    exact (seqOf_lt (hused i (List.mem_range.mp hi))).2
  have htotal : symbols.length = (coded (seqList k) 0 col).length + 1 := by
    rw [hsyms, List.length_append, List.length_singleton]
  obtain ⟨c₁, ctl, hstart, hfresh, hfix₁, hn₁, hd₁, hmtf₁, ho₁, hcc₁⟩ :=
    startMtf_fresh small (c := c) (m := symbols.length) (by omega) hsel
  obtain ⟨rest, hrest⟩ := seqList_prefix h256
  rw [htotal] at hfresh
  have hseq₁ : c₁.p.seqToUnseq = c.p.seqToUnseq :=
    (Parse.fixed_eq Parse.seqToUnseq hfix₁ fun _ => rfl).trans rfl
  have heob₁ : c₁.p.eob = c.p.nInUse + 1 := Parse.fixed_eq Parse.eob hfix₁ fun _ => rfl
  have hmax₁ : c₁.p.nblockMAX = 100000 * c.p.blockSize100k :=
    Parse.fixed_eq Parse.nblockMAX hfix₁ fun _ => rfl
  have hne : seqList k ≠ [] := by
    intro e
    have := length_seqList k
    rw [e, List.length_nil] at this
    omega
  obtain ⟨c', hfeed, hfix, hn', hd', ho, hcc⟩ := feed_coded col (seqList k) 0 c₁ ctl [] hcmem
    ⟨hne, hmtf₁.trans hrest, hseq₁, by rw [heob₁, length_seqList, hnIn], hmax₁, hn₁, hd₁⟩
    (by
      rw [hclen]
      show 0 + 0 + n ≤ 100000 * c.p.blockSize100k
      omega)
    (by omega) hfresh
  rw [length_seqList, ← hsyms] at hfeed
  refine ⟨c', ?_, by rw [hn', hclen, List.length_nil]; omega, ?_, hfix.trans hfix₁, ho.trans ho₁,
    hcc.trans hcc₁⟩
  · rw [hstart]
    exact hfeed
  · have hback : col.map (Store.unseq c.p.seqToUnseq) = (List.range n).map last := by
      rw [hcol, seqColumn, List.map_map, hseq]
      exact List.map_congr_left fun i hi => unseq_seqOf (hused i (List.mem_range.mp hi))
    rw [List.replicate_zero, List.nil_append, List.nil_append, hback] at hd'
    exact hd'

/-- **The symbols of a block, there and back.** For every last column of `n` bytes that are all in
    use: there are at most `n + 1` symbols, none above `nInUse + 1`, `mtfFreq` is their histogram,
    and the loop of the decoder, in either mode, reads exactly these symbols and ends with the
    column in the block and its bytes counted. The decoder has got the same `inUse`, selectors for
    all symbols, and a block size the column does not exceed. -/
theorem generateMTFValues_roundTrip (sse2 : Bool) (block : Cells Byte) (n : Nat) (hn1 : 1 ≤ n)
    (hn : n ≤ 899990) (inUse : Cells Bool) (s : MtfValues Arr1)
    (hused : ∀ i : Nat, i < n → inUse (lastByte block s.arrays.ptrs n i).toNat) :
    let r := generateMTFValues sse2 block n inUse s
    r.nMTF ≤ n + 1 ∧ r.symbols.length = r.nMTF ∧ (∀ v ∈ r.symbols, v ≤ r.nInUse + 1) ∧
    (∀ v : Nat, v ≤ r.nInUse + 1 → r.mtfFreq v = r.symbols.count v) ∧
    ∀ (small : Bool) (c : Core FlatMtf), c.p.inUse = flagsOf inUse →
      r.nMTF ≤ bzGSize * c.p.nSelectors → n ≤ 100000 * c.p.blockSize100k →
      ∃ c' : Core FlatMtf,
        Core.feed .qbz2 small
          ({ c with p := c.p.makeMaps }.absorb small c.p.makeMaps.startMtf) r.symbols =
          some (c', .block) ∧
        c'.p.nblock = n ∧
        (∀ i : Nat, i < n →
          if small then c'.store.ll16 i = (lastByte block s.arrays.ptrs n i).setWidth 16
          else c'.store.tt i = (lastByte block s.arrays.ptrs n i).setWidth 32) ∧
        ∀ b : Nat, b < 256 → c'.store.unzftab b =
          holding (fun i => (lastByte block s.arrays.ptrs n i).toNat) n b := by
  intro r
  obtain ⟨last, hlast⟩ : ∃ last : Nat → Byte, last = fun i : Nat =>
      lastByte block s.arrays.ptrs n i := ⟨_, rfl⟩
  have hlast' : ∀ i, i < n → last i = block (if MtfArrays.ptr s.arrays i - 1 < 0
      then MtfArrays.ptr s.arrays i - 1 + n else MtfArrays.ptr s.arrays i - 1) := by
    intro i _
    rw [hlast]
    rfl
  have hused' : ∀ i, i < n → inUse (last i).toNat := by
    intro i hi
    rw [hlast]
    exact hused i hi
  obtain ⟨hnIn, hsyms, hfreq⟩ := generateMTFValues_spec sse2 block n inUse s hlast' hused'
  have hr : generateMTFValues sse2 block n inUse s = r := rfl
  rw [hr] at hnIn hsyms hfreq
  have hlen : r.symbols.length = r.nMTF := by
    unfold MtfValues.symbols
    rw [List.length_map, List.length_range]
  obtain ⟨k, hk⟩ : ∃ k, k = (usedBytes inUse).length := ⟨_, rfl⟩
  have h256 := length_usedBytes_le inUse
  rw [← hk] at hnIn hsyms hfreq h256
  have hk1 : 1 ≤ k := by
    have := (seqOf_lt (hused' 0 hn1)).2
    omega
  obtain ⟨col, hcol⟩ : ∃ col, col = seqColumn inUse last n := ⟨_, rfl⟩
  rw [← hcol] at hsyms
  have hclen : col.length = n := by rw [hcol, seqColumn, List.length_map, List.length_range]
  have hcmem : ∀ b ∈ col, b ∈ seqList k := by
    intro b hb
    rw [hcol] at hb
    obtain ⟨i, hi, rfl⟩ := List.mem_map.mp hb
    refine mem_seqList ?_
    rw [hk]
    exact (seqOf_lt (hused' i (List.mem_range.mp hi))).2
  have hcount := length_coded col (seqList k) 0
  have hle := coded_le col (seqList k) 0 hcmem (by rw [length_seqList]; exact hk1)
  have htotal : r.nMTF = (coded (seqList k) 0 col).length + 1 := by
    rw [← hlen, hsyms, List.length_append, List.length_singleton]
  refine ⟨by omega, hlen, fun v hv => ?_, fun v hv => hfreq v (by omega), ?_⟩
  · rw [hsyms] at hv
    cases List.mem_append.mp hv with
    | inl h =>
      have := hle v h
      rw [length_seqList] at this
      omega
    | inr h =>
      have := List.mem_singleton.mp h
      omega
  · intro small c hin hsel hsize
    obtain ⟨hseq, hnIn'⟩ := makeMaps_flagsOf hin
    rw [hk, hcol] at hsyms
    obtain ⟨c', hfeed, hn', hd', -⟩ := symbols_feed small hn1 hn hused' hsyms
      (c := { c with p := c.p.makeMaps }) hseq hnIn' (by rw [hlen]; exact hsel) hsize
    obtain ⟨hcell, hcounts⟩ := hd'.column
    rw [hlast] at hcell hcounts
    refine ⟨c', hfeed, hn', hcell, fun b hb => ?_⟩
    rw [hcounts b hb]
    refine congrArg Nat.cast (holding_congr (fun i _ => ?_) b)
    dsimp only
    rw [Int.toNat_natCast]

/-- `a` and `b` in use. -/
def twoBytesInUse : Cells Bool := .ofFn fun b => decide (b = 97 ∨ b = 98)

/-- The rotations of `ba` in order, as `arr1` holds them. -/
def twoBytesValues : MtfValues Arr1 where
  arrays := Arr1.ofPtr (.ofFn fun i => 1 - i)
  unseqToSeq := .ofFn fun _ => 0
  nInUse := 0
  mtfFreq := .ofFn fun _ => 0
  nMTF := 0

theorem generateMTFValues_roundTrip_twoBytes :
    (generateMTFValues true twoBytes 2 twoBytesInUse twoBytesValues).nMTF ≤ 3 ∧
    ∃ c' : Core FlatMtf,
      Core.feed .qbz2 false
        ((⟨({ inUse := flagsOf twoBytesInUse, nSelectors := 1, blockSize100k := 1 } : Parse).makeMaps,
          { mtfa := [] }, {}, 0⟩ : Core FlatMtf).absorb false
          ({ inUse := flagsOf twoBytesInUse, nSelectors := 1, blockSize100k := 1 } :
            Parse).makeMaps.startMtf)
        (generateMTFValues true twoBytes 2 twoBytesInUse twoBytesValues).symbols =
        some (c', .block) ∧ c'.p.nblock = 2 := by
  obtain ⟨h1, _, _, _, h5⟩ := generateMTFValues_roundTrip true twoBytes 2 (by decide) (by decide)
    twoBytesInUse twoBytesValues (by decide)
  obtain ⟨c', hfeed, hn, _⟩ := h5 false
    ⟨{ inUse := flagsOf twoBytesInUse, nSelectors := 1, blockSize100k := 1 }, { mtfa := [] }, {}, 0⟩
    rfl (Nat.le_trans h1 (by decide)) (by decide)
  exact ⟨h1, c', hfeed, hn⟩

end Qbz2
