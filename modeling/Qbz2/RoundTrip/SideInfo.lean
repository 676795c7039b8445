/-
  File:      Qbz2/RoundTrip/SideInfo.lean
  Subject:   What `sendMTFValues` writes before the symbols is parsed back by `BZ2_decompress`.

  * `mapping_reads` -- the two levels of the symbol map; `selectors_read` -- the selectors in unary;
    `lengths_read` -- the lengths, each from the one before it;
  * `undo_selectorMtfs` -- the MTF coding of the selectors, undone;
  * **`sideInfo_roundTrip`** -- the four parts together.
-/
import Qbz2.Compress.BitString
import Qbz2.Compress.Sent
import Qbz2.Decompress.Abstract
import Qbz2.RoundTrip.Values

namespace Qbz2

open Transducer Bits

/-! ## 1. One `GET_BITS` -/

/-- What the header of the block and of the stream have left in `DState`. -/
def Parse.header (p : Parse) : Nat × Word32 × Word32 × Bool × Nat :=
  (p.blockSize100k, p.storedBlockCRC, p.storedCombinedCRC, p.blockRandomised, p.origPtr)

/-- These, and what the symbol map has left. -/
def Parse.maps (p : Parse) :
    (Nat × Word32 × Word32 × Bool × Nat) × List Bool × Nat × List Byte × Nat :=
  (p.header, p.inUse, p.nInUse, p.seqToUnseq, p.alphaSize)

section

variable {μ : Type} [MtfList μ] {ver : Version} {small : Bool} {c : Core μ}

/-- A label reads the last bits of a number. -/
theorem read_mod {p : Parse} {l : Label} {n v : Nat} (hn : l.nbits = n)
    {t w : List _} {y : Core μ × Point} {u : List Bool}
    (hs : Steps (bitDecoder ver small) (standing (c.absorb small (p.resume ver l (v % 2 ^ n)))) t w
      y u) :
    Steps (bitDecoder ver small) (standing (c.absorb small (p.goto l))) (bitsOf n v ++ t) w y u := by
  have hlen : (bitsOf n v).length = n := length_bitsOf n v
  refine .read rfl ?_ ?_
  · rw [List.length_append, hlen, hn]
    exact Nat.le_add_right _ _
  · rw [hn, List.take_append_of_le_length (by omega), List.take_of_length_le (by omega),
      List.drop_append_of_le_length (by omega), List.drop_of_length_le (by omega), bitsVal_bitsOf]
    exact hs

/-- A label reads what was written in its number of bits. -/
theorem read_write {p : Parse} {l : Label} {n v : Nat} (hn : l.nbits = n) (hv : v < 2 ^ n)
    {t w : List _} {y : Core μ × Point} {u : List Bool}
    (hs : Steps (bitDecoder ver small) (standing (c.absorb small (p.resume ver l v))) t w y u) :
    Steps (bitDecoder ver small) (standing (c.absorb small (p.goto l))) (bitsOf n v ++ t) w y u := by
  refine read_mod hn ?_
  rw [Nat.mod_eq_of_lt hv]
  exact hs

/-- A label of one bit reads a bit. -/
theorem read_flag {p : Parse} {l : Label} (b : Bool) (hn : l.nbits = 1)
    {t w : List _} {y : Core μ × Point} {u : List Bool}
    (hs : Steps (bitDecoder ver small) (standing (c.absorb small (p.resume ver l b.toNat))) t w y u) :
    Steps (bitDecoder ver small) (standing (c.absorb small (p.goto l))) (b :: t) w y u := by
  have hbit : bitsOf 1 b.toNat = [b] := by cases b <;> rfl
  have hr := read_write hn (by cases b <;> decide) hs
  rw [hbit] at hr
  exact hr

/-! ## 2. The symbol map -/

theorem decide_toNat (b : Bool) : decide (b.toNat = 1) = b := by cases b <;> rfl

/-- `inUse[]` while it is collected: the flags of the bytes below `k`. -/
def flagsBefore (inUse : Cells Bool) (k : Nat) : List Bool :=
  (List.range 256).map fun b : Nat => decide (b < k) && inUse b

theorem flagsBefore_zero (inUse : Cells Bool) : flagsBefore inUse 0 = List.replicate 256 false := by
  refine List.eq_replicate_iff.mpr ⟨by rw [flagsBefore, List.length_map, List.length_range], ?_⟩
  intro b hb
  obtain ⟨k, -, rfl⟩ := List.mem_map.mp hb
  rw [decide_eq_false (Nat.not_lt_zero k), Bool.false_and]

theorem flagsBefore_all (inUse : Cells Bool) : flagsBefore inUse 256 = flagsOf inUse := by
  refine List.map_congr_left fun b hb => ?_
  rw [decide_eq_true (List.mem_range.mp hb), Bool.true_and]

/-- A flag read: the bit says whether the next byte is in use. -/
theorem flagsBefore_succ (inUse : Cells Bool) (k : Nat) :
    flagsBefore inUse (k + 1) =
      if (inUse k).toNat = 1 then (flagsBefore inUse k).set k true else flagsBefore inUse k := by
  have hget : ∀ (m b : Nat), (flagsBefore inUse m)[b]? =
      if b < 256 then some (decide (b < m) && inUse b) else none := by
    intro m b
    unfold flagsBefore
    rw [List.getElem?_map]
    by_cases hb : b < 256
    · rw [if_pos hb, List.getElem?_range hb, Option.map_some]
    · rw [if_neg hb, List.getElem?_eq_none (by rw [List.length_range]; omega), Option.map_none]
  have hlen : (flagsBefore inUse k).length = 256 := by
    rw [flagsBefore, List.length_map, List.length_range]
  refine List.ext_getElem? fun b => ?_
  cases hk : inUse k with
  | false =>
    rw [if_neg (by decide), hget, hget]
    by_cases hbk : b = k
    · rw [hbk, hk, Bool.and_false, Bool.and_false]
    · rw [show decide (b < k + 1) = decide (b < k) from decide_eq_decide.mpr (by omega)]
  | true =>
    rw [if_pos (show true.toNat = 1 from rfl), hget, List.getElem?_set, hlen]
    by_cases hbk : k = b
    · subst hbk
      rw [if_pos rfl, hk, decide_eq_true (Nat.lt_succ_self k), Bool.true_and]
    · rw [if_neg hbk, hget, show decide (b < k + 1) = decide (b < k) from
        decide_eq_decide.mpr (by omega)]

/-- Where nothing of a group of 16 is in use, there is nothing to collect. -/
theorem flagsBefore_group {inUse : Cells Bool} {i : Nat} (h : inUse16 inUse i = false) :
    flagsBefore inUse ((i + 1) * 16) = flagsBefore inUse (i * 16) := by
  refine List.map_congr_left fun b _ => ?_
  by_cases hb : i * 16 ≤ b ∧ b < (i + 1) * 16
  · have hoff : inUse b = false := by
      have hall := (List.any_eq_false.mp h) (b - i * 16) (List.mem_range.mpr (by omega))
      rw [show ((i * 16 + (b - i * 16) : Nat) : Int) = (b : Int) by omega] at hall
      exact Bool.eq_false_iff.mpr hall
    rw [hoff, Bool.and_false, Bool.and_false]
  · rw [show decide (b < (i + 1) * 16) = decide (b < i * 16) from decide_eq_decide.mpr (by omega)]

/-- The flags of the 16 groups. -/
def flags16 (inUse : Cells Bool) : List Bool := (List.range 16).map (inUse16 inUse)

theorem getD_flags16 (inUse : Cells Bool) {i : Nat} (hi : i < 16) :
    (flags16 inUse).getD i false = inUse16 inUse i := by
  rw [flags16, List.getD_eq_getElem?_getD, List.getElem?_map, List.getElem?_range hi,
    Option.map_some, Option.getD_some]

/-- The first level: a bit for each group of 16. -/
theorem mapping1_reads (inUse : Cells Bool) (t : List Bool) : ∀ (m : Nat) (p : Parse),
    p.i + (m + 1) = 16 → p.inUse16 = (List.range p.i).map (inUse16 inUse) →
    ∃ p' : Parse,
      Steps (bitDecoder ver small) (standing (c.absorb small (p.goto .mapping1)))
        ((List.range' p.i (m + 1)).map (inUse16 inUse) ++ t) []
        (standing (c.absorb small (p'.mappingFrom 0))) t ∧
      p'.inUse16 = flags16 inUse ∧ p'.inUse = flagsBefore inUse 0 ∧ p'.header = p.header := by
  intro m
  induction m with
  | zero =>
    intro p hi h16
    have hnext : p.resume ver .mapping1 (inUse16 inUse p.i).toNat =
        { p with inUse16 := p.inUse16 ++ [inUse16 inUse p.i], i := p.i + 1,
                 inUse := List.replicate 256 false }.mappingFrom 0 := by
      unfold Parse.resume
      dsimp only
      rw [if_neg (by omega), decide_toNat]
    refine ⟨{ p with inUse16 := p.inUse16 ++ [inUse16 inUse p.i], i := p.i + 1,
                     inUse := List.replicate 256 false },
      read_flag _ rfl (hnext ▸ .refl _ _), ?_, (flagsBefore_zero inUse).symm, rfl⟩
    show p.inUse16 ++ [inUse16 inUse p.i] = (List.range 16).map (inUse16 inUse)
    rw [h16, show 16 = p.i + 1 by omega, List.range_succ, List.map_append, List.map_singleton]
  | succ m ih =>
    intro p hi h16
    have hnext : p.resume ver .mapping1 (inUse16 inUse p.i).toNat =
        { p with inUse16 := p.inUse16 ++ [inUse16 inUse p.i], i := p.i + 1 }.goto .mapping1 := by
      unfold Parse.resume
      dsimp only
      rw [if_pos (by omega), decide_toNat]
    obtain ⟨p', hs, h16', hin, hh⟩ := ih
      { p with inUse16 := p.inUse16 ++ [inUse16 inUse p.i], i := p.i + 1 }
      (by show p.i + 1 + (m + 1) = 16; omega)
      (by
        show p.inUse16 ++ [inUse16 inUse p.i] = (List.range (p.i + 1)).map (inUse16 inUse)
        rw [h16, List.range_succ, List.map_append, List.map_singleton])
    refine ⟨p', ?_, h16', hin, hh⟩
    rw [List.range'_succ, List.map_cons, List.cons_append]
    exact read_flag _ rfl (hnext ▸ hs)

/-- The second level: a bit for each byte of a group. -/
theorem mapping2_reads (inUse : Cells Bool) (t : List Bool) : ∀ (m : Nat) (p : Parse),
    p.j + (m + 1) = 16 → p.inUse = flagsBefore inUse (p.i * 16 + p.j) →
    ∃ p' : Parse,
      Steps (bitDecoder ver small) (standing (c.absorb small (p.goto .mapping2)))
        ((List.range' p.j (m + 1)).map (fun j : Nat => inUse (p.i * 16 + j : Nat)) ++ t) []
        (standing (c.absorb small (p'.mappingFrom (p.i + 1)))) t ∧
      p'.inUse16 = p.inUse16 ∧ p'.inUse = flagsBefore inUse ((p.i + 1) * 16) ∧
      p'.header = p.header := by
  intro m
  induction m with
  | zero =>
    intro p hj hin
    have hnext : p.resume ver .mapping2 (inUse (p.i * 16 + p.j : Nat)).toNat =
        { p with inUse := flagsBefore inUse (p.i * 16 + p.j + 1), j := p.j + 1 }.mappingFrom
          (p.i + 1) := by
      unfold Parse.resume
      dsimp only
      rw [if_neg (by omega), flagsBefore_succ, hin]
    refine ⟨{ p with inUse := flagsBefore inUse (p.i * 16 + p.j + 1), j := p.j + 1 },
      read_flag _ rfl (hnext ▸ .refl _ _), rfl, ?_, rfl⟩
    show flagsBefore inUse (p.i * 16 + p.j + 1) = _
    rw [show p.i * 16 + p.j + 1 = (p.i + 1) * 16 by omega]
  | succ m ih =>
    intro p hj hin
    have hnext : p.resume ver .mapping2 (inUse (p.i * 16 + p.j : Nat)).toNat =
        { p with inUse := flagsBefore inUse (p.i * 16 + p.j + 1), j := p.j + 1 }.goto .mapping2 := by
      unfold Parse.resume
      dsimp only
      rw [if_pos (by omega), flagsBefore_succ, hin]
    obtain ⟨p', hs, h16, hin', hh⟩ := ih
      { p with inUse := flagsBefore inUse (p.i * 16 + p.j + 1), j := p.j + 1 }
      (by show p.j + 1 + (m + 1) = 16; omega) rfl
    refine ⟨p', ?_, h16, hin', hh⟩
    rw [List.range'_succ, List.map_cons, List.cons_append]
    exact read_flag _ rfl (hnext ▸ hs)

theorem nextInUse16_set {flags : List Bool} {i : Nat} (hi : i < 16) (h : flags.getD i false = true) :
    Parse.nextInUse16 flags i = i := by
  unfold Parse.nextInUse16
  have hfind : (List.range 16).find? (fun k => decide (i ≤ k) && flags.getD k false) = some i := by
    rw [List.find?_range_eq_some]
    refine ⟨by rw [decide_eq_true (Nat.le_refl i), h]; rfl, List.mem_range.mpr hi, fun k hk => ?_⟩
    rw [decide_eq_false (by omega)]
    rfl
  rw [hfind, Option.getD_some]

theorem nextInUse16_unset {flags : List Bool} {i : Nat} (h : flags.getD i false = false) :
    Parse.nextInUse16 flags i = Parse.nextInUse16 flags (i + 1) := by
  unfold Parse.nextInUse16
  have hcongr : ∀ k, (decide (i ≤ k) && flags.getD k false) =
      (decide (i + 1 ≤ k) && flags.getD k false) := by
    intro k
    by_cases hk : k = i
    · subst hk
      rw [h, Bool.and_false, Bool.and_false]
    · rw [show decide (i ≤ k) = decide (i + 1 ≤ k) from decide_eq_decide.mpr (by omega)]
  simp only [hcongr]

theorem nextInUse16_end (flags : List Bool) : Parse.nextInUse16 flags 16 = 16 := by
  unfold Parse.nextInUse16
  rw [List.find?_eq_none.mpr, Option.getD_none]
  intro k hk
  rw [decide_eq_false (by have := List.mem_range.mp hk; omega), Bool.false_and]
  exact Bool.false_ne_true

/-- The bits of the second level for the group `i`. -/
def groupBits (inUse : Cells Bool) (i : Nat) : List Bool :=
  if inUse16 inUse i then (List.range 16).map fun j : Nat => inUse (i * 16 + j : Nat) else []

/-- The bits of the second level, from the group `i` on. -/
def mappingBits (inUse : Cells Bool) (i m : Nat) : List Bool :=
  (List.range' i m).flatMap (groupBits inUse)

theorem mappingBits_succ (inUse : Cells Bool) (i m : Nat) :
    mappingBits inUse i (m + 1) = groupBits inUse i ++ mappingBits inUse (i + 1) m := by
  rw [mappingBits, List.range'_succ, List.flatMap_cons]
  rfl

/-- The parser after the symbol map. -/
structure Mapped (p : Parse) (inUse : Cells Bool) : Prop where
  flags : p.inUse = flagsOf inUse
  nInUse : p.nInUse = (usedBytes inUse).length
  seqToUnseq : p.seqToUnseq = (usedBytes inUse).map (BitVec.ofNat 8)
  alphaSize : p.alphaSize = (usedBytes inUse).length + 2

theorem Mapped.of_maps {p p' : Parse} {inUse : Cells Bool} (h : p'.maps = p.maps)
    (hp : Mapped p inUse) : Mapped p' inUse := by
  unfold Parse.maps at h
  simp only [Prod.mk.injEq] at h
  obtain ⟨-, hin, hn, hseq, ha⟩ := h
  exact ⟨hin.trans hp.flags, hn.trans hp.nInUse, hseq.trans hp.seqToUnseq, ha.trans hp.alphaSize⟩

theorem Mapped.makeMaps {p : Parse} {inUse : Cells Bool} (h : Mapped p inUse) : p.makeMaps = p := by
  obtain ⟨hseq, hn⟩ := makeMaps_flagsOf h.flags
  have he : p.makeMaps = { p with seqToUnseq := p.makeMaps.seqToUnseq, nInUse := p.makeMaps.nInUse } := rfl
  rw [he, hseq, hn, ← h.seqToUnseq, ← h.nInUse]

/-- The second level, from the group `i` on. -/
theorem mappingFrom_reads {inUse : Cells Bool} (hne : usedBytes inUse ≠ []) (t : List Bool) :
    ∀ (m i : Nat) (p : Parse), i + m = 16 → p.inUse16 = flags16 inUse →
    p.inUse = flagsBefore inUse (i * 16) →
    ∃ p' : Parse,
      Steps (bitDecoder ver small) (standing (c.absorb small (p.mappingFrom i)))
        (mappingBits inUse i m ++ t) [] (standing (c.absorb small (p'.goto .selector1))) t ∧
      Mapped p' inUse ∧ p'.header = p.header := by
  intro m
  induction m with
  | zero =>
    intro i p hi h16 hin
    obtain rfl : i = 16 := hi
    rw [show 16 * 16 = 256 from rfl, flagsBefore_all] at hin
    obtain ⟨hseq, hn⟩ := @makeMaps_flagsOf { p with i := 16 } inUse hin
    have hpos : 0 < (usedBytes inUse).length := List.length_pos_iff.mpr hne
    have hend : p.mappingFrom 16 = { ({ p with i := 16 } : Parse).makeMaps with
        alphaSize := ({ p with i := 16 } : Parse).makeMaps.nInUse + 2 }.goto .selector1 := by
      unfold Parse.mappingFrom
      rw [nextInUse16_end]
      dsimp only
      rw [if_neg (by decide), if_neg (by rw [hn]; omega)]
    rw [hend]
    exact ⟨_, .refl _ _, ⟨hin, hn, hseq, congrArg (· + 2) hn⟩, rfl⟩
  | succ m ih =>
    intro i p hi h16 hin
    have hflag := getD_flags16 inUse (show i < 16 by omega)
    rw [← h16] at hflag
    rw [mappingBits_succ, List.append_assoc, groupBits]
    cases hb : inUse16 inUse i with
    | false =>
      rw [if_neg (by decide), List.nil_append]
      rw [hb] at hflag
      have hskip : p.mappingFrom i = p.mappingFrom (i + 1) := by
        unfold Parse.mappingFrom
        rw [nextInUse16_unset hflag]
      rw [hskip]
      exact ih (i + 1) p (by omega) h16 (by rw [flagsBefore_group hb]; exact hin)
    | true =>
      rw [if_pos rfl]
      rw [hb] at hflag
      have hgo : p.mappingFrom i = { p with i := i, j := 0 }.goto .mapping2 := by
        unfold Parse.mappingFrom
        rw [nextInUse16_set (by omega) hflag]
        dsimp only
        rw [if_pos (by omega)]
      obtain ⟨p₁, hs₁, h16₁, hin₁, hh₁⟩ := @mapping2_reads μ _ ver small c inUse
        (mappingBits inUse (i + 1) m ++ t) 15 { p with i := i, j := 0 } rfl hin
      obtain ⟨p', hs, hm, hh⟩ := ih (i + 1) p₁ (by omega) (h16₁.trans h16) hin₁
      rw [hgo, List.range_eq_range']
      exact ⟨p', hs₁.trans hs, hm, hh.trans hh₁⟩

theorem writesBits_flags (bs : List Bool) : writesBits (bs.map writeFlag) = bs := by
  induction bs with
  | nil => rfl
  | cons b bs ih =>
    have hb : bitsOf (writeFlag b).1 (writeFlag b).2.toNat = [b] := by cases b <;> rfl
    rw [List.map_cons, writesBits_cons, hb, ih]
    rfl

theorem writesBits_flatMap {α : Type} (f : α → List (Nat × Word32)) (l : List α) :
    writesBits (l.flatMap f) = l.flatMap fun a => writesBits (f a) := by
  induction l with
  | nil => rfl
  | cons a l ih => rw [List.flatMap_cons, writesBits_append, ih, List.flatMap_cons]

/-- **The symbol map is parsed back.** -/
theorem mapping_reads {inUse : Cells Bool} (hne : usedBytes inUse ≠ []) (t : List Bool) {p : Parse}
    (hi : p.i = 0) (h16 : p.inUse16 = []) :
    ∃ p' : Parse,
      Steps (bitDecoder ver small) (standing (c.absorb small (p.goto .mapping1)))
        (writesBits (mappingWrites inUse) ++ t) []
        (standing (c.absorb small (p'.goto .selector1))) t ∧
      Mapped p' inUse ∧ p'.header = p.header := by
  have hbits : writesBits (mappingWrites inUse) =
      (List.range' p.i 16).map (inUse16 inUse) ++ mappingBits inUse 0 16 := by
    have hmap : ∀ (l : List Nat) (f : Nat → Bool),
        writesBits (l.map fun i => writeFlag (f i)) = l.map f := by
      intro l f
      rw [← writesBits_flags (l.map f), List.map_map]
      rfl
    rw [mappingWrites, writesBits_append, writesBits_flatMap, hmap, hi, ← List.range_eq_range',
      mappingBits, ← List.range_eq_range']
    refine congrArg _ (List.flatMap_congr fun i _ => ?_)
    unfold groupBits
    split
    · exact hmap _ _
    · rfl
  obtain ⟨p₁, hs₁, h16₁, hin₁, hh₁⟩ := @mapping1_reads μ _ ver small c inUse
    (mappingBits inUse 0 16 ++ t) 15 p (by omega) (by rw [h16, hi]; rfl)
  obtain ⟨p', hs, hm, hh⟩ := @mappingFrom_reads μ _ ver small c inUse hne t 16 0 p₁ rfl h16₁
    (hin₁.trans (by rw [Nat.zero_mul]))
  refine ⟨p', ?_, hm, hh.trans hh₁⟩
  rw [hbits, List.append_assoc]
  exact hs₁.trans hs

/-! ## 3. The selectors -/

/-- A selector in unary. -/
theorem unary_reads (t : List Bool) : ∀ (m : Nat) (p : Parse), p.j + m < p.nGroups →
    Steps (bitDecoder ver small) (standing (c.absorb small (p.goto .selector3)))
      (List.replicate m true ++ false :: t) []
      (standing (c.absorb small { p with j := p.j + m }.endSelector)) t := by
  intro m
  induction m with
  | zero => exact fun p _ => read_flag false rfl (.refl _ _)
  | succ m ih =>
    intro p hj
    have hnext : p.resume ver .selector3 true.toNat = { p with j := p.j + 1 }.goto .selector3 := by
      unfold Parse.resume
      dsimp only
      rw [if_neg (by decide), if_neg (by omega)]
    have hrest := ih { p with j := p.j + 1 } (by show p.j + 1 + m < p.nGroups; omega)
    rw [List.replicate_succ, List.cons_append]
    refine read_flag true rfl (hnext ▸ ?_)
    rw [show p.j + (m + 1) = p.j + 1 + m by omega]
    exact hrest

/-- The bits of the selectors. -/
def unaryBits (js : List Nat) : List Bool := js.flatMap fun j => List.replicate j true ++ [false]

/-- All selectors, each in unary. -/
theorem selectors_read (t : List Bool) : ∀ (js : List Nat) (p : Parse), js ≠ [] → p.j = 0 →
    (∀ j ∈ js, j < p.nGroups) → p.i + js.length = p.nSelectors → p.nSelectors ≤ bzMaxSelectors →
    ∃ p' : Parse,
      Steps (bitDecoder ver small) (standing (c.absorb small (p.goto .selector3)))
        (unaryBits js ++ t) [] (standing (c.absorb small p'.endSelectors)) t ∧
      p'.selectorMtf = p.selectorMtf ++ js ∧ p'.maps = p.maps ∧ p'.nGroups = p.nGroups ∧
      p'.nSelectors = p.nSelectors := by
  intro js
  induction js with
  | nil => exact fun p hne => absurd rfl hne
  | cons j js ih =>
    intro p _ hj hlt hlen hmax
    have hjlt : p.j + j < p.nGroups := by
      rw [hj, Nat.zero_add]
      exact hlt j List.mem_cons_self
    have hone := @unary_reads μ _ ver small c (unaryBits js ++ t) j p hjlt
    rw [hj, Nat.zero_add] at hone
    have hbits : unaryBits (j :: js) ++ t = List.replicate j true ++ false :: (unaryBits js ++ t) := by
      rw [unaryBits, List.flatMap_cons, List.append_assoc, List.append_assoc]
      rfl
    rw [hbits]
    rw [List.length_cons] at hlen
    cases js with
    | nil =>
      have hend : ({ p with j := j } : Parse).endSelector =
          { p with j := j, selectorMtf := p.selectorMtf ++ [j], i := p.i + 1 }.endSelectors := by
        unfold Parse.endSelector
        dsimp only
        rw [List.length_nil] at hlen
        rw [if_neg (by omega), if_pos (by omega)]
      rw [hend] at hone
      exact ⟨_, hone, rfl, rfl, rfl, rfl⟩
    | cons j' js =>
      have hmore : ({ p with j := j } : Parse).endSelector =
          { p with j := 0, selectorMtf := p.selectorMtf ++ [j], i := p.i + 1 }.goto .selector3 := by
        unfold Parse.endSelector
        dsimp only
        rw [List.length_cons] at hlen
        rw [if_pos (by omega), if_pos (by omega)]
      rw [hmore] at hone
      obtain ⟨p', hs, hmtf, hkeep⟩ := ih
        { p with j := 0, selectorMtf := p.selectorMtf ++ [j], i := p.i + 1 } (List.cons_ne_nil _ _)
        rfl (fun k hk => hlt k (List.mem_cons_of_mem _ hk))
        (by show p.i + 1 + (j' :: js).length = p.nSelectors; omega) hmax
      refine ⟨p', hone.trans hs, ?_, hkeep⟩
      rw [hmtf, List.append_assoc]
      rfl

end

/-- **The MTF coding of the selectors is undone.** -/
theorem undo_selectorMtfs : ∀ (selector pos : List Byte), (∀ sel ∈ selector, sel ∈ pos) →
    Parse.undoSelectorMtf (pos.map BitVec.toNat) (selectorMtfs pos selector) =
      selector.map BitVec.toNat := by
  intro selector
  induction selector with
  | nil => exact fun _ _ => rfl
  | cons sel selector ih =>
    intro pos hsel
    have hm : sel ∈ pos := hsel sel List.mem_cons_self
    have hlt := List.idxOf_lt_length_of_mem hm
    have hundo := ih (selectorFront pos sel) fun x hx =>
      mem_selectorFront hm (hsel x (List.mem_cons_of_mem _ hx))
    have hget : (pos.map BitVec.toNat).getD (pos.idxOf sel) 0 = sel.toNat := by
      rw [List.getD_eq_getElem?_getD, List.getElem?_map, List.getElem?_eq_getElem hlt,
        List.getElem_idxOf]
      rfl
    have hfront : Parse.moveToFront (pos.map BitVec.toNat) (pos.idxOf sel) =
        (selectorFront pos sel).map BitVec.toNat := by
      rw [Parse.moveToFront, hget, selectorFront, List.map_cons, List.map_append, List.map_take,
        List.map_drop]
    rw [selectorMtfs_cons hm, Parse.undoSelectorMtf, hget, hfront, hundo]
    rfl

/-- What is left once the selectors are read, beside `maps`. -/
def Parse.selected (p : Parse) :
    ((Nat × Word32 × Word32 × Bool × Nat) × List Bool × Nat × List Byte × Nat) × Nat × Nat × List Nat :=
  (p.maps, p.nGroups, p.nSelectors, p.selector)

section

variable {μ : Type} [MtfList μ] {ver : Version} {small : Bool} {c : Core μ}

/-- **The selectors are parsed back.** -/
theorem selectorInfo_reads {nGroups : Nat} (h2 : 2 ≤ nGroups) (h6 : nGroups ≤ 6)
    {selector : List Byte} (hne : selector ≠ []) (hmax : selector.length ≤ bzMaxSelectors)
    (hsel : ∀ sel ∈ selector, sel.toNat < nGroups) (t : List Bool) (p : Parse) :
    ∃ p' : Parse,
      Steps (bitDecoder ver small) (standing (c.absorb small (p.goto .selector1)))
        (writesBits (selectorWrites nGroups
          (selectorMtfs ((List.range nGroups).map (BitVec.ofNat 8)) selector)) ++ t) []
        (standing (c.absorb small (p'.goto .coding1))) t ∧
      p'.selected = (p.maps, nGroups, selector.length, selector.map BitVec.toNat) ∧
      p'.t = 0 ∧ p'.len = [] := by
  obtain ⟨pos, hpos⟩ : ∃ pos, pos = (List.range nGroups).map (BitVec.ofNat 8) := ⟨_, rfl⟩
  have hposNat : pos.map BitVec.toNat = List.range nGroups := by
    rw [hpos, List.map_map]
    refine (List.map_congr_left fun i hi => ?_).trans (List.map_id _)
    have := List.mem_range.mp hi
    show (BitVec.ofNat 8 i).toNat = i
    rw [BitVec.toNat_ofNat]
    omega
  have hposLen : pos.length = nGroups := by rw [hpos, List.length_map, List.length_range]
  have hmem : ∀ sel ∈ selector, sel ∈ pos := fun sel hs => by
    rw [hpos]
    exact mem_selectorStart (hsel sel hs)
  have hundo := undo_selectorMtfs selector pos hmem
  have hjs := selectorMtfs_lt selector pos hmem
  rw [hposNat] at hundo
  obtain ⟨js, hjs'⟩ : ∃ js, js = selectorMtfs pos selector := ⟨_, rfl⟩
  have hlen : js.length = selector.length := by rw [hjs', length_selectorMtfs]
  have hpos0 : 0 < selector.length := List.length_pos_iff.mpr hne
  have hjne : js ≠ [] := fun h => by rw [h, List.length_nil] at hlen; omega
  rw [← hpos, ← hjs']
  rw [← hjs'] at hundo hjs
  have h18 : bzMaxSelectors = 18002 := rfl
  obtain ⟨p₁, hs, hmtf, hmaps, hng, hns⟩ := @selectors_read μ _ ver small c t js
    { p with nGroups := nGroups, nSelectors := js.length, i := 0, j := 0, selectorMtf := [] } hjne rfl
    (fun j hj => by rw [← hposLen]; exact hjs j hj) (Nat.zero_add _) (by
      show js.length ≤ bzMaxSelectors
      omega)
  have hend : p₁.endSelectors = { p₁ with
      nSelectors := p₁.nSelectors
      selector := selector.map BitVec.toNat
      t := 0
      len := [] }.goto .coding1 := by
    have hmtf' : p₁.selectorMtf = js := hmtf
    have hns' : p₁.nSelectors = js.length := hns
    have hng' : p₁.nGroups = nGroups := hng
    unfold Parse.endSelectors
    dsimp only
    rw [if_neg (by omega), hmtf', hns', hng', List.take_length, hundo]
  rw [hend] at hs
  refine ⟨{ p₁ with nSelectors := p₁.nSelectors, selector := selector.map BitVec.toNat, t := 0,
                    len := [] }, ?_, ?_, rfl, rfl⟩
  rotate_left
  · exact congrArg₂ Prod.mk hmaps (congrArg₂ Prod.mk hng (congrArg₂ Prod.mk (hns.trans hlen) rfl))
  have hbits : writesBits (selectorWrites nGroups js) =
      bitsOf 3 nGroups ++ (bitsOf 15 js.length ++ unaryBits js) := by
    rw [selectorWrites, writesBits_cons, writesBits_cons, writesBits_flatMap]
    dsimp only
    rw [BitVec.toNat_ofNat, BitVec.toNat_ofNat, Nat.mod_eq_of_lt (by omega),
      Nat.mod_eq_of_lt (by omega)]
    refine congrArg _ (congrArg _ (List.flatMap_congr fun j _ => ?_))
    have hones : writesBits (List.replicate j (1, 1)) = List.replicate j true := by
      rw [← writesBits_flags (List.replicate j true), List.map_replicate]
      rfl
    rw [writesBits_append, hones]
    rfl
  rw [hbits, List.append_assoc, List.append_assoc]
  have hres1 : p.resume ver .selector1 nGroups = { p with nGroups := nGroups }.goto .selector2 := by
    unfold Parse.resume
    dsimp only
    rw [if_neg (by omega)]
  have hres2 : ({ p with nGroups := nGroups } : Parse).resume ver .selector2 js.length =
      { p with nGroups := nGroups, nSelectors := js.length, i := 0, j := 0,
               selectorMtf := [] }.goto .selector3 := by
    unfold Parse.resume
    dsimp only
    rw [if_neg (by omega)]
  have hfit1 : nGroups < 2 ^ 3 := by omega
  have hfit2 : js.length < 2 ^ 15 := by omega
  refine read_write rfl hfit1 ?_
  rw [hres1]
  refine read_write rfl hfit2 ?_
  rw [hres2]
  exact hs

/-! ## 4. The lengths -/

/-- Steps up: `10` each. -/
theorem up_reads (t : List Bool) : ∀ (m : Nat) (p : Parse), 1 ≤ p.curr → p.curr + m ≤ 20 →
    Steps (bitDecoder ver small) (standing (c.absorb small p.codingFrom))
      (writesBits (List.replicate m (2, 2)) ++ t) []
      (standing (c.absorb small { p with curr := p.curr + m }.codingFrom)) t := by
  intro m
  induction m with
  | zero => exact fun p _ _ => .refl _ _
  | succ m ih =>
    intro p h1 h20
    have hgo : p.codingFrom = p.goto .coding2 := by
      unfold Parse.codingFrom
      rw [if_neg (by omega)]
    have hrest := ih { p with curr := p.curr + 1 } (by show 1 ≤ p.curr + 1; omega)
      (by show p.curr + 1 + m ≤ 20; omega)
    rw [List.replicate_succ, writesBits_cons, List.append_assoc, hgo,
      show p.curr + (m + 1) = p.curr + 1 + m by omega]
    exact read_flag true rfl (read_flag false rfl hrest)

/-- Steps down: `11` each. -/
theorem down_reads (t : List Bool) : ∀ (m : Nat) (p : Parse), m < p.curr → p.curr ≤ 20 →
    Steps (bitDecoder ver small) (standing (c.absorb small p.codingFrom))
      (writesBits (List.replicate m (2, 3)) ++ t) []
      (standing (c.absorb small { p with curr := p.curr - m }.codingFrom)) t := by
  intro m
  induction m with
  | zero => exact fun p _ _ => .refl _ _
  | succ m ih =>
    intro p h1 h20
    have hgo : p.codingFrom = p.goto .coding2 := by
      unfold Parse.codingFrom
      rw [if_neg (by omega)]
    have hrest := ih { p with curr := p.curr - 1 } (by show m < p.curr - 1; omega)
      (by show p.curr - 1 ≤ 20; omega)
    rw [List.replicate_succ, writesBits_cons, List.append_assoc, hgo,
      show p.curr - (m + 1) = p.curr - 1 - m by omega]
    exact read_flag true rfl (read_flag true rfl hrest)

/-- A length, from the one before it. -/
theorem delta_reads (t : List Bool) {l : Nat} (hl1 : 1 ≤ l) (hl20 : l ≤ 20) (p : Parse)
    (h1 : 1 ≤ p.curr) (h20 : p.curr ≤ 20) :
    Steps (bitDecoder ver small) (standing (c.absorb small p.codingFrom))
      (writesBits (deltaWrites p.curr l) ++ t) []
      (standing (c.absorb small { p with curr := l }.endLength)) t := by
  have hup := @up_reads μ _ ver small c
    (writesBits (List.replicate (p.curr - l) (2, 3)) ++ (false :: t)) (l - p.curr) p h1 (by omega)
  have hdown := @down_reads μ _ ver small c (false :: t) (p.curr - l)
    { p with curr := p.curr + (l - p.curr) } (by show p.curr - l < p.curr + (l - p.curr); omega)
    (by show p.curr + (l - p.curr) ≤ 20; omega)
  have hcurr : p.curr + (l - p.curr) - (p.curr - l) = l := by omega
  dsimp only at hdown
  rw [hcurr] at hdown
  have hgo : ({ p with curr := l } : Parse).codingFrom = { p with curr := l }.goto .coding2 := by
    unfold Parse.codingFrom
    rw [if_neg (by dsimp only; omega)]
  rw [hgo] at hdown
  have hbits : writesBits (deltaWrites p.curr l) ++ t =
      writesBits (List.replicate (l - p.curr) (2, 2)) ++
        (writesBits (List.replicate (p.curr - l) (2, 3)) ++ (false :: t)) := by
    rw [deltaWrites, writesBits_append, writesBits_append, List.append_assoc, List.append_assoc]
    rfl
  rw [hbits]
  exact (hup.trans hdown).trans (read_flag false rfl (.refl _ _))

/-- The lengths of a table, as the parser collects them. -/
def rowList (n : Nat) (row : Cells Nat) : List Nat := (List.range n).map fun i : Nat => row i

/-- What follows the last length of a table. -/
def Parse.endTable (p : Parse) : Parsed :=
  if p.t < p.nGroups then p.goto .coding1 else p.buildAll.startMtf

/-- The lengths of a table from `p.i` on. -/
theorem row_reads (t : List Bool) (row : Cells Nat) : ∀ (m : Nat) (p : Parse),
    p.i + (m + 1) = p.alphaSize → p.lenRow = rowList p.i row → 1 ≤ p.curr → p.curr ≤ 20 →
    (∀ i : Nat, i < p.alphaSize → 1 ≤ row i ∧ row i ≤ 20) →
    ∃ p' : Parse,
      Steps (bitDecoder ver small) (standing (c.absorb small p.codingFrom))
        (writesBits (rowWrites row (m + 1) p.i p.curr) ++ t) []
        (standing (c.absorb small p'.endTable)) t ∧
      p'.selected = p.selected ∧ p'.t = p.t + 1 ∧
      p'.len = p.len ++ [rowList p.alphaSize row] := by
  intro m
  induction m with
  | zero =>
    intro p hi hrow h1 h20 hlen
    have hlast := hlen p.i (by omega)
    have hone := @delta_reads μ _ ver small c t (row p.i) hlast.1 hlast.2 p h1 h20
    have hend : ({ p with curr := row p.i } : Parse).endLength =
        { p with curr := row p.i, lenRow := p.lenRow ++ [row p.i], i := p.i + 1,
                 len := p.len ++ [p.lenRow ++ [row p.i]], t := p.t + 1 }.endTable := by
      unfold Parse.endLength Parse.endTable
      dsimp only
      rw [if_neg (by omega)]
    rw [hend] at hone
    rw [rowWrites, rowWrites, List.append_nil]
    refine ⟨_, hone, rfl, rfl, ?_⟩
    show p.len ++ [p.lenRow ++ [row p.i]] = _
    rw [hrow, ← hi, rowList, rowList, List.range_succ, List.map_append, List.map_singleton]
  | succ m ih =>
    intro p hi hrow h1 h20 hlen
    have hnext := hlen p.i (by omega)
    have hmore : ({ p with curr := row p.i } : Parse).endLength =
        { p with curr := row p.i, lenRow := p.lenRow ++ [row p.i], i := p.i + 1 }.codingFrom := by
      unfold Parse.endLength
      dsimp only
      rw [if_pos (by omega)]
    obtain ⟨p', hs, hsel, ht, hl⟩ := ih
      { p with curr := row p.i, lenRow := p.lenRow ++ [row p.i], i := p.i + 1 }
      (by show p.i + 1 + (m + 1) = p.alphaSize; omega)
      (by
        show p.lenRow ++ [row p.i] = rowList (p.i + 1) row
        rw [hrow, rowList, rowList, List.range_succ, List.map_append, List.map_singleton])
      hnext.1 hnext.2 hlen
    have hone := @delta_reads μ _ ver small c (writesBits (rowWrites row (m + 1) (p.i + 1) (row p.i)) ++ t)
      (row p.i) hnext.1 hnext.2 p h1 h20
    rw [hmore] at hone
    rw [rowWrites, writesBits_append, List.append_assoc]
    exact ⟨p', hone.trans hs, hsel, ht, hl⟩

/-- **The coding tables are parsed back.** -/
theorem lengths_read (t : List Bool) {m : Nat} : ∀ (rows : List (Cells Nat)) (p : Parse),
    rows ≠ [] → p.t + rows.length = p.nGroups → p.alphaSize = m + 1 →
    (∀ row ∈ rows, ∀ i : Nat, i < p.alphaSize → 1 ≤ row i ∧ row i ≤ 20) →
    ∃ p' : Parse,
      Steps (bitDecoder ver small) (standing (c.absorb small (p.goto .coding1)))
        (writesBits (lengthWrites p.alphaSize rows) ++ t) []
        (standing (c.absorb small p'.buildAll.startMtf)) t ∧
      p'.selected = p.selected ∧ p'.len = p.len ++ rows.map (rowList p.alphaSize) := by
  intro rows
  induction rows with
  | nil => exact fun p hne => absurd rfl hne
  | cons row rows ih =>
    intro p _ ht ha hlen
    rw [List.length_cons] at ht
    have hrow := hlen row List.mem_cons_self
    have h0 := hrow 0 (by omega)
    have h0fit : row 0 < 2 ^ 5 := by
      have := h0.2
      norm_cast at this
      omega
    obtain ⟨p₁, hs, hsel, ht₁, hl₁⟩ := @row_reads μ _ ver small c
      (writesBits (lengthWrites p.alphaSize rows) ++ t) row m
      { p with curr := row 0, i := 0, lenRow := [] } (by show 0 + (m + 1) = p.alphaSize; omega) rfl
      h0.1 h0.2 hrow
    have hbits : writesBits (lengthWrites p.alphaSize (row :: rows)) ++ t =
        bitsOf 5 (row 0) ++ (writesBits (rowWrites row (m + 1) 0 (row 0)) ++
          (writesBits (lengthWrites p.alphaSize rows) ++ t)) := by
      rw [lengthWrites, List.flatMap_cons, writesBits_append, writesBits_cons, BitVec.toNat_ofNat,
        Nat.mod_eq_of_lt (by omega), ha]
      simp only [List.append_assoc]
      rfl
    rw [hbits]
    have hfirst : Steps (bitDecoder ver small) (standing (c.absorb small (p.goto .coding1)))
        (bitsOf 5 (row 0) ++ (writesBits (rowWrites row (m + 1) 0 (row 0)) ++
          (writesBits (lengthWrites p.alphaSize rows) ++ t))) []
        (standing (c.absorb small p₁.endTable))
        (writesBits (lengthWrites p.alphaSize rows) ++ t) := read_write rfl h0fit hs
    have ht₁' : p₁.t = p.t + 1 := ht₁
    have hng : p₁.nGroups = p.nGroups := congrArg (fun x => x.2.1) hsel
    have halpha : p₁.alphaSize = p.alphaSize := congrArg (fun x => x.1.2.2.2.2) hsel
    cases rows with
    | nil =>
      have hend : p₁.endTable = p₁.buildAll.startMtf := by
        rw [List.length_nil] at ht
        unfold Parse.endTable
        rw [if_neg (by omega)]
      rw [hend] at hfirst
      exact ⟨p₁, hfirst, hsel, hl₁⟩
    | cons row' rows =>
      have hmore : p₁.endTable = p₁.goto .coding1 := by
        rw [List.length_cons] at ht
        unfold Parse.endTable
        rw [if_pos (by omega)]
      obtain ⟨p', hs', hsel', hl'⟩ := ih p₁ (List.cons_ne_nil _ _) (by omega) (by omega)
        (by
          rw [halpha]
          exact fun r hr => hlen r (List.mem_cons_of_mem _ hr))
      rw [hmore] at hfirst
      rw [halpha] at hs' hl'
      refine ⟨p', hfirst.trans hs', hsel'.trans hsel, ?_⟩
      rw [hl', hl₁, List.append_assoc]
      rfl

/-! ## 5. The side information -/

/-- With a selector at hand the symbols begin with a `GET_MTF_VAL`. -/
theorem startMtf_begins {p : Parse} (h : 1 ≤ p.nSelectors) :
    ∃ zn, p.startMtf.2.2 = .get (.mtf .first zn) := by
  unfold Parse.startMtf Parse.beginVal
  dsimp only
  rw [if_pos rfl, if_neg (by omega)]
  exact ⟨_, rfl⟩

/-- **The side information of a block, there and back.** For any bytes in use, 2 to 6 groups,
    1 to 18002 selectors and lengths between 1 and 17, the calls of `bsW` in `sendMTFValues` before
    the symbols, and any bits after them: `BZ2_decompress` parses them without error to its first
    `GET_MTF_VAL` and has read exactly these; it then has the same `inUse`, alphabet, number of
    groups, selectors and lengths, and the tables of these lengths. -/
theorem sideInfo_roundTrip (ver : Version) (small : Bool) (inUse : Cells Bool)
    (hne : usedBytes inUse ≠ []) (nGroups : Nat) (h2 : 2 ≤ nGroups) (h6 : nGroups ≤ 6)
    (selector : List Byte) (hpos : 1 ≤ selector.length) (hmax : selector.length ≤ 18002)
    (hsel : ∀ sel ∈ selector, sel.toNat < nGroups) (len : List (Cells Nat))
    (hrows : len.length = nGroups)
    (hlen : ∀ row ∈ len, ∀ i : Nat, i < (usedBytes inUse).length + 2 → 1 ≤ row i ∧ row i ≤ 17)
    (c : Core μ) (hi : c.p.i = 0) (h16 : c.p.inUse16 = []) (rest : List Bool) :
    let alphaSize := (usedBytes inUse).length + 2
    let selectorMtf := selectorMtfs ((List.range nGroups).map (BitVec.ofNat 8)) selector
    ∃ p : Parse,
      Steps (bitDecoder ver small) (c, .parser (.get .mapping1))
        (writesBits (mappingWrites inUse ++ selectorWrites nGroups selectorMtf ++
          lengthWrites alphaSize len) ++ rest) []
        (standing (c.absorb small p.startMtf)) rest ∧
      (∃ zn, p.startMtf.2.2 = .get (.mtf .first zn)) ∧
      p.inUse = flagsOf inUse ∧ p.makeMaps = p ∧ p.alphaSize = alphaSize ∧ p.nGroups = nGroups ∧
      p.nSelectors = selector.length ∧ p.selector = selector.map BitVec.toNat ∧
      p.len = len.map (rowList alphaSize) ∧
      p.tables = p.len.map (fun row =>
        buildTables (fun i => (row.getD i.toNat 0 : Nat)) alphaSize .fresh) ∧
      p.header = c.p.header := by
  intro alphaSize selectorMtf
  obtain ⟨p₁, hs₁, hm₁, hh₁⟩ := @mapping_reads μ _ ver small c inUse hne
    (writesBits (selectorWrites nGroups selectorMtf) ++
      (writesBits (lengthWrites alphaSize len) ++ rest)) c.p hi h16
  obtain ⟨p₂, hs₂, hsel₂, ht₂, hl₂⟩ := @selectorInfo_reads μ _ ver small c nGroups h2 h6 selector
    (List.length_pos_iff.mp hpos) hmax hsel (writesBits (lengthWrites alphaSize len) ++ rest) p₁
  have hmaps₂ : p₂.maps = p₁.maps := congrArg Prod.fst hsel₂
  have hng₂ : p₂.nGroups = nGroups := congrArg (fun x => x.2.1) hsel₂
  have hm₂ := hm₁.of_maps hmaps₂
  have hlenne : len ≠ [] := fun h => by rw [h, List.length_nil] at hrows; omega
  obtain ⟨p₃, hs₃, hsel₃, hl₃⟩ := @lengths_read μ _ ver small c rest ((usedBytes inUse).length + 1) len
    p₂ hlenne (by omega) hm₂.alphaSize (by
      intro row hr i hi
      rw [hm₂.alphaSize] at hi
      exact ⟨(hlen row hr i hi).1, Nat.le_trans (hlen row hr i hi).2 (by decide)⟩)
  have hm₃ := hm₂.of_maps (congrArg Prod.fst hsel₃)
  have hns : p₃.nSelectors = selector.length :=
    (congrArg (fun x => x.2.2.1) hsel₃).trans (congrArg (fun x => x.2.2.1) hsel₂)
  rw [hm₂.alphaSize] at hs₃ hl₃
  rw [hl₂, List.nil_append] at hl₃
  refine ⟨p₃.buildAll, ?_, ?_, hm₃.flags, ?_, hm₃.alphaSize, ?_, hns, ?_, hl₃, ?_, ?_⟩
  · rw [writesBits_append, writesBits_append, List.append_assoc, List.append_assoc]
    exact (hs₁.trans hs₂).trans hs₃
  · exact startMtf_begins (show 1 ≤ p₃.nSelectors by omega)
  · have hb : p₃.buildAll.makeMaps = { p₃.makeMaps with tables := p₃.buildAll.tables } := rfl
    rw [hb, hm₃.makeMaps]
    rfl
  · exact (congrArg (fun x => x.2.1) hsel₃).trans hng₂
  · exact (congrArg (fun x => x.2.2.2) hsel₃).trans (congrArg (fun x => x.2.2.2) hsel₂)
  · show p₃.len.map _ = _
    rw [hm₃.alphaSize]
    rfl
  · have h₁ : p₃.header = p₂.header := congrArg (fun x => x.1.1) hsel₃
    have h₂ : p₂.header = p₁.header := congrArg Prod.fst hmaps₂
    exact (h₁.trans h₂).trans hh₁

end

/-- Two bytes in use, two tables, three selectors. -/
theorem sideInfo_roundTrip_twoBytes :
    let rows : List (Cells Nat) := List.replicate 2 (.ofFn fun i => if i = 0 then 1 else 3)
    ∃ p : Parse,
      Steps (bitDecoder .qbz2 true) ((DState.init true : DState FlatMtf).core, .parser (.get .mapping1))
        (writesBits (mappingWrites twoBytesInUse ++
          selectorWrites 2 (selectorMtfs ((List.range 2).map (BitVec.ofNat 8)) [1, 1, 0]) ++
          lengthWrites ((usedBytes twoBytesInUse).length + 2) rows) ++ [true]) []
        (standing ((DState.init true : DState FlatMtf).core.absorb true p.startMtf)) [true] ∧
      p.selector = [1, 1, 0] := by
  intro rows
  obtain ⟨p, hs, -, -, -, -, -, -, hsel, -⟩ := sideInfo_roundTrip .qbz2 true twoBytesInUse (by decide) 2
    (by decide) (by decide) [1, 1, 0] (by decide) (by decide) (by decide) rows rfl (by decide)
    (DState.init true : DState FlatMtf).core rfl rfl [true]
  exact ⟨p, hs, hsel⟩

end Qbz2
