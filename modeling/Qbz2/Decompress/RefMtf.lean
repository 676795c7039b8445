/-
  File:      Qbz2/Decompress/RefMtf.lean
  Subject:   The MTF list of the reference decoder (`src/reference/bzip2/decompress.c`): sixteen
             segments of sixteen bytes that slide down an array of 4096, against the flat list.

  * `RefMtf` -- `mtfa` and `mtfbase`, with the initialisation, the byte at the front and the move
    to the front as the code makes them;
  * `Shows l m` -- the segments hold the bytes of `l`, apart from each other and in order;
    `MovedOut` -- what a move to the front leaves of them;
  * **`mtfSim_reference`** -- the two lists show the same bytes, whatever is moved to the front.
-/
import Qbz2.Decompress.Twin

namespace Qbz2

open Loop (forUpto)

/-! ## 1. The list -/

/-- `mtfa[0 .. MTFA_SIZE-1]` and `mtfbase`. -/
structure RefMtf where
  mtfa : Cells Byte
  mtfbase : Cells Int

namespace RefMtf

/-- A segment stored downwards from `kk`: `for (jj = MTFL_SIZE-1; jj >= 0; jj--) { mtfa[kk] = ...;
    kk--; } mtfbase[ii] = kk + 1;`, where `ii` is `15 - i` and `byte ii jj` what is stored. -/
def spreadSegment (byte : Nat → Nat → RefMtf → Byte) (i : Nat) (s : RefMtf × Int) : RefMtf × Int :=
  let s := forUpto 16
    (fun j s => ({ s.1 with mtfa := s.1.mtfa.set s.2 (byte (15 - i) (15 - j) s.1) }, s.2 - 1)) s
  ({ s.1 with mtfbase := s.1.mtfbase.set (15 - i : Nat) (s.2 + 1) }, s.2)

/-- `kk = MTFA_SIZE-1; for (ii = 256 / MTFL_SIZE - 1; ii >= 0; ii--) { ... }`: the segments at the
    upper end of the array. -/
def spread (byte : Nat → Nat → RefMtf → Byte) (m : RefMtf) : RefMtf :=
  (forUpto 16 (spreadSegment byte) (m, 4095)).1

/-- `while (nn > 0) { mtfa[pp+nn] = mtfa[pp+nn-1]; nn--; }`. -/
def shift (pp : Int) : Nat → Cells Byte → Cells Byte
  | 0, a => a
  | nn + 1, a => shift pp nn (a.set (pp + (nn + 1 : Nat)) (a (pp + nn)))

/-- The loop `while (nn > 3)` before it, four bytes a round. -/
def shift4 (pp : Int) : Nat → Cells Byte → Cells Byte
  | nn + 4, a =>
    let z := pp + (nn + 4 : Nat)
    let a := a.set z (a (z - 1))
    let a := a.set (z - 1) (a (z - 2))
    let a := a.set (z - 2) (a (z - 3))
    let a := a.set (z - 3) (a (z - 4))
    shift4 pp nn a
  | nn, a => shift pp nn a

/-- `while (lno > 0) { mtfbase[lno]--; mtfa[mtfbase[lno]] = mtfa[mtfbase[lno-1] + MTFL_SIZE - 1];
    lno--; }`. -/
def slide : Nat → RefMtf → RefMtf
  | 0, m => m
  | lno + 1, m =>
    let m := { m with mtfbase := m.mtfbase.set (lno + 1 : Nat) (m.mtfbase (lno + 1 : Nat) - 1) }
    slide lno
      { m with mtfa := m.mtfa.set (m.mtfbase (lno + 1 : Nat)) (m.mtfa (m.mtfbase lno + 16 - 1)) }

/-- `uc = MTF ( nextSym-1 )`. -/
def moveFront (m : RefMtf) (nn : Nat) : Byte × RefMtf :=
  if nn < 16 then
    let pp := m.mtfbase 0
    let uc := m.mtfa (pp + nn)
    (uc, { m with mtfa := (shift4 pp nn m.mtfa).set pp uc })
  else
    let lno := nn / 16
    let off := nn % 16
    let uc := m.mtfa (m.mtfbase lno + off)
    let m := { m with mtfa := shift (m.mtfbase lno) off m.mtfa }
    let m := slide lno { m with mtfbase := m.mtfbase.set lno (m.mtfbase lno + 1) }
    let m := { m with mtfbase := m.mtfbase.set 0 (m.mtfbase 0 - 1) }
    let m := { m with mtfa := m.mtfa.set (m.mtfbase 0) uc }
    (uc, if m.mtfbase 0 = 0 then m.spread fun ii jj m => m.mtfa (m.mtfbase ii + jj) else m)

end RefMtf

/-- The list of a block. What is left in `mtfa` from the block before lies outside the segments, and
    is not looked at. -/
instance refMtf : MtfList RefMtf where
  init := RefMtf.spread (fun ii jj _ => BitVec.ofNat 8 (ii * 16 + jj)) ⟨.ofFn fun _ => 0, .ofFn fun _ => 0⟩
  front m := m.mtfa (m.mtfbase 0)
  moveFront := RefMtf.moveFront

/-! ## 2. Moving bytes up -/

namespace RefMtf

theorem shift_get (pp : Int) : ∀ (n : Nat) (a : Cells Byte) (c : Int),
    (shift pp n a) c = if pp < c ∧ c ≤ pp + n then a (c - 1) else a c := by
  intro n
  induction n with
  | zero =>
    intro a c
    rw [if_neg (by omega)]
    rfl
  | succ n ih =>
    intro a c
    rw [shift, ih, Cells.get_set, Cells.get_set]
    have hlast : (pp + (n + 1 : Nat) : Int) - 1 = pp + n := by omega
    by_cases hc : c = pp + (n + 1 : Nat)
    · rw [if_neg (by omega), if_pos hc, if_pos (by omega), hc, hlast]
    · by_cases hin : pp < c ∧ c ≤ pp + n
      · rw [if_pos hin, if_neg (by omega), if_pos (by omega)]
      · rw [if_neg hin, if_neg hc, if_neg (by omega)]

theorem shift_four (pp : Int) (n : Nat) (a : Cells Byte) : shift pp (n + 4) a =
    let z := pp + (n + 4 : Nat)
    let a := a.set z (a (z - 1))
    let a := a.set (z - 1) (a (z - 2))
    let a := a.set (z - 2) (a (z - 3))
    let a := a.set (z - 3) (a (z - 4))
    shift pp n a := by
  have e1 : (pp + (n + 4 : Nat) : Int) - 1 = pp + (n + 3 : Nat) := by omega
  have e2 : (pp + (n + 4 : Nat) : Int) - 2 = pp + (n + 2 : Nat) := by omega
  have e3 : (pp + (n + 4 : Nat) : Int) - 3 = pp + (n + 1 : Nat) := by omega
  have e4 : (pp + (n + 4 : Nat) : Int) - 4 = pp + (n : Nat) := by omega
  dsimp only
  rw [e1, e2, e3, e4]
  rfl

/-- **Four bytes a round or one**: the same bytes move. -/
theorem shift4_eq (pp : Int) (n : Nat) (a : Cells Byte) : shift4 pp n a = shift pp n a := by
  fun_induction shift4 pp n a with
  | case1 n a z a₁ a₂ a₃ a₄ ih => exact ih.trans (shift_four pp n a).symm
  | case2 n a h => rfl

/-! ## 3. The last byte of each segment -/

/-- Segments one after the other. -/
theorem apart_le {base : Int → Int} {r : Nat}
    (h : ∀ i : Nat, i < r → base i + 16 ≤ base (i + 1 : Nat)) {i : Nat} :
    ∀ j : Nat, i < j → j ≤ r → base i + 16 ≤ base j := by
  intro j
  induction j with
  | zero => exact fun hij => absurd hij (Nat.not_lt_zero i)
  | succ j ih =>
    intro hij hj
    have hlast := h j (by omega)
    by_cases he : i = j
    · rw [he]
      exact hlast
    · have := ih (by omega) (by omega)
      omega

/-- **The loop over the segments**: each but the first moves down by a byte, and takes the last byte
    of the one before it to its front. -/
theorem slide_spec : ∀ (r : Nat) (m : RefMtf),
    (∀ i : Nat, i < r → m.mtfbase i + 16 ≤ m.mtfbase (i + 1 : Nat)) →
    (∀ i : Nat, (slide r m).mtfbase i =
      if 1 ≤ i ∧ i ≤ r then m.mtfbase i - 1 else m.mtfbase i) ∧
    (∀ i : Nat, i < r →
      (slide r m).mtfa (m.mtfbase (i + 1 : Nat) - 1) = m.mtfa (m.mtfbase i + 15)) ∧
    ∀ c : Int, (∀ i : Nat, i < r → c ≠ m.mtfbase (i + 1 : Nat) - 1) →
      (slide r m).mtfa c = m.mtfa c := by
  intro r
  induction r with
  | zero =>
    refine fun m _ => ⟨fun i => ?_, fun i hi => absurd hi (Nat.not_lt_zero i), fun _ _ => rfl⟩
    rw [if_neg (by omega)]
    rfl
  | succ r ih =>
    intro m hm
    obtain ⟨m₁, hm₁⟩ : ∃ m₁ : RefMtf, m₁ =
      { mtfbase := m.mtfbase.set (r + 1 : Nat) (m.mtfbase (r + 1 : Nat) - 1)
        mtfa := m.mtfa.set (m.mtfbase (r + 1 : Nat) - 1) (m.mtfa (m.mtfbase r + 15)) } := ⟨_, rfl⟩
    have hstep : slide (r + 1) m = slide r m₁ := by
      rw [hm₁, slide]
      dsimp only
      rw [Cells.get_set_self, Cells.get_set_of_ne _ (by omega), Int.add_sub_assoc]
      rfl
    have hbase : ∀ i : Nat, i ≤ r → m₁.mtfbase i = m.mtfbase i := by
      intro i hi
      rw [hm₁]
      exact Cells.get_set_of_ne _ (by omega)
    have htop : m₁.mtfbase (r + 1 : Nat) = m.mtfbase (r + 1 : Nat) - 1 := by
      rw [hm₁]
      exact Cells.get_set_self _ _ _
    have hcell : ∀ c : Int, m₁.mtfa c =
        if c = m.mtfbase (r + 1 : Nat) - 1 then m.mtfa (m.mtfbase r + 15) else m.mtfa c := by
      intro c
      rw [hm₁]
      exact Cells.get_set _ _ _ _
    have hr := hm r (Nat.lt_succ_self r)
    obtain ⟨h1, h2, h3⟩ := ih m₁ fun i hi => by
      rw [hbase i (by omega), hbase (i + 1) (by omega)]
      exact hm i (by omega)
    rw [hstep]
    refine ⟨fun i => ?_, fun i hi => ?_, fun c hc => ?_⟩
    · rw [h1 i]
      by_cases hi : i ≤ r
      · rw [hbase i hi]
        by_cases h0 : 1 ≤ i
        · rw [if_pos ⟨h0, hi⟩, if_pos ⟨h0, by omega⟩]
        · rw [if_neg (by omega), if_neg (by omega)]
      · rw [if_neg (by omega)]
        by_cases he : i = r + 1
        · rw [he, htop, if_pos (by omega)]
        · rw [if_neg (by omega), hm₁]
          exact Cells.get_set_of_ne _ (by omega)
    · by_cases he : i = r
      · -- the byte just stored stays where it is
        rw [he, h3 _ fun k hk => ?_, hcell, if_pos rfl]
        rw [hbase (k + 1) (by omega)]
        have := apart_le hm (r + 1) (show k + 1 < r + 1 by omega) (Nat.le_refl _)
        omega
      · have hlow := apart_le hm (r + 1) (show i < r + 1 by omega) (Nat.le_refl _)
        have hmid := apart_le hm r (show i < r by omega) (by omega)
        have e := h2 i (by omega)
        rw [hbase (i + 1) (by omega), hbase i (by omega), hcell, if_neg (by omega)] at e
        exact e
    · rw [h3 c fun i hi => ?_, hcell, if_neg (hc r (Nat.lt_succ_self r))]
      rw [hbase (i + 1) (by omega)]
      exact hc i (by omega)

/-! ## 4. All segments at the upper end -/

/-- `i` rows and `j` bytes of the next have been stored, from the end on; below `kk` everything is as
    it was. -/
structure Spreading (want : Nat → Byte) (m : RefMtf) (i j : Nat) (s : RefMtf × Int) : Prop where
  kk : s.2 = 4095 - (16 * i + j : Nat)
  stored : ∀ c : Nat, c < 256 → 256 ≤ c + (16 * i + j) → s.1.mtfa (3840 + c) = want c
  below : ∀ c : Int, c ≤ s.2 → s.1.mtfa c = m.mtfa c
  based : ∀ r : Nat, r < 16 → 16 ≤ r + i → s.1.mtfbase r = 3840 + 16 * r
  left : ∀ r : Nat, r + i < 16 → s.1.mtfbase r = m.mtfbase r

variable {want : Nat → Byte} {m : RefMtf} {byte : Nat → Nat → RefMtf → Byte}

/-- What `byte` reads is what is wanted, nothing having been stored yet where it reads. -/
def Wanted (want : Nat → Byte) (m : RefMtf) (byte : Nat → Nat → RefMtf → Byte) : Prop :=
  ∀ (i j : Nat) (s : RefMtf × Int), i < 16 → j < 16 → Spreading want m i j s →
    byte (15 - i) (15 - j) s.1 = want (16 * (15 - i) + (15 - j))

theorem Spreading.segment (h : Wanted want m byte) {i : Nat} {s : RefMtf × Int} (hi : i < 16)
    (hs : Spreading want m i 0 s) : Spreading want m (i + 1) 0 (spreadSegment byte i s) := by
  have hrow : Spreading want m i 16 (forUpto 16 (fun j s =>
      (({ s.1 with mtfa := s.1.mtfa.set s.2 (byte (15 - i) (15 - j) s.1) } : RefMtf), s.2 - 1)) s) := by
    refine Loop.forUpto_inv (fun j s => Spreading want m i j s) hs 16 fun j s hj hs => ?_
    have hkk := hs.kk
    have hbyte := h i j s hi hj hs
    refine ⟨by dsimp only; omega, fun c hc hcj => ?_, fun c hc => ?_, hs.based, hs.left⟩
    · dsimp only
      rw [Cells.get_set, hbyte]
      by_cases he : (3840 + c : Int) = s.2
      · rw [if_pos he]
        congr 1
        omega
      · rw [if_neg he]
        exact hs.stored c hc (by omega)
    · dsimp only at hc ⊢
      rw [Cells.get_set_of_ne _ (by omega)]
      exact hs.below c (by omega)
  unfold spreadSegment
  dsimp only
  generalize forUpto 16 (fun j s =>
    (({ s.1 with mtfa := s.1.mtfa.set s.2 (byte (15 - i) (15 - j) s.1) } : RefMtf), s.2 - 1)) s = s'
    at hrow ⊢
  have hkk := hrow.kk
  refine ⟨by dsimp only; omega, fun c hc hcj => hrow.stored c hc (by omega), hrow.below,
    fun r hr hri => ?_, fun r hri => ?_⟩
  · dsimp only
    rw [Cells.get_set]
    by_cases he : (r : Int) = (15 - i : Nat)
    · rw [if_pos he]
      omega
    · rw [if_neg he]
      exact hrow.based r hr (by omega)
  · dsimp only
    rw [Cells.get_set_of_ne _ (by omega)]
    exact hrow.left r (by omega)

/-- **A list laid out at the upper end of the array.** -/
theorem spread_spec (h : Wanted want m byte) :
    (∀ r : Nat, r < 16 → (m.spread byte).mtfbase r = 3840 + 16 * r) ∧
      ∀ c : Nat, c < 256 → (m.spread byte).mtfa (3840 + c) = want c := by
  have hstart : Spreading want m 0 0 (m, 4095) :=
    ⟨rfl, fun c hc hc' => absurd hc (by omega), fun _ _ => rfl, fun r hr hr' => absurd hr (by omega),
      fun _ _ => rfl⟩
  have hend : Spreading want m 16 0 (forUpto 16 (spreadSegment byte) (m, 4095)) :=
    @Loop.forUpto_inv _ (spreadSegment byte) (m, 4095) (fun i s => Spreading want m i 0 s) hstart 16
      fun _ _ hi hs => hs.segment h hi
  exact ⟨fun r hr => hend.based r hr (by omega), fun c hc => hend.stored c hc (by omega)⟩

end RefMtf

/-! ## 5. Against the flat list -/

open RefMtf

/-- **The segments show the list `l`**: they lie apart, in order and inside the array, where all of
    them may yet move to the upper end. -/
structure Shows (l : FlatMtf) (m : RefMtf) : Prop where
  length : l.length = 256
  byte : ∀ i j : Nat, i < 16 → j < 16 → m.mtfa (m.mtfbase i + j) = l.getD (16 * i + j) 0
  apart : ∀ i : Nat, i < 15 → m.mtfbase i + 16 ≤ m.mtfbase (i + 1 : Nat)
  low : 0 < m.mtfbase (0 : Nat)
  high : ∀ i : Nat, i < 16 → m.mtfbase i ≤ 3840 + 16 * i

theorem shows_spread {l : FlatMtf} {m : RefMtf} {byte : Nat → Nat → RefMtf → Byte}
    (hlen : l.length = 256) (h : Wanted (fun c => l.getD c 0) m byte) : Shows l (m.spread byte) := by
  obtain ⟨hbase, hcell⟩ := spread_spec h
  refine ⟨hlen, fun i j hi hj => ?_, fun i hi => ?_, ?_, fun i hi => ?_⟩
  · rw [hbase i hi, show (3840 + 16 * i + j : Int) = 3840 + (16 * i + j : Nat) by omega]
    exact hcell _ (by omega)
  · rw [hbase i (by omega), hbase (i + 1) (by omega)]
    omega
  · rw [hbase 0 (by omega)]
    omega
  · rw [hbase i hi]

/-- The byte of index `k` once that of index `nn` has moved to the front. -/
theorem moved_getD {l : List Byte} {nn : Nat} (hnn : nn < l.length) (k : Nat) :
    (l.getD nn 0 :: (l.take nn ++ l.drop (nn + 1))).getD k 0 =
      if k = 0 then l.getD nn 0 else if k ≤ nn then l.getD (k - 1) 0 else l.getD k 0 := by
  cases k with
  | zero => rfl
  | succ k =>
    have htake : (l.take nn).length = nn := by
      rw [List.length_take]
      omega
    rw [List.getD_cons_succ, if_neg (Nat.succ_ne_zero k), Nat.add_sub_cancel]
    by_cases hk : k + 1 ≤ nn
    · rw [if_pos hk, List.getD_append _ _ _ _ (by omega), List.getD_eq_getElem?_getD,
        List.getD_eq_getElem?_getD, List.getElem?_take_of_lt (by omega)]
    · rw [if_neg hk, List.getD_append_right _ _ _ _ (by omega), htake, List.getD_eq_getElem?_getD,
        List.getD_eq_getElem?_getD, List.getElem?_drop]
      congr 2
      omega

theorem moved_length {l : List Byte} {nn : Nat} (hnn : nn < l.length) :
    (l.getD nn 0 :: (l.take nn ++ l.drop (nn + 1))).length = l.length := by
  rw [List.length_cons, List.length_append, List.length_take, List.length_drop]
  omega

section

variable {l : FlatMtf} {m : RefMtf} {nn : Nat}

/-- A byte of the first segment moves to its front. -/
theorem Shows.moveFirst (h : Shows l m) (hnn : nn < 16) :
    Shows (l.getD nn 0 :: (l.take nn ++ l.drop (nn + 1)))
      { m with mtfa := (shift4 (m.mtfbase 0) nn m.mtfa).set (m.mtfbase 0) (m.mtfa (m.mtfbase 0 + nn)) } := by
  have hlen := h.length
  refine ⟨(moved_length (by omega)).trans hlen, fun i j hi hj => ?_, h.apart, h.low, h.high⟩
  have hzero : m.mtfbase 0 = m.mtfbase (0 : Nat) := rfl
  have hfront := h.byte 0 nn (by omega) hnn
  dsimp only
  rw [shift4_eq, Cells.get_set, shift_get, moved_getD (by omega), hzero]
  by_cases hi0 : i = 0
  · subst hi0
    rw [Nat.mul_zero, Nat.zero_add] at hfront ⊢
    by_cases hj0 : j = 0
    · rw [if_pos (by omega), if_pos hj0]
      exact hfront
    · rw [if_neg (by omega), if_neg hj0]
      by_cases hjn : j ≤ nn
      · have hprev := h.byte 0 (j - 1) (by omega) (by omega)
        rw [Nat.mul_zero, Nat.zero_add] at hprev
        rw [if_pos (by omega), if_pos hjn, ← hprev]
        congr 1
        omega
      · have hsame := h.byte 0 j (by omega) hj
        rw [Nat.mul_zero, Nat.zero_add] at hsame
        rw [if_neg (by omega), if_neg hjn, hsame]
  · have hfar := apart_le h.apart i (show 0 < i by omega) (by omega)
    rw [if_neg (by omega), if_neg (by omega), if_neg (by omega), if_neg (by omega)]
    exact h.byte i j hi hj

/-- What a move out of segment `q`, at place `off`, leaves in `m'`: the segments before `q` a byte
    further down, the byte `b` in front of all, at the front of every other of them and of `q` the
    last byte of the one before it, and the bytes of `q` before the place one further up. -/
structure MovedOut (q off : Nat) (b : Byte) (m m' : RefMtf) : Prop where
  base : ∀ i : Nat, m'.mtfbase i = if i < q then m.mtfbase i - 1 else m.mtfbase i
  first : m'.mtfa (m'.mtfbase (0 : Nat)) = b
  front : ∀ i : Nat, i < q → m'.mtfa (m'.mtfbase (i + 1 : Nat)) = m.mtfa (m.mtfbase i + 15)
  rest : ∀ c : Int, (∀ i : Nat, i ≤ q → c ≠ m'.mtfbase i) →
    m'.mtfa c = if m.mtfbase q < c ∧ c ≤ m.mtfbase q + off then m.mtfa (c - 1) else m.mtfa c

/-- The segments keep apart. -/
theorem MovedOut.apart {q off : Nat} {b : Byte} {m' : RefMtf} (hm : MovedOut q off b m m')
    (h : Shows l m) : ∀ i : Nat, i < 15 → m'.mtfbase i + 16 ≤ m'.mtfbase (i + 1 : Nat) := by
  intro i hi
  have := h.apart i hi
  rw [hm.base i, hm.base (i + 1)]
  split <;> split <;> omega

/-- The loop over the segments, and the byte put in front of the first, are such a move. -/
theorem Shows.movedOut (h : Shows l m) {q off : Nat} {b : Byte} (hq1 : 1 ≤ q) (hq15 : q ≤ 15)
    {m₁ m₂ : RefMtf}
    (h₁ : m₁ = slide q
      { mtfa := shift (m.mtfbase (q : Nat)) off m.mtfa
        mtfbase := m.mtfbase.set (q : Nat) (m.mtfbase (q : Nat) + 1) })
    (h₂ : m₂ =
      { mtfa := m₁.mtfa.set (m₁.mtfbase (0 : Nat) - 1) b
        mtfbase := m₁.mtfbase.set (0 : Nat) (m₁.mtfbase (0 : Nat) - 1) }) :
    MovedOut q off b m m₂ := by
  -- the segments before the loop
  have hbase : ∀ i : Nat, (m.mtfbase.set (q : Nat) (m.mtfbase (q : Nat) + 1)) i =
      if i = q then m.mtfbase q + 1 else m.mtfbase i := by
    intro i
    rw [Cells.get_set]
    by_cases he : i = q
    · rw [if_pos (by omega), if_pos he]
    · rw [if_neg (by omega), if_neg he]
  have hmoved : ∀ c : Int, (shift (m.mtfbase (q : Nat)) off m.mtfa) c =
      if m.mtfbase q < c ∧ c ≤ m.mtfbase q + off then m.mtfa (c - 1) else m.mtfa c :=
    fun c => shift_get _ _ _ _
  have hlow : ∀ i : Nat, i < q → m.mtfbase i + 16 ≤ m.mtfbase q :=
    fun i hi => apart_le h.apart q hi (by omega)
  obtain ⟨s1, s2, s3⟩ := slide_spec q
    { mtfa := shift (m.mtfbase (q : Nat)) off m.mtfa
      mtfbase := m.mtfbase.set (q : Nat) (m.mtfbase (q : Nat) + 1) } fun i hi => by
        have := h.apart i (by omega)
        dsimp only
        rw [hbase i, hbase (i + 1), if_neg (by omega)]
        split
        · rename_i he
          rw [← he]
          omega
        · exact this
  rw [← h₁] at s1 s2 s3
  dsimp only at s1 s2 s3
  have hfirst : m₁.mtfbase (0 : Nat) = m.mtfbase (0 : Nat) := by
    rw [s1 0, if_neg (by omega), hbase 0, if_neg (by omega)]
  rw [hfirst] at h₂
  -- and after it
  have hnew : ∀ i : Nat, m₂.mtfbase i = if i < q then m.mtfbase i - 1 else m.mtfbase i := by
    intro i
    rw [h₂]
    dsimp only
    rw [Cells.get_set]
    by_cases h0 : i = 0
    · rw [if_pos (by omega), if_pos (by omega), h0]
    · rw [if_neg (by omega), s1 i, hbase i]
      by_cases he : i = q
      · rw [if_pos (by omega), if_pos he, if_neg (by omega), he]
        omega
      · rw [if_neg he]
        by_cases hi : i < q
        · rw [if_pos (by omega), if_pos hi]
        · rw [if_neg (by omega), if_neg hi]
  have hmark : ∀ i : Nat, i < q →
      (m.mtfbase.set (q : Nat) (m.mtfbase (q : Nat) + 1)) (i + 1 : Nat) - 1 =
        m₂.mtfbase (i + 1 : Nat) := by
    intro i hi
    rw [hbase (i + 1), hnew (i + 1)]
    by_cases he : i + 1 = q
    · rw [if_pos he, if_neg (by omega), he]
      omega
    · rw [if_neg he, if_pos (by omega)]
  have hcell : ∀ c : Int, m₂.mtfa c = if c = m₂.mtfbase (0 : Nat) then b else m₁.mtfa c := by
    intro c
    have hnew0 := hnew 0
    rw [if_pos (by omega)] at hnew0
    rw [hnew0, h₂]
    exact Cells.get_set _ _ _ _
  refine ⟨hnew, by rw [hcell, if_pos rfl], fun i hi => ?_, fun c hc => ?_⟩
  · have e := s2 i hi
    have hlt := hlow i hi
    have hnext := apart_le h.apart (i + 1) (Nat.succ_pos i) (by omega)
    rw [hmark i hi, hbase i, if_neg (by omega), hmoved, if_neg (by omega)] at e
    rw [hcell, if_neg (by rw [hnew (i + 1), hnew 0]; split <;> split <;> omega), e]
  · rw [hcell, if_neg (hc 0 (by omega)), ← hmoved c]
    exact s3 c fun i hi => by
      rw [hmark i hi]
      exact hc (i + 1) (by omega)

/-- **The bytes after such a move**: that of index `16 * q + off` in front, and all else in order. -/
theorem MovedOut.byte {q off : Nat} {m' : RefMtf}
    (hm : MovedOut q off (l.getD (16 * q + off) 0) m m') (h : Shows l m) (hq1 : 1 ≤ q)
    (hq15 : q ≤ 15) (hoff : off < 16) {i j : Nat} (hi : i < 16) (hj : j < 16) :
    m'.mtfa (m'.mtfbase i + j) = (l.getD (16 * q + off) 0 ::
      (l.take (16 * q + off) ++ l.drop (16 * q + off + 1))).getD (16 * i + j) 0 := by
  have hlen := h.length
  have hapart := hm.apart h
  rw [moved_getD (by omega)]
  by_cases h0 : i = 0 ∧ j = 0
  · rw [h0.1, h0.2, if_pos (by omega), Int.natCast_zero, Int.add_zero]
    exact hm.first
  rw [if_neg (by omega)]
  by_cases hj0 : j = 0 ∧ i ≤ q
  · obtain ⟨p, rfl⟩ : ∃ p, i = p + 1 := ⟨i - 1, by omega⟩
    have hlast := h.byte p 15 (by omega) (by omega)
    rw [hj0.1, Int.natCast_zero, Int.add_zero, hm.front p (by omega), if_pos (by omega)]
    exact hlast
  rw [hm.rest _ fun k hk => ?_]
  · by_cases hiq : i < q
    · have hlt := apart_le h.apart q hiq (by omega)
      have hprev := h.byte i (j - 1) hi (by omega)
      rw [hm.base i, if_pos hiq, if_neg (by omega), if_pos (by omega),
        show (m.mtfbase i - 1 + j : Int) = m.mtfbase i + (j - 1 : Nat) by omega, hprev]
      congr 1
      omega
    · rw [hm.base i, if_neg hiq]
      by_cases hin : i = q ∧ j ≤ off
      · have hprev := h.byte i (j - 1) hi (by omega)
        rw [if_pos (by rw [hin.1]; omega), if_pos (by omega),
          show (m.mtfbase i + j - 1 : Int) = m.mtfbase i + (j - 1 : Nat) by omega, hprev]
        congr 1
        omega
      · rw [if_neg ?_, if_neg (by omega)]
        · exact h.byte i j hi hj
        · by_cases he : i = q
          · rw [he]
            omega
          · have := apart_le h.apart i (show q < i by omega) (by omega)
            omega
  · -- no front of a segment that has moved
    rcases Nat.lt_trichotomy k i with hki | hki | hki
    · have := apart_le hapart i hki (by omega)
      omega
    · rw [hki]
      omega
    · have := apart_le hapart k hki (by omega)
      omega

/-- **Moving a byte to the front shows the same list as in the flat array.** -/
theorem Shows.moveFront (h : Shows l m) (hnn : nn < 256) :
    (m.moveFront nn).1 = l.getD nn 0 ∧
      Shows (l.getD nn 0 :: (l.take nn ++ l.drop (nn + 1))) (m.moveFront nn).2 := by
  have hlen := h.length
  unfold RefMtf.moveFront
  by_cases h16 : nn < 16
  · rw [if_pos h16]
    have hbyte := h.byte 0 nn (by omega) h16
    rw [Nat.mul_zero, Nat.zero_add] at hbyte
    exact ⟨hbyte, h.moveFirst h16⟩
  · rw [if_neg h16]
    have hbyte := h.byte (nn / 16) (nn % 16) (by omega) (by omega)
    rw [Nat.div_add_mod] at hbyte
    dsimp only
    rw [hbyte]
    refine ⟨rfl, ?_⟩
    obtain ⟨m₁, h₁⟩ : ∃ m₁, m₁ = slide (nn / 16)
      { mtfa := shift (m.mtfbase (nn / 16 : Nat)) (nn % 16) m.mtfa
        mtfbase := m.mtfbase.set (nn / 16 : Nat) (m.mtfbase (nn / 16 : Nat) + 1) } := ⟨_, rfl⟩
    obtain ⟨m₂, h₂⟩ : ∃ m₂ : RefMtf, m₂ =
      { mtfa := m₁.mtfa.set (m₁.mtfbase 0 - 1) (l.getD nn 0)
        mtfbase := m₁.mtfbase.set 0 (m₁.mtfbase 0 - 1) } := ⟨_, rfl⟩
    have hmove := h.movedOut (by omega) (by omega) h₁ h₂
    have hapart := hmove.apart h
    have hbytes : ∀ i j : Nat, i < 16 → j < 16 → m₂.mtfa (m₂.mtfbase i + j) =
        (l.getD nn 0 :: (l.take nn ++ l.drop (nn + 1))).getD (16 * i + j) 0 := by
      intro i j hi hj
      have hb := MovedOut.byte (by rw [Nat.div_add_mod]; exact hmove) h (by omega) (by omega)
        (by omega) hi hj
      rw [Nat.div_add_mod] at hb
      exact hb
    have hhigh : ∀ i : Nat, i < 16 → m₂.mtfbase i ≤ 3840 + 16 * i := by
      intro i hi
      have := h.high i hi
      rw [hmove.base i]
      split <;> omega
    have hfirst : m₂.mtfbase (0 : Nat) = m.mtfbase (0 : Nat) - 1 := by
      rw [hmove.base 0, if_pos (by omega)]
    have hlow := h.low
    have hzero : m₂.mtfbase (0 : Nat) = m₁.mtfbase 0 - 1 := by
      rw [h₂]
      exact Cells.get_set_self _ _ _
    have hmoved := (moved_length (show nn < l.length by omega)).trans hlen
    rw [← h₁, Cells.get_set_self, ← h₂]
    split
    · -- all segments move to the upper end again
      refine shows_spread hmoved fun i j s hi hj hs => ?_
      have hbase := hs.left (15 - i) (by omega)
      have hkk := hs.kk
      have hle := hhigh (15 - i) (by omega)
      dsimp only
      rw [hbase, hs.below _ (by omega)]
      exact hbytes (15 - i) (15 - j) (by omega) (by omega)
    · exact ⟨hmoved, hbytes, hapart, by omega, hhigh⟩

end

/-- The byte of index `k` in a fresh list is `k`. -/
theorem flatMtf_init (k : Nat) (hk : k < 256) :
    (MtfList.init : FlatMtf).getD k 0 = BitVec.ofNat 8 k := by
  show ((List.range 256).map (BitVec.ofNat 8)).getD k 0 = _
  rw [List.getD_eq_getElem?_getD, List.getElem?_map, List.getElem?_range hk]
  rfl

theorem shows_init : Shows MtfList.init MtfList.init := by
  refine shows_spread ?_ fun i j s hi hj _ => ?_
  · show ((List.range 256).map (BitVec.ofNat 8)).length = 256
    rw [List.length_map, List.length_range]
  · dsimp only
    rw [flatMtf_init _ (by omega), Nat.mul_comm 16 (15 - i)]

/-- **Both lists show the same bytes**, from the start of a block on. -/
theorem mtfSim_reference : MtfSim Shows where
  init := shows_init
  front h := by
    have e := h.byte 0 0 (Nat.zero_lt_succ 15) (Nat.zero_lt_succ 15)
    rw [show ((0 : Nat) : Int) = 0 from rfl, Int.add_zero] at e
    exact e
  move h _ hlt := h.moveFront hlt

end Qbz2
