/-
  File:      Qbz2/Compress/MtfSymbols.lean
  Subject:   What `generateMTFValues` writes.

  * `LawfulMtfArrays` -- what the two arrays have to do with each other: a write to `mtfv` leaves
    the entries of `ptr` behind it alone. The overlaid arrays are lawful (`lawful_overlaid`);
  * `sse2Step_eq`, `scalarStep_eq` -- both steps move the byte to the front;
  * `MtfLoop.Wrote` -- the symbols written so far, and what they left of `ptr`;
  * `Listed` -- the lists the coding can come to;
  * **`generateMTFValues_spec`** -- the symbols are those of `ZeroRun.coded`, then `EOB`, and
    `mtfFreq` is their histogram;
  * **`mtfSteps_agree`** -- both builds go through the same lists.
-/
import Mathlib.Data.List.GetD
import Qbz2.Compress.MtfValues
import Qbz2.Lib.ZeroRun

namespace Qbz2

open Loop ZeroRun

/-! ## 1. The arrays -/

/-- **`mtfv` never catches up with `ptr`**: cell `w` of `mtfv` lies before entry `i` of `ptr` while
    `w < 2 * i`. -/
class LawfulMtfArrays (M : Type) [MtfArrays M] : Prop where
  mtfv_put (a : M) (w k : Int) (v : BitVec 16) :
    MtfArrays.mtfv (MtfArrays.putMtfv a w v) k = if k = w then v else MtfArrays.mtfv a k
  ptr_put (a : M) (w i : Int) (v : BitVec 16) :
    w < 2 * i → MtfArrays.ptr (MtfArrays.putMtfv a w v) i = MtfArrays.ptr a i

instance lawful_overlaid : LawfulMtfArrays Arr1 where
  mtfv_put a w k v := Cells.get_set a.cells w v k
  ptr_put a w i v h := by
    show (((a.cells.set w v) (2 * i)).toNat : Int) +
      65536 * (((a.cells.set w v) (2 * i + 1)).toNat : Int) = _
    rw [Cells.get_set_of_ne v (by omega), Cells.get_set_of_ne v (by omega)]
    rfl

/-- The entries of `ptr` in `arr1`. -/
def Arr1.ptrs (a : Arr1) : Cells Int := .ofFn (MtfArrays.ptr a)

/-- Entries below `2^32` are read back from `arr1`. -/
theorem ptr_ofPtr (ptr : Cells Int) {i : Int} (h0 : 0 ≤ ptr i) (h1 : ptr i < 2 ^ 32) :
    MtfArrays.ptr (Arr1.ofPtr ptr) i = ptr i := by
  have e0 : (2 * i) / 2 = i := by omega
  have e1 : (2 * i + 1) / 2 = i := by omega
  show (((Arr1.ofPtr ptr).cells (2 * i)).toNat : Int) +
    65536 * ((Arr1.ofPtr ptr).cells (2 * i + 1)).toNat = ptr i
  unfold Arr1.ofPtr
  dsimp only
  rw [Cells.get_ofFn, Cells.get_ofFn, if_pos (by omega), if_neg (by omega), e0, e1,
    BitVec.toNat_ofInt, BitVec.toNat_ofInt]
  omega

/-! ## 2. The move to the front -/

/-- The search by chunks finds the first cell that holds the byte. -/
theorem chunkSearch_eq {yy : List Byte} {ll : Byte} (hm : ll ∈ yy) : ∀ (fuel pos : Nat),
    ll ∉ yy.take pos → yy.length ≤ pos + 16 * fuel → chunkSearch yy ll fuel pos = yy.idxOf ll := by
  intro fuel
  induction fuel with
  | zero =>
    intro pos hno hlen
    rw [List.take_of_length_le (by omega)] at hno
    exact absurd hm hno
  | succ fuel ih =>
    intro pos hno hlen
    have hsplit : yy = yy.take pos ++ ((yy.drop pos).take 16 ++ (yy.drop pos).drop 16) := by
      rw [List.take_append_drop, List.take_append_drop]
    unfold chunkSearch
    dsimp only
    split
    · rename_i hin
      have hpos : pos ≤ yy.length := by
        refine Classical.byContradiction fun h => ?_
        rw [List.drop_eq_nil_of_le (by omega)] at hin
        cases hin
      conv_rhs => rw [hsplit]
      rw [List.idxOf_append_of_notMem hno, List.idxOf_append_of_mem hin, List.length_take,
        Nat.min_eq_left hpos]
    · rename_i hnot
      refine ih (pos + 16) ?_ (by omega)
      rw [List.take_add, List.mem_append]
      rintro (h | h)
      · exact hno h
      · exact hnot h

theorem sse2Step_eq {yy : List Byte} {ll : Byte} (hlen : yy.length = 272) (hm : ll ∈ yy) :
    sse2Step yy ll = (toFront yy ll, yy.idxOf ll) := by
  unfold sse2Step
  rw [chunkSearch_eq hm 17 0 (by simp) (by omega), toFront_eq_take_drop]

/-- The rotation, up to the byte: before it everything has moved up one cell. -/
theorem rotateLoop_eq {yy : List Byte} {ll : Byte} (hm : ll ∈ yy) : ∀ (fuel j : Nat),
    j ≤ yy.idxOf ll → yy.idxOf ll < j + fuel →
    rotateLoop ll fuel (yy.getD 0 0 :: (yy.take j ++ yy.drop (j + 1))) (yy.getD j 0) j =
      (yy.getD 0 0 :: (yy.take (yy.idxOf ll) ++ yy.drop (yy.idxOf ll + 1)), ll, yy.idxOf ll) := by
  have hlt := List.idxOf_lt_length_of_mem hm
  have hget : yy.getD (yy.idxOf ll) 0 = ll := by
    rw [List.getD_eq_getElem _ _ hlt, List.getElem_idxOf]
  intro fuel
  induction fuel with
  | zero => intro j _ _; omega
  | succ fuel ih =>
    intro j hle hfuel
    unfold rotateLoop
    by_cases he : j = yy.idxOf ll
    · rw [if_neg (by rw [he, hget]; simp), he, hget]
    · have hne : ll ≠ yy.getD j 0 := by
        intro e
        have hj : j < yy.length := by omega
        rw [List.getD_eq_getElem _ _ hj] at e
        have hno := List.not_of_lt_findIdx (show j < yy.findIdx (· == ll) by
          rw [← List.idxOf]
          omega)
        simp [e] at hno
      rw [if_pos hne]
      have hj1 : j + 1 < yy.length := by omega
      have hl : (yy.take j).length = j := by rw [List.length_take]; omega
      -- the cell after the gap takes the byte in hand, and its own is taken up
      have hcell : (yy.getD 0 0 :: (yy.take j ++ yy.drop (j + 1))).getD (j + 1) 0 =
          yy.getD (j + 1) 0 := by
        rw [List.getD_cons_succ, List.getD_append_right _ _ _ _ (by omega), hl, Nat.sub_self,
          List.getD_eq_getElem?_getD, List.getElem?_drop, Nat.add_zero,
          ← List.getD_eq_getElem?_getD]
      have hset : (yy.getD 0 0 :: (yy.take j ++ yy.drop (j + 1))).set (j + 1) (yy.getD j 0) =
          yy.getD 0 0 :: (yy.take (j + 1) ++ yy.drop (j + 1 + 1)) := by
        rw [List.set_cons_succ, List.set_append_right _ _ (by omega), hl, Nat.sub_self,
          List.drop_eq_getElem_cons hj1, List.set_cons_zero, List.take_add_one,
          List.getElem?_eq_getElem (by omega : j < yy.length), List.append_assoc,
          List.getD_eq_getElem _ _ (by omega : j < yy.length)]
        rfl
      rw [hcell, hset]
      exact ih (j + 1) (by omega) (by omega)

theorem scalarStep_eq {yy : List Byte} {ll : Byte} (hm : ll ∈ yy) (hne : yy.getD 0 0 ≠ ll) :
    scalarStep yy ll = (toFront yy ll, yy.idxOf ll) := by
  have hpos : 0 < yy.idxOf ll := by
    refine idxOf_pos ?_ hm
    intro h
    cases yy with
    | nil => cases h
    | cons a yy => exact hne (Option.some.inj h)
  have hlt := List.idxOf_lt_length_of_mem hm
  have hstart : yy.set 1 (yy.getD 0 0) = yy.getD 0 0 :: (yy.take 1 ++ yy.drop 2) := by
    match yy with
    | a :: b :: yy => rfl
    | [a] => simp at hlt; omega
    | [] => cases hm
  unfold scalarStep
  dsimp only
  rw [hstart, rotateLoop_eq hm yy.length 1 hpos (by omega)]
  dsimp only
  rw [List.set_cons_zero, toFront_eq_take_drop]

theorem mtfStep_eq (sse2 : Bool) {yy : List Byte} {ll : Byte} (hlen : yy.length = 272)
    (hm : ll ∈ yy) (hne : yy.getD 0 0 ≠ ll) :
    mtfStep sse2 yy ll = (toFront yy ll, yy.idxOf ll) := by
  unfold mtfStep
  split
  · exact sse2Step_eq hlen hm
  · exact scalarStep_eq hm hne

/-! ## 3. The sequence numbers -/

/-- The bytes in use. -/
def usedBytes (inUse : Cells Bool) : List Nat := (List.range 256).filter fun b : Nat => inUse b

/-- The bytes in use below `b`. -/
def usedBelow (inUse : Cells Bool) (b : Nat) : List Nat :=
  (List.range b).filter fun b : Nat => inUse b

theorem usedBelow_succ (inUse : Cells Bool) (b : Nat) :
    usedBelow inUse (b + 1) = usedBelow inUse b ++ if inUse b then [b] else [] := by
  unfold usedBelow
  rw [List.range_succ, List.filter_append]
  cases h : inUse b <;> simp [h]

/-- `makeMaps_e`: a byte in use is mapped to the number of smaller ones. -/
theorem makeMapsE_spec {M : Type} (inUse : Cells Bool) (s : MtfValues M) :
    (makeMapsE inUse s).nInUse = (usedBytes inUse).length ∧
    (makeMapsE inUse s).arrays = s.arrays ∧ (makeMapsE inUse s).mtfFreq = s.mtfFreq ∧
    ∀ b : Nat, b < 256 → inUse b →
      (makeMapsE inUse s).unseqToSeq b = BitVec.ofNat 8 (usedBelow inUse b).length := by
  unfold makeMapsE usedBytes
  generalize 256 = n
  refine forUpto_inv (s := { s with nInUse := 0 }) (fun i (t : MtfValues M) => t.nInUse = (usedBelow inUse i).length ∧
    t.arrays = s.arrays ∧ t.mtfFreq = s.mtfFreq ∧ ∀ b : Nat, b < i → inUse b →
      t.unseqToSeq b = BitVec.ofNat 8 (usedBelow inUse b).length)
    ⟨rfl, rfl, rfl, fun b h => absurd h (Nat.not_lt_zero b)⟩ n fun i t _ ht => ?_
  obtain ⟨h1, h2, h3, h4⟩ := ht
  unfold makeMapsStep
  rw [usedBelow_succ]
  by_cases hu : inUse i
  · rw [if_pos hu, if_pos hu]
    refine ⟨by rw [List.length_append, ← h1]; rfl, h2, h3, fun b hb hub => ?_⟩
    dsimp only
    by_cases he : b = i
    · rw [he, Cells.get_set_self, h1]
    · rw [Cells.get_set_of_ne _ (by omega)]
      exact h4 b (by omega) hub
  · rw [if_neg hu, if_neg hu, List.append_nil]
    refine ⟨h1, h2, h3, fun b hb hub => ?_⟩
    have hne : b ≠ i := fun e => hu (by rw [← e]; exact hub)
    exact h4 b (by omega) hub

/-- The sequence number of a byte in use leads back to it. -/
theorem getElem?_usedBytes {inUse : Cells Bool} {b : Nat} (hb : b < 256) (hu : inUse b) :
    (usedBytes inUse)[(usedBelow inUse b).length]? = some b := by
  have hsplit : List.range 256 = List.range b ++ (b :: List.range' (b + 1) (255 - b)) := by
    rw [List.range_eq_range', List.range_eq_range', ← List.range'_succ,
      show 255 - b + 1 = 256 - b by omega]
    have := @List.range'_append 0 b (256 - b) 1
    rw [Nat.one_mul, Nat.zero_add, show b + (256 - b) = 256 by omega] at this
    exact this.symm
  unfold usedBytes
  rw [hsplit, List.filter_append, List.filter_cons_of_pos (by simpa using hu)]
  show (usedBelow inUse b ++ b :: _)[(usedBelow inUse b).length]? = some b
  rw [List.getElem?_append_right (Nat.le_refl _), Nat.sub_self]
  rfl

theorem length_usedBytes_le (inUse : Cells Bool) : (usedBytes inUse).length ≤ 256 := by
  have := List.length_filter_le (fun b : Nat => inUse b) (List.range 256)
  rw [List.length_range] at this
  exact this

/-- The sequence number of a byte, as `unseqToSeq` holds it. -/
def seqOf (inUse : Cells Bool) (b : Byte) : Byte := BitVec.ofNat 8 (usedBelow inUse b.toNat).length

theorem seqOf_lt {inUse : Cells Bool} {b : Byte} (hu : inUse b.toNat) :
    (seqOf inUse b).toNat = (usedBelow inUse b.toNat).length ∧
      (seqOf inUse b).toNat < (usedBytes inUse).length := by
  have hlt := (List.getElem?_eq_some_iff.mp (getElem?_usedBytes b.isLt hu)).1
  have h256 := length_usedBytes_le inUse
  have e : (seqOf inUse b).toNat = (usedBelow inUse b.toNat).length := by
    unfold seqOf
    rw [BitVec.toNat_ofNat, Nat.mod_eq_of_lt (by omega)]
  exact ⟨e, by rw [e]; exact hlt⟩

/-- The list the coding starts with: the sequence numbers in use. -/
def seqList (k : Nat) : List Byte := (List.range k).map (BitVec.ofNat 8)

theorem mem_seqList {k : Nat} {c : Byte} (h : c.toNat < k) : c ∈ seqList k := by
  refine List.mem_map.mpr ⟨c.toNat, List.mem_range.mpr h, ?_⟩
  rw [BitVec.ofNat_toNat, BitVec.setWidth_eq]

@[simp] theorem length_seqList (k : Nat) : (seqList k).length = k := by
  rw [seqList, List.length_map, List.length_range]

/-- A list the coding can come to: the sequence numbers in use in some order, then the padding. -/
def Listed (k : Nat) (yy : List Byte) : Prop :=
  ∃ q : List Byte, q.Perm (seqList k) ∧ yy = q ++ List.replicate (272 - k) 0xff

theorem listed_mtfInit (k : Nat) : Listed k (mtfInit k) := ⟨seqList k, .refl _, rfl⟩

/-- **A number in use stands before the padding**, and moving it to the front keeps the list. -/
theorem Listed.move {k : Nat} {yy : List Byte} (h : Listed k yy) (hk : k ≤ 256) {ll : Byte}
    (hlt : ll.toNat < k) :
    yy.length = 272 ∧ ll ∈ yy ∧ yy.idxOf ll < k ∧ Listed k (toFront yy ll) := by
  obtain ⟨q, hq, rfl⟩ := h
  have hmem : ll ∈ q := hq.mem_iff.mpr (mem_seqList hlt)
  have hlen : q.length = k := by rw [hq.length_eq, length_seqList]
  refine ⟨?_, List.mem_append_left _ hmem, ?_, toFront q ll, (toFront_perm hmem).trans hq,
    toFront_append hmem _⟩
  · rw [List.length_append, hlen, List.length_replicate]
    omega
  · rw [List.idxOf_append_of_mem hmem, ← hlen]
    exact List.idxOf_lt_length_of_mem hmem

/-- **Both searches find a number in use**, and before the padding. -/
theorem Listed.steps {k : Nat} {yy : List Byte} (h : Listed k yy) (hk : k ≤ 256) {ll : Byte}
    (hlt : ll.toNat < k) (hne : yy.getD 0 0 ≠ ll) :
    ∃ yy' pos, sse2Step yy ll = (yy', pos) ∧ scalarStep yy ll = (yy', pos) ∧ pos < k ∧
      yy.getD pos 0 = ll ∧ Listed k yy' := by
  obtain ⟨hlen, hmem, hidx, hl⟩ := h.move hk hlt
  refine ⟨_, _, sse2Step_eq hlen hmem, scalarStep_eq hmem hne, hidx, ?_, hl⟩
  rw [List.getD_eq_getElem _ _ (List.idxOf_lt_length_of_mem hmem), List.getElem_idxOf]

/-! ## 4. What has been written -/

section

variable {M : Type} [MtfArrays M]

/-- The symbols `syms` have been written since the arrays were `a₀`: they stand in `mtfv`, they are
    counted up to `EOB`, and the entries of `ptr` not yet reached are as they were. -/
structure MtfLoop.Wrote (a₀ : M) (eob : Nat) (l : MtfLoop M) (syms : List Nat) : Prop where
  wr : l.wr = syms.length
  mtfv : ∀ w : Nat, w < syms.length → (MtfArrays.mtfv l.arrays w).toNat = syms.getD w 0
  freq : ∀ v : Nat, v ≤ eob → l.mtfFreq v = syms.count v
  ptr : ∀ i : Nat, syms.length ≤ 2 * i → MtfArrays.ptr l.arrays i = MtfArrays.ptr a₀ i

@[simp] theorem MtfLoop.put_zPend (l : MtfLoop M) (v : Int) : (l.put v).zPend = l.zPend := rfl

variable [LawfulMtfArrays M] {a₀ : M} {eob : Nat}

namespace MtfLoop

/-- **One symbol more.** -/
theorem Wrote.put {l : MtfLoop M} {syms : List Nat} (h : l.Wrote a₀ eob syms) {v : Nat}
    (hv : v < 65536) : (l.put v).Wrote a₀ eob (syms ++ [v]) := by
  have htoNat : (BitVec.ofInt 16 (v : Int)).toNat = v := by
    rw [BitVec.toNat_ofInt]
    omega
  unfold MtfLoop.put
  refine ⟨?_, fun w hw => ?_, fun u hu => ?_, fun i hi => ?_⟩
  · rw [List.length_append, ← h.wr]
    rfl
  · dsimp only
    rw [LawfulMtfArrays.mtfv_put, h.wr]
    rw [List.length_append, List.length_singleton] at hw
    by_cases e : w = syms.length
    · rw [if_pos (by omega), htoNat, e, List.getD_append_right _ _ _ _ (Nat.le_refl _), Nat.sub_self]
      rfl
    · rw [if_neg (by omega), h.mtfv w (by omega), List.getD_append _ _ _ _ (by omega)]
  · dsimp only
    rw [List.count_append, List.count_singleton]
    by_cases e : u = v
    · rw [e, Cells.get_set_self, h.freq v (by omega)]
      simp
    · rw [Cells.get_set_of_ne _ (by omega), h.freq u hu]
      simp [Ne.symm e]
  · dsimp only
    rw [List.length_append, List.length_singleton] at hi
    rw [LawfulMtfArrays.ptr_put _ _ _ _ (by rw [h.wr]; omega), h.ptr i (by omega)]

/-- The loop over the digits of a run writes them all. -/
theorem Wrote.putRun : ∀ (fuel z : Nat) (l : MtfLoop M) (syms : List Nat), z < fuel →
    l.Wrote a₀ eob syms →
    (Qbz2.putRun fuel z l).Wrote a₀ eob (syms ++ digits (z + 1)) ∧
      (Qbz2.putRun fuel z l).yy = l.yy := by
  intro fuel
  induction fuel with
  | zero => intro z l syms h _; omega
  | succ fuel ih =>
    intro z l syms hz h
    -- the digit, whichever it is
    obtain ⟨l', hl', hw, hyy⟩ : ∃ l' : MtfLoop M,
        (if z % 2 = 1 then l.put bzRunB else l.put bzRunA) = l' ∧
          l'.Wrote a₀ eob (syms ++ [z % 2]) ∧ l'.yy = l.yy := by
      by_cases h1 : z % 2 = 1
      · exact ⟨_, if_pos h1, by rw [h1]; exact h.put (v := 1) (by decide), rfl⟩
      · have h0 : z % 2 = 0 := by omega
        exact ⟨_, if_neg h1, by rw [h0]; exact h.put (v := 0) (by decide), rfl⟩
    unfold Qbz2.putRun
    dsimp only
    rw [hl', digits_succ]
    by_cases h2 : z < 2
    · have e : z / 2 = 0 := by omega
      rw [if_pos h2, e, digits_zero]
      exact ⟨hw, hyy⟩
    · obtain ⟨hw', hyy'⟩ := ih ((z - 2) / 2) l' _ (by omega) hw
      have e : (z - 2) / 2 + 1 = z / 2 := by omega
      rw [if_neg h2]
      rw [e, List.append_assoc] at hw'
      exact ⟨hw', hyy'.trans hyy⟩

/-- The pending run is written and nothing is pending then. -/
theorem Wrote.flushRun {l : MtfLoop M} {syms : List Nat} (h : l.Wrote a₀ eob syms) :
    l.flushRun.Wrote a₀ eob (syms ++ digits l.zPend) ∧ l.flushRun.yy = l.yy ∧
      l.flushRun.zPend = 0 := by
  unfold MtfLoop.flushRun
  by_cases h0 : l.zPend > 0
  · obtain ⟨hw, hyy⟩ := h.putRun l.zPend (l.zPend - 1) l syms (by omega)
    rw [Nat.sub_add_cancel h0] at hw
    rw [if_pos h0]
    exact ⟨⟨hw.wr, hw.mtfv, hw.freq, hw.ptr⟩, hyy, rfl⟩
  · have e : l.zPend = 0 := by omega
    rw [if_neg h0, e, digits_zero, List.append_nil]
    exact ⟨h, rfl, rfl⟩

end MtfLoop

/-! ## 5. The loop over the block -/

/-- The invariant of the loop over the block, the column being `col` and `i` bytes of it done. -/
structure Coding (a₀ : M) (k : Nat) (col : List Byte) (i : Nat) (l : MtfLoop M) (q : List Byte)
    (syms : List Nat) : Prop where
  wrote : l.Wrote a₀ (k + 1) syms
  yy : l.yy = q ++ List.replicate (272 - k) 0xff
  perm : q.Perm (seqList k)
  behind : syms.length + l.zPend ≤ i
  rest : syms ++ coded q l.zPend (col.drop i) = coded (seqList k) 0 col

/-- **One byte of the column.** -/
theorem Coding.body {k : Nat} {col : List Byte} {i : Nat} {l : MtfLoop M} {q : List Byte}
    {syms : List Nat} (h : Coding a₀ k col i l q syms) (sse2 : Bool) (block : Cells Byte)
    (nblock : Nat) (unseqToSeq : Cells Byte) (hk : k ≤ 256) (hi : i < col.length)
    (hlt : col[i].toNat < k)
    (hcol : col[i] = unseqToSeq (block (if MtfArrays.ptr a₀ i - 1 < 0
      then MtfArrays.ptr a₀ i - 1 + nblock else MtfArrays.ptr a₀ i - 1)).toNat) :
    ∃ q' syms', Coding a₀ k col (i + 1) (mtfBody sse2 block nblock unseqToSeq i l) q' syms' := by
  have hrest := h.rest
  have hbehind := h.behind
  rw [List.drop_eq_getElem_cons hi] at hrest
  generalize col[i] = c at hlt hcol hrest
  have hmem : c ∈ q := h.perm.mem_iff.mpr (mem_seqList hlt)
  obtain ⟨a, q₀, rfl⟩ : ∃ a q₀, q = a :: q₀ := by
    cases q with
    | nil => cases hmem
    | cons a q₀ => exact ⟨a, q₀, rfl⟩
  have hfront : l.yy.getD 0 0 = a := by rw [h.yy]; rfl
  have hL : Listed k l.yy := ⟨_, h.perm, h.yy⟩
  obtain ⟨hlen, hmem', _, _⟩ := hL.move hk hlt
  unfold mtfBody
  dsimp only
  rw [h.wrote.ptr i (by omega), ← hcol, hfront]
  rw [coded_cons] at hrest
  by_cases he : a = c
  · rw [if_pos (by rw [he]; rfl : (a :: q₀).head? = some c)] at hrest
    rw [if_pos he]
    exact ⟨_, syms, ⟨h.wrote.wr, h.wrote.mtfv, h.wrote.freq, h.wrote.ptr⟩, h.yy, h.perm,
      by dsimp only; omega, hrest⟩
  · rw [if_neg (fun e : (a :: q₀).head? = some c => he (Option.some.inj e))] at hrest
    rw [if_neg he]
    obtain ⟨hw, hyy, hz⟩ := h.wrote.flushRun
    rw [hyy, mtfStep_eq sse2 hlen hmem' (by rw [hfront]; exact he), h.yy,
      List.idxOf_append_of_mem hmem, toFront_append hmem]
    dsimp only
    have hidx := List.idxOf_lt_length_of_mem hmem
    have hq := h.perm.length_eq
    rw [length_seqList] at hq
    have hmove : ({ l.flushRun with
        yy := toFront (a :: q₀) c ++ List.replicate (272 - k) 0xff } : MtfLoop M).Wrote a₀ (k + 1)
        (syms ++ digits l.zPend) := ⟨hw.wr, hw.mtfv, hw.freq, hw.ptr⟩
    have hput := hmove.put (v := (a :: q₀).idxOf c + 1) (by omega)
    have hd := length_digits_le l.zPend
    refine ⟨toFront (a :: q₀) c, _, hput, rfl, (toFront_perm hmem).trans h.perm, ?_, ?_⟩
    · rw [MtfLoop.put_zPend, List.length_append, List.length_append, List.length_singleton]
      dsimp only
      omega
    · rw [MtfLoop.put_zPend]
      dsimp only
      rw [hz, ← hrest]
      simp only [List.append_assoc, List.singleton_append]

/-- The last column of the block, in sequence numbers. -/
def seqColumn (inUse : Cells Bool) (last : Nat → Byte) (n : Nat) : List Byte :=
  (List.range n).map fun i => seqOf inUse (last i)

@[simp] theorem length_seqColumn (inUse : Cells Bool) (last : Nat → Byte) (n : Nat) :
    (seqColumn inUse last n).length = n := by
  rw [seqColumn, List.length_map, List.length_range]

theorem getElem_seqColumn (inUse : Cells Bool) (last : Nat → Byte) (n : Nat) {i : Nat}
    (h : i < (seqColumn inUse last n).length) : (seqColumn inUse last n)[i] = seqOf inUse (last i) := by
  simp only [seqColumn, List.getElem_map, List.getElem_range]

/-- The loop over the block after `i` rounds. -/
def mtfRounds (sse2 : Bool) (block : Cells Byte) (nblock : Nat) (inUse : Cells Bool)
    (s : MtfValues M) (i : Nat) : MtfLoop M :=
  let s := makeMapsE inUse s
  forUpto i (mtfBody sse2 block nblock s.unseqToSeq)
    { arrays := s.arrays
      mtfFreq := s.mtfFreq.fill 0 (s.nInUse + 1 + 1) 0
      yy := mtfInit s.nInUse
      zPend := 0
      wr := 0 }

omit [LawfulMtfArrays M] in
theorem generateMTFValues_rounds (sse2 : Bool) (block : Cells Byte) (nblock : Nat)
    (inUse : Cells Bool) (s : MtfValues M) :
    generateMTFValues sse2 block nblock inUse s =
      let l := (mtfRounds sse2 block nblock inUse s nblock).flushRun.put
        (((makeMapsE inUse s).nInUse + 1 : Nat) : Int)
      { makeMapsE inUse s with arrays := l.arrays, mtfFreq := l.mtfFreq, nMTF := l.wr } := rfl

section

variable {block : Cells Byte} {n : Nat} {inUse : Cells Bool} {s : MtfValues M} {last : Nat → Byte}

omit [LawfulMtfArrays M] in
/-- The byte of row `i` as `unseqToSeq` numbers it. -/
theorem unseqToSeq_last
    (hlast : ∀ i, i < n → last i = block (if MtfArrays.ptr s.arrays i - 1 < 0
      then MtfArrays.ptr s.arrays i - 1 + n else MtfArrays.ptr s.arrays i - 1))
    (hused : ∀ i, i < n → inUse (last i).toNat) {i : Nat} (hi : i < n) :
    seqOf inUse (last i) = (makeMapsE inUse s).unseqToSeq
      (block (if MtfArrays.ptr s.arrays i - 1 < 0 then MtfArrays.ptr s.arrays i - 1 + n
        else MtfArrays.ptr s.arrays i - 1)).toNat := by
  obtain ⟨_, _, _, hseq⟩ := makeMapsE_spec inUse s
  rw [← hlast i hi, hseq _ (last i).isLt (hused i hi)]
  rfl

/-- **Every round keeps the invariant.** -/
theorem coding_rounds (sse2 : Bool)
    (hlast : ∀ i, i < n → last i = block (if MtfArrays.ptr s.arrays i - 1 < 0
      then MtfArrays.ptr s.arrays i - 1 + n else MtfArrays.ptr s.arrays i - 1))
    (hused : ∀ i, i < n → inUse (last i).toNat) {i : Nat} (hi : i ≤ n) :
    ∃ q syms, Coding s.arrays (usedBytes inUse).length (seqColumn inUse last n) i
      (mtfRounds sse2 block n inUse s i) q syms := by
  obtain ⟨hn, ha, _, _⟩ := makeMapsE_spec inUse s
  have h256 := length_usedBytes_le inUse
  refine forUpto_inv (fun i t => ∃ q syms, Coding s.arrays (usedBytes inUse).length
    (seqColumn inUse last n) i t q syms) ?_ i fun i' t hi' ⟨q, syms, ht⟩ => ?_
  · refine ⟨seqList (usedBytes inUse).length, [], ⟨rfl, fun w hw => absurd hw (Nat.not_lt_zero w),
      fun v hv => ?_, fun i _ => by rw [ha]⟩, ?_, .refl _, Nat.le_refl 0, rfl⟩
    · dsimp only
      rw [Cells.get_fill, if_pos (by omega)]
      rfl
    · dsimp only
      rw [hn]
      rfl
  · have hi'' : i' < (seqColumn inUse last n).length := by rw [length_seqColumn]; omega
    refine ht.body sse2 block n _ h256 hi'' ?_ ?_
    · rw [getElem_seqColumn]
      exact (seqOf_lt (hused i' (by omega))).2
    · rw [getElem_seqColumn]
      exact unseqToSeq_last hlast hused (by omega)

end

/-- **What `generateMTFValues` writes**: the symbols of the last column and `EOB`, with their
    histogram in `mtfFreq`. `last i` is the byte before row `i`, and all of these are in use. -/
theorem generateMTFValues_spec (sse2 : Bool) (block : Cells Byte) (n : Nat) (inUse : Cells Bool)
    (s : MtfValues M) {last : Nat → Byte}
    (hlast : ∀ i, i < n → last i = block (if MtfArrays.ptr s.arrays i - 1 < 0
      then MtfArrays.ptr s.arrays i - 1 + n else MtfArrays.ptr s.arrays i - 1))
    (hused : ∀ i, i < n → inUse (last i).toNat) :
    (generateMTFValues sse2 block n inUse s).nInUse = (usedBytes inUse).length ∧
    (generateMTFValues sse2 block n inUse s).symbols =
      coded (seqList (usedBytes inUse).length) 0 (seqColumn inUse last n) ++
        [(usedBytes inUse).length + 1] ∧
    (∀ v : Nat, v ≤ (usedBytes inUse).length + 1 →
      (generateMTFValues sse2 block n inUse s).mtfFreq v =
        (generateMTFValues sse2 block n inUse s).symbols.count v) := by
  obtain ⟨q, syms, hc⟩ := coding_rounds sse2 hlast hused (Nat.le_refl n)
  obtain ⟨hn, _, _, _⟩ := makeMapsE_spec inUse s
  have h256 := length_usedBytes_le inUse
  obtain ⟨k, hk⟩ : ∃ k, k = (usedBytes inUse).length := ⟨_, rfl⟩
  obtain ⟨col, hcol⟩ : ∃ col, col = seqColumn inUse last n := ⟨_, rfl⟩
  have hclen : col.length = n := by rw [hcol, length_seqColumn]
  obtain ⟨l, hl⟩ : ∃ l, l = mtfRounds sse2 block n inUse s n := ⟨_, rfl⟩
  rw [← hk, ← hcol, ← hl] at hc
  rw [← hk] at hn h256 ⊢
  obtain ⟨hw, _, _⟩ := hc.wrote.flushRun
  have hrest := hc.rest
  rw [List.drop_eq_nil_of_le (by omega)] at hrest
  rw [coded_nil] at hrest
  rw [hrest] at hw
  have hput := hw.put (show k + 1 < 65536 by omega)
  have hgen : generateMTFValues sse2 block n inUse s =
      { makeMapsE inUse s with
        arrays := (l.flushRun.put ((k + 1 : Nat) : Int)).arrays
        mtfFreq := (l.flushRun.put ((k + 1 : Nat) : Int)).mtfFreq
        nMTF := (l.flushRun.put ((k + 1 : Nat) : Int)).wr } := by
    rw [generateMTFValues_rounds, ← hl, hn]
  rw [hgen, ← hcol]
  generalize l.flushRun.put ((k + 1 : Nat) : Int) = t at hput
  generalize makeMapsE inUse s = m at hn ⊢
  have hsyms : MtfValues.symbols { m with arrays := t.arrays, mtfFreq := t.mtfFreq, nMTF := t.wr } =
      coded (seqList k) 0 col ++ [k + 1] := by
    unfold MtfValues.symbols
    dsimp only
    rw [hput.wr]
    refine List.ext_getElem (by simp) fun w h1 h2 => ?_
    rw [List.getElem_map, List.getElem_range, hput.mtfv w h2, List.getD_eq_getElem _ _ h2]
  refine ⟨hn, hsyms, fun v hv => ?_⟩
  rw [hsyms]
  exact hput.freq v hv

/-! ## 6. Both builds -/

/-- In a state the loop comes to, a round is the same in both builds. -/
theorem Coding.body_agree {k : Nat} {col : List Byte} {i : Nat} {l : MtfLoop M} {q : List Byte}
    {syms : List Nat} (h : Coding a₀ k col i l q syms) (block : Cells Byte) (nblock : Nat)
    (unseqToSeq : Cells Byte) (hk : k ≤ 256) (hi : i < col.length) (hlt : col[i].toNat < k)
    (hcol : col[i] = unseqToSeq (block (if MtfArrays.ptr a₀ i - 1 < 0
      then MtfArrays.ptr a₀ i - 1 + nblock else MtfArrays.ptr a₀ i - 1)).toNat) :
    mtfBody true block nblock unseqToSeq i l = mtfBody false block nblock unseqToSeq i l := by
  have hbehind := h.behind
  generalize col[i] = c at hlt hcol
  obtain ⟨hlen, hmem, _, _⟩ := Listed.move ⟨_, h.perm, h.yy⟩ hk hlt
  unfold mtfBody
  dsimp only
  rw [h.wrote.ptr i (by omega), ← hcol]
  split
  · rfl
  · rename_i hne
    obtain ⟨_, hyy, _⟩ := h.wrote.flushRun
    rw [hyy, mtfStep_eq true hlen hmem hne, mtfStep_eq false hlen hmem hne]

/-- **The list in both builds.** From any list of the numbers in use and the padding, the search by
    chunks and the rotation find the same place, among the numbers in use, and leave the same list
    (a search through all 17 chunks in vain would answer 272, a rotation in vain more); and over a
    whole block both builds go through the same states, each with such a list. -/
theorem mtfSteps_agree (k : Nat) (h256 : k ≤ 256) :
    Listed k (mtfInit k) ∧
    (∀ (yy : List Byte) (ll : Byte), Listed k yy → ll.toNat < k → yy.getD 0 0 ≠ ll →
      ∃ yy' pos, sse2Step yy ll = (yy', pos) ∧ scalarStep yy ll = (yy', pos) ∧ pos < k ∧
        yy.getD pos 0 = ll ∧ Listed k yy') ∧
    ∀ (block : Cells Byte) (n : Nat) (inUse : Cells Bool) (s : MtfValues Arr1),
      (usedBytes inUse).length = k →
      (∀ i : Nat, i < n → inUse (block (if MtfArrays.ptr s.arrays i - 1 < 0
        then MtfArrays.ptr s.arrays i - 1 + n else MtfArrays.ptr s.arrays i - 1)).toNat) →
      ∀ i, i ≤ n → mtfRounds true block n inUse s i = mtfRounds false block n inUse s i ∧
        ∀ sse2, Listed k (mtfRounds sse2 block n inUse s i).yy := by
  refine ⟨listed_mtfInit k, fun yy ll h hlt hne => h.steps h256 hlt hne, ?_⟩
  intro block n inUse s hk hused
  obtain ⟨last, hlast⟩ : ∃ last : Nat → Byte, last = fun i : Nat =>
    block (if MtfArrays.ptr s.arrays i - 1 < 0 then MtfArrays.ptr s.arrays i - 1 + n
      else MtfArrays.ptr s.arrays i - 1) := ⟨_, rfl⟩
  have hlast' : ∀ i, i < n → last i = block (if MtfArrays.ptr s.arrays i - 1 < 0
      then MtfArrays.ptr s.arrays i - 1 + n else MtfArrays.ptr s.arrays i - 1) :=
    fun i _ => by rw [hlast]
  have hused' : ∀ i, i < n → inUse (last i).toNat := fun i hi => by rw [hlast]; exact hused i hi
  have hstate : ∀ (sse2 : Bool) i, i ≤ n → ∃ q syms, Coding s.arrays k (seqColumn inUse last n) i
      (mtfRounds sse2 block n inUse s i) q syms := fun sse2 i hi => by
    rw [← hk]
    exact coding_rounds sse2 hlast' hused' hi
  intro i hi
  refine ⟨?_, fun sse2 => ?_⟩
  · induction i with
    | zero => rfl
    | succ i ih =>
      obtain ⟨q, syms, hc⟩ := hstate false i (by omega)
      have hi' : i < (seqColumn inUse last n).length := by rw [length_seqColumn]; omega
      have hround : ∀ sse2, mtfRounds sse2 block n inUse s (i + 1) =
        mtfBody sse2 block n (makeMapsE inUse s).unseqToSeq i (mtfRounds sse2 block n inUse s i) :=
        fun _ => rfl
      rw [hround, hround, ih (by omega)]
      refine hc.body_agree block n _ h256 hi' ?_ ?_
      · rw [getElem_seqColumn, ← hk]
        exact (seqOf_lt (hused' i (by omega))).2
      · rw [getElem_seqColumn]
        exact unseqToSeq_last hlast' hused' (by omega)
  · obtain ⟨q, syms, hc⟩ := hstate sse2 i hi
    exact ⟨q, hc.perm, hc.yy⟩

/-- All 256 numbers in use: 255 is one of them, and the padding too. -/
theorem mtfSteps_agree_full :
    ∃ yy' pos, sse2Step (mtfInit 256) 255 = (yy', pos) ∧ scalarStep (mtfInit 256) 255 = (yy', pos) ∧
      pos < 256 := by
  obtain ⟨h0, hstep, _⟩ := mtfSteps_agree 256 (by decide)
  obtain ⟨yy', pos, h2, h3, hpos, _⟩ := hstep (mtfInit 256) 255 h0 (by decide) (by decide)
  exact ⟨yy', pos, h2, h3, hpos⟩

end

end Qbz2
