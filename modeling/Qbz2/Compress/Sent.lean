/-
  File:      Qbz2/Compress/Sent.lean
  Subject:   `sendMTFValues` returns for every block, and what it writes.

  * `groupsOf_spec` -- the groups of 50; `pickTable_spec` -- a group always gets a table, since every
    cost has 16 bits;
  * `Chosen` -- the invariant of the choices: as many selectors as groups, each below `nGroups`, and
    no table counts more symbols than there were;
  * `iterations_ok`, `assignAll_ok`, `dataWrites_ok` -- no check of theirs fails;
  * **`sendMTFValues_spec`**.
-/
import Mathlib.Algebra.BigOperators.Group.Finset.Piecewise
import Qbz2.Compress.Assign
import Qbz2.Compress.CompleteCode
import Qbz2.Compress.MtfSymbols

namespace Qbz2

open Loop (forUpto)

/-! ## 1. The groups -/

/-- The groups of `BZ_G_SIZE`: none is empty or longer, and together they are the symbols. -/
theorem groupsOf_spec : ∀ (fuel : Nat) (mtfv : List Nat), mtfv.length ≤ fuel →
    (groupsOf fuel mtfv).flatten = mtfv ∧ (groupsOf fuel mtfv).length = (mtfv.length + 49) / 50 := by
  intro fuel
  induction fuel with
  | zero =>
    intro mtfv h
    obtain rfl := List.length_eq_zero_iff.mp (Nat.le_zero.mp h)
    exact ⟨rfl, rfl⟩
  | succ fuel ih =>
    intro mtfv h
    unfold groupsOf
    by_cases h0 : mtfv = []
    · rw [if_pos h0, h0]
      exact ⟨rfl, rfl⟩
    · rw [if_neg h0]
      have hpos := List.length_pos_iff.mpr h0
      have hdrop : (mtfv.drop bzGSize).length = mtfv.length - 50 := List.length_drop
      obtain ⟨h1, h2⟩ := ih (mtfv.drop bzGSize) (by omega)
      refine ⟨?_, ?_⟩
      · rw [List.flatten_cons, h1, List.take_append_drop]
      · rw [List.length_cons, h2, hdrop]
        omega

/-! ## 2. The choice of a table -/

/-- The loop over the costs, from table `k` on. -/
theorem pickTable_fold : ∀ (cost : List (BitVec 16)) (k : Nat) (s : Nat × Int),
    (∃ t : Nat, t < k ∧ s.2 = t) ∨ cost ≠ [] ∧ s.1 = 999999999 →
    ∃ t : Nat, t < k + cost.length ∧
      ((cost.zipIdx k).foldl
        (fun s x => if x.1.toNat < s.1 then (x.1.toNat, (x.2 : Int)) else s) s).2 = t := by
  intro cost
  induction cost with
  | nil =>
    intro k s h
    rcases h with ⟨t, ht, hs⟩ | ⟨h, _⟩
    · exact ⟨t, by omega, hs⟩
    · exact absurd rfl h
  | cons x cost ih =>
    intro k s h
    rw [List.zipIdx_cons, List.foldl_cons, List.length_cons]
    dsimp only
    have hnext : ∃ t : Nat, t < k + 1 ∧
        (if x.toNat < s.1 then (x.toNat, (k : Int)) else s).2 = t := by
      by_cases hx : x.toNat < s.1
      · rw [if_pos hx]
        exact ⟨k, Nat.lt_succ_self k, rfl⟩
      · rw [if_neg hx]
        rcases h with ⟨t, ht, hs⟩ | ⟨_, h⟩
        · exact ⟨t, by omega, hs⟩
        · have := x.isLt
          omega
    obtain ⟨t, ht, he⟩ := ih (k + 1) _ (.inl hnext)
    exact ⟨t, by omega, he⟩

/-- **A group gets a table.** -/
theorem pickTable_spec {cost : List (BitVec 16)} (h : cost ≠ []) :
    ∃ t : Nat, t < cost.length ∧ (pickTable cost).2 = t := by
  obtain ⟨t, ht, he⟩ := pickTable_fold cost 0 (999999999, -1) (.inr ⟨h, rfl⟩)
  exact ⟨t, by omega, he⟩

theorem length_costs (nGroups : Nat) (len : List (Cells Nat)) (grp : List Nat) :
    (costs nGroups len grp).length = nGroups := by
  unfold costs
  split
  · rename_i h
    rw [h.1]
    rfl
  · rw [generalCosts, List.length_map, List.length_range]

/-! ## 3. The counts -/

theorem range_getD (grp : List Nat) :
    (List.range grp.length).map (fun nn => grp.getD nn 0) = grp := by
  refine List.ext_getElem (by rw [List.length_map, List.length_range]) fun i h₁ h₂ => ?_
  rw [List.getElem_map, List.getElem_range, List.getD_eq_getElem _ _ h₂]

/-- The unrolled loop counts what the other does. -/
theorem countGroupUnrolled_eq {grp : List Nat} (h : 50 = grp.length) (row : Cells Nat) :
    countGroupUnrolled grp row = countGroup grp row := by
  unfold countGroupUnrolled countGroup
  conv_rhs => rw [← range_getD grp]
  rw [List.foldl_map, h]

/-- A symbol counted. -/
theorem sum_count (alphaSize v : Nat) (row : Cells Nat) :
    ∑ i ∈ Finset.range alphaSize, (row.set v (row v + 1)) i ≤
      ∑ i ∈ Finset.range alphaSize, row i + 1 := by
  have hcell : ∀ i : Nat, (row.set v (row v + 1)) i = row i + if v = i then 1 else 0 := by
    intro i
    rw [Cells.get_set]
    by_cases h : v = i
    · subst h
      rw [if_pos rfl, if_pos rfl]
    · rw [if_neg (by omega), if_neg h]
      rfl
  rw [Finset.sum_congr rfl fun i _ => hcell i, Finset.sum_add_distrib, Finset.sum_ite_eq]
  split
  · exact Nat.le_refl _
  · exact Nat.le_succ _

theorem sum_countGroup (alphaSize : Nat) (grp : List Nat) : ∀ row : Cells Nat,
    ∑ i ∈ Finset.range alphaSize, countGroup grp row i ≤
      ∑ i ∈ Finset.range alphaSize, row i + grp.length := by
  induction grp with
  | nil => exact fun _ => Nat.le_refl _
  | cons v grp ih =>
    intro row
    have h1 := ih (row.set v (row v + 1))
    have h2 := sum_count alphaSize v row
    rw [List.length_cons]
    exact Nat.le_trans h1 (by omega)

/-- The choices made for `k` groups of `m` symbols in all. -/
structure Chosen (nGroups alphaSize k m : Nat) (s : List Byte × List (Cells Nat)) : Prop where
  count : s.1.length = k
  lt : ∀ sel ∈ s.1, sel.toNat < nGroups
  rows : s.2.length = nGroups
  sum : ∀ t, ∑ i ∈ Finset.range alphaSize, rowAt s.2 t i ≤ m

theorem chosen_start (nGroups alphaSize : Nat) :
    Chosen nGroups alphaSize 0 0 ([], List.replicate nGroups zeros) := by
  refine ⟨rfl, nofun, List.length_replicate, fun t => ?_⟩
  have hrow : rowAt (List.replicate nGroups zeros) t = zeros := by
    unfold rowAt
    rw [List.getD_eq_getElem?_getD, List.getElem?_replicate]
    split <;> rfl
  rw [hrow]
  exact Nat.le_of_eq (Finset.sum_const_zero)

theorem Chosen.choose {nGroups alphaSize k m : Nat} {s : List Byte × List (Cells Nat)}
    (h : Chosen nGroups alphaSize k m s) (hg : 1 ≤ nGroups) (hg6 : nGroups ≤ 6)
    (len : List (Cells Nat)) (grp : List Nat) :
    Chosen nGroups alphaSize (k + 1) (m + grp.length) (chooseTable nGroups len s grp) := by
  have hlen := length_costs nGroups len grp
  have hne : costs nGroups len grp ≠ [] := fun h0 => by
    rw [h0, List.length_nil] at hlen
    omega
  obtain ⟨t, ht, hpick⟩ := pickTable_spec hne
  rw [hlen] at ht
  unfold chooseTable
  dsimp only
  rw [hpick, Int.toNat_natCast]
  have hrow : (if nGroups = 6 ∧ 50 = grp.length then countGroupUnrolled grp (rowAt s.2 t)
      else countGroup grp (rowAt s.2 t)) = countGroup grp (rowAt s.2 t) := by
    split
    · rename_i h50
      exact countGroupUnrolled_eq h50.2 _
    · rfl
  rw [hrow]
  refine ⟨?_, fun sel hs => ?_, ?_, fun t' => ?_⟩
  · rw [List.length_append, h.count]
    rfl
  · rcases List.mem_append.mp hs with hs | hs
    · exact h.lt sel hs
    · rw [List.mem_singleton.mp hs, BitVec.toNat_ofInt]
      omega
  · rw [List.length_set, h.rows]
  · by_cases he : t' = t
    · have hget : rowAt (s.2.set t (countGroup grp (rowAt s.2 t))) t' =
          countGroup grp (rowAt s.2 t) := by
        unfold rowAt
        rw [he, List.getD_eq_getElem?_getD, List.getElem?_set_self (by rw [h.rows]; exact ht)]
        rfl
      rw [hget]
      exact Nat.le_trans (sum_countGroup alphaSize grp _) (Nat.add_le_add_right (h.sum t) _)
    · have hget : rowAt (s.2.set t (countGroup grp (rowAt s.2 t))) t' = rowAt s.2 t' := by
        unfold rowAt
        rw [List.getD_eq_getElem?_getD, List.getElem?_set_ne (Ne.symm he),
          ← List.getD_eq_getElem?_getD]
      rw [hget]
      exact Nat.le_trans (h.sum t') (Nat.le_add_right _ _)

theorem Chosen.chooseAll {nGroups alphaSize : Nat} (hg : 1 ≤ nGroups) (hg6 : nGroups ≤ 6)
    (len : List (Cells Nat)) (groups : List (List Nat)) :
    ∀ {k m : Nat} {s : List Byte × List (Cells Nat)}, Chosen nGroups alphaSize k m s →
      Chosen nGroups alphaSize (k + groups.length) (m + groups.flatten.length)
        (groups.foldl (chooseTable nGroups len) s) := by
  induction groups with
  | nil => exact fun h => h
  | cons grp groups ih =>
    intro k m s h
    have := ih (h.choose hg hg6 len grp)
    rw [List.length_cons, List.flatten_cons, List.length_append]
    rw [show k + 1 + groups.length = k + (groups.length + 1) by omega,
      show m + grp.length + groups.flatten.length = m + (grp.length + groups.flatten.length) by omega]
      at this
    exact this

/-! ## 4. The lengths -/

/-- **No round of `BZ2_hbMakeCodeLengths` fails**, and every table is a complete code. -/
theorem remakeLengths_ok {alphaSize : Nat} (h3 : 3 ≤ alphaSize) (h258 : alphaSize ≤ 258)
    {rfreq : List (Cells Nat)}
    (hsum : ∀ t, ∑ i ∈ Finset.range alphaSize, rowAt rfreq t i ≤ 900001) :
    ∀ (rows : List (Cells Nat)) (t : Nat), ∃ len, remakeLengths alphaSize rfreq t rows = .ok len ∧
      len.length = rows.length ∧ ∀ row ∈ len, CompleteCode alphaSize 17 row := by
  intro rows
  induction rows with
  | nil => exact fun _ => ⟨[], rfl, rfl, nofun⟩
  | cons row rows ih =>
    intro t
    obtain ⟨row', hrow, hcode⟩ := hbMakeCodeLengths_ok zeros zeros (.ofFn fun _ => 0) row
      (rowAt rfreq t) h3 h258 (hsum t)
    obtain ⟨len, hlen, hl, hall⟩ := ih (t + 1)
    refine ⟨row' :: len, ?_, congrArg (· + 1) hl, fun r hr => ?_⟩
    · rw [remakeLengths, hrow]
      show (remakeLengths alphaSize rfreq (t + 1) rows >>= _) = _
      rw [hlen]
      rfl
    · rcases List.mem_cons.mp hr with rfl | hr
      · exact hcode
      · exact hall r hr

/-- What the iterations leave. -/
structure Tabled (nGroups alphaSize count : Nat) (s : List Byte × List (Cells Nat)) : Prop where
  count : s.1.length = count
  lt : ∀ sel ∈ s.1, sel.toNat < nGroups
  rows : s.2.length = nGroups
  complete : ∀ row ∈ s.2, CompleteCode alphaSize 17 row

section

variable {nGroups alphaSize : Nat} {groups : List (List Nat)}

theorem iteration_ok (hg : 1 ≤ nGroups) (hg6 : nGroups ≤ 6) (h3 : 3 ≤ alphaSize)
    (h258 : alphaSize ≤ 258) (hmax : groups.flatten.length ≤ 900001) {len : List (Cells Nat)}
    (hlen : nGroups ≤ len.length) :
    ∃ s, iteration nGroups alphaSize groups len = .ok s ∧
      Tabled nGroups alphaSize groups.length s := by
  have hch := Chosen.chooseAll hg hg6 len groups (chosen_start nGroups alphaSize)
  rw [Nat.zero_add, Nat.zero_add] at hch
  obtain ⟨len', he, hl, hall⟩ := remakeLengths_ok h3 h258
    (fun t => Nat.le_trans (hch.sum t) hmax) (len.take nGroups) 0
  refine ⟨(_, len'), ?_, ⟨hch.count, hch.lt, ?_, hall⟩⟩
  · unfold iteration
    dsimp only
    rw [he]
    rfl
  · rw [hl, List.length_take]
    exact Nat.min_eq_left hlen

theorem iterations_ok (hg : 1 ≤ nGroups) (hg6 : nGroups ≤ 6) (h3 : 3 ≤ alphaSize)
    (h258 : alphaSize ≤ 258) (hmax : groups.flatten.length ≤ 900001) : ∀ (n : Nat)
    (s : List Byte × List (Cells Nat)), nGroups ≤ s.2.length →
    (n = 0 → Tabled nGroups alphaSize groups.length s) →
    ∃ s', iterations nGroups alphaSize groups n s = .ok s' ∧
      Tabled nGroups alphaSize groups.length s' := by
  intro n
  induction n with
  | zero => exact fun s _ h => ⟨s, rfl, h rfl⟩
  | succ n ih =>
    intro s hs _
    obtain ⟨s₁, he, ht⟩ := iteration_ok hg hg6 h3 h258 hmax hs
    obtain ⟨s', he', ht'⟩ := ih s₁ (Nat.le_of_eq ht.rows.symm) fun _ => ht
    refine ⟨s', ?_, ht'⟩
    rw [iterations, he]
    exact he'

theorem length_seedLoop (mtfFreq : Cells Int) : ∀ (n : Nat) (gs remF : Int) (len : List (Cells Nat)),
    (seedLoop mtfFreq alphaSize nGroups n gs remF len).length = len.length := by
  intro n
  induction n with
  | zero => exact fun _ _ _ => rfl
  | succ n ih =>
    intro gs remF len
    unfold seedLoop
    dsimp only
    rw [ih, List.length_set]

end

/-! ## 5. The coded selectors -/

/-- The list with a selector at the front. -/
def selectorFront (pos : List Byte) (sel : Byte) : List Byte :=
  sel :: (pos.take (pos.idxOf sel) ++ pos.drop (pos.idxOf sel + 1))

/-- One selector: its place in the list, and the list with it at the front. -/
theorem selectorMtfs_cons {pos : List Byte} {sel : Byte} (hm : sel ∈ pos) (selector : List Byte) :
    selectorMtfs pos (sel :: selector) =
      pos.idxOf sel :: selectorMtfs (selectorFront pos sel) selector := by
  have hlt := List.idxOf_lt_length_of_mem hm
  have hstart : pos = pos.getD 0 0 :: (pos.take 0 ++ pos.drop 1) := by
    cases pos with
    | nil => cases hm
    | cons a pos => rfl
  have hrot := rotateLoop_eq hm pos.length 0 (Nat.zero_le _) (by omega)
  rw [← hstart] at hrot
  rw [selectorMtfs, hrot]
  dsimp only
  rw [List.set_cons_zero, selectorFront]

theorem length_selectorFront {pos : List Byte} {sel : Byte} (hm : sel ∈ pos) :
    (selectorFront pos sel).length = pos.length := by
  have hlt := List.idxOf_lt_length_of_mem hm
  rw [selectorFront, List.length_cons, List.length_append, List.length_take, List.length_drop]
  omega

theorem mem_selectorFront {pos : List Byte} {sel x : Byte} (hm : sel ∈ pos) (hx : x ∈ pos) :
    x ∈ selectorFront pos sel := by
  unfold selectorFront
  by_cases hxs : x = sel
  · exact hxs ▸ List.mem_cons_self
  · have hsplit := List.take_append_drop (pos.idxOf sel) pos
    rw [← hsplit, List.drop_eq_getElem_cons (List.idxOf_lt_length_of_mem hm), List.getElem_idxOf,
      List.mem_append, List.mem_cons] at hx
    rw [List.mem_cons, List.mem_append]
    tauto

/-- The list the selectors start with has them all. -/
theorem mem_selectorStart {nGroups : Nat} {sel : Byte} (h : sel.toNat < nGroups) :
    sel ∈ (List.range nGroups).map (BitVec.ofNat 8) :=
  List.mem_map.mpr ⟨sel.toNat, List.mem_range.mpr h, by rw [BitVec.ofNat_toNat, BitVec.setWidth_eq]⟩

theorem length_selectorMtfs (selector : List Byte) : ∀ pos : List Byte,
    (selectorMtfs pos selector).length = selector.length := by
  induction selector with
  | nil => exact fun _ => rfl
  | cons sel selector ih =>
    intro pos
    rw [selectorMtfs]
    exact congrArg (· + 1) (ih _)

/-- A coded selector is a place in the list. -/
theorem selectorMtfs_lt : ∀ (selector pos : List Byte), (∀ sel ∈ selector, sel ∈ pos) →
    ∀ j ∈ selectorMtfs pos selector, j < pos.length := by
  intro selector
  induction selector with
  | nil => exact fun _ _ => nofun
  | cons sel selector ih =>
    intro pos hsel j hj
    have hm : sel ∈ pos := hsel sel List.mem_cons_self
    rw [selectorMtfs_cons hm] at hj
    rcases List.mem_cons.mp hj with rfl | hj
    · exact List.idxOf_lt_length_of_mem hm
    · rw [← length_selectorFront hm]
      exact ih _ (fun x hx => mem_selectorFront hm (hsel x (List.mem_cons_of_mem _ hx))) j hj

/-! ## 6. The codes -/

theorem lenBounds_complete {alphaSize : Nat} {row : Cells Nat} (h : CompleteCode alphaSize 17 row) :
    1 ≤ (lenBounds alphaSize row).1 ∧ (lenBounds alphaSize row).2 ≤ 17 := by
  unfold lenBounds
  refine Loop.forUpto_inv (fun _ (s : Nat × Nat) => 1 ≤ s.1 ∧ s.2 ≤ 17) ⟨by decide, by decide⟩
    alphaSize fun i s hi hs => ?_
  have hrow := h.range i hi
  dsimp only
  refine ⟨?_, ?_⟩
  · split
    · exact hrow.1
    · exact hs.1
  · split
    · exact hrow.2
    · exact hs.2

/-- The codes of a table. -/
def rowCodes (alphaSize : Nat) (row : Cells Nat) : Cells Nat :=
  hbAssignCodes zeros row (lenBounds alphaSize row).1 (lenBounds alphaSize row).2 alphaSize

/-- **A code fits in its length.** -/
theorem rowCodes_fit {alphaSize : Nat} {row : Cells Nat} (h : CompleteCode alphaSize 17 row) {v : Nat}
    (hv : v < alphaSize) : rowCodes alphaSize row v < 2 ^ row v := by
  have hbounds := lenBounds_spec alphaSize row
  have hspec := @hbAssignCodes_spec alphaSize (fun i : Nat => row i) row
    (lenBounds alphaSize row).1 (lenBounds alphaSize row).2 (fun _ _ => rfl)
    (fun j hj => (hbounds j hj).1) (fun j hj => (hbounds j hj).2) zeros v hv
  unfold rowCodes
  rw [hspec]
  exact code_fits (fun i hi => (h.range i hi).2) (Nat.le_of_eq h.kraft) hv

theorem assignAll_ok {alphaSize : Nat} : ∀ {len : List (Cells Nat)},
    (∀ row ∈ len, CompleteCode alphaSize 17 row) →
    assignAll alphaSize len = .ok (len.map (rowCodes alphaSize)) := by
  intro len
  induction len with
  | nil => exact fun _ => rfl
  | cons row len ih =>
    intro h
    obtain ⟨h1, h17⟩ := lenBounds_complete (h row List.mem_cons_self)
    have hmax : (!decide ((lenBounds alphaSize row).2 > 17)) = true := by
      rw [decide_eq_false (by omega)]
      rfl
    have hmin : (!decide ((lenBounds alphaSize row).1 < 1)) = true := by
      rw [decide_eq_false (by omega)]
      rfl
    rw [assignAll]
    dsimp only
    rw [hmax, hmin, ih fun r hr => h r (List.mem_cons_of_mem _ hr)]
    rfl

/-! ## 7. The symbols -/

/-- The symbols in the codes of their tables. -/
def symbolWrites (alphaSize : Nat) (len : List (Cells Nat)) :
    List (List Nat) → List Byte → List (Nat × Word32)
  | grp :: groups, sel :: selector =>
    grp.map (fun v : Nat =>
      (rowAt len sel.toNat v, BitVec.ofNat 32 (rowCodes alphaSize (rowAt len sel.toNat) v))) ++
      symbolWrites alphaSize len groups selector
  | _, _ => []

theorem groupWrites_eq (nGroups : Nat) (len code : Cells Nat) (grp : List Nat) :
    groupWrites nGroups len code grp =
      grp.map fun v : Nat => (len v, BitVec.ofNat 32 (code v)) := by
  unfold groupWrites
  split
  · rename_i h
    conv_rhs => rw [← range_getD grp]
    rw [List.map_map, ← h.2]
    rfl
  · rfl

theorem rowAt_map {len : List (Cells Nat)} {t : Nat} (ht : t < len.length)
    (f : Cells Nat → Cells Nat) : rowAt (len.map f) t = f (rowAt len t) := by
  unfold rowAt
  rw [List.getD_eq_getElem?_getD, List.getElem?_map, List.getElem?_eq_getElem ht,
    List.getD_eq_getElem _ _ ht]
  rfl

theorem dataWrites_ok {nGroups alphaSize : Nat} {len : List (Cells Nat)}
    (hlen : len.length = nGroups) : ∀ (groups : List (List Nat)) (selector : List Byte),
    selector.length = groups.length → (∀ sel ∈ selector, sel.toNat < nGroups) →
    dataWrites nGroups len (len.map (rowCodes alphaSize)) groups selector =
      .ok (symbolWrites alphaSize len groups selector, groups.length) := by
  intro groups
  induction groups with
  | nil =>
    intro selector _ _
    cases selector <;> rfl
  | cons grp groups ih =>
    intro selector hcount hlt
    cases selector with
    | nil => cases hcount
    | cons sel selector =>
      have hsel := hlt sel List.mem_cons_self
      have hdec : decide (sel.toNat < nGroups) = true := decide_eq_true hsel
      have hfirst : (sel :: selector).getD 0 0 = sel := rfl
      have hrest : (sel :: selector).drop 1 = selector := rfl
      rw [dataWrites]
      dsimp only
      rw [hfirst, hrest, hdec, ih selector (Nat.succ.inj hcount) fun x hx => hlt x (List.mem_cons_of_mem _ hx),
        groupWrites_eq, rowAt_map (by omega)]
      rfl

/-! ## 8. `sendMTFValues` -/

/-- **`sendMTFValues` returns**, for every block of symbols below `EOB`'s successor: with 2 to 6
    complete tables, a selector for each group, and the calls of `bsW` for both and the symbols. -/
theorem sendMTFValues_spec {mtfv : List Nat} (hne : mtfv ≠ []) (hmax : mtfv.length ≤ 900001)
    (mtfFreq : Cells Int) {nInUse : Nat} (h1 : 1 ≤ nInUse) (h256 : nInUse ≤ 256)
    (inUse : Cells Bool) :
    ∃ nGroups selector len, 2 ≤ nGroups ∧ nGroups ≤ 6 ∧
      Tabled nGroups (nInUse + 2) ((mtfv.length + 49) / 50) (selector, len) ∧
      sendMTFValues mtfv mtfFreq nInUse inUse = .ok (mappingWrites inUse ++
        selectorWrites nGroups
          (selectorMtfs ((List.range nGroups).map (BitVec.ofNat 8)) selector) ++
        lengthWrites (nInUse + 2) len ++
        symbolWrites (nInUse + 2) len (groupsOf mtfv.length mtfv) selector) := by
  have hpos := List.length_pos_iff.mpr hne
  obtain ⟨hflat, hcount⟩ := groupsOf_spec mtfv.length mtfv (Nat.le_refl _)
  obtain ⟨nGroups, hn⟩ : ∃ nGroups, nGroups = nGroupsFor mtfv.length := ⟨_, rfl⟩
  have hrange : 2 ≤ nGroups ∧ nGroups ≤ 6 := by
    rw [hn, nGroupsFor]
    split
    · decide
    · split
      · decide
      · split
        · decide
        · split <;> decide
  obtain ⟨⟨selector, len⟩, hit, ht⟩ := @iterations_ok nGroups (nInUse + 2)
    (groupsOf mtfv.length mtfv) (by omega) hrange.2 (by omega) (by omega)
    (by rw [hflat]; exact hmax) bzNIters
    ([], seedLoop mtfFreq (nInUse + 2) nGroups nGroups 0 mtfv.length
      (List.replicate bzNGroups (.ofFn fun _ => bzGreaterIcost)))
    (by rw [length_seedLoop, List.length_replicate]; exact hrange.2) (fun h => by cases h)
  have hsel : selector.length = (groupsOf mtfv.length mtfv).length := ht.count
  have h3003 : decide (selector.length < 32768 ∧ selector.length ≤ bzMaxSelectors) = true := by
    have h18 : bzMaxSelectors = 18002 := rfl
    exact decide_eq_true ⟨by omega, by omega⟩
  have h3001 : decide (mtfv.length > 0) = true := decide_eq_true hpos
  have h3002 : decide (nGroups < 8) = true := decide_eq_true (by omega)
  have h3007 : decide ((groupsOf mtfv.length mtfv).length = selector.length) = true :=
    decide_eq_true hsel.symm
  have hcodes := assignAll_ok ht.complete
  have hdata := @dataWrites_ok nGroups (nInUse + 2) len ht.rows (groupsOf mtfv.length mtfv) selector
    hsel ht.lt
  rw [hcount] at ht
  refine ⟨nGroups, selector, len, hrange.1, hrange.2, ht, ?_⟩
  unfold sendMTFValues
  dsimp only
  rw [h3001, ← hn, hit]
  show (huffAssert (decide (nGroups < 8)) 3002 >>= fun _ =>
    huffAssert (decide (selector.length < 32768 ∧ selector.length ≤ bzMaxSelectors)) 3003 >>= fun _ =>
      _) = _
  rw [h3002, h3003]
  show (assignAll (nInUse + 2) len >>= _) = _
  rw [hcodes]
  show (dataWrites nGroups len (len.map (rowCodes (nInUse + 2))) (groupsOf mtfv.length mtfv) selector
    >>= _) = _
  rw [hdata]
  show (huffAssert (decide ((groupsOf mtfv.length mtfv).length = selector.length)) 3007 >>= _) = _
  rw [h3007]
  rfl

end Qbz2
