/-
  File:      Qbz2/BlockSort/Fallback.lean
  Subject:   `fallbackSort` returns, sorts the rotations, and leaves the block as it was.

  * `holding_perm`, `holding_eq_of_none` -- what the byte counts say along the sorted rows;
  * `Rebuilding`, `rebuild_spec` -- the block, overwritten by the classes, is written back byte by
    byte: the next byte with a count left is the first byte of the next row;
  * **`fallbackSort_spec`**, `findRow_eq`;
  * `depthStart`, **`fallbackSort_sorts`** -- the sort, with every scan of the header bits stopped
    by a sentinel.
-/
import Qbz2.BlockSort.Depth

namespace Qbz2

open Loop Segment Rotation Counting

variable {s : Int → Nat} {n : Int}

/-! ## 1. Counts along the sorted rows -/

/-- A permutation of the cells keeps the counts. -/
theorem holding_perm {f : Int → Int} (hinj : InjOn 0 (n - 1) f)
    (hr : ∀ i, 0 ≤ i → i ≤ n - 1 → 0 ≤ f i ∧ f i ≤ n - 1) (b : Nat) :
    holding (fun p => s (f p)) n.toNat b = holding s n.toNat b := by
  unfold holding
  rw [Nat.count_eq_card_filter_range, Nat.count_eq_card_filter_range]
  refine Finset.card_nbij (fun x => (f x).toNat) (fun x hx => ?_) (fun x hx y hy e => ?_)
    (fun y hy => ?_)
  · simp only [Finset.coe_filter, Finset.mem_range, Set.mem_ofPred_eq] at hx ⊢
    obtain ⟨h1, h2⟩ := hr x (by omega) (by omega)
    rw [Int.toNat_of_nonneg h1]
    exact ⟨by omega, hx.2⟩
  · simp only [Finset.coe_filter, Finset.mem_range, Set.mem_ofPred_eq] at hx hy
    obtain ⟨h1, _⟩ := hr x (by omega) (by omega)
    obtain ⟨h2, _⟩ := hr y (by omega) (by omega)
    have := hinj x y (by omega) (by omega) (by omega) (by omega) (by dsimp only at e; omega)
    omega
  · simp only [Finset.coe_filter, Finset.mem_range, Set.mem_ofPred_eq] at hy
    obtain ⟨i, h1, h2, e⟩ := hits_of_injOn hinj hr (show (0 : Int) ≤ y by omega) (by omega)
    refine ⟨i.toNat, ?_, ?_⟩
    · simp only [Finset.coe_filter, Finset.mem_range, Set.mem_ofPred_eq]
      rw [Int.toNat_of_nonneg h1, e]
      exact ⟨by omega, hy.2⟩
    · dsimp only
      rw [Int.toNat_of_nonneg h1, e]
      rfl

/-- A byte that does not come again has been counted in full. -/
theorem holding_eq_of_none {i m b : Nat} (him : i ≤ m) (h : ∀ p : Nat, i ≤ p → p < m → s p ≠ b) :
    holding s m b = holding s i b := by
  induction m with
  | zero => rw [Nat.le_zero.mp him]
  | succ m ih =>
    by_cases e : i = m + 1
    · rw [e]
    · rw [holding_succ, if_neg (h m (by omega) (by omega)),
        ih (by omega) fun p h1 h2 => h p h1 (by omega)]
      omega

/-! ## 2. Rebuilding the block -/

/-- **The invariant of the rebuilding loop**: the counts of the rows to come, the current byte not
    above theirs, and the cells of the rows done. -/
structure Rebuilding (block : Cells Byte) (n : Int) (fmap : Cells Int)
    (t : Int × Int × Cells Int × Cells Byte) : Prop where
  i_nonneg : 0 ≤ t.1
  i_le : t.1 ≤ n
  j_nonneg : 0 ≤ t.2.1
  j_lt : t.2.1 < 256
  j_le : t.1 < n → t.2.1 ≤ sym block (fmap t.1)
  counts : ∀ b : Nat, b < 256 → t.2.2.1 b =
    (holding (fun p => sym block (fmap p)) n.toNat b : Int) -
      holding (fun p => sym block (fmap p)) t.1.toNat b
  cells : ∀ p, 0 ≤ p → p < t.1 → t.2.2.2 (fmap p) = block (fmap p)

/-- The first byte with a count left is that of the next row. -/
theorem nextByte_spec {block : Cells Byte} {fmap : Cells Int} (hR : RotSort (sym block) n fmap)
    {t : Int × Int × Cells Int × Cells Byte} (h : Rebuilding block n fmap t) (hi : t.1 < n) :
    nextByte t.2.2.1 t.2.1 = .ok (sym block (fmap t.1) : Int) := by
  obtain ⟨i, j, copy, e8⟩ := t
  obtain ⟨h0, h1, h2, h3, h4, hcnt, _⟩ := h
  dsimp only at h0 h1 h2 h3 h4 hcnt hi ⊢
  have hj := h4 hi
  have hlt := sym_lt block (fmap i)
  have hsorted : ∀ p q, 0 ≤ p → p ≤ q → q ≤ n - 1 → sym block (fmap p) ≤ sym block (fmap q) := by
    intro p q hp hpq hq
    obtain ⟨hp0, hp1⟩ := hR.range p hp (by omega)
    obtain ⟨hq0, hq1⟩ := hR.range q (by omega) hq
    exact sym_le_of_pre_le (by omega) hp0 hp1 hq0 hq1 (hR.ord p q hp hpq hq)
  have hadv := advance_spec (fun j => copy j == 0) 1 (sym block (fmap i) - j.toNat) 257 j
    (fun k hk => ?_) ?_ (by omega)
  · unfold nextByte
    have e : j + 1 * ((sym block (fmap i) - j.toNat : Nat) : Int) = sym block (fmap i) := by omega
    rw [e] at hadv
    exact hadv
  · -- a smaller byte has no row left
    have e : j + 1 * (k : Int) = ((j.toNat + k : Nat) : Int) := by omega
    rw [e, beq_iff_eq, hcnt _ (by omega),
      holding_eq_of_none (show i.toNat ≤ n.toNat by omega) fun p hp1 hp2 => ?_]
    · omega
    · have := hsorted i p h0 (by omega) (by omega)
      omega
  · have e : j + 1 * ((sym block (fmap i) - j.toNat : Nat) : Int) = sym block (fmap i) := by omega
    have hroom := holding_lt (s := fun p => sym block (fmap p)) (show i.toNat < n.toNat by omega)
    rw [Int.toNat_of_nonneg h0] at hroom
    rw [e, beq_eq_false_iff_ne, hcnt _ hlt]
    omega

/-- One round writes one row's first byte back. -/
theorem Rebuilding.step {block : Cells Byte} {fmap : Cells Int}
    (hR : RotSort (sym block) n fmap) {i j : Int} {copy : Cells Int} {e8 : Cells Byte}
    (h : Rebuilding block n fmap (i, j, copy, e8)) (hi : i < n) :
    Rebuilding block n fmap (i + 1, (sym block (fmap i) : Int),
      copy.set (sym block (fmap i) : Nat) (copy (sym block (fmap i) : Nat) - 1),
      e8.set (fmap i) (BitVec.ofInt 8 (sym block (fmap i) : Nat))) := by
  obtain ⟨h0, h1, h2, h3, h4, hcnt, hcells⟩ := h
  dsimp only at h0 h1 h2 h3 h4 hcnt hcells
  have hlt := sym_lt block (fmap i)
  refine ⟨by dsimp only; omega, by dsimp only; omega, by dsimp only; omega, by dsimp only; omega,
    fun hi1 => ?_, fun b hb => ?_, fun p hp0 hp1 => ?_⟩
  · dsimp only at hi1 ⊢
    obtain ⟨hp0, hp1⟩ := hR.range i h0 (by omega)
    obtain ⟨hq0, hq1⟩ := hR.range (i + 1) (by omega) (by omega)
    have := sym_le_of_pre_le (by omega) hp0 hp1 hq0 hq1
      (hR.ord i (i + 1) h0 (by omega) (by omega))
    omega
  · dsimp only
    have e : (i + 1).toNat = i.toNat + 1 := by omega
    rw [Cells.get_set, e, holding_succ, Int.toNat_of_nonneg h0]
    by_cases hb' : b = sym block (fmap i)
    · subst hb'
      rw [if_pos rfl, if_pos rfl, hcnt _ hb]
      omega
    · rw [if_neg (by omega), if_neg (Ne.symm hb'), hcnt b hb]
      omega
  · dsimp only at hp1 ⊢
    rw [Cells.get_set]
    split
    · rename_i heq
      rw [heq]
      apply BitVec.eq_of_toNat_eq
      rw [BitVec.toNat_ofInt]
      unfold sym
      have := (block (fmap i)).isLt
      omega
    · rename_i hne
      refine hcells p hp0 ?_
      have : p ≠ i := fun e => hne (by rw [e])
      omega

theorem rebuildStep_spec {block : Cells Byte} {fmap : Cells Int} (hR : RotSort (sym block) n fmap)
    {t : Int × Int × Cells Int × Cells Byte} (h : Rebuilding block n fmap t) :
    (∃ t', rebuildStep fmap n t = .ok (.inl t') ∧ Rebuilding block n fmap t' ∧
      (n - t'.1).toNat < (n - t.1).toNat) ∨
    ∃ r, rebuildStep fmap n t = .ok (.inr r) ∧ r.2 < 256 ∧
      ∀ x, 0 ≤ x → x < n → r.1 x = block x := by
  obtain ⟨i, j, copy, e⟩ := t
  have hi0 := h.i_nonneg
  dsimp only at hi0
  unfold rebuildStep
  by_cases hi : i < n
  · left
    have hnext := nextByte_spec hR h hi
    dsimp only at hnext
    simp only [hi, if_true, bind, Except.bind, hnext]
    exact ⟨_, rfl, h.step hR hi, by omega⟩
  · right
    simp only [hi, if_false]
    refine ⟨_, rfl, h.j_lt, fun x hx0 hx1 => ?_⟩
    obtain ⟨p, hp0, hp1, rfl⟩ := hits_of_injOn hR.inj hR.range hx0 (by omega)
    exact h.cells p hp0 (by dsimp only; omega)

/-- **The rebuilding loop** gives the block back. -/
theorem rebuild_spec {block : Cells Byte} {fmap : Cells Int} (hn : 1 ≤ n)
    (hR : RotSort (sym block) n fmap) {copy : Cells Int}
    (hcopy : ∀ b : Nat, copy b = holding (sym block) n.toNat b) (e8 : Cells Byte) :
    ∃ r, rebuild fmap n copy e8 = .ok r ∧ r.2 < 256 ∧ ∀ x, 0 ≤ x → x < n → r.1 x = block x := by
  have h0 : Rebuilding block n fmap (0, 0, copy, e8) := by
    refine ⟨Int.le_refl _, by dsimp only; omega, Int.le_refl _, by dsimp only; omega,
      fun _ => by dsimp only; omega, fun b _ => ?_, fun p h1 h2 => ?_⟩
    · dsimp only
      rw [hcopy, holding_perm hR.inj hR.range]
      simp [holding]
    · dsimp only at h2
      omega
  exact iter_spec (Rebuilding block n fmap)
    (fun r : Cells Byte × Int => r.2 < 256 ∧ ∀ x, 0 ≤ x → x < n → r.1 x = block x)
    (fun t => (n - t.1).toNat) (fun t ht => rebuildStep_spec hR ht) (n + 1).toNat _ h0
    (by dsimp only; omega)

/-! ## 3. The whole sorter -/

/-- The state `fallbackSort` enters the loop over depths with: one depth's worth of order. -/
def depthStart (fmap : Cells Int) (eclass8 : Cells Byte) (bhtab : Cells Word32) (nblock : Int) :
    Depth :=
  let (fmap, ftab) := radixPass eclass8 nblock fmap (radixSums (radixCounts eclass8 nblock))
  ⟨fmap, cellsOf eclass8, initBH ftab nblock bhtab, 1⟩

theorem radixPass_sorted (n : Int) (fmap : Cells Int) (block : Cells Byte) :
    Placed (sym block) n.toNat n.toNat
      (radixPass block n fmap (radixSums (radixCounts block n))) :=
  radixPass_placed fun _ hb => radixSums_get (fun b => radixCounts_get block n b) hb

theorem depthStart_bucketed (hn : 1 ≤ n) (fmap : Cells Int) (block : Cells Byte)
    (bhtab : Cells Word32) :
    Bucketed (sym block) n 1 (depthStart fmap block bhtab n).fmap
      (depthStart fmap block bhtab n).bhtab :=
  bucketed_one hn (sym_lt block) (radixPass_sorted n fmap block) bhtab

/-- **`fallbackSort`** returns on every non-empty block, with the rotations in order in `fmap` and
    the block as it was. -/
theorem fallbackSort_spec (fmap : Cells Int) (block : Cells Byte) (bhtab : Cells Word32)
    (hn : 1 ≤ n) (hbig : n < 2 ^ 97) :
    ∃ f e b, fallbackSort fmap block bhtab n = .ok (f, e, b) ∧ RotSort (sym block) n f ∧
      ∀ x, 0 ≤ x → x < n → e x = block x := by
  have hcounts := radixCounts_get block n
  have hB := depthStart_bucketed hn fmap block bhtab
  unfold depthStart at hB
  obtain ⟨d, hd, hR⟩ := depthLoop_spec hn hbig hB (cellsOf block)
  obtain ⟨⟨e, j⟩, hr, hj, he⟩ := rebuild_spec hn hR hcounts (bytesOf d.eclass)
  refine ⟨d.fmap, e, d.bhtab, ?_, hR, he⟩
  unfold fallbackSort
  dsimp only at hj ⊢
  simp only [bind, Except.bind, hd, hr, assertH, hj, decide_true, if_true]

/-- **`fallbackSort` is a sort of the rotations.** On every block it is handed it returns: the loops
    end, `fmap` is a permutation of the cells with the rotations in order, the block's bytes are
    restored, and at every depth every scan of the header bits is stopped by a bit inside the
    block or by one of the first two sentinels. -/
theorem fallbackSort_sorts (fmap : Cells Int) (block : Cells Byte) (bhtab : Cells Word32)
    (nblock : Int) (hn : 1 ≤ nblock) (hsmall : nblock < 10000) :
    ∃ f e b, fallbackSort fmap block bhtab nblock = .ok (f, e, b) ∧
      (rowsOf nblock f).Perm ((List.range nblock.toNat).map fun i : Nat => (i : Int)) ∧
      (∀ i j, 0 ≤ i → i ≤ j → j < nblock →
        pre (sym block) nblock nblock.toNat (f i) ≤ pre (sym block) nblock nblock.toNat (f j)) ∧
      (∀ x, 0 ≤ x → x < nblock → e x = block x) ∧
      ∀ d t, Visits (depthStep nblock) (depthStart fmap block bhtab nblock) d →
        Visits (scanStep (classes d.fmap d.bhtab nblock d.h d.eclass) nblock)
          ⟨d.fmap, d.bhtab, -1, 0⟩ t →
        ScansStop nblock t := by
  obtain ⟨f, e, b, hf, hR, he⟩ := fallbackSort_spec fmap block bhtab hn (by omega)
  refine ⟨f, e, b, hf, hR.perm_cells, fun i j hi hij hj => hR.ord i j hi hij (by omega), he, ?_⟩
  intro d t hd ht
  exact scansStop_of_visits hn (by omega)
    ⟨1, rfl, Nat.le_refl _, by omega, depthStart_bucketed hn fmap block bhtab⟩ hd ht

theorem fallbackSort_sorts_two :
    ∃ f e b, fallbackSort (.ofFn fun _ => 0) (.ofFn fun i => if i = 0 then 98#8 else 97#8)
        (.ofFn fun _ => 0) 2 = .ok (f, e, b) ∧ (rowsOf 2 f).Perm [0, 1] := by
  obtain ⟨f, e, b, hf, hp, _⟩ := fallbackSort_sorts (.ofFn fun _ => 0)
    (.ofFn fun i => if i = 0 then 98#8 else 97#8) (.ofFn fun _ => 0) 2 (by decide) (by decide)
  exact ⟨f, e, b, hf, hp⟩

/-- The search for the row of rotation 0 stops at its first row. -/
theorem findRow_eq (ptr : Cells Int) {r : Int} (hr : ptr r = 0) :
    ∀ (m : Nat) (i : Int), i ≤ r → r < i + m → (∀ k, i ≤ k → k < r → ptr k ≠ 0) →
      findRow ptr m i = r := by
  intro m
  induction m with
  | zero => intro i h1 h2; omega
  | succ m ih =>
    intro i h1 h2 hno
    unfold findRow
    by_cases hi : i = r
    · rw [hi, if_pos hr]
    · rw [if_neg (hno i (Int.le_refl _) (by omega))]
      exact ih (i + 1) (by omega) (by omega) fun k hk1 hk2 => hno k (by omega) hk2

/-- **The row of rotation 0** after a sort. -/
theorem findRow_of_rotSort {f : Cells Int} (hn : 1 ≤ n) (hR : RotSort s n f) :
    0 ≤ findRow f n.toNat 0 ∧ findRow f n.toNat 0 ≤ n - 1 ∧ f (findRow f n.toNat 0) = 0 := by
  obtain ⟨r, h1, h2, hr⟩ := hits_of_injOn hR.inj hR.range (Int.le_refl 0) (show 0 ≤ n - 1 by omega)
  have e : findRow f n.toNat 0 = r := by
    refine findRow_eq f hr _ _ h1 (by omega) fun k hk1 hk2 hk => ?_
    have := hR.inj k r hk1 (by omega) h1 h2 (by rw [hk, hr])
    omega
  rw [e]
  exact ⟨h1, h2, hr⟩

end Qbz2
