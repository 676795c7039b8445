/-
  File:      Qbz2/Compress/HeapMoves.lean
  Subject:   The heap of `BZ2_hbMakeCodeLengths`: `UPHEAP`, `DOWNHEAP` and what is made of them.

  * `upheap_spec`, `downheap_spec` -- both return inside the arrays, with the order restored and
    the cells permuted;
  * `HeapOk` -- the heap between two moves; **`popRoot_spec`** takes a lightest node out,
    **`HeapOk.push`** puts one in.
-/
import Qbz2.Compress.CodeLengths
import Qbz2.Lib.Heap

namespace Qbz2

open Loop Heap Segment

@[simp] theorem ok_bind {α β : Type} (a : α) (f : α → HuffRun β) :
    ((Except.ok a : HuffRun α) >>= f) = f a := rfl

theorem load_of_lt {α : Type} {size i : Nat} (a : Cells α) (h : i < size) :
    load size a i = .ok (a i) := if_pos h

theorem store_of_lt {α : Type} {size i : Nat} (a : Cells α) (v : α) (h : i < size) :
    store size a i v = .ok (a.set i v) := if_pos h

/-- The weight of a node, the heap's key. -/
def keyOf (weight : Cells Nat) (v : Nat) : Nat := weight v

variable {weight heap : Cells Nat} {n z : Nat}

/-! ## 1. `UPHEAP` -/

/-- The state of `UPHEAP`: with `tmp` back in its place, the order holds but for that place. -/
structure Rising (weight heap0 : Cells Nat) (n tmp : Nat) (s : Cells Nat × Nat) : Prop where
  pos : 1 ≤ s.2
  le : s.2 ≤ n
  up : OrderedUp (keyOf weight) (s.1.set s.2 tmp) n s.2
  perm : PermOn 1 n heap0 (s.1.set s.2 tmp)

/-- The cells of a permuted heap are nodes. -/
theorem node_of_permOn {h g : Int → Nat} {N : Nat} (hp : PermOn 1 n h g)
    (hmem : ∀ v ∈ entries h n, v < N) {i : Int} (h1 : 1 ≤ i) (h2 : i ≤ n) : g i < N :=
  hmem _ ((entries_perm hp).mem_iff.mp (get_mem_entries g h1 h2))

theorem upheapStep_spec {tmp : Nat} (hn : n < heapSize) (htmp : tmp < nodeSize)
    (hmem : ∀ v ∈ entries heap n, v < nodeSize) (h0 : heap 0 = 0) (hw0 : weight 0 = 0)
    {s : Cells Nat × Nat} (hs : Rising weight heap n tmp s) :
    (∃ s', upheapStep weight tmp s = .ok (.inl s') ∧ Rising weight heap n tmp s' ∧ s'.2 < s.2) ∨
    ∃ r, upheapStep weight tmp s = .ok (.inr r) ∧ Ordered (keyOf weight) r n ∧
      PermOn 1 n heap r := by
  obtain ⟨a, zz⟩ := s
  obtain ⟨hpos, hle, hup, hperm⟩ := hs
  dsimp only at hpos hle hup hperm
  have hhalf : ((zz / 2 : Nat) : Int) = (zz : Int) / 2 := by omega
  -- the parent's cell, the sentinel included
  have hparent : a (zz / 2 : Nat) = (a.set zz tmp) ((zz : Int) / 2) := by
    rw [hhalf, Cells.get_set_of_ne _ (by omega)]
  have hp : a (zz / 2 : Nat) < nodeSize := by
    rw [hparent]
    by_cases hz : zz = 1
    · rw [hperm.outside (by omega), hz]
      simp [h0, nodeSize, bzMaxAlphaSize]
    · exact node_of_permOn hperm hmem (by omega) (by omega)
  unfold upheapStep
  simp only [load_of_lt a (show zz / 2 < heapSize by omega), load_of_lt weight htmp,
    load_of_lt weight hp, store_of_lt a _ (show zz < heapSize by omega), ok_bind]
  by_cases hlt : weight tmp < weight (a (zz / 2 : Nat))
  · left
    rw [if_pos hlt]
    have hz2 : 2 ≤ zz := by
      by_contra hz
      have e : zz = 1 := by omega
      rw [hparent, hperm.outside (by omega), e] at hlt
      have e0 : ((1 : Nat) : Int) / 2 = 0 := rfl
      rw [e0, h0] at hlt
      change weight tmp < weight 0 at hlt
      rw [hw0] at hlt
      exact Nat.not_lt_zero _ hlt
    have hex : Exchanged (a.set zz tmp)
        ((a.set zz (a (zz / 2 : Nat))).set (zz / 2 : Nat) tmp) zz ((zz : Int) / 2) := by
      intro i
      rw [Cells.get_set, Cells.get_set, Cells.get_set_self, ← hparent, Cells.get_set, hhalf]
      by_cases h1 : i = (zz : Int) / 2
      · rw [if_pos h1, if_pos h1]
      · rw [if_neg h1, if_neg h1]
        by_cases h2 : i = zz
        · rw [if_pos h2, if_pos h2]
        · rw [if_neg h2, if_neg h2, if_neg h2]
    refine ⟨_, rfl, ⟨by dsimp only; omega, by dsimp only; omega, ?_, ?_⟩, by dsimp only; omega⟩
    · dsimp only
      have hle' : keyOf weight ((a.set zz tmp) zz) ≤ keyOf weight ((a.set zz tmp) ((zz : Int) / 2)) := by
        rw [Cells.get_set_self, ← hparent]
        exact hlt.le
      have := hup.step (by omega) hle' hex
      rwa [← hhalf] at this
    · exact hperm.trans (hex.permOn (by omega) (by omega))
  · right
    rw [if_neg hlt]
    refine ⟨_, rfl, hup.finish ?_, hperm⟩
    right
    rw [Cells.get_set_self, ← hparent]
    exact Nat.not_lt.mp hlt

/-- **`UPHEAP`** of a cell that may be too light. -/
theorem upheap_spec (hu : OrderedUp (keyOf weight) heap n z) (hz : 1 ≤ z) (hzn : z ≤ n)
    (hn : n < heapSize) (hmem : ∀ v ∈ entries heap n, v < nodeSize) (h0 : heap 0 = 0)
    (hw0 : weight 0 = 0) :
    ∃ heap', upheap weight heap z = .ok heap' ∧ Ordered (keyOf weight) heap' n ∧
      PermOn 1 n heap heap' := by
  have htmp : heap z < nodeSize := hmem _ (get_mem_entries _ (by omega) (by omega))
  unfold upheap
  rw [load_of_lt heap (by omega), ok_bind]
  refine iter_spec (Rising weight heap n (heap z))
    (fun r : Cells Nat => Ordered (keyOf weight) r n ∧ PermOn 1 n heap r) (fun s => s.2)
    (fun s hs => upheapStep_spec hn htmp hmem h0 hw0 hs) (z + 1) (heap, z)
    ⟨hz, hzn, ?_, ?_⟩ (Nat.lt_succ_self z)
  · dsimp only
    rw [heap.get_set_get]
    exact hu
  · dsimp only
    rw [heap.get_set_get]
    exact PermOn.refl _ _ _

/-! ## 2. `DOWNHEAP` -/

/-- The lighter child of a cell that has one. -/
theorem lighterChild_spec {zz : Nat} (hzz : 2 * zz ≤ n) (hz : 1 ≤ zz) (hn : n < heapSize)
    (hmem : ∀ i : Int, 2 ≤ i → i ≤ n → i / 2 = zz → heap i < nodeSize) :
    ∃ yy : Nat, lighterChild weight heap n (2 * zz) = .ok yy ∧ 2 ≤ yy ∧ yy ≤ n ∧
      (yy : Int) / 2 = zz ∧
      ∀ i : Int, i ≤ n → i / 2 = zz → keyOf weight (heap yy) ≤ keyOf weight (heap i) := by
  have e1 : ((2 * zz + 1 : Nat) : Int) = 2 * zz + 1 := by omega
  have e2 : ((2 * zz : Nat) : Int) = 2 * zz := by omega
  have hchild : ∀ i : Int, i / 2 = zz → i = 2 * zz ∨ i = 2 * zz + 1 := by omega
  unfold lighterChild
  by_cases hlt : 2 * zz < n
  · have ha := hmem (2 * zz + 1 : Nat) (by omega) (by omega) (by omega)
    have hb := hmem (2 * zz : Nat) (by omega) (by omega) (by omega)
    rw [if_pos hlt, load_of_lt heap (by omega), ok_bind, load_of_lt heap (by omega), ok_bind,
      load_of_lt weight ha, ok_bind, load_of_lt weight hb, ok_bind]
    by_cases hw : weight (heap (2 * zz + 1 : Nat)) < weight (heap (2 * zz : Nat))
    · rw [if_pos hw]
      refine ⟨2 * zz + 1, rfl, by omega, by omega, by omega, fun i _ hp => ?_⟩
      unfold keyOf
      rcases hchild i hp with rfl | rfl
      · rw [← e2]
        exact hw.le
      · rw [← e1]
    · rw [if_neg hw]
      refine ⟨2 * zz, rfl, by omega, by omega, by omega, fun i _ hp => ?_⟩
      unfold keyOf
      rcases hchild i hp with rfl | rfl
      · rw [← e2]
      · rw [← e1]
        exact Nat.not_lt.mp hw
  · rw [if_neg hlt]
    refine ⟨2 * zz, rfl, by omega, by omega, by omega, fun i hi hp => ?_⟩
    rcases hchild i hp with rfl | rfl
    · rw [← e2]
    · omega

/-- The state of `DOWNHEAP`. -/
structure Sinking (weight heap0 : Cells Nat) (n tmp : Nat) (s : Cells Nat × Nat) : Prop where
  pos : 1 ≤ s.2
  le : s.2 ≤ n ∨ s.2 = 1
  down : OrderedDown (keyOf weight) (s.1.set s.2 tmp) n s.2
  perm : PermOn 1 n heap0 (s.1.set s.2 tmp)

theorem downheapStep_spec {tmp : Nat} (hn : n < heapSize) (htmp : tmp < nodeSize)
    (hmem : ∀ v ∈ entries heap n, v < nodeSize) {s : Cells Nat × Nat}
    (hs : Sinking weight heap n tmp s) :
    (∃ s', downheapStep weight n tmp s = .ok (.inl s') ∧ Sinking weight heap n tmp s' ∧
      n - s'.2 < n - s.2) ∨
    ∃ r, downheapStep weight n tmp s = .ok (.inr r) ∧ Ordered (keyOf weight) r n ∧
      PermOn 1 n heap r := by
  obtain ⟨a, zz⟩ := s
  obtain ⟨hpos, hle, hdown, hperm⟩ := hs
  dsimp only at hpos hle hdown hperm
  have hsz : zz < heapSize := by
    unfold heapSize bzMaxAlphaSize at hn ⊢
    omega
  unfold downheapStep
  dsimp only
  by_cases hleaf : 2 * zz > n
  · right
    rw [if_pos hleaf, store_of_lt a _ hsz, ok_bind]
    exact ⟨_, rfl, hdown.finish fun i h2 hi hp => by omega, hperm⟩
  · rw [if_neg hleaf]
    have hother : ∀ i : Int, i / 2 = zz → a i = (a.set zz tmp) i := fun i hp =>
      (Cells.get_set_of_ne _ (by omega)).symm
    obtain ⟨yy, hyy, hy2, hyn, hyp, hmin⟩ := lighterChild_spec
      (by omega) hpos hn fun i h2 hi hp => by
        rw [hother i hp]
        exact node_of_permOn hperm hmem (by omega) hi
    have hy : a yy < nodeSize := by
      rw [hother yy hyp]
      exact node_of_permOn hperm hmem (by omega) (by omega)
    rw [hyy, ok_bind, load_of_lt a (by omega), ok_bind, load_of_lt weight htmp, ok_bind,
      load_of_lt weight hy, ok_bind]
    by_cases hlt : weight tmp < weight (a yy)
    · right
      rw [if_pos hlt, store_of_lt a _ hsz, ok_bind]
      refine ⟨_, rfl, hdown.finish fun i h2 hi hp => ?_, hperm⟩
      rw [Cells.get_set_self, ← hother i hp]
      exact Nat.le_trans hlt.le (hmin i hi hp)
    · left
      rw [if_neg hlt, store_of_lt a _ hsz, ok_bind]
      have hex : Exchanged (a.set zz tmp) ((a.set zz (a yy)).set yy tmp) yy zz := by
        intro i
        rw [Cells.get_set, Cells.get_set, Cells.get_set_self, ← hother yy hyp, Cells.get_set]
        by_cases h1 : i = zz
        · rw [if_pos h1, if_pos h1, if_neg (by omega)]
        · rw [if_neg h1, if_neg h1, if_neg h1]
      refine ⟨_, rfl, ⟨by dsimp only; omega, .inl hyn, ?_, ?_⟩, by dsimp only; omega⟩
      · refine hdown.step hyp (by omega) (fun i hi hp => ?_) ?_ hex
        · rw [← hother i hp, ← hother yy hyp]
          exact hmin i hi hp
        · rw [Cells.get_set_self, ← hother yy hyp]
          exact Nat.not_lt.mp hlt
      · exact hperm.trans (hex.permOn (by omega) (by omega))

/-- **`DOWNHEAP`** of a root that may be too heavy. -/
theorem downheap_spec (hd : OrderedDown (keyOf weight) heap n 1) (hn : n < heapSize)
    (hroot : heap 1 < nodeSize) (hmem : ∀ v ∈ entries heap n, v < nodeSize) :
    ∃ heap', downheap weight heap n 1 = .ok heap' ∧ Ordered (keyOf weight) heap' n ∧
      PermOn 1 n heap heap' := by
  have hsame : (heap.set ((1 : Nat) : Int) (heap 1)).get = heap.get := heap.get_set_get 1
  unfold downheap
  rw [load_of_lt heap (show 1 < heapSize by decide), ok_bind]
  refine iter_spec (Sinking weight heap n (heap 1))
    (fun r : Cells Nat => Ordered (keyOf weight) r n ∧ PermOn 1 n heap r) (fun s => n - s.2)
    (fun s hs => downheapStep_spec hn hroot hmem hs) (n + 1) (heap, 1)
    ⟨Nat.le_refl 1, .inr rfl, ?_, ?_⟩ (by dsimp only; omega)
  · dsimp only
    rw [hsame]
    exact hd
  · dsimp only
    rw [hsame]
    exact PermOn.refl _ _ _

/-! ## 3. The heap between two moves -/

/-- The heap is in order, holds nodes that exist, and has its sentinel. -/
structure HeapOk (m : Merge) : Prop where
  ordered : Ordered (keyOf m.weight) m.heap m.nHeap
  mem : ∀ v ∈ entries m.heap m.nHeap, 1 ≤ v ∧ v ≤ m.nNodes
  heap_zero : m.heap 0 = 0
  weight_zero : m.weight 0 = 0
  heap_room : m.nHeap < heapSize
  node_room : m.nNodes < nodeSize

/-- **A lightest node taken out.** -/
theorem popRoot_spec {m : Merge} (h : HeapOk m) (h1 : 1 ≤ m.nHeap) :
    ∃ n1 heap', popRoot m = .ok (n1, { m with heap := heap', nHeap := m.nHeap - 1 }) ∧
      HeapOk { m with heap := heap', nHeap := m.nHeap - 1 } ∧
      (entries m.heap m.nHeap).Perm (n1 :: entries heap' (m.nHeap - 1)) ∧
      ∀ v ∈ entries heap' (m.nHeap - 1), m.weight n1 ≤ m.weight v := by
  obtain ⟨ho, hmem, h0, hw0, hroom, hnodes⟩ := h
  have elast : ((m.nHeap - 1 : Nat) : Int) + 1 = m.nHeap := by omega
  obtain ⟨b, hb⟩ : ∃ b, b = m.heap.set 1 (m.heap m.nHeap) := ⟨_, rfl⟩
  have hpop : (entries m.heap m.nHeap).Perm (m.heap 1 :: entries b (m.nHeap - 1)) := by
    have e : m.nHeap = m.nHeap - 1 + 1 := by omega
    conv_lhs => rw [e]
    refine entries_pop (fun _ => ?_) fun i hi _ => ?_
    · rw [hb, Cells.get_set_self, elast]
    · rw [hb, Cells.get_set_of_ne _ (by omega)]
  have hbmem : ∀ v ∈ entries b (m.nHeap - 1), 1 ≤ v ∧ v ≤ m.nNodes := fun v hv =>
    hmem v (hpop.mem_iff.mpr (List.mem_cons_of_mem _ hv))
  have hd : OrderedDown (keyOf m.weight) b (m.nHeap - 1 : Nat) 1 :=
    ho.replaceRoot (by omega) fun i hi _ => by rw [hb, Cells.get_set_of_ne _ (by omega)]
  have hb1 : b 1 < nodeSize := by
    rw [hb, Cells.get_set_self]
    have := hmem _ (get_mem_entries m.heap (show 1 ≤ (m.nHeap : Int) by omega) (Int.le_refl _))
    omega
  obtain ⟨c, hc, hco, hcp⟩ := downheap_spec hd (by omega) hb1 fun v hv => by
    have := hbmem v hv
    omega
  have hperm := hpop.trans (List.Perm.cons _ (entries_perm hcp).symm)
  refine ⟨m.heap 1, c, ?_, ⟨hco, ?_, ?_, hw0, by dsimp only; omega, hnodes⟩, hperm, ?_⟩
  · unfold popRoot
    have e1 : ((1 : Nat) : Int) = 1 := rfl
    rw [load_of_lt m.heap (show 1 < heapSize by decide), ok_bind, load_of_lt m.heap hroom, ok_bind,
      store_of_lt m.heap _ (show 1 < heapSize by decide), ok_bind, e1, ← hb]
    dsimp only
    rw [hc, ok_bind]
  · intro v hv
    exact hmem v (hperm.mem_iff.mpr (List.mem_cons_of_mem _ hv))
  · dsimp only
    rw [hcp.outside (by omega), hb, Cells.get_set_of_ne _ (by omega), h0]
  · intro v hv
    exact ho.le_of_mem (hperm.mem_iff.mpr (List.mem_cons_of_mem _ hv))

/-- **A node put in**, with the weights of the other nodes as they were. -/
theorem HeapOk.push {m : Merge} (h : HeapOk m) {v N : Nat} {weight : Cells Nat}
    (hroom : m.nHeap + 1 < heapSize) (hN : m.nNodes ≤ N) (hNs : N < nodeSize) (hv1 : 1 ≤ v)
    (hvN : v ≤ N) (hw : ∀ k, k ≤ m.nNodes → k ≠ v → weight k = m.weight k)
    (hvold : v ∉ entries m.heap m.nHeap) :
    ∃ heap', upheap weight (m.heap.set (m.nHeap + 1 : Nat) v) (m.nHeap + 1) = .ok heap' ∧
      (∀ parent, HeapOk ⟨heap', weight, parent, m.nHeap + 1, N⟩) ∧
      (entries heap' (m.nHeap + 1)).Perm (v :: entries m.heap m.nHeap) := by
  obtain ⟨ho, hmem, h0, hw0, _, _⟩ := h
  obtain ⟨b, hb⟩ : ∃ b, b = m.heap.set (m.nHeap + 1 : Nat) v := ⟨_, rfl⟩
  have hkeep : ∀ i : Int, i ≤ m.nHeap → b i = m.heap i := fun i hi => by
    rw [hb, Cells.get_set_of_ne _ (by omega)]
  have hentries : entries b (m.nHeap + 1) = entries m.heap m.nHeap ++ [v] := by
    have e : ((m.nHeap : Int) + 1) = ((m.nHeap + 1 : Nat) : Int) := by omega
    rw [entries_succ, entries_congr fun i _ hi => hkeep i hi, hb, e, Cells.get_set_self]
  have hbmem : ∀ k ∈ entries b (m.nHeap + 1), 1 ≤ k ∧ k ≤ N := by
    intro k hk
    rw [hentries, List.mem_append, List.mem_singleton] at hk
    rcases hk with hk | rfl
    · have := hmem k hk
      omega
    · exact ⟨hv1, hvN⟩
  -- the old entries weigh what they did
  have hold : Ordered (keyOf weight) m.heap m.nHeap := by
    have hkey : ∀ i : Int, 1 ≤ i → i ≤ m.nHeap →
        keyOf weight (m.heap i) = keyOf m.weight (m.heap i) := by
      intro i hi1 hi2
      have hin := get_mem_entries m.heap hi1 hi2
      exact hw _ (hmem _ hin).2 fun e => hvold (e ▸ hin)
    intro i hi1 hi2
    rw [hkey _ (by omega) (by omega), hkey i (by omega) hi2]
    exact ho i hi1 hi2
  have hup : OrderedUp (keyOf weight) b ((m.nHeap + 1 : Nat) : Int) ((m.nHeap + 1 : Nat) : Int) := by
    have e : ((m.nHeap + 1 : Nat) : Int) = (m.nHeap : Int) + 1 := by omega
    rw [e]
    exact hold.push hkeep
  have hz : weight 0 = 0 := by
    rw [← hw0]
    exact hw 0 (Nat.zero_le _) (by omega)
  obtain ⟨c, hc, hco, hcp⟩ := upheap_spec hup (by omega) (Nat.le_refl _) hroom
    (fun k hk => by have := hbmem k hk; omega) (by rw [hkeep 0 (by omega), h0]) hz
  have hperm := entries_perm hcp
  rw [← hb]
  refine ⟨c, hc, fun parent => ⟨hco, ?_, ?_, hz, hroom, hNs⟩, ?_⟩
  · intro k hk
    exact hbmem k (hperm.mem_iff.mp hk)
  · dsimp only
    rw [hcp.outside (by omega), hkeep 0 (by omega), h0]
  · refine hperm.trans ?_
    rw [hentries]
    exact List.perm_append_comm

end Qbz2
