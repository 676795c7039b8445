/-
  File:      Qbz2/Compress/CompleteCode.lean
  Subject:   `BZ2_hbMakeCodeLengths` returns the lengths of a complete prefix code.

  * `weightOf_pack`, `depthOf_pack`, `addWeights_pack` -- a packed weight is a weight and a height;
  * `Forest` -- the trees on the heap: every symbol in one of them, parent links leading to its
    root, packed weights that tell the truth, joined two lightest first;
  * `mergeStep_joins`, `codeLengths_spec`, `roundStep_tree` -- one join, the lengths, one round. A
    length above 17 needs a weight sum of at least the 20th Fibonacci number, so some weight is
    above 2 and halving makes the sum smaller;
  * **`hbMakeCodeLengths_complete`**.
-/
import Mathlib.Algebra.BigOperators.Group.Finset.Basic
import Mathlib.Algebra.Order.BigOperators.Group.List
import Mathlib.Data.Nat.Bitwise
import Qbz2.Compress.HeapMoves
import Qbz2.Lib.CodeTree

namespace Qbz2

open Loop Heap

/-! ## 1. Packed weights -/

theorem depthOf_pack (w : Nat) {d : Nat} (hd : d < 256) : depthOf (w * 256 + d) = d := by
  unfold depthOf
  have e : (0x000000ff : Nat) = 2 ^ 8 - 1 := rfl
  rw [e, Nat.and_two_pow_sub_one_eq_mod]
  omega

theorem weightOf_pack {w d : Nat} (hd : d < 256) (hw : w < 2 ^ 24) :
    weightOf (w * 256 + d) = w * 256 := by
  have e : (0xffffff00 : Nat) = (2 ^ 24 - 1) <<< 8 := by decide
  have e1 : w = (w * 256 + d) >>> 8 := by
    rw [Nat.shiftRight_eq_div_pow]
    omega
  have e2 : w * 256 = w <<< 8 := by rw [Nat.shiftLeft_eq]
  unfold weightOf
  rw [e]
  refine Nat.eq_of_testBit_eq fun i => ?_
  rw [Nat.testBit_and, Nat.testBit_shiftLeft, e2, Nat.testBit_shiftLeft, Nat.testBit_two_pow_sub_one]
  by_cases hi : 8 ≤ i
  · have hbit : (w <<< 8 + d).testBit i = w.testBit (i - 8) := by
      conv_rhs => rw [e1, Nat.testBit_shiftRight]
      rw [← e2]
      congr 1
      omega
    have hhigh : ¬ i - 8 < 24 → w.testBit (i - 8) = false := fun h =>
      Nat.testBit_lt_two_pow (Nat.lt_of_lt_of_le hw (Nat.pow_le_pow_right (by omega) (by omega)))
    rw [hbit]
    by_cases h24 : i - 8 < 24
    · simp [hi, h24]
    · rw [hhigh h24]
      simp
  · simp [hi]

theorem addWeights_pack {w1 w2 d1 d2 : Nat} (h1 : d1 < 255) (h2 : d2 < 255)
    (hw : w1 + w2 < 2 ^ 23) :
    addWeights (w1 * 256 + d1) (w2 * 256 + d2) = .ok ((w1 + w2) * 256 + (max d1 d2 + 1)) := by
  have e : w1 * 256 + w2 * 256 = 2 ^ 8 * (w1 + w2) := by omega
  have hm : 1 + myMax d1 d2 = max d1 d2 + 1 := by
    unfold myMax
    split <;> omega
  unfold addWeights int32
  rw [weightOf_pack (by omega) (by omega), weightOf_pack (by omega) (by omega),
    depthOf_pack _ (by omega), depthOf_pack _ (by omega), if_pos (by omega), ok_bind, hm, e,
    ← Nat.two_pow_add_eq_or_of_lt (show max d1 d2 + 1 < 2 ^ 8 by omega)]
  congr 2
  omega

/-! ## 2. The forest -/

/-- The parent links lead from node `k` to node `r` in `d` steps. -/
def Links (parent : Cells Int) (N : Nat) (k : Nat) : Nat → Nat → Prop
  | 0, r => k = r
  | d + 1, r => k ≤ N ∧ ∃ p : Nat, parent k = p ∧ Links parent N p d r

/-- Links set at nodes that had none, and at new nodes, leave every path as it was. -/
theorem Links.congr {parent parent' : Cells Int} {N N' : Nat} (hN : N ≤ N')
    (h : ∀ k : Nat, k ≤ N → 0 ≤ parent k → parent' k = parent k) :
    ∀ {d k r : Nat}, Links parent N k d r → Links parent' N' k d r
  | 0, _, _, hp => hp
  | _ + 1, k, _, ⟨hk, p, he, hp⟩ =>
    ⟨Nat.le_trans hk hN, p, by rw [h k hk (by omega), he], Links.congr hN h hp⟩

/-- One link more. -/
theorem Links.snoc {parent : Cells Int} {N : Nat} {r q : Nat} (hr : r ≤ N) (he : parent r = q) :
    ∀ {d k : Nat}, Links parent N k d r → Links parent N k (d + 1) q
  | 0, _, hp => ⟨by rw [show _ = r from hp]; exact hr, q, by rw [show _ = r from hp]; exact he, rfl⟩
  | _ + 1, _, ⟨hk, p, he', hp⟩ => ⟨hk, p, he', Links.snoc hr he hp⟩

variable {lw : Nat → Nat} {alphaSize : Nat}

/-- **The trees on the heap**, `tree k` being the one under node `k`. -/
structure Forest (lw : Nat → Nat) (alphaSize : Nat) (tree : Nat → CodeTree) (m : Merge) :
    Prop where
  heapOk : HeapOk m
  count : m.nHeap + m.nNodes = 2 * alphaSize
  some : 1 ≤ m.nHeap
  le : alphaSize ≤ m.nNodes
  nodup : (entries m.heap m.nHeap).Nodup
  weight : ∀ k, 1 ≤ k → k ≤ m.nNodes →
    m.weight k = (tree k).weight lw * 256 + (tree k).height
  leaf : ∀ k, 1 ≤ k → k ≤ alphaSize → tree k = .leaf k
  parts : ((entries m.heap m.nHeap).flatMap fun r => (tree r).leaves).Perm (List.range' 1 alphaSize)
  root : ∀ r ∈ entries m.heap m.nHeap, m.parent r = -1
  path : ∀ r ∈ entries m.heap m.nHeap, ∀ p ∈ (tree r).depths, Links m.parent m.nNodes p.1 p.2 r
  greedy : ∃ M, CodeTree.Greedy lw ((entries m.heap m.nHeap).map tree) M

/-- The weight of all symbols. -/
def totalWeight (lw : Nat → Nat) (alphaSize : Nat) : Nat := ((List.range' 1 alphaSize).map lw).sum

theorem sum_weights {tree : Nat → CodeTree} {rs : List Nat} {l : List Nat}
    (h : (rs.flatMap fun r => (tree r).leaves).Perm l) :
    (rs.map fun r => (tree r).weight lw).sum = (l.map lw).sum := by
  have e : ∀ rs : List Nat, (rs.map fun r => (tree r).weight lw).sum =
      ((rs.flatMap fun r => (tree r).leaves).map lw).sum := by
    intro rs
    induction rs with
    | nil => rfl
    | cons r rs ih =>
      rw [List.map_cons, List.sum_cons, ih, List.flatMap_cons, List.map_append, List.sum_append,
        CodeTree.weight_eq]
  rw [e]
  exact (h.map lw).sum_nat

/-- What the trees weigh together. -/
theorem Forest.sum_eq {tree : Nat → CodeTree} {m : Merge} (h : Forest lw alphaSize tree m) :
    ((entries m.heap m.nHeap).map fun r => (tree r).weight lw).sum = totalWeight lw alphaSize :=
  sum_weights h.parts

/-- **No tree is higher than 28** while the weights sum to less than the 31st Fibonacci number. -/
theorem Forest.height_le {tree : Nat → CodeTree} {m : Merge} (h : Forest lw alphaSize tree m)
    {k : Nat} (hsum : totalWeight lw alphaSize < Nat.fib (k + 3)) {r : Nat}
    (hr : r ∈ entries m.heap m.nHeap) : (tree r).height ≤ k := by
  obtain ⟨M, hg⟩ := h.greedy
  refine hg.height_le (List.mem_map_of_mem hr) (Nat.lt_of_le_of_lt ?_ hsum)
  rw [← h.sum_eq]
  exact List.single_le_sum (fun _ _ => Nat.zero_le _) _
    (List.mem_map_of_mem (f := fun r => (tree r).weight lw) hr)

/-- 900001 symbols and 258 weights of 1 for those that do not occur. -/
def maxTotal : Nat := 900259

theorem maxTotal_lt_fib : maxTotal < Nat.fib (28 + 3) := by decide

/-- The packed weights order nodes by their trees' weights first. -/
theorem Forest.weight_mono {tree : Nat → CodeTree} {m : Merge} (h : Forest lw alphaSize tree m)
    (hsum : totalWeight lw alphaSize ≤ maxTotal) {a b : Nat} (ha : a ∈ entries m.heap m.nHeap)
    (hb : b ∈ entries m.heap m.nHeap) (hle : m.weight a ≤ m.weight b) :
    (tree a).weight lw ≤ (tree b).weight lw := by
  have hsum' : totalWeight lw alphaSize < Nat.fib (28 + 3) :=
    Nat.lt_of_le_of_lt hsum maxTotal_lt_fib
  have h1 := h.height_le hsum' hb
  have h2 := h.heapOk.mem a ha
  have h3 := h.heapOk.mem b hb
  rw [h.weight a h2.1 h2.2, h.weight b h3.1 h3.2] at hle
  omega

/-! ## 3. One join -/

/-- The trees after `n1` and `n2` were joined under node `N`. -/
def joined (tree : Nat → CodeTree) (n1 n2 N : Nat) (k : Nat) : CodeTree :=
  if k = N then .node (tree n1) (tree n2) else tree k

/-- The links after `n1` and `n2` were joined under node `N`. -/
def linked (parent : Cells Int) (n1 n2 N : Nat) : Cells Int :=
  ((parent.set n2 N).set n1 N).set N (-1)

section

variable {parent : Cells Int} {n1 n2 N k : Nat}

theorem linked_new : linked parent n1 n2 N N = -1 := Cells.get_set_self _ _ _

theorem linked_left (h : n1 ≠ N) : linked parent n1 n2 N n1 = N := by
  unfold linked
  rw [Cells.get_set_of_ne _ (by omega), Cells.get_set_self]

theorem linked_right (h : n2 ≠ N) (h12 : n1 ≠ n2) : linked parent n1 n2 N n2 = N := by
  unfold linked
  rw [Cells.get_set_of_ne _ (by omega), Cells.get_set_of_ne _ (by omega), Cells.get_set_self]

theorem linked_of_ne (h1 : k ≠ n1) (h2 : k ≠ n2) (h : k ≠ N) :
    linked parent n1 n2 N k = parent k := by
  unfold linked
  rw [Cells.get_set_of_ne _ (by omega), Cells.get_set_of_ne _ (by omega),
    Cells.get_set_of_ne _ (by omega)]

end

section

variable {tree : Nat → CodeTree} {m : Merge} {n1 n2 : Nat} {rest : List Nat}

theorem Forest.ne_new (h : Forest lw alphaSize tree m) {r : Nat} (hr : r ∈ entries m.heap m.nHeap) :
    r ≠ m.nNodes + 1 := by
  have := (h.heapOk.mem r hr).2
  omega

/-- The links that were there are still there. -/
theorem Forest.links_kept (h : Forest lw alphaSize tree m) (h1 : n1 ∈ entries m.heap m.nHeap)
    (h2 : n2 ∈ entries m.heap m.nHeap) {k : Nat} (hk : k ≤ m.nNodes) (h0 : 0 ≤ m.parent k) :
    linked m.parent n1 n2 (m.nNodes + 1) k = m.parent k := by
  have hne : ∀ r ∈ entries m.heap m.nHeap, k ≠ r := by
    rintro r hr rfl
    have := h.root k hr
    omega
  exact linked_of_ne (hne n1 h1) (hne n2 h2) (by omega)

/-- A path to the root of a tree is one to the new root, a link longer, where the tree was joined. -/
theorem Forest.path_join (h : Forest lw alphaSize tree m) (h1 : n1 ∈ entries m.heap m.nHeap)
    (h2 : n2 ∈ entries m.heap m.nHeap) (h12 : n1 ≠ n2) {r : Nat}
    (hr : r = m.nNodes + 1 ∨ r ∈ entries m.heap m.nHeap) {p : Nat × Nat}
    (hp : p ∈ (joined tree n1 n2 (m.nNodes + 1) r).depths) :
    Links (linked m.parent n1 n2 (m.nNodes + 1)) (m.nNodes + 1) p.1 p.2 r := by
  have old : ∀ r ∈ entries m.heap m.nHeap, ∀ p ∈ (tree r).depths,
      Links (linked m.parent n1 n2 (m.nNodes + 1)) (m.nNodes + 1) p.1 p.2 r := fun r hr p hp =>
    (h.path r hr p hp).congr (Nat.le_succ _) fun k hk h0 => h.links_kept h1 h2 hk h0
  rcases hr with rfl | hr
  · rw [joined, if_pos rfl] at hp
    obtain ⟨d, hd, hp⟩ := CodeTree.mem_depths_node.mp hp
    rw [hd]
    rcases hp with hp | hp
    · exact .snoc (Nat.le_succ_of_le (h.heapOk.mem n1 h1).2) (linked_left (h.ne_new h1))
        (old n1 h1 _ hp)
    · exact .snoc (Nat.le_succ_of_le (h.heapOk.mem n2 h2).2) (linked_right (h.ne_new h2) h12)
        (old n2 h2 _ hp)
  · rw [joined, if_neg (h.ne_new hr)] at hp
    exact old r hr p hp

end

/-- **Joining the two lightest trees** keeps the forest. -/
theorem Forest.join {tree : Nat → CodeTree} {m : Merge} (h : Forest lw alphaSize tree m)
    (hsum : totalWeight lw alphaSize ≤ maxTotal) {n1 n2 : Nat} {rest : List Nat}
    (hperm : (entries m.heap m.nHeap).Perm (n1 :: n2 :: rest))
    (hle : m.weight n1 ≤ m.weight n2) (h2r : ∀ r ∈ rest, m.weight n2 ≤ m.weight r)
    {heap : Cells Nat} {weight : Cells Nat} {nHeap : Nat}
    (hw : weight = m.weight.set (m.nNodes + 1 : Nat)
      (((tree n1).weight lw + (tree n2).weight lw) * 256 +
        (max (tree n1).height (tree n2).height + 1)))
    (hn : nHeap + 1 = m.nHeap) (h1 : 1 ≤ nHeap)
    (hok : HeapOk ⟨heap, weight, linked m.parent n1 n2 (m.nNodes + 1), nHeap, m.nNodes + 1⟩)
    (hentries : (entries heap nHeap).Perm ((m.nNodes + 1) :: rest)) :
    Forest lw alphaSize (joined tree n1 n2 (m.nNodes + 1))
      ⟨heap, weight, linked m.parent n1 n2 (m.nNodes + 1), nHeap, m.nNodes + 1⟩ := by
  have hin : ∀ r ∈ n1 :: n2 :: rest, r ∈ entries m.heap m.nHeap := fun r hr =>
    hperm.mem_iff.mpr hr
  have hnew : ∀ r ∈ n1 :: n2 :: rest, r ≠ m.nNodes + 1 := fun r hr => h.ne_new (hin r hr)
  have hold : ∀ r ∈ n1 :: n2 :: rest, joined tree n1 n2 (m.nNodes + 1) r = tree r := fun r hr =>
    if_neg (hnew r hr)
  have hself : joined tree n1 n2 (m.nNodes + 1) (m.nNodes + 1) = .node (tree n1) (tree n2) :=
    if_pos rfl
  have hnd := hperm.nodup_iff.mp h.nodup
  obtain ⟨hn1, hnd⟩ := List.nodup_cons.mp hnd
  obtain ⟨hn2, hnd⟩ := List.nodup_cons.mp hnd
  have h12 : n1 ≠ n2 := fun e => hn1 (by simp [e])
  refine ⟨hok, ?_, h1, ?_, ?_, fun k hk1 hk2 => ?_, fun k hk1 hk2 => ?_, ?_, fun r hr => ?_,
    fun r hr p hp => ?_, ?_⟩
  · have := h.count
    dsimp only
    omega
  · exact Nat.le_succ_of_le h.le
  · refine hentries.nodup_iff.mpr (List.nodup_cons.mpr ⟨fun hm => ?_, hnd⟩)
    exact hnew _ (by simp [hm]) rfl
  · dsimp only at hk2 ⊢
    rw [hw]
    by_cases hk : k = m.nNodes + 1
    · rw [hk, Cells.get_set_self, hself, CodeTree.weight, CodeTree.height]
    · rw [Cells.get_set_of_ne _ (by omega), joined, if_neg hk]
      exact h.weight k hk1 (by omega)
  · have := h.le
    rw [joined, if_neg (by omega)]
    exact h.leaf k hk1 hk2
  · refine (hentries.flatMap_right _).trans (List.Perm.trans ?_ h.parts)
    refine List.Perm.trans (List.Perm.of_eq ?_) (hperm.flatMap_right _).symm
    rw [List.flatMap_cons, List.flatMap_cons, List.flatMap_cons, hself, CodeTree.leaves_node,
      List.append_assoc]
    congr 2
    refine List.flatMap_congr fun r hr => ?_
    rw [hold r (by simp [hr])]
  · rcases List.mem_cons.mp (hentries.mem_iff.mp hr) with rfl | hr
    · exact linked_new
    · exact (linked_of_ne (fun e => hn1 (by simp [← e, hr])) (fun e => hn2 (by simp [← e, hr]))
        (hnew r (by simp [hr]))).trans (h.root r (hin r (by simp [hr])))
  · refine h.path_join (hin n1 (by simp)) (hin n2 (by simp)) h12 ?_ hp
    rcases List.mem_cons.mp (hentries.mem_iff.mp hr) with rfl | hr
    · exact .inl rfl
    · exact .inr (hin r (by simp [hr]))
  · obtain ⟨M, hg⟩ := h.greedy
    have hg' := hg.perm (hperm.map tree).symm
    rw [List.map_cons, List.map_cons] at hg'
    refine ⟨_, (hg'.merge (h.weight_mono hsum (hin n1 (by simp)) (hin n2 (by simp)) hle) ?_).perm ?_⟩
    · intro t ht
      obtain ⟨r, hr, rfl⟩ := List.mem_map.mp ht
      exact h.weight_mono hsum (hin n2 (by simp)) (hin r (by simp [hr])) (h2r r hr)
    · refine (hentries.map _).trans (List.Perm.of_eq ?_)
      rw [List.map_cons, hself]
      congr 1
      exact List.map_congr_left fun r hr => hold r (by simp [hr])

/-- **One round of `while (nHeap > 1)`** joins the two lightest trees. -/
theorem mergeStep_joins {tree : Nat → CodeTree} {m : Merge} (h : Forest lw alphaSize tree m)
    (hα : alphaSize ≤ bzMaxAlphaSize) (hsum : totalWeight lw alphaSize ≤ maxTotal)
    (hmore : m.nHeap > 1) :
    ∃ (m' : Merge) (tree' : Nat → CodeTree) (a b : CodeTree) (ts : List CodeTree),
      mergeStep m = .ok (.inl m') ∧ Forest lw alphaSize tree' m' ∧ m'.nHeap < m.nHeap ∧
      ((entries m.heap m.nHeap).map tree).Perm (a :: b :: ts) ∧ a.weight lw ≤ b.weight lw ∧
      (∀ t ∈ ts, b.weight lw ≤ t.weight lw) ∧
      ((entries m'.heap m'.nHeap).map tree').Perm (.node a b :: ts) := by
  obtain ⟨n1, heap1, hp1, ok1, perm1, min1⟩ := popRoot_spec h.heapOk h.some
  obtain ⟨n2, heap2, hp2, ok2, perm2, min2⟩ := popRoot_spec ok1 (by dsimp only; omega)
  dsimp only at hp2 ok2 perm2 min2
  have hperm : (entries m.heap m.nHeap).Perm
      (n1 :: n2 :: entries heap2 (m.nHeap - 1 - 1)) := perm1.trans (perm2.cons n1)
  have h12 := min1 n2 (perm2.mem_iff.mpr (by simp))
  have hin1 : n1 ∈ entries m.heap m.nHeap := hperm.mem_iff.mpr (by simp)
  have hin2 : n2 ∈ entries m.heap m.nHeap := hperm.mem_iff.mpr (by simp)
  have hmem1 := h.heapOk.mem n1 hin1
  have hmem2 := h.heapOk.mem n2 hin2
  have hcount := h.count
  have hroom : m.nNodes + 1 < nodeSize := by
    unfold nodeSize
    omega
  have hheap := h.heapOk.heap_room
  have hsum' : totalWeight lw alphaSize < Nat.fib (28 + 3) :=
    Nat.lt_of_le_of_lt hsum maxTotal_lt_fib
  have hh1 := h.height_le hsum' hin1
  have hh2 := h.height_le hsum' hin2
  have htwo : (tree n1).weight lw + (tree n2).weight lw ≤ maxTotal := by
    have e := (hperm.map fun r => (tree r).weight lw).sum_nat
    rw [h.sum_eq, List.map_cons, List.map_cons, List.sum_cons, List.sum_cons] at e
    omega
  have hadd := @addWeights_pack ((tree n1).weight lw) ((tree n2).weight lw) (tree n1).height
    (tree n2).height (by omega) (by omega)
    (by unfold maxTotal at htwo; omega)
  obtain ⟨weight, hw⟩ : ∃ weight, weight = m.weight.set (m.nNodes + 1 : Nat)
    (((tree n1).weight lw + (tree n2).weight lw) * 256 +
      (max (tree n1).height (tree n2).height + 1)) := ⟨_, rfl⟩
  have hnot : m.nNodes + 1 ∉ entries heap2 (m.nHeap - 1 - 1) := fun hm => by
    have := (ok2.mem _ hm).2
    dsimp only at this
    omega
  have hkept : ∀ k : Nat, k ≤ m.nNodes → k ≠ m.nNodes + 1 → weight k = m.weight k :=
    fun k hk1 hk2 => by rw [hw, Cells.get_set_of_ne _ (by omega)]
  obtain ⟨heap3, hp3, ok3, perm3⟩ := ok2.push (v := m.nNodes + 1) (N := m.nNodes + 1)
    (by dsimp only; omega) (Nat.le_succ _) hroom (by omega) (Nat.le_refl _) hkept hnot
  dsimp only at hp3 ok3 perm3
  have hrest : ∀ r ∈ entries heap2 (m.nHeap - 1 - 1), r ∈ entries m.heap m.nHeap := fun r hr =>
    hperm.mem_iff.mpr (by simp [hr])
  refine ⟨_, _, tree n1, tree n2, (entries heap2 (m.nHeap - 1 - 1)).map tree, ?_,
    h.join hsum hperm h12 min2 hw (by omega) (by omega)
      (ok3 (linked m.parent n1 n2 (m.nNodes + 1))) perm3, by dsimp only; omega, hperm.map tree,
    h.weight_mono hsum hin1 hin2 h12, fun t ht => ?_, ?_⟩
  · unfold mergeStep
    rw [if_pos hmore, hp1, ok_bind]
    dsimp only
    rw [hp2, ok_bind]
    dsimp only
    rw [store_of_lt _ _ (by omega), ok_bind, store_of_lt _ _ (by omega), ok_bind,
      load_of_lt m.weight (by omega), ok_bind, load_of_lt m.weight (by omega), ok_bind,
      h.weight n1 hmem1.1 hmem1.2, h.weight n2 hmem2.1 hmem2.2, hadd, ok_bind,
      store_of_lt _ _ hroom, ok_bind, store_of_lt _ _ hroom, ok_bind,
      store_of_lt _ _ (by omega), ok_bind, ← hw, hp3, ok_bind]
    rfl
  · obtain ⟨r, hr, rfl⟩ := List.mem_map.mp ht
    exact h.weight_mono hsum hin2 (hrest r hr) (min2 r hr)
  · refine (perm3.map _).trans (List.Perm.of_eq ?_)
    rw [List.map_cons, joined, if_pos rfl]
    congr 1
    refine List.map_congr_left fun r hr => if_neg ?_
    rintro rfl
    exact hnot hr

/-- A round joins two trees, or there is only one left. -/
theorem mergeStep_spec {tree : Nat → CodeTree} {m : Merge} (h : Forest lw alphaSize tree m)
    (hα : alphaSize ≤ bzMaxAlphaSize) (hsum : totalWeight lw alphaSize ≤ maxTotal) :
    (∃ m' tree', mergeStep m = .ok (.inl m') ∧ Forest lw alphaSize tree' m' ∧
      m'.nHeap < m.nHeap) ∨
    (mergeStep m = .ok (.inr m) ∧ m.nHeap = 1) := by
  by_cases hmore : m.nHeap > 1
  · obtain ⟨m', tree', _, _, _, he, h', hlt, -⟩ := mergeStep_joins h hα hsum hmore
    exact .inl ⟨m', tree', he, h', hlt⟩
  · right
    have := h.some
    unfold mergeStep
    rw [if_neg hmore]
    exact ⟨rfl, by omega⟩

/-- **The joining of the trees** ends with one tree, and keeps what each join keeps. -/
theorem mergeLoop_spec {Q : List CodeTree → Prop} (hQ : CodeTree.KeptByJoin lw Q)
    {tree : Nat → CodeTree} {m : Merge} (h : Forest lw alphaSize tree m)
    (hα : alphaSize ≤ bzMaxAlphaSize) (hsum : totalWeight lw alphaSize ≤ maxTotal)
    (hstart : Q ((entries m.heap m.nHeap).map tree)) :
    ∃ m' tree', mergeLoop m = .ok m' ∧ Forest lw alphaSize tree' m' ∧ m'.nHeap = 1 ∧
      Q [tree' (m'.heap 1)] := by
  have hstep : ∀ m : Merge,
      (∃ tree, Forest lw alphaSize tree m ∧ Q ((entries m.heap m.nHeap).map tree)) →
      (∃ m', mergeStep m = .ok (.inl m') ∧
        (∃ tree, Forest lw alphaSize tree m' ∧ Q ((entries m'.heap m'.nHeap).map tree)) ∧
        m'.nHeap < m.nHeap) ∨
      ∃ m', mergeStep m = .ok (.inr m') ∧
        ∃ tree, Forest lw alphaSize tree m' ∧ m'.nHeap = 1 ∧ Q [tree (m'.heap 1)] := by
    rintro m ⟨tree, h, hq⟩
    by_cases hmore : m.nHeap > 1
    · obtain ⟨m', tree', _, _, _, he, h', hlt, hperm, hab, hb, hperm'⟩ :=
        mergeStep_joins h hα hsum hmore
      exact .inl ⟨m', he, ⟨tree', h', hQ.perm (hQ.join (hQ.perm hq hperm) hab hb) hperm'.symm⟩, hlt⟩
    · have hone : m.nHeap = 1 := by
        have := h.some
        omega
      refine .inr ⟨m, ?_, tree, h, hone, ?_⟩
      · unfold mergeStep
        rw [if_neg hmore]
      · rw [hone] at hq
        exact hq
  obtain ⟨m', he, tree', h', hone, hq⟩ := iter_spec _ _ (fun m : Merge => m.nHeap) hstep (m.nHeap + 1) m
    ⟨tree, h, hstart⟩ (Nat.lt_succ_self _)
  exact ⟨m', tree', he, h', hone, hq⟩

/-! ## 4. One round -/

/-- The weights the round starts with: those of the symbols, whole, and at least 1. -/
structure LeafWeights (lw : Nat → Nat) (alphaSize : Nat) (weight : Cells Nat) : Prop where
  eq : ∀ k, 1 ≤ k → k ≤ alphaSize → weight k = lw k * 256
  pos : ∀ k, 1 ≤ k → k ≤ alphaSize → 1 ≤ lw k

/-- The symbols on the heap, one after the other. -/
structure Pushing (alphaSize : Nat) (weight : Cells Nat) (i : Nat) (m : Merge) : Prop where
  heap : m.nHeap = i
  nodes : m.nNodes = alphaSize
  weight : m.weight = weight
  ok : HeapOk m
  entries : (entries m.heap i).Perm (List.range' 1 i)
  root : ∀ k : Nat, 1 ≤ k → k ≤ i → m.parent k = -1

theorem pushLeaf_spec {weight : Cells Nat} {i : Nat} {m : Merge} (h : Pushing alphaSize weight i m)
    (hi : i < alphaSize) (hα : alphaSize ≤ bzMaxAlphaSize) :
    ∃ m', pushLeaf i m = .ok m' ∧ Pushing alphaSize weight (i + 1) m' := by
  obtain ⟨hheap, hnodes, hweight, hok, hent, hroot⟩ := h
  have hroom : m.nHeap + 1 < heapSize := by
    unfold heapSize
    omega
  have hnode : alphaSize < nodeSize := hnodes ▸ hok.node_room
  have hnot : i + 1 ∉ Heap.entries m.heap m.nHeap := fun hm => by
    rw [hheap] at hm
    have := List.mem_range'_1.mp (hent.mem_iff.mp hm)
    omega
  obtain ⟨c, hc, hcok, hcent⟩ := hok.push (v := i + 1) (N := alphaSize) hroom
    (Nat.le_of_eq hnodes) hnode (by omega) (by omega) (fun _ _ _ => rfl) hnot
  refine ⟨⟨c, m.weight, m.parent.set (i + 1 : Nat) (-1), m.nHeap + 1, m.nNodes⟩, ?_, ?_⟩
  · unfold pushLeaf
    rw [store_of_lt _ _ (by omega), ok_bind]
    dsimp only
    rw [store_of_lt _ _ hroom, ok_bind, hc, ok_bind]
  · refine ⟨by dsimp only; omega, hnodes, hweight, hnodes ▸ hcok _, ?_, fun k hk1 hk2 => ?_⟩
    · rw [hheap] at hcent
      refine hcent.trans ((hent.cons _).trans ?_)
      rw [List.range'_1_concat, Nat.add_comm 1 i]
      exact (List.perm_append_singleton (i + 1) _).symm
    · dsimp only
      rw [Cells.get_set]
      split
      · rfl
      · exact hroot k hk1 (by omega)

/-- **The start of a round**: every symbol a tree of its own. -/
theorem pushLeaves_spec {heap weight : Cells Nat} {parent : Cells Int}
    (hw : LeafWeights lw alphaSize weight) (h2 : 2 ≤ alphaSize) (hα : alphaSize ≤ bzMaxAlphaSize) :
    ∃ m, pushLeaves alphaSize heap weight parent = .ok m ∧ Forest lw alphaSize .leaf m ∧
      m.nHeap = alphaSize := by
  have h0 : ((0 : Nat) : Int) = 0 := rfl
  have hstart : Pushing alphaSize (weight.set 0 0) 0
      ⟨heap.set 0 0, weight.set 0 0, parent.set 0 (-2), 0, alphaSize⟩ := by
    refine ⟨rfl, rfl, rfl, ⟨fun i h1 h2 => ?_, fun v hv => ?_, Cells.get_set_self .., Cells.get_set_self ..,
      show 0 < heapSize by decide, ?_⟩, List.Perm.refl _, fun k h1 h2 => by omega⟩
    · dsimp only at h2
      omega
    · cases hv
    · unfold nodeSize
      dsimp only
      omega
  obtain ⟨m, hm, hP⟩ := forTry_spec (f := pushLeaf) (Pushing alphaSize (weight.set 0 0)) hstart
    alphaSize fun i t hi ht => pushLeaf_spec ht hi hα
  obtain ⟨hheap, hnodes, hweight, hok, hent, hroot⟩ := hP
  refine ⟨m, ?_, ⟨hok, by omega, by omega, by omega, ?_, fun k hk1 hk2 => ?_, fun _ _ _ => rfl, ?_,
    fun r hr => ?_, fun r hr p hp => ?_, 0, ?_⟩, hheap⟩
  · unfold pushLeaves
    rw [store_of_lt heap 0 (show 0 < heapSize by decide), ok_bind,
      store_of_lt weight 0 (show 0 < nodeSize by decide), ok_bind,
      store_of_lt parent (-2) (show 0 < nodeSize by decide), ok_bind, h0]
    exact hm
  · rw [hheap]
    exact hent.nodup_iff.mpr (List.nodup_range' ..)
  · rw [hweight, Cells.get_set_of_ne _ (by omega), hw.eq k hk1 (by omega),
      CodeTree.weight, CodeTree.height, Nat.add_zero]
  · rw [hheap]
    refine List.Perm.trans (List.Perm.of_eq ?_) hent
    simp
  · rw [hheap] at hr
    have := List.mem_range'_1.mp (hent.mem_iff.mp hr)
    exact hroot r (by omega) (by omega)
  · cases List.mem_singleton.mp hp
    rfl
  · refine CodeTree.Greedy.leaves fun r hr => ?_
    rw [hheap] at hr
    have := List.mem_range'_1.mp (hent.mem_iff.mp hr)
    exact hw.pos r (by omega) (by omega)

/-- `while (parent[k] >= 0)` counts the links. -/
theorem climb_spec {parent : Cells Int} {N r : Nat} (hN : N < nodeSize) (hr : r ≤ N)
    (hroot : parent r = -1) : ∀ (d k j fuel : Nat), Links parent N k d r → d < fuel →
      iter HuffHalt.diverge (climbStep parent) fuel (k, j) = .ok (j + d) := by
  intro d
  induction d with
  | zero =>
    intro k j fuel hp hf
    obtain ⟨fuel, rfl⟩ := Nat.exists_eq_add_of_lt hf
    have e : k = r := hp
    subst e
    rw [iter, climbStep]
    simp [load_of_lt parent (Nat.lt_of_le_of_lt hr hN), hroot]
  | succ d ih =>
    intro k j fuel hp hf
    obtain ⟨hk, p, he, hp⟩ := hp
    cases fuel with
    | zero => omega
    | succ fuel =>
      have hnext := ih p (j + 1) fuel hp (by omega)
      rw [iter, climbStep]
      simp only [load_of_lt parent (Nat.lt_of_le_of_lt hk hN), ok_bind, he]
      rw [if_pos (by omega), Int.toNat_natCast]
      simp only [hnext]
      congr 1
      omega

/-- The lengths found so far, and `tooLong`. -/
structure Measured (ds : List (Nat × Nat)) (maxLen i : Nat) (s : Cells Nat × Bool) : Prop where
  depth : ∀ k : Nat, k < i → (k + 1, s.1 k) ∈ ds
  fits : s.2 = false → ∀ k : Nat, k < i → s.1 k ≤ maxLen
  long : s.2 = true → ∃ k : Nat, k < i ∧ maxLen < s.1 k

/-- **The lengths** are the depths in the one tree left. -/
theorem codeLengths_spec {tree : Nat → CodeTree} {m : Merge} (h : Forest lw alphaSize tree m)
    (hsum : totalWeight lw alphaSize ≤ maxTotal) (hone : m.nHeap = 1) (maxLen : Nat)
    (len : Cells Nat) :
    ∃ s, codeLengths m.parent alphaSize maxLen len = .ok s ∧
      Measured (tree (m.heap 1)).depths maxLen alphaSize s := by
  have hin : m.heap 1 ∈ entries m.heap m.nHeap :=
    get_mem_entries m.heap (Int.le_refl 1) (by omega)
  have hparts : (tree (m.heap 1)).leaves.Perm (List.range' 1 alphaSize) := by
    have := h.parts
    rw [hone] at this
    simpa [entries] using this
  have hroot := h.root _ hin
  have hnode := h.heapOk.node_room
  have hsum' : totalWeight lw alphaSize < Nat.fib (28 + 3) :=
    Nat.lt_of_le_of_lt hsum maxTotal_lt_fib
  refine forTry_spec (f := setLength m.parent maxLen)
    (fun i s => Measured (tree (m.heap 1)).depths maxLen i s)
    ⟨fun k hk => by omega, fun _ k hk => by omega, fun hf => by cases hf⟩ alphaSize ?_
  rintro i ⟨len, tooLong⟩ hi ⟨hdepth, hfits, hlong⟩
  dsimp only at hdepth hfits hlong
  have hleaf : i + 1 ∈ (tree (m.heap 1)).leaves :=
    hparts.mem_iff.mpr (List.mem_range'_1.mpr (by omega))
  obtain ⟨⟨a, d⟩, hp, e⟩ := List.mem_map.mp hleaf
  dsimp only at e
  subst e
  have hd : d ≤ 28 := Nat.le_trans (CodeTree.depth_le_height hp) (h.height_le hsum' hin)
  have hclimb : climb m.parent (i + 1) = .ok (0 + d) :=
    climb_spec hnode (h.heapOk.mem _ hin).2 hroot d (i + 1) 0 nodeSize (h.path _ hin _ hp)
      (by unfold nodeSize bzMaxAlphaSize; omega)
  refine ⟨(len.set i (d % 256), tooLong || decide (d > maxLen)), ?_, ?_⟩
  · unfold setLength
    dsimp only
    rw [hclimb, ok_bind, Nat.zero_add]
  · have hget : ∀ k : Nat, (len.set i (d % 256)) k = if k = i then d else len k := by
      intro k
      rw [Cells.get_set, Nat.mod_eq_of_lt (by omega)]
      by_cases hk : k = i
      · rw [if_pos hk, if_pos (by omega)]
      · rw [if_neg hk, if_neg (by omega)]
    refine ⟨fun k hk => ?_, fun hf k hk => ?_, fun ht => ?_⟩
    · dsimp only
      rw [hget]
      by_cases hki : k = i
      · rw [if_pos hki, hki]
        exact hp
      · rw [if_neg hki]
        exact hdepth k (by omega)
    · dsimp only at hf ⊢
      rw [Bool.or_eq_false_iff, decide_eq_false_iff_not] at hf
      rw [hget]
      by_cases hki : k = i
      · rw [if_pos hki]
        omega
      · rw [if_neg hki]
        exact hfits hf.1 k (by omega)
    · dsimp only at ht ⊢
      rw [Bool.or_eq_true, decide_eq_true_eq] at ht
      rcases ht with ht | ht
      · obtain ⟨k, hk, hlt⟩ := hlong ht
        exact ⟨k, by omega, by rw [hget, if_neg (by omega)]; exact hlt⟩
      · exact ⟨i, by omega, by rw [hget, if_pos rfl]; exact ht⟩

/-- A symbol's only depth is its length. -/
theorem Measured.depth_eq {t : CodeTree} {maxLen : Nat} {s : Cells Nat × Bool}
    (h : Measured t.depths maxLen alphaSize s) (hparts : t.leaves.Perm (List.range' 1 alphaSize))
    {p : Nat × Nat} (hp : p ∈ t.depths) : p.2 = s.1 ((p.1 - 1 : Nat) : Int) := by
  have hnd : t.leaves.Nodup := hparts.nodup_iff.mpr (List.nodup_range' ..)
  have hm : p.1 ∈ t.leaves := List.mem_map_of_mem hp
  have hr := List.mem_range'_1.mp (hparts.mem_iff.mp hm)
  have hq := h.depth (p.1 - 1) (by omega)
  have e : p.1 - 1 + 1 = p.1 := by omega
  rw [e] at hq
  have := List.inj_on_of_nodup_map hnd hp hq rfl
  rw [this]

/-- **Lengths that are the depths of one tree** make a complete prefix code. -/
theorem Measured.kraft {t : CodeTree} {maxLen : Nat} {s : Cells Nat × Bool}
    (h : Measured t.depths maxLen alphaSize s) (hparts : t.leaves.Perm (List.range' 1 alphaSize))
    (h2 : 2 ≤ alphaSize) (hfits : s.2 = false) :
    (∀ i : Nat, i < alphaSize → 1 ≤ s.1 i ∧ s.1 i ≤ maxLen) ∧
      ∑ i ∈ Finset.range alphaSize, 2 ^ (maxLen - s.1 i) = 2 ^ maxLen := by
  have huniq := fun p hp => h.depth_eq hparts (p := p) hp
  have hle : ∀ i : Nat, i < alphaSize → s.1 i ≤ maxLen := h.fits hfits
  have hheight : t.depths.map (fun p => 2 ^ (maxLen - p.2)) =
      t.leaves.map (fun k => 2 ^ (maxLen - s.1 ((k - 1 : Nat) : Int))) := by
    rw [CodeTree.leaves, List.map_map]
    refine List.map_congr_left fun p hp => ?_
    rw [huniq p hp]
    rfl
  refine ⟨fun i hi => ⟨?_, hle i hi⟩, ?_⟩
  · cases t with
    | leaf k =>
      have := hparts.length_eq
      simp at this
      omega
    | node l r =>
      obtain ⟨d, hd, _⟩ := CodeTree.mem_depths_node.mp (h.depth i hi)
      dsimp only at hd
      omega
  · have hdeep : t.height ≤ maxLen := by
      obtain ⟨p, hp, e⟩ := t.exists_deepest
      have hm : p.1 ∈ t.leaves := List.mem_map_of_mem hp
      have hr := List.mem_range'_1.mp (hparts.mem_iff.mp hm)
      rw [← e, huniq p hp]
      exact hle _ (by omega)
    have hsum : ∑ i ∈ Finset.range alphaSize, 2 ^ (maxLen - s.1 i) =
        ((List.range alphaSize).map fun i : Nat => 2 ^ (maxLen - s.1 i)).sum := rfl
    rw [← CodeTree.kraft hdeep, hheight, (hparts.map _).sum_nat, List.range'_eq_map_range,
      List.map_map, hsum]
    congr 1
    refine List.map_congr_left fun i _ => ?_
    have e : 1 + i - 1 = i := by omega
    rw [Function.comp_apply, e]

/-! ## 5. The rounds -/

theorem sum_le_of_le {f g : Nat → Nat} (h : ∀ k, 1 ≤ k → k ≤ alphaSize → f k ≤ g k) :
    totalWeight f alphaSize ≤ totalWeight g alphaSize := by
  refine List.sum_le_sum fun k hk => ?_
  have := List.mem_range'_1.mp hk
  exact h k (by omega) (by omega)

theorem sum_const (c : Nat) : totalWeight (fun _ => c) alphaSize = alphaSize * c := by
  unfold totalWeight
  rw [List.map_const', List.sum_replicate, List.length_range', smul_eq_mul]

/-- `1 + j / 2`. -/
def halved (lw : Nat → Nat) (k : Nat) : Nat := 1 + lw k / 2

/-- **Halving makes the sum smaller** as long as one weight is above 2. -/
theorem totalWeight_halved_lt (hpos : ∀ k, 1 ≤ k → k ≤ alphaSize → 1 ≤ lw k)
    (hbig : 2 * alphaSize < totalWeight lw alphaSize) :
    totalWeight (halved lw) alphaSize < totalWeight lw alphaSize := by
  have hle : ∀ k ∈ List.range' 1 alphaSize, halved lw k ≤ lw k := fun k hk => by
    have hr := List.mem_range'_1.mp hk
    have := hpos k (by omega) (by omega)
    unfold halved
    omega
  refine List.sum_lt_sum _ _ hle ?_
  by_contra hno
  have hall : totalWeight lw alphaSize ≤ totalWeight (fun _ => 2) alphaSize := by
    refine sum_le_of_le fun k hk1 hk2 => ?_
    by_contra hk
    refine hno ⟨k, List.mem_range'_1.mpr (by omega), ?_⟩
    unfold halved
    omega
  rw [sum_const] at hall
  omega

/-- The symbols' weights halved, the other cells as they were. -/
theorem halve_spec {weight : Cells Nat} (hw : LeafWeights lw alphaSize weight)
    (hα : alphaSize ≤ bzMaxAlphaSize) (hsum : totalWeight lw alphaSize ≤ maxTotal) :
    ∃ weight', forTry alphaSize halveWeight weight = .ok weight' ∧
      LeafWeights (halved lw) alphaSize weight' := by
  have hone : ∀ k, 1 ≤ k → k ≤ alphaSize → lw k ≤ maxTotal := fun k h1 h2 =>
    Nat.le_trans (List.single_le_sum (fun _ _ => Nat.zero_le _) _
      (List.mem_map_of_mem (f := lw) (List.mem_range'_1.mpr (by omega)))) hsum
  obtain ⟨weight', he, h1, h2⟩ := forTry_spec (f := halveWeight)
    (fun i (t : Cells Nat) => (∀ k : Nat, 1 ≤ k → k ≤ i → t k = halved lw k * 256) ∧
      ∀ k : Nat, i < k → t k = weight k)
    (s := weight) ⟨fun k h1 h2 => by omega, fun _ _ => rfl⟩ alphaSize fun i t hi ⟨h1, h2⟩ => by
      have hget := h2 (i + 1) (by omega)
      rw [hw.eq (i + 1) (by omega) (by omega)] at hget
      have hbound := hone (i + 1) (by omega) (by omega)
      have hv : (1 + (lw (i + 1) * 256) >>> 8 / 2) <<< 8 = halved lw (i + 1) * 256 := by
        have e : (lw (i + 1) * 256) >>> 8 = lw (i + 1) := by
          rw [Nat.shiftRight_eq_div_pow]
          omega
        rw [e, Nat.shiftLeft_eq]
        rfl
      have hfit : halved lw (i + 1) * 256 < 2 ^ 31 := by
        unfold halved
        unfold maxTotal at hbound
        omega
      have hsize : i + 1 < nodeSize := by
        unfold nodeSize
        omega
      refine ⟨t.set (i + 1 : Nat) (halved lw (i + 1) * 256), ?_, fun k hk1 hk2 => ?_,
        fun k hk => ?_⟩
      · unfold halveWeight
        rw [load_of_lt t hsize, ok_bind]
        dsimp only
        rw [hget, hv, int32, if_pos hfit, ok_bind, store_of_lt _ _ hsize]
      · rw [Cells.get_set]
        by_cases hk : k = i + 1
        · rw [if_pos (by omega), hk]
        · rw [if_neg (by omega)]
          exact h1 k hk1 (by omega)
      · rw [Cells.get_set_of_ne _ (by omega)]
        exact h2 k (by omega)
  exact ⟨weight', he, fun k hk1 hk2 => h1 k hk1 hk2, fun k _ _ => Nat.le_add_right 1 _⟩

/-- The weight of a symbol, without the depth field. -/
def wholeOf (weight : Cells Nat) (k : Nat) : Nat := weight k / 256

/-- What holds between two rounds. -/
structure RoundOk (alphaSize : Nat) (s : Rounds) : Prop where
  leaves : LeafWeights (wholeOf s.weight) alphaSize s.weight
  sum : totalWeight (wholeOf s.weight) alphaSize ≤ maxTotal

/-- The lengths of a complete prefix code: between 1 and `maxLen`, with Kraft sum 1. -/
structure CompleteCode (alphaSize maxLen : Nat) (len : Cells Nat) : Prop where
  range : ∀ i : Nat, i < alphaSize → 1 ≤ len i ∧ len i ≤ maxLen
  kraft : ∑ i ∈ Finset.range alphaSize, 2 ^ (maxLen - len i) = 2 ^ maxLen

theorem RoundOk.of_leafWeights {s : Rounds} (hw : LeafWeights lw alphaSize s.weight)
    (hsum : totalWeight lw alphaSize ≤ maxTotal) :
    RoundOk alphaSize s ∧
      totalWeight (wholeOf s.weight) alphaSize = totalWeight lw alphaSize := by
  have e : ∀ k, 1 ≤ k → k ≤ alphaSize → wholeOf s.weight k = lw k := fun k h1 h2 => by
    rw [wholeOf, hw.eq k h1 h2]
    omega
  have es : totalWeight (wholeOf s.weight) alphaSize = totalWeight lw alphaSize :=
    Nat.le_antisymm (sum_le_of_le fun k h1 h2 => Nat.le_of_eq (e k h1 h2))
      (sum_le_of_le fun k h1 h2 => Nat.le_of_eq (e k h1 h2).symm)
  refine ⟨⟨⟨fun k h1 h2 => ?_, fun k h1 h2 => ?_⟩, by rw [es]; exact hsum⟩, es⟩
  · rw [e k h1 h2]
    exact hw.eq k h1 h2
  · rw [e k h1 h2]
    exact hw.pos k h1 h2

/-- **One round** makes one tree, whatever a join keeps being true of it, and returns its depths, or
    goes on with halved weights if one is too long. -/
theorem roundStep_tree {Q : List CodeTree → Prop} (hQ : CodeTree.KeptByJoin lw Q)
    (hstart : Q ((List.range' 1 alphaSize).map .leaf)) {s : Rounds}
    (hleaves : LeafWeights lw alphaSize s.weight) (hsum : totalWeight lw alphaSize ≤ maxTotal)
    (h2 : 2 ≤ alphaSize) (hα : alphaSize ≤ bzMaxAlphaSize) :
    ∃ (t : CodeTree) (len : Cells Nat) (tooLong : Bool),
      Q [t] ∧ t.leaves.Perm (List.range' 1 alphaSize) ∧
      (∀ k, totalWeight lw alphaSize < Nat.fib (k + 3) → t.height ≤ k) ∧
      Measured t.depths 17 alphaSize (len, tooLong) ∧
      (tooLong = false → roundStep alphaSize 17 s = .ok (.inr len)) ∧
      (tooLong = true → ∃ s', roundStep alphaSize 17 s = .ok (.inl s') ∧
        LeafWeights (halved lw) alphaSize s'.weight) := by
  obtain ⟨m, hm, hF, hheap⟩ := pushLeaves_spec hleaves h2 hα
  have hperm : (List.range' 1 alphaSize).map CodeTree.leaf |>.Perm
      ((entries m.heap m.nHeap).map CodeTree.leaf) := by
    refine (List.Perm.trans (List.Perm.of_eq ?_) hF.parts).symm.map _
    simp
  obtain ⟨m', tree, hm', hF', hone, hq⟩ := mergeLoop_spec hQ hF hα hsum (hQ.perm hstart hperm)
  obtain ⟨⟨len, tooLong⟩, hlen, hmeas⟩ := codeLengths_spec hF' hsum hone 17 s.len
  have hin : m'.heap 1 ∈ entries m'.heap m'.nHeap :=
    get_mem_entries m'.heap (Int.le_refl 1) (by omega)
  have hparts : (tree (m'.heap 1)).leaves.Perm (List.range' 1 alphaSize) := by
    have := hF'.parts
    rw [hone] at this
    simpa [entries] using this
  have hroom : m.nHeap < bzMaxAlphaSize + 2 := hF.heapOk.heap_room
  have hnodes : m'.nNodes < bzMaxAlphaSize * 2 := hF'.heapOk.node_room
  refine ⟨tree (m'.heap 1), len, tooLong, hq, hparts, fun k hk => hF'.height_le hk hin, hmeas,
    fun hshort => ?_, fun hlong => ?_⟩
  · unfold roundStep
    rw [hm, ok_bind, if_neg (not_not.mpr hroom), hm', ok_bind, if_neg (not_not.mpr hnodes), hlen,
      ok_bind, hshort]
    rfl
  · have hleaves' : LeafWeights lw alphaSize m'.weight := by
      refine ⟨fun k h1 h2 => ?_, hleaves.pos⟩
      have hle := hF'.le
      rw [hF'.weight k h1 (by omega), hF'.leaf k h1 h2, CodeTree.weight, CodeTree.height,
        Nat.add_zero]
    obtain ⟨weight, hw, hhalf⟩ := halve_spec hleaves' hα hsum
    refine ⟨⟨m'.heap, weight, m'.parent, len⟩, ?_, hhalf⟩
    unfold roundStep
    rw [hm, ok_bind, if_neg (not_not.mpr hroom), hm', ok_bind, if_neg (not_not.mpr hnodes), hlen,
      ok_bind, hlong]
    dsimp only
    rw [if_neg (by decide), hw]
    rfl

/-- A leaf below level 17 needs more than the weights of 1 and 2 add up to, so that halving makes
    the sum smaller. -/
theorem totalWeight_halved_of_long {t : CodeTree} {s : Cells Nat × Bool}
    (hmeas : Measured t.depths 17 alphaSize s) (hlong : s.2 = true)
    (hheight : ∀ k, totalWeight lw alphaSize < Nat.fib (k + 3) → t.height ≤ k)
    (hpos : ∀ k, 1 ≤ k → k ≤ alphaSize → 1 ≤ lw k) (hα : alphaSize ≤ bzMaxAlphaSize) :
    6765 ≤ totalWeight lw alphaSize ∧
      totalWeight (halved lw) alphaSize < totalWeight lw alphaSize := by
  have hfib : Nat.fib (17 + 3) = 6765 := by decide
  have hbig : Nat.fib (17 + 3) ≤ totalWeight lw alphaSize := by
    by_contra hlt
    obtain ⟨k, hk, hlong⟩ := hmeas.long hlong
    have h1 := CodeTree.depth_le_height (hmeas.depth k hk)
    have h2 := hheight 17 (Nat.not_le.mp hlt)
    dsimp only at h1
    omega
  unfold bzMaxAlphaSize at hα
  exact ⟨by omega, totalWeight_halved_lt hpos (by omega)⟩

/-- It returns a complete code, or goes on with smaller weights. -/
theorem roundStep_spec {s : Rounds} (h : RoundOk alphaSize s) (h2 : 2 ≤ alphaSize)
    (hα : alphaSize ≤ bzMaxAlphaSize) :
    (∃ s', roundStep alphaSize 17 s = .ok (.inl s') ∧ RoundOk alphaSize s' ∧
      totalWeight (wholeOf s'.weight) alphaSize <
        totalWeight (wholeOf s.weight) alphaSize) ∨
    ∃ len, roundStep alphaSize 17 s = .ok (.inr len) ∧ CompleteCode alphaSize 17 len := by
  have hany : CodeTree.KeptByJoin (wholeOf s.weight) fun _ => True :=
    ⟨fun _ _ => trivial, fun _ _ _ => trivial⟩
  obtain ⟨t, len, tooLong, -, hparts, hheight, hmeas, hshort, hlong⟩ :=
    roundStep_tree hany trivial h.leaves h.sum h2 hα
  cases tooLong with
  | false =>
    obtain ⟨hrange, hkraft⟩ := hmeas.kraft hparts h2 rfl
    exact .inr ⟨len, hshort rfl, hrange, hkraft⟩
  | true =>
    obtain ⟨s', he, hhalf⟩ := hlong rfl
    obtain ⟨-, hlt⟩ := totalWeight_halved_of_long hmeas rfl hheight h.leaves.pos hα
    obtain ⟨hok, hs⟩ := RoundOk.of_leafWeights hhalf (Nat.le_trans (Nat.le_of_lt hlt) h.sum)
    exact .inl ⟨s', he, hok, by rw [hs]; exact hlt⟩

/-- How often a symbol occurs, once at least. -/
def occurring (freq : Cells Nat) (i : Nat) : Nat := if freq i = 0 then 1 else freq i

/-- The weights of the first round. -/
theorem firstRound_leaves (heap weight : Cells Nat) (parent : Cells Int) (len freq : Cells Nat)
    (hα : alphaSize ≤ bzMaxAlphaSize)
    (hsum : ∑ i ∈ Finset.range alphaSize, freq i ≤ 900001) :
    ∃ s, firstRound heap weight parent len freq alphaSize = .ok s ∧
      LeafWeights (fun k => occurring freq (k - 1)) alphaSize s.weight ∧
      totalWeight (fun k => occurring freq (k - 1)) alphaSize ≤ maxTotal := by
  obtain ⟨lw, hlw⟩ : ∃ lw : Nat → Nat, lw = fun k => occurring freq (k - 1) := ⟨_, rfl⟩
  rw [← hlw]
  have htotal : totalWeight lw alphaSize ≤ maxTotal := by
    have h1 : totalWeight lw alphaSize ≤
        totalWeight (fun k => freq ((k - 1 : Nat) : Int) + 1) alphaSize := by
      refine sum_le_of_le fun k _ _ => ?_
      rw [hlw]
      dsimp only
      unfold occurring
      split <;> omega
    have h2 : totalWeight (fun k => freq ((k - 1 : Nat) : Int) + 1) alphaSize =
        ∑ i ∈ Finset.range alphaSize, (freq i + 1) := by
      unfold totalWeight
      rw [List.range'_eq_map_range, List.map_map]
      change _ = ((List.range alphaSize).map fun i : Nat => freq i + 1).sum
      congr 1
      refine List.map_congr_left fun i _ => ?_
      have e : 1 + i - 1 = i := by omega
      rw [Function.comp_apply, e]
    rw [h2, Finset.sum_add_distrib, Finset.sum_const, Finset.card_range, smul_eq_mul] at h1
    unfold bzMaxAlphaSize at hα
    unfold maxTotal
    omega
  have hone : ∀ k, 1 ≤ k → k ≤ alphaSize → lw k ≤ maxTotal := fun k h1 h2 =>
    Nat.le_trans (List.single_le_sum (fun _ _ => Nat.zero_le _) _
      (List.mem_map_of_mem (f := lw) (List.mem_range'_1.mpr (by omega)))) htotal
  obtain ⟨weight', he, h1⟩ := forTry_spec (f := firstWeight freq)
    (fun i (t : Cells Nat) => ∀ k : Nat, 1 ≤ k → k ≤ i → t k = lw k * 256)
    (s := weight) (fun k h1 h2 => by omega) alphaSize fun i t hi h1 => by
      have hbound := hone (i + 1) (by omega) (by omega)
      have hv : (if freq i = 0 then 1 else freq i) <<< 8 = lw (i + 1) * 256 := by
        rw [Nat.shiftLeft_eq, hlw]
        rfl
      have hsize : i + 1 < nodeSize := by
        unfold nodeSize
        omega
      refine ⟨t.set (i + 1 : Nat) (lw (i + 1) * 256), ?_, fun k hk1 hk2 => ?_⟩
      · unfold maxTotal at hbound
        unfold firstWeight
        rw [hv, int32, if_pos (by omega), ok_bind, store_of_lt _ _ hsize]
      · rw [Cells.get_set]
        by_cases hk : k = i + 1
        · rw [if_pos (by omega), hk]
        · rw [if_neg (by omega)]
          exact h1 k hk1 (by omega)
  have hleaves : LeafWeights lw alphaSize weight' := by
    refine ⟨h1, fun k _ _ => ?_⟩
    rw [hlw]
    dsimp only
    unfold occurring
    split <;> omega
  refine ⟨⟨heap, weight', parent, len⟩, ?_, hleaves, htotal⟩
  unfold firstRound
  rw [he, ok_bind]

theorem firstRound_spec (heap weight : Cells Nat) (parent : Cells Int) (len freq : Cells Nat)
    (hα : alphaSize ≤ bzMaxAlphaSize)
    (hsum : ∑ i ∈ Finset.range alphaSize, freq i ≤ 900001) :
    ∃ s, firstRound heap weight parent len freq alphaSize = .ok s ∧ RoundOk alphaSize s := by
  obtain ⟨s, hs, hleaves, htotal⟩ := firstRound_leaves heap weight parent len freq hα hsum
  exact ⟨s, hs, (RoundOk.of_leafWeights hleaves htotal).1⟩

/-- What holds of the nodes on the heap at every moment of the joining: they are nodes of the
    arrays, and the depth field of two joined is not too long for its 8 bits. -/
structure NodesFit (m : Merge) : Prop where
  heap_room : m.nHeap < heapSize
  node_room : m.nNodes < nodeSize
  node : ∀ a ∈ entries m.heap m.nHeap, 1 ≤ a ∧ a ≤ m.nNodes
  depth : ∀ a ∈ entries m.heap m.nHeap, ∀ b ∈ entries m.heap m.nHeap,
    1 + myMax (depthOf (m.weight a)) (depthOf (m.weight b)) < 256

theorem Forest.nodesFit {tree : Nat → CodeTree} {m : Merge} (h : Forest lw alphaSize tree m)
    (hsum : totalWeight lw alphaSize ≤ maxTotal) : NodesFit m := by
  have hsum' : totalWeight lw alphaSize < Nat.fib (28 + 3) :=
    Nat.lt_of_le_of_lt hsum maxTotal_lt_fib
  have hdepth : ∀ a ∈ entries m.heap m.nHeap, depthOf (m.weight a) ≤ 28 := by
    intro a ha
    have hmem := h.heapOk.mem a ha
    have hle := h.height_le hsum' ha
    rw [h.weight a hmem.1 hmem.2, depthOf_pack _ (by omega)]
    exact hle
  refine ⟨h.heapOk.heap_room, h.heapOk.node_room, h.heapOk.mem, fun a ha b hb => ?_⟩
  have h1 := hdepth a ha
  have h2 := hdepth b hb
  unfold myMax
  split <;> omega

/-- The lengths are made, and are those of a complete code. -/
theorem hbMakeCodeLengths_ok (heap weight : Cells Nat) (parent : Cells Int) (len freq : Cells Nat)
    {alphaSize : Nat} (h3 : 3 ≤ alphaSize) (hα : alphaSize ≤ 258)
    (hsum : ∑ i ∈ Finset.range alphaSize, freq i ≤ 900001) :
    ∃ len', hbMakeCodeLengths heap weight parent len freq alphaSize 17 = .ok len' ∧
      CompleteCode alphaSize 17 len' := by
  obtain ⟨s0, hs0, hok0⟩ := firstRound_spec heap weight parent len freq hα hsum
  have hmeasure := hok0.sum
  unfold hbMakeCodeLengths
  rw [hs0, ok_bind]
  exact iter_spec (RoundOk alphaSize) (CompleteCode alphaSize 17)
    (fun s => totalWeight (wholeOf s.weight) alphaSize)
    (fun s hs => roundStep_spec hs (by omega) hα) (2 ^ 24) s0 hok0
    (by unfold maxTotal at hmeasure; omega)

/-- **`BZ2_hbMakeCodeLengths`**, for 3 to 258 symbols that occur 900001 times or less together. It
    returns: the loops end, no value leaves the range of an `Int32`, no access leaves an array, no
    assertion fails. The lengths lie between 1 and 17 and are those of a complete prefix code. In
    every round, at every moment of the joining, the nodes on the heap exist and a depth field has
    room for one more. -/
theorem hbMakeCodeLengths_complete (heap weight : Cells Nat) (parent : Cells Int)
    (len freq : Cells Nat) (alphaSize : Nat) (h3 : 3 ≤ alphaSize) (hα : alphaSize ≤ 258)
    (hsum : ∑ i ∈ Finset.range alphaSize, freq i ≤ 900001) :
    (∃ len', hbMakeCodeLengths heap weight parent len freq alphaSize 17 = .ok len' ∧
      CompleteCode alphaSize 17 len') ∧
    ∀ s0 s m0 m, firstRound heap weight parent len freq alphaSize = .ok s0 →
      Visits (roundStep alphaSize 17) s0 s →
      pushLeaves alphaSize s.heap s.weight s.parent = .ok m0 → Visits mergeStep m0 m →
      NodesFit m := by
  refine ⟨hbMakeCodeLengths_ok heap weight parent len freq h3 hα hsum,
    fun s0 s m0 m hs0 hs hm0 hm => ?_⟩
  obtain ⟨s1, hs1, hok1⟩ := firstRound_spec heap weight parent len freq hα hsum
  rw [hs0] at hs1
  cases hs1
  have hok : RoundOk alphaSize s := hs.inv hok1 fun a b ha hb => by
    rcases roundStep_spec ha (by omega) hα with ⟨_, he, hb', _⟩ | ⟨_, he, _⟩
    · rw [he] at hb
      cases hb
      exact hb'
    · rw [he] at hb
      cases hb
  obtain ⟨m1, hm1, hF, _⟩ :=
    pushLeaves_spec hok.leaves (by omega) hα
  rw [hm1] at hm0
  cases hm0
  obtain ⟨tree, hF'⟩ := hm.inv
    (P := fun m => ∃ tree, Forest (wholeOf s.weight) alphaSize tree m) ⟨_, hF⟩
    fun a b ⟨tree, ha⟩ hb => by
      rcases mergeStep_spec ha hα hok.sum with ⟨_, tree', he, hb', _⟩ | ⟨he, _⟩
      · rw [he] at hb
        cases hb
        exact ⟨tree', hb'⟩
      · rw [he] at hb
        cases hb
  exact hF'.nodesFit hok.sum

/-- The Fibonacci numbers as frequencies. -/
def fibonacciFreq : Cells Nat := .ofFn fun i => Nat.fib (i.toNat + 1)

/-- Twenty of them make a tree of height 19, so the weights are halved. -/
theorem hbMakeCodeLengths_complete_fibonacci : ∃ len' s0 s m0,
    hbMakeCodeLengths (.ofFn fun _ => 7) (.ofFn fun _ => 7) (.ofFn fun _ => 7) (.ofFn fun _ => 0)
      fibonacciFreq 20 17 = .ok len' ∧ CompleteCode 20 17 len' ∧
    firstRound (.ofFn fun _ => 7) (.ofFn fun _ => 7) (.ofFn fun _ => 7) (.ofFn fun _ => 0)
      fibonacciFreq 20 = .ok s0 ∧
    roundStep 20 17 s0 = .ok (.inl s) ∧ pushLeaves 20 s.heap s.weight s.parent = .ok m0 ∧
    ∀ m, Visits mergeStep m0 m → NodesFit m := by
  have hsum : ∑ i ∈ Finset.range 20, fibonacciFreq i ≤ 900001 := by decide +kernel
  obtain ⟨⟨len', hrun, hcode⟩, hfit⟩ := hbMakeCodeLengths_complete (.ofFn fun _ => 7)
    (.ofFn fun _ => 7) (.ofFn fun _ => 7) (.ofFn fun _ => 0) fibonacciFreq 20 (by decide) (by decide)
    hsum
  obtain ⟨s0, hs0, hok0⟩ := firstRound_spec (.ofFn fun _ => 7) (.ofFn fun _ => 7)
    (.ofFn fun _ => 7) (.ofFn fun _ => 0) fibonacciFreq (show 20 ≤ bzMaxAlphaSize by decide) hsum
  have hhalved : (firstRound (.ofFn fun _ => 7) (.ofFn fun _ => 7) (.ofFn fun _ => 7)
      (.ofFn fun _ => 0) fibonacciFreq 20 >>= fun s0 =>
        (roundStep 20 17 s0).map Sum.isLeft) = .ok true := by decide +kernel
  rw [hs0, ok_bind] at hhalved
  rcases roundStep_spec hok0 (by decide) (by decide) with ⟨s, hs, hok, -⟩ | ⟨len, hs, -⟩
  · obtain ⟨m0, hm0, -⟩ := pushLeaves_spec hok.leaves (by decide) (by decide)
    exact ⟨len', s0, s, m0, hrun, hcode, hs0, hs, hm0, fun m hm =>
      hfit s0 s m0 m hs0 (Visits.start.next hs) hm0 hm⟩
  · rw [hs] at hhalved
    cases hhalved

end Qbz2
