/-
  File:      Qbz2/Lib/CodeTree.lean
  Subject:   Binary code trees, and how high they get when the two lightest are always joined.

  * `CodeTree` -- symbols at the leaves; `depths` lists them with their depths, `weight` adds up
    what they weigh;
  * `kraft` -- the depths of a tree are the lengths of a complete prefix code;
  * `KeptByJoin w Q` -- what a forest may keep as its two lightest trees are joined;
  * `Greedy w ts M` -- what holds of a forest whose trees were made by joining the two lightest:
    none is lighter than `M`, the heavier part of the last join, and a tree of height `h` weighs
    at least the Fibonacci number of `h + 2`. **`Greedy.merge`** is the step,
    **`Greedy.height_le`** what it gives.
-/
import Mathlib.Data.Nat.Fib.Basic

/-- A binary tree with symbols at its leaves. -/
inductive CodeTree where
  | leaf (s : Nat)
  | node (l r : CodeTree)

namespace CodeTree

variable (w : Nat → Nat)

/-! ## 1. Depths -/

/-- What the leaves weigh. -/
def weight : CodeTree → Nat
  | leaf s => w s
  | node l r => weight l + weight r

/-- The depth of the deepest leaf. -/
def height : CodeTree → Nat
  | leaf _ => 0
  | node l r => max (height l) (height r) + 1

/-- The symbols, each with its depth. -/
def depths : CodeTree → List (Nat × Nat)
  | leaf s => [(s, 0)]
  | node l r => (depths l ++ depths r).map fun p => (p.1, p.2 + 1)

/-- The symbols. -/
def leaves (t : CodeTree) : List Nat := t.depths.map Prod.fst

@[simp] theorem leaves_leaf (s : Nat) : (leaf s).leaves = [s] := rfl

@[simp] theorem leaves_node (l r : CodeTree) : (node l r).leaves = l.leaves ++ r.leaves := by
  unfold leaves
  rw [depths, List.map_map, List.map_append]
  rfl

theorem weight_eq (t : CodeTree) : t.weight w = (t.leaves.map w).sum := by
  induction t with
  | leaf s => simp [weight]
  | node l r ihl ihr => rw [weight, ihl, ihr, leaves_node, List.map_append, List.sum_append]

theorem mem_depths_node {l r : CodeTree} {p : Nat × Nat} :
    p ∈ (node l r).depths ↔ ∃ d, p.2 = d + 1 ∧ ((p.1, d) ∈ l.depths ∨ (p.1, d) ∈ r.depths) := by
  obtain ⟨s, e⟩ := p
  rw [depths, List.mem_map]
  constructor
  · rintro ⟨⟨s', d⟩, hm, heq⟩
    cases heq
    exact ⟨d, rfl, List.mem_append.mp hm⟩
  · rintro ⟨d, hd, hm⟩
    dsimp only at hd
    exact ⟨(s, d), List.mem_append.mpr hm, by rw [hd]⟩

theorem depth_le_height {t : CodeTree} {p : Nat × Nat} (hp : p ∈ t.depths) : p.2 ≤ t.height := by
  induction t generalizing p with
  | leaf s =>
    cases List.mem_singleton.mp hp
    exact Nat.le_refl 0
  | node l r ihl ihr =>
    obtain ⟨d, hd, hm | hm⟩ := mem_depths_node.mp hp
    · have := ihl hm
      rw [height]
      omega
    · have := ihr hm
      rw [height]
      omega

theorem exists_deepest (t : CodeTree) : ∃ p ∈ t.depths, p.2 = t.height := by
  induction t with
  | leaf s => exact ⟨(s, 0), List.mem_singleton.mpr rfl, rfl⟩
  | node l r ihl ihr =>
    obtain ⟨⟨a, d⟩, hp, hd⟩ := ihl
    obtain ⟨⟨b, e⟩, hq, he⟩ := ihr
    dsimp only at hd he
    rcases Nat.le_total l.height r.height with h | h
    · refine ⟨(b, e + 1), mem_depths_node.mpr ⟨e, rfl, .inr hq⟩, ?_⟩
      rw [height, Nat.max_eq_right h, ← he]
    · refine ⟨(a, d + 1), mem_depths_node.mpr ⟨d, rfl, .inl hp⟩, ?_⟩
      rw [height, Nat.max_eq_left h, ← hd]

/-- **The depths make a complete prefix code.** -/
theorem kraft {t : CodeTree} {m : Nat} (h : t.height ≤ m) :
    (t.depths.map fun p => 2 ^ (m - p.2)).sum = 2 ^ m := by
  induction t generalizing m with
  | leaf s => simp [depths]
  | node l r ihl ihr =>
    rw [height] at h
    obtain ⟨k, rfl⟩ : ∃ k, m = k + 1 := ⟨m - 1, by omega⟩
    have hshift : (fun p : Nat × Nat => 2 ^ (k + 1 - p.2)) ∘ (fun p : Nat × Nat => (p.1, p.2 + 1)) =
        fun p : Nat × Nat => 2 ^ (k - p.2) := by
      funext p
      have e : k + 1 - (p.2 + 1) = k - p.2 := by omega
      rw [Function.comp_apply, e]
    rw [depths, List.map_map, hshift, List.map_append, List.sum_append, ihl (by omega),
      ihr (by omega), Nat.pow_succ]
    omega

/-! ## 2. Joining the two lightest -/

/-- What joining the two lightest trees keeps, in whatever order the trees are listed. -/
structure KeptByJoin (Q : List CodeTree → Prop) : Prop where
  perm : ∀ {ts ts' : List CodeTree}, Q ts → ts.Perm ts' → Q ts'
  join : ∀ {a b : CodeTree} {ts : List CodeTree}, Q (a :: b :: ts) → a.weight w ≤ b.weight w →
    (∀ t ∈ ts, b.weight w ≤ t.weight w) → Q (node a b :: ts)

/-- What joining the two lightest trees keeps. `M` is the weight of the heavier part of the last
    join. -/
structure Greedy (ts : List CodeTree) (M : Nat) : Prop where
  ge : ∀ t ∈ ts, M ≤ t.weight w
  fib : ∀ t ∈ ts, Nat.fib (t.height + 2) ≤ t.weight w
  low : ∀ t ∈ ts, t.height = 0 ∨ Nat.fib (t.height + 1) ≤ M

variable {w} {ts ts' : List CodeTree} {M : Nat}

theorem Greedy.perm (h : Greedy w ts M) (hp : ts'.Perm ts) : Greedy w ts' M :=
  ⟨fun t ht => h.ge t (hp.mem_iff.mp ht), fun t ht => h.fib t (hp.mem_iff.mp ht),
    fun t ht => h.low t (hp.mem_iff.mp ht)⟩

/-- Leaves alone. -/
theorem Greedy.leaves {ss : List Nat} (hw : ∀ s ∈ ss, 1 ≤ w s) : Greedy w (ss.map leaf) 0 := by
  refine ⟨fun t _ => Nat.zero_le _, fun t ht => ?_, fun t ht => ?_⟩
  · obtain ⟨s, hs, rfl⟩ := List.mem_map.mp ht
    exact hw s hs
  · obtain ⟨s, _, rfl⟩ := List.mem_map.mp ht
    exact .inl rfl

/-- **One join.** The lower part outweighs the last join, and this is where the higher part's
    Fibonacci number gets its successor from. -/
theorem Greedy.merge {a b : CodeTree} (h : Greedy w (a :: b :: ts) M)
    (hab : a.weight w ≤ b.weight w) (hb : ∀ t ∈ ts, b.weight w ≤ t.weight w) :
    Greedy w (node a b :: ts) (b.weight w) := by
  have ha := h.fib a (by simp)
  have hfb := h.fib b (by simp)
  have hge_a := h.ge a (by simp)
  have hge_b := h.ge b (by simp)
  have hM : M ≤ b.weight w := hge_b
  -- a part of height `k`, and another no lighter than the last join
  have key : ∀ {c : CodeTree} {x : Nat}, c ∈ a :: b :: ts → Nat.fib (c.height + 2) ≤ c.weight w →
      M ≤ x → 1 ≤ x → Nat.fib (c.height + 1 + 2) ≤ c.weight w + x := by
    intro c x hc hfc hx hx1
    have hadd : Nat.fib (c.height + 1 + 2) = Nat.fib (c.height + 1) + Nat.fib (c.height + 2) :=
      Nat.fib_add_two
    rcases h.low c hc with h0 | h1
    · rw [h0] at hadd hfc ⊢
      have e1 : Nat.fib (0 + 1) = 1 := rfl
      omega
    · omega
  have ha1 : 1 ≤ a.weight w := Nat.le_trans (Nat.fib_pos.mpr (by omega)) ha
  have hb1 : 1 ≤ b.weight w := Nat.le_trans (Nat.fib_pos.mpr (by omega)) hfb
  refine ⟨fun t ht => ?_, fun t ht => ?_, fun t ht => ?_⟩
  · rcases List.mem_cons.mp ht with rfl | ht
    · rw [weight]
      omega
    · exact hb t ht
  · rcases List.mem_cons.mp ht with rfl | ht
    · rw [height, weight]
      rcases Nat.le_total a.height b.height with hh | hh
      · rw [Nat.max_eq_right hh, Nat.add_comm (a.weight w)]
        exact key (by simp) hfb hge_a ha1
      · rw [Nat.max_eq_left hh]
        exact key (by simp) ha hge_b hb1
    · exact h.fib t (by simp [ht])
  · rcases List.mem_cons.mp ht with rfl | ht
    · refine .inr ?_
      rw [height]
      rcases Nat.le_total a.height b.height with hh | hh
      · rw [Nat.max_eq_right hh]
        exact hfb
      · rw [Nat.max_eq_left hh]
        exact Nat.le_trans ha hab
    · rcases h.low t (by simp [ht]) with h0 | h1
      · exact .inl h0
      · exact .inr (Nat.le_trans h1 hM)

/-- **Light trees are low.** -/
theorem Greedy.height_le (h : Greedy w ts M) {t : CodeTree} (ht : t ∈ ts) {k : Nat}
    (hlt : t.weight w < Nat.fib (k + 3)) : t.height ≤ k := by
  by_contra hk
  have h1 := h.fib t ht
  have h2 : Nat.fib (k + 3) ≤ Nat.fib (t.height + 2) := Nat.fib_mono (by omega)
  omega

end CodeTree
