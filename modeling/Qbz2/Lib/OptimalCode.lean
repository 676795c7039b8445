/-
  File:      Qbz2/Lib/OptimalCode.lean
  Subject:   Code lengths that cost the least, and why joining the two lightest trees finds them.

  * `Kraft` -- lengths a binary code can have; `kraft_code` -- those of a uniquely decodable one;
    `uniquelyDecodable_of_prefixFree`; `cost` -- what symbols cost with them;
  * `Needs ws c` -- no lengths make symbols of weights `ws` cost less than `c`;
  * `exists_longest` -- the lightest symbol may have the greatest length;
  * **`Needs.join`** -- so the two lightest may be two leaves of one node, and what is needed grows
    by their weight when they are taken apart;
  * `Best`, `Best.join` -- a forest that can still become a tree of the least cost;
    **`Best.tree`** -- the tree it ends in is one.
-/
import Mathlib.InformationTheory.Coding.KraftMcMillan
import Qbz2.Lib.CodeTree

namespace CodeTree

open InformationTheory

/-! ## 1. Lengths -/

/-- Lengths that a binary code can have. -/
def Kraft (ls : List Nat) : Prop :=
  ∀ m, (∀ l ∈ ls, l ≤ m) → (ls.map fun l => 2 ^ (m - l)).sum ≤ 2 ^ m

/-- What symbols cost, each with its weight and its length. -/
def cost (ps : List (Nat × Nat)) : Nat := (ps.map fun p => p.1 * p.2).sum

/-- **What symbols of these weights cost**, at least, with any code. -/
def Needs (ws : List Nat) (c : Nat) : Prop :=
  ∀ ps : List (Nat × Nat), (ps.map Prod.fst).Perm ws → Kraft (ps.map Prod.snd) → c ≤ cost ps

theorem Kraft.perm {ls ls' : List Nat} (h : Kraft ls) (hp : ls.Perm ls') : Kraft ls' := by
  intro m hm
  rw [← (hp.map _).sum_nat]
  exact h m fun l hl => hm l (hp.mem_iff.mp hl)

@[simp] theorem cost_cons (p : Nat × Nat) (ps : List (Nat × Nat)) :
    cost (p :: ps) = p.1 * p.2 + cost ps := by
  simp [cost]

theorem cost_perm {ps ps' : List (Nat × Nat)} (hp : ps.Perm ps') : cost ps = cost ps' :=
  (hp.map _).sum_nat

/-- **The lengths of a uniquely decodable code**, by the inequality of Kraft and McMillan. -/
theorem kraft_code {n : Nat} {code : Nat → List Bool} (hinj : Set.InjOn code (Finset.range n))
    (hcode : UniquelyDecodable (code '' (Finset.range n))) :
    Kraft ((List.range n).map fun i => (code i).length) := by
  intro m hm
  have hreal := kraft_mcmillan_inequality (S := (Finset.range n).image code) (by
    rw [Finset.coe_image]
    exact hcode)
  rw [Finset.sum_image hinj, Fintype.card_bool] at hreal
  have hle : ∀ i ∈ Finset.range n, (code i).length ≤ m := fun i hi =>
    hm _ (List.mem_map.mpr ⟨i, List.mem_range.mpr (Finset.mem_range.mp hi), rfl⟩)
  have hscale : ((∑ i ∈ Finset.range n, 2 ^ (m - (code i).length) : Nat) : ℝ) ≤ ((2 ^ m : Nat) : ℝ) := by
    push_cast
    calc ∑ i ∈ Finset.range n, (2 : ℝ) ^ (m - (code i).length)
        = 2 ^ m * ∑ i ∈ Finset.range n, (1 / (2 : Nat) : ℝ) ^ (code i).length := by
          rw [Finset.mul_sum]
          refine Finset.sum_congr rfl fun i hi => ?_
          rw [pow_sub₀ _ two_ne_zero (hle i hi), one_div, inv_pow]
          push_cast
          rfl
      _ ≤ 2 ^ m * 1 := by gcongr
      _ = 2 ^ m := mul_one _
  rw [List.map_map]
  exact Nat.cast_le.mp hscale

/-- **A code of which no word begins another** can be read back. -/
theorem uniquelyDecodable_of_prefixFree {α : Type} {S : Set (List α)} (hne : [] ∉ S)
    (hpre : ∀ v ∈ S, ∀ w ∈ S, v <+: w → v = w) : UniquelyDecodable S := by
  intro L₁
  induction L₁ with
  | nil =>
    intro L₂ _ h₂ hflat
    cases L₂ with
    | nil => rfl
    | cons w L₂ =>
      have hw := (List.append_eq_nil_iff.mp hflat.symm).1
      exact absurd (hw ▸ h₂ w List.mem_cons_self) hne
  | cons v L₁ ih =>
    intro L₂ h₁ h₂ hflat
    have hv := h₁ v List.mem_cons_self
    cases L₂ with
    | nil => exact absurd ((List.append_eq_nil_iff.mp hflat).1 ▸ hv) hne
    | cons w L₂ =>
      have hw := h₂ w List.mem_cons_self
      have heq : v = w := by
        have hp : w <+: v ++ L₁.flatten := by
          rw [show v ++ L₁.flatten = w ++ L₂.flatten from hflat]
          exact List.prefix_append w _
        rcases List.prefix_or_prefix_of_prefix (List.prefix_append v L₁.flatten) hp with h | h
        · exact hpre v hv w hw h
        · exact (hpre w hw v hv h).symm
      subst heq
      rw [ih L₂ (fun x hx => h₁ x (List.mem_cons_of_mem _ hx))
        (fun x hx => h₂ x (List.mem_cons_of_mem _ hx)) (List.append_cancel_left hflat)]

/-- A finer unit. -/
theorem kraft_scale {ls : List Nat} {m : Nat} (hm : ∀ l ∈ ls, l ≤ m) (k : Nat) :
    (ls.map fun l => 2 ^ (m + k - l)).sum = 2 ^ k * (ls.map fun l => 2 ^ (m - l)).sum := by
  induction ls with
  | nil => simp
  | cons l ls ih =>
    have hl := hm l List.mem_cons_self
    have e : m + k - l = k + (m - l) := by omega
    rw [List.map_cons, List.sum_cons, List.map_cons, List.sum_cons,
      ih fun l' hl' => hm l' (List.mem_cons_of_mem _ hl'), e, Nat.pow_add, Nat.mul_add]

/-- **The two longest joined**: there is room for one that is shorter by one than the shorter of
    them. -/
theorem Kraft.join {l₁ l₂ : Nat} {ls : List Nat} (h : Kraft (l₁ :: l₂ :: ls)) (h21 : l₂ ≤ l₁)
    (hls : ∀ l ∈ ls, l ≤ l₂) : 1 ≤ l₂ ∧ Kraft ((l₂ - 1) :: ls) := by
  obtain ⟨k, rfl⟩ := Nat.exists_eq_add_of_le h21
  have hall := h (l₂ + k) (by
    intro l hl
    rcases List.mem_cons.mp hl with rfl | hl
    · exact Nat.le_refl _
    rcases List.mem_cons.mp hl with rfl | hl
    · exact Nat.le_add_right _ _
    · exact Nat.le_trans (hls l hl) (Nat.le_add_right _ _))
  -- what the others take, in units of the second
  obtain ⟨S, hS⟩ : ∃ S, S = (ls.map fun l => 2 ^ (l₂ - l)).sum := ⟨_, rfl⟩
  have e1 : l₂ + k - (l₂ + k) = 0 := Nat.sub_self _
  have e2 : l₂ + k - l₂ = k := Nat.add_sub_cancel_left _ _
  rw [List.map_cons, List.sum_cons, List.map_cons, List.sum_cons, kraft_scale hls k, ← hS, e1, e2,
    Nat.pow_zero, Nat.add_comm l₂ k, Nat.pow_add] at hall
  have hroom : S + 1 < 2 ^ l₂ := by
    by_contra hge
    have := Nat.mul_le_mul_left (2 ^ k) (Nat.le_of_not_lt hge)
    rw [Nat.mul_add, Nat.mul_one] at this
    omega
  have hpos : 1 ≤ l₂ := by
    by_contra h0
    have h0 : l₂ = 0 := by omega
    rw [h0] at hroom
    simp at hroom
  refine ⟨hpos, fun m hm => ?_⟩
  rw [List.map_cons, List.sum_cons]
  have hls' := fun l hl => hm l (List.mem_cons_of_mem _ hl)
  have hm1 := hm (l₂ - 1) List.mem_cons_self
  by_cases hle : l₂ ≤ m
  · obtain ⟨j, rfl⟩ := Nat.exists_eq_add_of_le hle
    have e3 : l₂ + j - (l₂ - 1) = j + 1 := by omega
    have := Nat.mul_le_mul_left (2 ^ j) (show 2 + S ≤ 2 ^ l₂ by omega)
    rw [kraft_scale hls j, ← hS, e3, Nat.add_comm l₂ j, Nat.pow_add, Nat.pow_add, Nat.pow_one,
      ← Nat.mul_add]
    exact this
  · -- then all of them are shorter
    obtain rfl : l₂ = m + 1 := by omega
    rw [kraft_scale hls' 1] at hS
    rw [Nat.add_sub_cancel, Nat.sub_self, Nat.pow_zero]
    rw [Nat.pow_succ] at hroom
    omega

/-! ## 2. The lightest symbol -/

/-- **The lightest symbol may have the greatest length**: the others share the rest, and it costs no
    more. -/
theorem exists_longest {a : Nat} {ws : List Nat} {ps : List (Nat × Nat)}
    (hps : (ps.map Prod.fst).Perm (a :: ws)) (ha : ∀ w ∈ ws, a ≤ w) :
    ∃ (l : Nat) (qs : List (Nat × Nat)), (qs.map Prod.fst).Perm ws ∧
      (ps.map Prod.snd).Perm (l :: qs.map Prod.snd) ∧ (∀ k ∈ qs.map Prod.snd, k ≤ l) ∧
      a * l + cost qs ≤ cost ps := by
  obtain ⟨⟨a', la⟩, hp, rfl⟩ := List.mem_map.mp (hps.mem_iff.mpr List.mem_cons_self)
  dsimp only at hps ha ⊢
  obtain ⟨qs, hqs⟩ := List.mem_iff_append.mp hp |>.elim fun s h => h.elim fun t h =>
    (⟨s ++ t, by rw [h]; exact List.perm_middle⟩ : ∃ qs, ps.Perm ((a', la) :: qs))
  have hfst : (qs.map Prod.fst).Perm ws :=
    List.Perm.cons_inv ((hqs.map Prod.fst).symm.trans hps)
  have hsnd := hqs.map Prod.snd
  rw [cost_perm hqs, cost_cons]
  by_cases hmax : ∀ k ∈ qs.map Prod.snd, k ≤ la
  · exact ⟨la, qs, hfst, hsnd, hmax, Nat.le_refl _⟩
  · -- a longer one changes places with it
    obtain ⟨l, hl, hall⟩ : ∃ l ∈ qs.map Prod.snd, ∀ k ∈ qs.map Prod.snd, k ≤ l := by
      have hne : qs.map Prod.snd ≠ [] := by
        intro hnil
        rw [hnil] at hmax
        exact hmax fun _ h => absurd h List.not_mem_nil
      exact ⟨(qs.map Prod.snd).max hne, List.max_mem hne, fun k hk => List.le_max_of_mem hk⟩
    have hla : la ≤ l := by
      by_contra hlt
      exact hmax fun k hk => Nat.le_trans (hall k hk) (by omega)
    obtain ⟨⟨b, l'⟩, hb, rfl⟩ := List.mem_map.mp hl
    dsimp only at hall hla ⊢
    obtain ⟨rs, hrs⟩ := List.mem_iff_append.mp hb |>.elim fun s h => h.elim fun t h =>
      (⟨s ++ t, by rw [h]; exact List.perm_middle⟩ : ∃ rs, qs.Perm ((b, l') :: rs))
    have hab : a' ≤ b := ha b (hfst.mem_iff.mp (List.mem_map_of_mem hb))
    refine ⟨l', (b, la) :: rs, (hrs.map Prod.fst).symm.trans hfst, ?_, ?_, ?_⟩
    · refine hsnd.trans ((List.Perm.cons _ (hrs.map Prod.snd)).trans ?_)
      exact List.Perm.swap _ _ _
    · intro k hk
      rcases List.mem_cons.mp hk with rfl | hk
      · exact hla
      · exact hall k ((hrs.map Prod.snd).mem_iff.mpr (List.mem_cons_of_mem _ hk))
    · rw [cost_perm hrs, cost_cons, cost_cons]
      dsimp only
      obtain ⟨x, rfl⟩ := Nat.exists_eq_add_of_le hab
      obtain ⟨y, rfl⟩ := Nat.exists_eq_add_of_le hla
      have : a' * (la + y) + ((a' + x) * la + cost rs) + x * y =
          a' * la + ((a' + x) * (la + y) + cost rs) := by ring
      omega

/-- **The two lightest joined.** -/
theorem Needs.join {a b c : Nat} {ws : List Nat} (h : Needs ((a + b) :: ws) c) (hab : a ≤ b)
    (hb : ∀ w ∈ ws, b ≤ w) : Needs (a :: b :: ws) (c + (a + b)) := by
  intro ps hps hk
  obtain ⟨l₁, qs, hqs, hsnd, hmax, hcost⟩ := exists_longest hps (by
    intro w hw
    rcases List.mem_cons.mp hw with rfl | hw
    · exact hab
    · exact Nat.le_trans hab (hb w hw))
  obtain ⟨l₂, rs, hrs, hsnd', hmax', hcost'⟩ := exists_longest hqs hb
  have hk' : Kraft (l₁ :: l₂ :: rs.map Prod.snd) := hk.perm (hsnd.trans (hsnd'.cons _))
  obtain ⟨hpos, hk''⟩ := hk'.join (hmax l₂ (hsnd'.mem_iff.mpr List.mem_cons_self)) hmax'
  have h21 := hmax l₂ (hsnd'.mem_iff.mpr List.mem_cons_self)
  have hjoined := h ((a + b, l₂ - 1) :: rs) (hrs.cons _) hk''
  rw [cost_cons] at hjoined
  dsimp only at hjoined
  have hone : (a + b) * (l₂ - 1) + (a + b) = a * l₂ + b * l₂ := by
    obtain ⟨k, rfl⟩ := Nat.exists_eq_add_of_le hpos
    rw [Nat.add_sub_cancel_left]
    ring
  have hle := Nat.mul_le_mul_left a h21
  omega

/-! ## 3. Trees -/

variable (w : Nat → Nat)

/-- The symbols of a tree, each with its weight and its depth. -/
def weighed (t : CodeTree) : List (Nat × Nat) := t.depths.map fun p => (w p.1, p.2)

/-- The depths of a tree are such lengths. -/
theorem kraft_depths (t : CodeTree) : Kraft (t.depths.map Prod.snd) := by
  intro m hm
  obtain ⟨p, hp, he⟩ := t.exists_deepest
  have hheight : t.height ≤ m := he ▸ hm p.2 (List.mem_map_of_mem hp)
  rw [List.map_map]
  exact Nat.le_of_eq (kraft hheight)

/-- What the symbols of a tree cost. -/
def pathLength (t : CodeTree) : Nat := cost (t.weighed w)

theorem cost_append (ps qs : List (Nat × Nat)) : cost (ps ++ qs) = cost ps + cost qs := by
  simp [cost]

/-- A node puts one bit before everything below it. -/
theorem pathLength_node (l r : CodeTree) :
    (node l r).pathLength w = l.pathLength w + r.pathLength w + (l.weight w + r.weight w) := by
  have deeper : ∀ ps : List (Nat × Nat),
      cost (ps.map fun p => (w p.1, p.2 + 1)) =
        cost (ps.map fun p => (w p.1, p.2)) + (ps.map fun p => w p.1).sum := by
    intro ps
    induction ps with
    | nil => rfl
    | cons p ps ih =>
      rw [List.map_cons, List.map_cons, List.map_cons, cost_cons, cost_cons, List.sum_cons, ih]
      ring
  have heavy : ∀ t : CodeTree, (t.depths.map fun p => w p.1).sum = t.weight w := by
    intro t
    rw [weight_eq, leaves, List.map_map]
    rfl
  unfold pathLength weighed
  rw [depths, List.map_map]
  have hcomp : ((fun p : Nat × Nat => (w p.1, p.2)) ∘ fun p : Nat × Nat => (p.1, p.2 + 1)) =
      fun p : Nat × Nat => (w p.1, p.2 + 1) := rfl
  rw [hcomp, List.map_append, cost_append, deeper, deeper, heavy, heavy]
  omega

/-- What the symbols of a forest cost, each in its tree. -/
def forestLength (ts : List CodeTree) : Nat := (ts.map (pathLength w)).sum

/-- **A forest on the way to the least cost**, for symbols of weights `ws`: what its trees still need,
    weighing what they weigh, on top of what they cost, is needed in any case. -/
def Best (ws : List Nat) (ts : List CodeTree) : Prop :=
  ∀ c, Needs (ts.map (weight w)) c → Needs ws (c + forestLength w ts)

variable {w} {ws : List Nat} {ts ts' : List CodeTree}

theorem Needs.perm {c : Nat} {ws' : List Nat} (h : Needs ws c) (hp : ws.Perm ws') : Needs ws' c :=
  fun ps hps hk => h ps (hps.trans hp.symm) hk

theorem Best.perm (h : Best w ws ts) (hp : ts.Perm ts') : Best w ws ts' := by
  intro c hc
  have := h c (hc.perm (hp.map _).symm)
  rwa [forestLength, (hp.map _).sum_nat] at this

/-- Symbols alone. -/
theorem Best.leaves (ss : List Nat) : Best w (ss.map w) (ss.map leaf) := by
  intro c hc
  have h0 : forestLength w (ss.map leaf) = 0 := by
    unfold forestLength
    rw [List.map_map]
    exact List.sum_eq_zero fun x hx => by
      obtain ⟨s, -, rfl⟩ := List.mem_map.mp hx
      rfl
  rw [h0, Nat.add_zero]
  rw [List.map_map] at hc
  exact hc

/-- **The two lightest joined.** -/
theorem Best.join {a b : CodeTree} (h : Best w ws (a :: b :: ts)) (hab : a.weight w ≤ b.weight w)
    (hb : ∀ t ∈ ts, b.weight w ≤ t.weight w) : Best w ws (node a b :: ts) := by
  intro c hc
  have hjoin := h (c + (a.weight w + b.weight w)) (Needs.join hc hab (by
    intro x hx
    obtain ⟨t, ht, rfl⟩ := List.mem_map.mp hx
    exact hb t ht))
  have hlen : forestLength w (node a b :: ts) =
      forestLength w (a :: b :: ts) + (a.weight w + b.weight w) := by
    simp only [forestLength, List.map_cons, List.sum_cons, pathLength_node]
    omega
  rw [hlen]
  intro ps hps hk
  have := hjoin ps hps hk
  omega

/-- **The tree in which the joining ends costs the least.** -/
theorem Best.tree {t : CodeTree} (h : Best w ws [t]) : Needs ws (t.pathLength w) := by
  have := h 0 fun _ _ _ => Nat.zero_le _
  rw [forestLength, List.map_cons, List.map_nil, List.sum_cons, List.sum_nil, Nat.zero_add,
    Nat.add_zero] at this
  exact this

end CodeTree
