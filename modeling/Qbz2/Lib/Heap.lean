/-
  File:      Qbz2/Lib/Heap.lean
  Subject:   Binary heaps in an array, the cells counted from 1.

  * `Ordered key h n` -- no cell of `1..n` is lighter than its parent; `Ordered.root_le`: cell 1
    is a lightest one;
  * `OrderedUp`, `OrderedDown` -- the order but for the cell at `z`, which may be too light, or too
    heavy; exchanging it with its parent, or with its lighter child, moves the exception on, and
    where no exchange is due the order is restored;
  * `entries h n` -- the cells as a list; exchanges, taking the root out and adding a cell change
    it as a bag.
-/
import Mathlib.Data.List.Range
import Mathlib.Data.List.Nodup
import Mathlib.Order.Lattice
import Qbz2.Lib.Segment

namespace Heap

open Segment

variable {α κ : Type*} [LinearOrder κ] {key : α → κ} {h g : Int → α} {n z : Int}

/-! ## 1. The order -/

/-- No cell of `1..n` is lighter than its parent. -/
def Ordered (key : α → κ) (h : Int → α) (n : Int) : Prop :=
  ∀ i, 2 ≤ i → i ≤ n → key (h (i / 2)) ≤ key (h i)

/-- **The root is a lightest cell.** -/
theorem Ordered.root_le (ho : Ordered key h n) :
    ∀ (m : Nat) (i : Int), i.toNat ≤ m → 1 ≤ i → i ≤ n → key (h 1) ≤ key (h i) := by
  intro m
  induction m with
  | zero => intro i hm h1 hn; omega
  | succ m ih =>
    intro i hm h1 hn
    by_cases hi : i = 1
    · rw [hi]
    · exact le_trans (ih (i / 2) (by omega) (by omega) (by omega)) (ho i (by omega) hn)

/-- `g` is `h` with the cells `a` and `b` exchanged. -/
def Exchanged (h g : Int → α) (a b : Int) : Prop :=
  ∀ i, g i = if i = b then h a else if i = a then h b else h i

section Exchange

variable {a b : Int}

theorem Exchanged.left (e : Exchanged h g a b) : g a = h b := by
  rw [e a]
  by_cases hab : a = b
  · rw [if_pos hab, hab]
  · rw [if_neg hab, if_pos rfl]

theorem Exchanged.right (e : Exchanged h g a b) : g b = h a := by rw [e b, if_pos rfl]

theorem Exchanged.other (e : Exchanged h g a b) {i : Int} (ha : i ≠ a) (hb : i ≠ b) :
    g i = h i := by rw [e i, if_neg hb, if_neg ha]

theorem Exchanged.permOn (e : Exchanged h g a b) {lo hi : Int} (ha : lo ≤ a ∧ a ≤ hi)
    (hb : lo ≤ b ∧ b ≤ hi) : PermOn lo hi h g := PermOn.swap ha hb e

end Exchange

/-! ## 2. A cell that may be too light -/

/-- The order, but for cell `z` under its parent. -/
structure OrderedUp (key : α → κ) (h : Int → α) (n z : Int) : Prop where
  other : ∀ i, 2 ≤ i → i ≤ n → i ≠ z → key (h (i / 2)) ≤ key (h i)
  across : 2 ≤ z → ∀ i, i ≤ n → i / 2 = z → key (h (z / 2)) ≤ key (h i)

theorem OrderedUp.finish (hu : OrderedUp key h n z) (hz : z ≤ 1 ∨ key (h (z / 2)) ≤ key (h z)) :
    Ordered key h n := by
  intro i h2 hn
  by_cases hi : i = z
  · rcases hz with hz | hz
    · omega
    · rw [hi]
      exact hz
  · exact hu.other i h2 hn hi

/-- **Up one level.** -/
theorem OrderedUp.step (hu : OrderedUp key h n z) (hz : 2 ≤ z)
    (hlt : key (h z) ≤ key (h (z / 2))) (e : Exchanged h g z (z / 2)) :
    OrderedUp key g n (z / 2) := by
  have hchild : ∀ i, i ≤ n → i ≠ z → i / 2 = z / 2 → key (h (z / 2)) ≤ key (h i) := by
    intro i hi hne hp
    have := hu.other i (by omega) hi hne
    rwa [hp] at this
  constructor
  · intro i h2 hi hne
    by_cases hiz : i = z
    · rw [hiz, e.right, e.left]
      exact hlt
    · rw [e.other hiz hne]
      by_cases h1 : i / 2 = z
      · rw [h1, e.left]
        exact hu.across hz i hi h1
      · by_cases h3 : i / 2 = z / 2
        · rw [h3, e.right]
          exact le_trans hlt (hchild i hi hiz h3)
        · rw [e.other h1 h3]
          exact hu.other i h2 hi hiz
  · intro h2 i hi hp
    have hup := hu.other (z / 2) h2 (by omega) (by omega)
    rw [e.other (show z / 2 / 2 ≠ z by omega) (by omega)]
    by_cases hiz : i = z
    · rw [hiz, e.left]
      exact hup
    · rw [e.other hiz (by omega)]
      exact le_trans hup (hchild i hi hiz hp)

/-- A cell added at the end. -/
theorem Ordered.push (ho : Ordered key h n) (hg : ∀ i, i ≤ n → g i = h i) :
    OrderedUp key g (n + 1) (n + 1) := by
  constructor
  · intro i h2 hi hne
    rw [hg i (by omega), hg (i / 2) (by omega)]
    exact ho i h2 (by omega)
  · intro h2 i hi hp
    omega

/-! ## 3. A cell that may be too heavy -/

/-- The order, but for cell `z` over its children. -/
structure OrderedDown (key : α → κ) (h : Int → α) (n z : Int) : Prop where
  other : ∀ i, 2 ≤ i → i ≤ n → i / 2 ≠ z → key (h (i / 2)) ≤ key (h i)
  under : 2 ≤ z → ∀ i, i ≤ n → i / 2 = z → key (h (z / 2)) ≤ key (h i)

theorem OrderedDown.finish (hd : OrderedDown key h n z)
    (hz : ∀ i, 2 ≤ i → i ≤ n → i / 2 = z → key (h z) ≤ key (h i)) : Ordered key h n := by
  intro i h2 hn
  by_cases hi : i / 2 = z
  · rw [hi]
    exact hz i h2 hn hi
  · exact hd.other i h2 hn hi

/-- **Down one level**, to the lighter child. -/
theorem OrderedDown.step (hd : OrderedDown key h n z) {y : Int} (hy : y / 2 = z)
    (hn : y ≤ n) (hmin : ∀ i, i ≤ n → i / 2 = z → key (h y) ≤ key (h i))
    (hle : key (h y) ≤ key (h z)) (e : Exchanged h g y z) : OrderedDown key g n y := by
  constructor
  · intro i h2 hi hne
    by_cases hiz : i = z
    · rw [hiz, e.right, e.other (show z / 2 ≠ y by omega) (by omega)]
      exact hd.under (by omega) y hn hy
    · by_cases h1 : i / 2 = z
      · rw [h1, e.right]
        by_cases hiy : i = y
        · rw [hiy, e.left]
          exact hle
        · rw [e.other hiy hiz]
          exact hmin i hi h1
      · rw [e.other (show i ≠ y by rintro rfl; exact h1 hy) hiz, e.other hne h1]
        exact hd.other i h2 hi h1
  · intro h2 i hi hp
    rw [hy, e.right, e.other (show i ≠ y by omega) (by omega)]
    have := hd.other i (by omega) hi (by omega)
    rwa [hp] at this

/-- The root replaced. -/
theorem Ordered.replaceRoot (ho : Ordered key h n) {m : Int} (hm : m ≤ n)
    (hg : ∀ i, 2 ≤ i → i ≤ m → g i = h i) : OrderedDown key g m 1 := by
  constructor
  · intro i h2 hi hne
    rw [hg i h2 hi, hg (i / 2) (by omega) (by omega)]
    exact ho i h2 (by omega)
  · intro h2
    omega

/-! ## 4. The cells as a bag -/

/-- The cells `1..n`. -/
def entries (h : Int → α) (n : Nat) : List α := (List.range n).map fun i : Nat => h ((i : Int) + 1)

theorem mem_entries {n : Nat} {v : α} : v ∈ entries h n ↔ Hits 1 n h v := by
  unfold entries
  rw [List.mem_map]
  constructor
  · rintro ⟨i, hi, rfl⟩
    rw [List.mem_range] at hi
    exact ⟨(i : Int) + 1, by omega, by omega, rfl⟩
  · rintro ⟨i, h1, h2, rfl⟩
    refine ⟨(i - 1).toNat, List.mem_range.mpr (by omega), ?_⟩
    have e : ((i - 1).toNat : Int) + 1 = i := by omega
    rw [e]

theorem get_mem_entries (h : Int → α) {n : Nat} {i : Int} (h1 : 1 ≤ i) (hn : i ≤ n) :
    h i ∈ entries h n := mem_entries.mpr ⟨i, h1, hn, rfl⟩

theorem entries_congr {n : Nat} (hg : ∀ i : Int, 1 ≤ i → i ≤ n → g i = h i) :
    entries g n = entries h n := by
  unfold entries
  refine List.map_congr_left fun i hi => ?_
  rw [List.mem_range] at hi
  exact hg _ (by omega) (by omega)

theorem entries_succ (h : Int → α) (n : Nat) :
    entries h (n + 1) = entries h n ++ [h (n + 1)] := by
  simp [entries, List.range_succ]

theorem entries_perm {n : Nat} (hp : PermOn 1 n h g) : (entries g n).Perm (entries h n) := by
  obtain ⟨σ, hσ, hg⟩ := hp
  have hin : ∀ i : Int, 1 ≤ i → i ≤ n → 1 ≤ σ i ∧ σ i ≤ n := by
    intro i h1 h2
    by_contra hk
    have e : σ i = i := σ.injective (hσ _ (by omega))
    omega
  have hcells : ((List.range n).map fun i : Nat => σ ((i : Int) + 1)).Perm
      ((List.range n).map fun i : Nat => ((i : Int) + 1)) := by
    refine (List.perm_ext_iff_of_nodup ?_ ?_).mpr fun v => ?_
    · exact List.Nodup.map (fun a b e => by have := σ.injective e; omega) List.nodup_range
    · exact List.Nodup.map (fun a b e => by omega) List.nodup_range
    · rw [List.mem_map, List.mem_map]
      constructor
      · rintro ⟨i, hi, rfl⟩
        rw [List.mem_range] at hi
        have := hin ((i : Int) + 1) (by omega) (by omega)
        exact ⟨(σ ((i : Int) + 1) - 1).toNat, List.mem_range.mpr (by omega), by omega⟩
      · rintro ⟨i, hi, rfl⟩
        rw [List.mem_range] at hi
        -- the cell that moves here
        have hs : 1 ≤ σ.symm ((i : Int) + 1) ∧ σ.symm ((i : Int) + 1) ≤ n := by
          by_contra hk
          have e := hσ (σ.symm ((i : Int) + 1)) (by omega)
          rw [Equiv.apply_symm_apply] at e
          omega
        refine ⟨(σ.symm ((i : Int) + 1) - 1).toNat, List.mem_range.mpr (by omega), ?_⟩
        have e : ((σ.symm ((i : Int) + 1) - 1).toNat : Int) + 1 = σ.symm ((i : Int) + 1) := by omega
        rw [e, Equiv.apply_symm_apply]
  have e1 : entries g n = ((List.range n).map fun i : Nat => σ ((i : Int) + 1)).map h := by
    simp [entries, hg]
  have e2 : entries h n = ((List.range n).map fun i : Nat => ((i : Int) + 1)).map h := by
    simp [entries]
  rw [e1, e2]
  exact hcells.map h

/-- **The root taken out**, the last cell put in its place. -/
theorem entries_pop {n : Nat} (h1 : 1 ≤ n → g 1 = h (n + 1))
    (hg : ∀ i : Int, 2 ≤ i → i ≤ n → g i = h i) :
    (entries h (n + 1)).Perm (h 1 :: entries g n) := by
  have head : ∀ (k : Int → α) (m : Nat),
      entries k (m + 1) = k 1 :: (List.range m).map fun i : Nat => k ((i : Int) + 2) := by
    intro k m
    unfold entries
    rw [List.range_succ_eq_map, List.map_cons, List.map_map]
    congr 1
  rw [head]
  refine List.Perm.cons _ ?_
  cases n with
  | zero => simp [entries]
  | succ n =>
    have e : ((n : Int) + 2) = ((n + 1 : Nat) : Int) + 1 := by omega
    rw [head, List.range_succ, List.map_append, List.map_singleton, e, h1 (by omega)]
    refine (List.perm_append_comm).trans ?_
    rw [List.singleton_append]
    refine List.Perm.cons _ (List.Perm.of_eq (List.map_congr_left fun i hi => ?_))
    rw [List.mem_range] at hi
    exact (hg _ (by omega) (by omega)).symm

/-- The root is a lightest entry. -/
theorem Ordered.le_of_mem {n : Nat} (ho : Ordered key h n) {v : α} (hv : v ∈ entries h n) :
    key (h 1) ≤ key v := by
  obtain ⟨i, h1, h2, rfl⟩ := mem_entries.mp hv
  exact ho.root_le _ i (Nat.le_refl _) h1 h2

end Heap
