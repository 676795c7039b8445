/-
  File:      Qbz2/Lib/Rotation.lean
  Subject:   The rotations of a block, their order, and what two sorts of them have in common.

  A block is a function on the integers of which the cells `0..n-1` count; rotation `x` reads
  `T x, T (x+1), ...` around the end.

  * `pre T n h x` -- the first `h` symbols of rotation `x`, compared as words. `pre_add_lt` and
    `pre_add_le` are the doubling rule: `g + h` symbols are compared by the first `g`, and if these
    agree by the `h` symbols of the rotation `g` further on;
  * `RotSort T n f` -- `f` lists the rotations in order. **`RotSort.pre_unique`**: two such lists
    agree row by row up to equal rotations, so their last columns agree (`RotSort.last_unique`);
  * `Repeats T n d`, `Primitive T n` -- `T` is a shorter word repeated, or is not.
    **`Primitive.eq_of_pre`**: the rotations of a primitive block are distinct.
-/
import Mathlib.Data.Int.GCD
import Mathlib.Data.Int.Interval
import Mathlib.Data.List.Sort
import Mathlib.Tactic.Ring
import Qbz2.Lib.Segment

namespace Rotation

open Segment

variable {α : Type*}

/-! ## 1. The first symbols of a rotation -/

/-- The first `h` symbols of rotation `x`. -/
def pre (T : Int → α) (n : Int) : Nat → Int → List α
  | 0, _ => []
  | h + 1, x => T (x % n) :: pre T n h (x + 1)

variable (T : Int → α) (n : Int)

@[simp] theorem length_pre (h : Nat) (x : Int) : (pre T n h x).length = h := by
  induction h generalizing x with
  | zero => rfl
  | succ h ih => rw [pre, List.length_cons, ih]

theorem pre_congr (h : Nat) {x y : Int} (e : x % n = y % n) : pre T n h x = pre T n h y := by
  induction h generalizing x y with
  | zero => rfl
  | succ h ih =>
    have e' : (x + 1) % n = (y + 1) % n := by rw [Int.add_emod x, e, ← Int.add_emod]
    rw [pre, pre, e, ih e']

theorem pre_add (g h : Nat) (x : Int) : pre T n (g + h) x = pre T n g x ++ pre T n h (x + g) := by
  induction g generalizing x with
  | zero => simp [pre]
  | succ g ih =>
    have e : g + 1 + h = g + h + 1 := by omega
    have e' : x + 1 + (g : Int) = x + ((g + 1 : Nat) : Int) := by omega
    rw [e, pre, pre, ih, e', List.cons_append]

theorem pre_succ_last (h : Nat) (x : Int) :
    pre T n (h + 1) x = pre T n h x ++ [T ((x + h) % n)] := by
  rw [pre_add]
  rfl

variable {T n}

/-- Rotations that agree for `h` symbols agree symbol by symbol. -/
theorem symbol_eq_of_pre {h : Nat} {x y : Int} (e : pre T n h x = pre T n h y) {k : Nat}
    (hk : k < h) : T ((x + k) % n) = T ((y + k) % n) := by
  induction h generalizing x y k with
  | zero => omega
  | succ h ih =>
    rw [pre, pre] at e
    obtain ⟨e0, e1⟩ := List.cons.inj e
    cases k with
    | zero => simpa using e0
    | succ k =>
      have := ih e1 (k := k) (by omega)
      have e2 : ∀ z : Int, z + 1 + (k : Int) = z + ((k + 1 : Nat) : Int) := by omega
      rwa [e2, e2] at this

theorem pre_eq_of_symbols {h : Nat} {x y : Int}
    (hs : ∀ k : Nat, k < h → T ((x + k) % n) = T ((y + k) % n)) : pre T n h x = pre T n h y := by
  induction h with
  | zero => rfl
  | succ h ih =>
    rw [pre_succ_last, pre_succ_last, ih fun k hk => hs k (by omega), hs h (by omega)]

/-- **Rotations that agree for one period agree for ever.** -/
theorem symbol_eq_of_period (hn : 0 < n) {x y : Int}
    (e : pre T n n.toNat x = pre T n n.toNat y) (k : Int) : T ((x + k) % n) = T ((y + k) % n) := by
  have hk0 := Int.emod_nonneg k (by omega : n ≠ 0)
  have hk1 := Int.emod_lt_of_pos k hn
  have h := symbol_eq_of_pre e (k := (k % n).toNat) (by omega)
  have ek : (((k % n).toNat : Nat) : Int) = k % n := by omega
  rwa [ek, Int.add_emod_emod, Int.add_emod_emod] at h

theorem pre_eq_of_period (hn : 0 < n) {x y : Int} (e : pre T n n.toNat x = pre T n n.toNat y)
    (h : Nat) : pre T n h x = pre T n h y :=
  pre_eq_of_symbols fun k _ => symbol_eq_of_period hn e k

/-! ## 2. The order -/

section Order

variable [LinearOrder α]

/-- Words of one length are compared by their first parts, then by their second parts. -/
theorem append_lt_append_iff {a b c d : List α} (h : a.length = b.length) :
    a ++ c < b ++ d ↔ a < b ∨ a = b ∧ c < d := by
  induction a generalizing b with
  | nil =>
    cases b with
    | nil => simp
    | cons y b => cases h
  | cons x a ih =>
    cases b with
    | nil => cases h
    | cons y b =>
      have h' : a.length = b.length := by simpa using h
      rw [List.cons_append, List.cons_append, List.cons_lt_cons_iff, List.cons_lt_cons_iff, ih h']
      constructor
      · rintro (hlt | ⟨e, hlt | ⟨e', hcd⟩⟩)
        · exact .inl (.inl hlt)
        · exact .inl (.inr ⟨e, hlt⟩)
        · exact .inr ⟨by rw [e, e'], hcd⟩
      · rintro ((hlt | ⟨e, hlt⟩) | ⟨e, hcd⟩)
        · exact .inl hlt
        · exact .inr ⟨e, .inl hlt⟩
        · obtain ⟨e1, e2⟩ := List.cons.inj e
          exact .inr ⟨e1, .inr ⟨e2, hcd⟩⟩

variable (T n)

/-- **The doubling rule**, strict. -/
theorem pre_add_lt (g h : Nat) (x y : Int) :
    pre T n (g + h) x < pre T n (g + h) y ↔
      pre T n g x < pre T n g y ∨
        pre T n g x = pre T n g y ∧ pre T n h (x + g) < pre T n h (y + g) := by
  rw [pre_add, pre_add, append_lt_append_iff (by simp)]

/-- **The doubling rule.** -/
theorem pre_add_le (g h : Nat) (x y : Int) :
    pre T n (g + h) x ≤ pre T n (g + h) y ↔
      pre T n g x < pre T n g y ∨
        pre T n g x = pre T n g y ∧ pre T n h (x + g) ≤ pre T n h (y + g) := by
  rw [← not_lt, pre_add_lt, ← not_lt (a := pre T n h (y + g))]
  rcases lt_trichotomy (pre T n g x) (pre T n g y) with h1 | h1 | h1
  · simp [h1, h1.not_gt, h1.ne']
  · simp [h1]
  · simp [h1, h1.not_gt, h1.ne']

variable {T n}

theorem pre_le_mono {g h : Nat} (hgh : g ≤ h) {x y : Int} (hle : pre T n h x ≤ pre T n h y) :
    pre T n g x ≤ pre T n g y := by
  obtain ⟨d, rfl⟩ := Nat.exists_eq_add_of_le hgh
  rcases (pre_add_le T n g d x y).mp hle with h1 | ⟨h1, _⟩
  · exact h1.le
  · exact h1.le

theorem pre_lt_mono {g h : Nat} (hgh : g ≤ h) {x y : Int} (hlt : pre T n g x < pre T n g y) :
    pre T n h x < pre T n h y := by
  obtain ⟨d, rfl⟩ := Nat.exists_eq_add_of_le hgh
  exact (pre_add_lt T n g d x y).mpr (.inl hlt)

/-! ## 3. Sorted lists of rotations -/

/-- `f` lists the rotations of the block, each once and in order. -/
structure RotSort (T : Int → α) (n : Int) (f : Int → Int) : Prop where
  inj : InjOn 0 (n - 1) f
  range : ∀ i, 0 ≤ i → i ≤ n - 1 → 0 ≤ f i ∧ f i ≤ n - 1
  ord : OrdOn (pre T n n.toNat) 0 (n - 1) f

/-- A list that repeats nothing and stays in the segment hits every cell of it. -/
theorem hits_of_injOn {lo hi : Int} {f : Int → Int} (hinj : InjOn lo hi f)
    (hr : ∀ i, lo ≤ i → i ≤ hi → lo ≤ f i ∧ f i ≤ hi) {v : Int} (hl : lo ≤ v) (hh : v ≤ hi) :
    Hits lo hi f v := by
  have himg : (Finset.Icc lo hi).image f = Finset.Icc lo hi := by
    refine Finset.eq_of_subset_of_card_le (fun y hy => ?_) ?_
    · obtain ⟨i, hi', rfl⟩ := Finset.mem_image.mp hy
      rw [Finset.mem_Icc] at hi' ⊢
      exact hr i hi'.1 hi'.2
    · rw [Finset.card_image_of_injOn]
      intro i hi' j hj' e
      simp only [Finset.coe_Icc, Set.mem_Icc] at hi' hj'
      exact hinj i j hi'.1 hi'.2 hj'.1 hj'.2 e
  have hv : v ∈ (Finset.Icc lo hi).image f := by
    rw [himg, Finset.mem_Icc]
    exact ⟨hl, hh⟩
  obtain ⟨i, hi', e⟩ := Finset.mem_image.mp hv
  rw [Finset.mem_Icc] at hi'
  exact ⟨i, hi'.1, hi'.2, e⟩

/-- The rows of a list of rotations. -/
def rowsOf (n : Int) (f : Int → Int) : List Int := (List.range n.toNat).map fun i : Nat => f i

@[simp] theorem length_rowsOf (n : Int) (f : Int → Int) : (rowsOf n f).length = n.toNat := by
  simp [rowsOf]

theorem getElem_rowsOf (n : Int) (f : Int → Int) {k : Nat} (h : k < (rowsOf n f).length) :
    (rowsOf n f)[k] = f k := by
  simp [rowsOf]

theorem RotSort.mem_rowsOf {f : Int → Int} (h : RotSort T n f) (v : Int) :
    v ∈ rowsOf n f ↔ 0 ≤ v ∧ v ≤ n - 1 := by
  unfold rowsOf
  rw [List.mem_map]
  constructor
  · rintro ⟨i, hi, rfl⟩
    rw [List.mem_range] at hi
    exact h.range i (by omega) (by omega)
  · rintro ⟨hl, hh⟩
    obtain ⟨i, h1, h2, e⟩ := hits_of_injOn h.inj h.range hl hh
    exact ⟨i.toNat, List.mem_range.mpr (by omega), by rw [Int.toNat_of_nonneg h1, e]⟩

theorem RotSort.nodup_rowsOf {f : Int → Int} (h : RotSort T n f) : (rowsOf n f).Nodup := by
  refine List.Nodup.map_on (fun i hi j hj e => ?_) List.nodup_range
  rw [List.mem_range] at hi hj
  have := h.inj i j (by omega) (by omega) (by omega) (by omega) e
  omega

theorem RotSort.pairwise_keys {f : Int → Int} (h : RotSort T n f) :
    ((rowsOf n f).map (pre T n n.toNat)).Pairwise (· ≤ ·) := by
  unfold rowsOf
  rw [List.map_map, List.pairwise_map]
  refine List.Pairwise.imp_of_mem (fun {i j} hi hj hij => ?_) List.pairwise_lt_range
  rw [List.mem_range] at hi hj
  exact h.ord i j (by omega) (by omega) (by omega)

/-- A list without repetitions whose members are the cells of the block lists them all. -/
theorem perm_cells_of_nodup {l : List Int} (hnd : l.Nodup) (hmem : ∀ v, v ∈ l ↔ 0 ≤ v ∧ v ≤ n - 1) :
    l.Perm ((List.range n.toNat).map fun i : Nat => (i : Int)) := by
  refine (List.perm_ext_iff_of_nodup hnd ?_).mpr fun v => ?_
  · exact List.Nodup.map (fun a b e => by omega) List.nodup_range
  · rw [hmem, List.mem_map]
    constructor
    · rintro ⟨h0, h1⟩
      exact ⟨v.toNat, List.mem_range.mpr (by omega), Int.toNat_of_nonneg h0⟩
    · rintro ⟨i, hi, rfl⟩
      rw [List.mem_range] at hi
      omega

/-- The rows are the cells of the block, in another order. -/
theorem RotSort.perm_cells {f : Int → Int} (h : RotSort T n f) :
    (rowsOf n f).Perm ((List.range n.toNat).map fun i : Nat => (i : Int)) :=
  perm_cells_of_nodup h.nodup_rowsOf h.mem_rowsOf

/-- **Two sorted lists of the rotations agree row by row, up to equal rotations.** -/
theorem RotSort.pre_unique {f g : Int → Int} (hf : RotSort T n f) (hg : RotSort T n g) {i : Int}
    (hl : 0 ≤ i) (hh : i ≤ n - 1) : pre T n n.toNat (f i) = pre T n n.toNat (g i) := by
  have hperm : (rowsOf n f).Perm (rowsOf n g) :=
    (List.perm_ext_iff_of_nodup hf.nodup_rowsOf hg.nodup_rowsOf).mpr fun v => by
      rw [hf.mem_rowsOf, hg.mem_rowsOf]
  have heq : (rowsOf n f).map (pre T n n.toNat) = (rowsOf n g).map (pre T n n.toNat) :=
    List.Perm.eq_of_pairwise' hf.pairwise_keys hg.pairwise_keys (hperm.map _)
  unfold rowsOf at heq
  rw [List.map_map, List.map_map] at heq
  have := List.map_inj_left.mp heq i.toNat (List.mem_range.mpr (by omega))
  simpa [Int.toNat_of_nonneg hl] using this

/-- **The last columns agree.** -/
theorem RotSort.last_unique {f g : Int → Int} (hf : RotSort T n f) (hg : RotSort T n g) {i : Int}
    (hl : 0 ≤ i) (hh : i ≤ n - 1) : T ((f i - 1) % n) = T ((g i - 1) % n) := by
  have h := symbol_eq_of_period (by omega) (hf.pre_unique hg hl hh) (-1)
  exact h

end Order

/-! ## 4. Blocks that repeat a shorter word -/

/-- The block is the word of its first `d` cells, repeated. -/
def Repeats (T : Int → α) (n d : Int) : Prop :=
  0 < d ∧ d < n ∧ d ∣ n ∧ ∀ i, 0 ≤ i → i + d < n → T i = T (i + d)

/-- The block repeats no shorter word. -/
def Primitive (T : Int → α) (n : Int) : Prop := ∀ d, ¬ Repeats T n d

/-- Two shifts that keep a block give a third. -/
theorem shift_mul {e : Int} (h : ∀ k, T (k % n) = T ((k + e) % n)) (c : Nat) (k : Int) :
    T (k % n) = T ((k + e * c) % n) := by
  induction c with
  | zero => simp
  | succ c ih =>
    rw [ih, h (k + e * c)]
    congr 2
    rw [Nat.cast_succ]
    ring

/-- **A block kept by a shift repeats the word of the shift's greatest common divisor with its
    length.** -/
theorem repeats_of_shift (hn : 0 < n) {e : Int} (he : 0 < e) (hen : e < n)
    (h : ∀ k, T (k % n) = T ((k + e) % n)) : Repeats T n (Int.gcd e n) := by
  have hpos : 0 < (Int.gcd e n : Int) := by
    have : 0 < Int.gcd e n := Int.gcd_pos_of_ne_zero_left _ (by omega)
    omega
  have hle : (Int.gcd e n : Int) ≤ e := Int.le_of_dvd he (Int.gcd_dvd_left ..)
  refine ⟨hpos, by omega, Int.gcd_dvd_right .., fun i hi hlt => ?_⟩
  -- a multiple of `e` congruent to the greatest common divisor, with a factor not below 0
  have hb := Int.gcd_eq_gcd_ab e n
  have hc : 0 ≤ Int.gcdA e n % n := Int.emod_nonneg _ (by omega)
  have key := shift_mul h (Int.gcdA e n % n).toNat i
  rw [Int.toNat_of_nonneg hc] at key
  have e1 : (i + e * (Int.gcdA e n % n)) % n = (i + Int.gcd e n) % n := by
    have h1 : (e * (Int.gcdA e n % n)) % n = (e * Int.gcdA e n) % n := by
      rw [Int.mul_emod, Int.emod_emod_of_dvd _ (dvd_refl n), ← Int.mul_emod]
    have h2 : (e * Int.gcdA e n) % n = (Int.gcd e n : Int) % n := by
      rw [hb, Int.add_mul_emod_self_left]
    rw [Int.add_emod, h1, h2, ← Int.add_emod]
  rw [e1, Int.emod_eq_of_lt hi (by omega), Int.emod_eq_of_lt (by omega) hlt] at key
  exact key

/-- **The rotations of a primitive block are distinct.** -/
theorem Primitive.eq_of_pre (hp : Primitive T n) {x y : Int} (hx : 0 ≤ x) (hxn : x < n)
    (hy : 0 ≤ y) (hyn : y < n) (e : pre T n n.toNat x = pre T n n.toNat y) : x = y := by
  have hn : 0 < n := by omega
  have hlt : ∀ x y, 0 ≤ x → y < n → pre T n n.toNat x = pre T n n.toNat y → ¬ x < y := by
    intro x y hx hyn e hxy
    refine hp _ (repeats_of_shift hn (show 0 < y - x by omega) (by omega) fun k => ?_)
    have := symbol_eq_of_period hn e (k - x)
    have e1 : x + (k - x) = k := by omega
    have e2 : y + (k - x) = k + (y - x) := by omega
    rwa [e1, e2] at this
  have h1 := hlt x y hx hyn e
  have h2 := hlt y x hy hxn e.symm
  omega

end Rotation
