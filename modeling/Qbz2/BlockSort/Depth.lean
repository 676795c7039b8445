/-
  File:      Qbz2/BlockSort/Depth.lean
  Subject:   One depth of `fallbackSort`: from rotations in order of `h` bytes to order of `2 h`.

  * `startOf`, `classes_get`, `Classed`, `classed_classes` -- the class of a rotation is the start
    of the bucket of the rotation `h` further on, so classes compare as these `h` bytes do;
  * `Scanning`, `scanStep_cases`, `scanStep_spec` -- the bucket scan: up to `r` the rows are in
    order of `2 h` bytes with the header bits to match, past `r` nothing has changed;
  * **`depthStep_spec`**, **`depthLoop_spec`** -- the loop over depths returns, with the rotations
    in order.
-/
import Qbz2.BlockSort.QSort3
import Qbz2.BlockSort.Radix

namespace Qbz2

open Loop Segment Rotation

variable {s : Int → Nat} {n : Int}

/-! ## 1. Classes -/

/-- The start of the bucket of row `i`, as the class loop computes it. -/
def startOf (bh : Cells Word32) : Nat → Int
  | 0 => 0
  | i + 1 => if issetBH bh (i + 1 : Nat) then (i + 1 : Nat) else startOf bh i

theorem startOf_bounds (bh : Cells Word32) (i : Nat) : 0 ≤ startOf bh i ∧ startOf bh i ≤ i := by
  induction i with
  | zero => exact ⟨Int.le_refl _, Int.le_refl _⟩
  | succ i ih =>
    unfold startOf
    split <;> omega

theorem startOf_mono (bh : Cells Word32) {i j : Nat} (h : i ≤ j) :
    startOf bh i ≤ startOf bh j := by
  induction j with
  | zero => rw [Nat.le_zero.mp h]
  | succ j ih =>
    by_cases e : i = j + 1
    · rw [e]
    · have h1 := ih (by omega)
      have h2 := (startOf_bounds bh j).2
      rw [startOf]
      split <;> omega

/-- **Rows of one bucket start together**, and rows of different buckets do not. -/
theorem Bucketed.startOf_eq {h : Nat} {fmap : Cells Int} {bh : Cells Word32}
    (hB : Bucketed s n h fmap bh) {i j : Nat} (hij : i ≤ j) (hj : (j : Int) ≤ n - 1) :
    startOf bh i = startOf bh j ↔ pre s n h (fmap i) = pre s n h (fmap j) := by
  induction j with
  | zero =>
    have e : i = 0 := by omega
    rw [e]
    exact ⟨fun _ => rfl, fun _ => rfl⟩
  | succ j ih =>
    by_cases e : i = j + 1
    · rw [e]
      exact ⟨fun _ => rfl, fun _ => rfl⟩
    · have ih := ih (by omega) (by omega)
      have hhead := hB.head ((j + 1 : Nat) : Int) (by omega) hj
      have e1 : ((j + 1 : Nat) : Int) - 1 = j := by omega
      rw [e1] at hhead
      rw [startOf]
      by_cases hset : issetBH bh ((j + 1 : Nat) : Int) = true
      · rw [if_pos hset]
        have h1 := (startOf_bounds bh i).2
        have hle1 := hB.ord i j (by omega) (by omega) (by omega)
        have hle2 := hB.ord j ((j + 1 : Nat) : Int) (by omega) (by omega) hj
        have hne := hhead.mp hset
        constructor
        · intro h2
          omega
        · intro h2
          exact absurd (le_antisymm hle2 (by rw [← h2]; exact hle1)) hne
      · rw [if_neg hset, ih]
        have heq : pre s n h (fmap j) = pre s n h (fmap ((j + 1 : Nat) : Int)) :=
          not_not.mp fun hne => hset (hhead.mpr hne)
        rw [heq]

/-- `k = fmap[i] - H; if (k < 0) k += nblock`. -/
def stepBack (n h x : Int) : Int := if x - h < 0 then x - h + n else x - h

theorem stepBack_inj {h x y : Int} (hx : 0 ≤ x ∧ x ≤ n - 1) (hy : 0 ≤ y ∧ y ≤ n - 1)
    (e : stepBack n h x = stepBack n h y) : x = y := by
  unfold stepBack at e
  split at e <;> split at e <;> omega

theorem stepBack_add {h x : Int} (hx : 0 ≤ x ∧ x ≤ n - 1) (h1 : 1 ≤ h) (h2 : h ≤ n) :
    stepBack n h ((x + h) % n) = x := by
  unfold stepBack
  by_cases hlt : x + h < n
  · rw [Int.emod_eq_of_lt (by omega) hlt, if_neg (by omega)]
    omega
  · have e : (x + h) % n = x + h - n := by
      rw [← Int.sub_emod_right, Int.emod_eq_of_lt (by omega) (by omega)]
    rw [e, if_pos (by omega)]
    omega

theorem classes_get {fmap : Cells Int} {bh : Cells Word32} {h : Int}
    (hinj : InjOn 0 (n - 1) fmap)
    (hr : ∀ i, 0 ≤ i → i ≤ n - 1 → 0 ≤ fmap i ∧ fmap i ≤ n - 1) (eclass : Cells Int) (x : Nat)
    (hx : (x : Int) ≤ n - 1) :
    (classes fmap bh n h eclass) (stepBack n h (fmap x)) = startOf bh x := by
  unfold classes
  have hinv := forUpto_inv
    (f := fun (i : Nat) (t : Int × Cells Int) =>
      (if issetBH bh i then (i : Int) else t.1,
        t.2.set (stepBack n h (fmap i)) (if issetBH bh i then (i : Int) else t.1)))
    (s := (0, eclass))
    (fun i t => (i = 0 → t.1 = 0) ∧ (∀ k, i = k + 1 → t.1 = startOf bh k) ∧
      ∀ y : Nat, y < i → t.2 (stepBack n h (fmap y)) = startOf bh y)
    ⟨fun _ => rfl, fun k hk => by omega, fun y hy => absurd hy (Nat.not_lt_zero y)⟩ n.toNat ?_
  · exact hinv.2.2 x (by omega)
  · rintro i t hi ⟨h0, h1, h2⟩
    have hst : (if issetBH bh i then (i : Int) else t.1) = startOf bh i := by
      cases i with
      | zero =>
        rw [h0 rfl]
        simp [startOf]
      | succ i => rw [h1 i rfl, startOf]
    refine ⟨fun he => by omega, fun k hk => ?_, fun y hy => ?_⟩
    · have e : k = i := by omega
      rw [e]
      exact hst
    · dsimp only
      rw [Cells.get_set, hst]
      by_cases e : y = i
      · rw [e, if_pos rfl]
      · rw [if_neg]
        · exact h2 y (by omega)
        · intro he
          have h3 := stepBack_inj (hr y (by omega) (by omega)) (hr i (by omega) (by omega)) he
          have h4 := hinj y i (by omega) (by omega) (by omega) (by omega) h3
          omega

/-- **Classes at depth `h`** compare as the `h` bytes that follow the first `h`. -/
structure Classed (s : Int → Nat) (n : Int) (h : Nat) (eclass : Cells Int) : Prop where
  nonneg : ∀ x, 0 ≤ x → x ≤ n - 1 → 0 ≤ eclass x
  le_iff : ∀ x y, 0 ≤ x → x ≤ n - 1 → 0 ≤ y → y ≤ n - 1 →
    (eclass x ≤ eclass y ↔ pre s n h (x + h) ≤ pre s n h (y + h))

theorem Classed.eq_iff {h : Nat} {eclass : Cells Int} (hC : Classed s n h eclass) {x y : Int}
    (hx0 : 0 ≤ x) (hx1 : x ≤ n - 1) (hy0 : 0 ≤ y) (hy1 : y ≤ n - 1) :
    eclass x = eclass y ↔ pre s n h (x + h) = pre s n h (y + h) := by
  have h1 := hC.le_iff x y hx0 hx1 hy0 hy1
  have h2 := hC.le_iff y x hy0 hy1 hx0 hx1
  constructor
  · intro e
    exact le_antisymm (h1.mp (Int.le_of_eq e)) (h2.mp (Int.le_of_eq e.symm))
  · intro e
    exact Int.le_antisymm (h1.mpr (le_of_eq e)) (h2.mpr (le_of_eq e.symm))

theorem classed_classes {h : Nat} {fmap : Cells Int} {bh : Cells Word32}
    (hB : Bucketed s n h fmap bh) (h1 : 1 ≤ h) (hn : (h : Int) ≤ n) (eclass : Cells Int) :
    Classed s n h (classes fmap bh n h eclass) := by
  -- the row of the rotation `h` further on
  have hrow : ∀ x, 0 ≤ x → x ≤ n - 1 → ∃ i : Nat, (i : Int) ≤ n - 1 ∧
      (classes fmap bh n h eclass) x = startOf bh i ∧
        pre s n h (x + h) = pre s n h (fmap i) := by
    intro x hx0 hx1
    have hm0 := Int.emod_nonneg (x + h) (by omega : n ≠ 0)
    have hm1 := Int.emod_lt_of_pos (x + h) (by omega : 0 < n)
    obtain ⟨i, hi0, hi1, e⟩ := hits_of_injOn hB.inj hB.range hm0 (by omega)
    refine ⟨i.toNat, by omega, ?_, ?_⟩
    · have : (classes fmap bh n h eclass) (stepBack n h (fmap (i.toNat : Nat))) =
          startOf bh i.toNat := classes_get hB.inj hB.range eclass i.toNat (by omega)
      rw [Int.toNat_of_nonneg hi0, e, stepBack_add ⟨hx0, hx1⟩ (by omega) hn] at this
      exact this
    · rw [Int.toNat_of_nonneg hi0, e]
      exact pre_congr s n h (Int.emod_emod_of_dvd _ (Int.dvd_refl n)).symm
  refine ⟨fun x hx0 hx1 => ?_, fun x y hx0 hx1 hy0 hy1 => ?_⟩
  · obtain ⟨i, _, e, _⟩ := hrow x hx0 hx1
    rw [e]
    exact (startOf_bounds bh i).1
  · obtain ⟨i, hi, ei, ki⟩ := hrow x hx0 hx1
    obtain ⟨j, hj, ej, kj⟩ := hrow y hy0 hy1
    rw [ei, ej, ki, kj]
    rcases Nat.le_total i j with hij | hij
    · exact ⟨fun _ => hB.ord i j (by omega) (by omega) hj, fun _ => startOf_mono bh hij⟩
    · have hord := hB.ord j i (by omega) (by omega) hi
      have hst := startOf_mono bh hij
      have heq := hB.startOf_eq hij hi
      constructor
      · intro hle
        exact le_of_eq (heq.mp (Int.le_antisymm hst hle)).symm
      · intro hle
        exact Int.le_of_eq (heq.mpr (le_antisymm hord hle)).symm

/-! ## 2. The bucket scan -/

section Scan

variable {h : Nat} {f0 : Cells Int} {bh0 : Cells Word32}

/-- Row `i` and the one before it are in order, and the header bit of `i` tells whether they
    differ. -/
def Good (s : Int → Nat) (n : Int) (h : Nat) (fmap : Cells Int) (bh : Cells Word32) (i : Int) :
    Prop :=
  pre s n h (fmap (i - 1)) ≤ pre s n h (fmap i) ∧
    (issetBH bh i = true ↔ pre s n h (fmap (i - 1)) ≠ pre s n h (fmap i))

/-- **The invariant of the bucket scan** at depth `h`, started from `f0` and `bh0`. -/
structure Scanning (s : Int → Nat) (n : Int) (h : Nat) (f0 : Cells Int) (bh0 : Cells Word32)
    (t : Scan) : Prop where
  r_ge : -1 ≤ t.r
  r_le : t.r ≤ n - 1
  perm : PermOn 0 (n - 1) f0 t.fmap
  key : ∀ p, 0 ≤ p → p ≤ n - 1 → pre s n h (t.fmap p) = pre s n h (f0 p)
  good : ∀ i, 0 < i → i ≤ t.r → Good s n (h + h) t.fmap t.bhtab i
  bits : ∀ i, t.r < i → issetBH t.bhtab i = issetBH bh0 i
  keep : ∀ i, issetBH bh0 i = true → issetBH t.bhtab i = true
  count_nonneg : 0 ≤ t.nNotDone
  count : t.nNotDone = 0 → ∀ i, 0 < i → i ≤ t.r → issetBH bh0 i = true
  start : issetBH bh0 (t.r + 1) = true

/-- Rows of different buckets at depth `h` are in order at depth `2 h`. -/
theorem good_of_head (hB : Bucketed s n h f0 bh0) {fmap : Cells Int} {bh : Cells Word32} {i : Int}
    (hi : 0 < i) (hin : i ≤ n - 1) (hset : issetBH bh0 i = true) (hbit : issetBH bh i = true)
    (key : ∀ p, 0 ≤ p → p ≤ n - 1 → pre s n h (fmap p) = pre s n h (f0 p)) :
    Good s n (h + h) fmap bh i := by
  have hle := hB.ord (i - 1) i (by omega) (by omega) hin
  have hne := (hB.head i hi hin).mp hset
  have hlt : pre s n h (fmap (i - 1)) < pre s n h (fmap i) := by
    rw [key _ (by omega) (by omega), key i (by omega) hin]
    exact lt_of_le_of_ne hle hne
  have hlt2 : pre s n (h + h) (fmap (i - 1)) < pre s n (h + h) (fmap i) :=
    pre_lt_mono (by omega) hlt
  exact ⟨hlt2.le, fun _ => ne_of_lt hlt2, fun _ => hbit⟩

/-- The rows of a bucket share their first `h` bytes. -/
theorem Bucketed.key_const (hB : Bucketed s n h f0 bh0) {l r : Int} (hl : 0 ≤ l) (hr : r ≤ n - 1)
    (hclear : ∀ i, l < i → i ≤ r → issetBH bh0 i = false) :
    ∀ p, l ≤ p → p ≤ r → pre s n h (f0 p) = pre s n h (f0 l) := by
  have step : ∀ d : Nat, l + d ≤ r → pre s n h (f0 (l + d)) = pre s n h (f0 l) := by
    intro d
    induction d with
    | zero =>
      intro _
      simp
    | succ d ih =>
      intro hd
      have h1 := ih (by omega)
      have h2 := hB.head (l + ((d + 1 : Nat) : Int)) (by omega) (by omega)
      rw [hclear _ (by omega) hd] at h2
      have e : l + ((d + 1 : Nat) : Int) - 1 = l + d := by omega
      rw [e] at h2
      have h3 : pre s n h (f0 (l + d)) = pre s n h (f0 (l + ((d + 1 : Nat) : Int))) :=
        not_not.mp fun hne => absurd (h2.mpr hne) (by decide)
      rw [← h3, h1]
  intro p h1 h2
  have := step (p - l).toNat (by omega)
  have e : l + (((p - l).toNat : Nat) : Int) = p := by omega
  rwa [e] at this

/-- **Sorting one bucket** by class puts its rows in order of `2 h` bytes, and marking the class
    changes sets the header bits to match. -/
theorem Scanning.sorted (hB : Bucketed s n h f0 bh0) {eclass : Cells Int}
    (hC : Classed s n h eclass) {t : Scan} (hS : Scanning s n h f0 bh0 t) {l r : Int}
    (hl : t.r + 1 ≤ l) (hlr : l < r) (hr : r ≤ n - 1)
    (hrun : ∀ i, t.r + 1 ≤ i → i ≤ l → issetBH bh0 i = true)
    (hclear : ∀ i, l < i → i ≤ r → issetBH bh0 i = false) (hnext : issetBH bh0 (r + 1) = true)
    {fmap : Cells Int} (hp : PermOn l r t.fmap fmap) (ho : OrdOn eclass.get l r fmap) :
    Scanning s n h f0 bh0 ⟨fmap, markChanges fmap eclass (r - l + 1).toNat l (-1) t.bhtab, r,
      t.nNotDone + (r - l + 1)⟩ := by
  have hge := hS.r_ge
  have hperm : PermOn 0 (n - 1) f0 fmap := hS.perm.trans (hp.mono (by omega) hr)
  have hrange : ∀ p, 0 ≤ p → p ≤ n - 1 → 0 ≤ fmap p ∧ fmap p ≤ n - 1 :=
    hperm.forall (P := fun v => 0 ≤ v ∧ v ≤ n - 1) hB.range
  have hconst := hB.key_const (show 0 ≤ l by omega) hr hclear
  have hkey : ∀ p, 0 ≤ p → p ≤ n - 1 → pre s n h (fmap p) = pre s n h (f0 p) := by
    intro p h1 h2
    by_cases hpl : l ≤ p ∧ p ≤ r
    · have := hp.forall (P := fun v => pre s n h v = pre s n h (f0 l))
        (fun i hi1 hi2 => by rw [hS.key i (by omega) (by omega), hconst i hi1 hi2]) p hpl.1 hpl.2
      rw [this, hconst p hpl.1 hpl.2]
    · rw [hp.outside (by omega), hS.key p h1 h2]
  have hbit : ∀ i, issetBH (markChanges fmap eclass (r - l + 1).toNat l (-1) t.bhtab) i = true ↔
      issetBH t.bhtab i = true ∨ l ≤ i ∧ i ≤ r ∧
        (if i = l then -1 else eclass (fmap (i - 1))) ≠ eclass (fmap i) := by
    intro i
    rw [issetBH_markChanges]
    have e : l + (((r - l + 1).toNat : Nat) : Int) = r + 1 := by omega
    rw [e, Int.lt_add_one_iff]
  refine ⟨by dsimp only; omega, hr, hperm, hkey, ?_, ?_, ?_, ?_, ?_, hnext⟩
  · intro i hi hir
    dsimp only at hir ⊢
    by_cases h1 : i ≤ t.r
    · -- below the bucket nothing changed
      obtain ⟨g1, g2⟩ := hS.good i hi h1
      refine ⟨?_, ?_⟩
      · rw [hp.outside (i := i - 1) (by omega), hp.outside (i := i) (by omega)]
        exact g1
      · rw [hp.outside (i := i - 1) (by omega), hp.outside (i := i) (by omega), hbit, ← g2]
        constructor
        · rintro (hb | ⟨hb, _⟩)
          · exact hb
          · omega
        · exact .inl
    · by_cases h2 : i ≤ l
      · have hset := hrun i (by omega) h2
        exact good_of_head hB hi (by omega) hset ((hbit i).mpr (.inl (hS.keep i hset))) hkey
      · -- inside the bucket the first `h` bytes agree and the classes decide
        have hr0 := hrange (i - 1) (by omega) (by omega)
        have hr1 := hrange i (by omega) (by omega)
        have hk : pre s n h (fmap (i - 1)) = pre s n h (fmap i) := by
          rw [hkey _ (by omega) (by omega), hkey i (by omega) (by omega),
            hconst (i - 1) (by omega) (by omega), hconst i (by omega) hir]
        have hle := ho (i - 1) i (by omega) (by omega) hir
        refine ⟨?_, ?_⟩
        · exact (pre_add_le s n h h _ _).mpr
            (.inr ⟨hk, (hC.le_iff _ _ hr0.1 hr0.2 hr1.1 hr1.2).mp hle⟩)
        · rw [hbit, hS.bits i (by omega), hclear i (by omega) hir, if_neg (by omega), pre_add,
            pre_add, hk]
          have heq := hC.eq_iff hr0.1 hr0.2 hr1.1 hr1.2
          constructor
          · rintro (hb | ⟨_, _, hne⟩)
            · cases hb
            · exact fun e => hne (heq.mpr (List.append_cancel_left e))
          · intro hne
            exact .inr ⟨by omega, hir, fun e => hne (by rw [heq.mp e])⟩
  · intro i hi
    dsimp only at hi ⊢
    rw [← hS.bits i (by omega), Bool.eq_iff_iff, hbit]
    constructor
    · rintro (hb | ⟨_, hb, _⟩)
      · exact hb
      · omega
    · exact .inl
  · intro i hi
    exact (hbit i).mpr (.inl (hS.keep i hi))
  · have := hS.count_nonneg
    dsimp only
    omega
  · have := hS.count_nonneg
    intro h0
    dsimp only at h0
    omega

/-- When only one-row buckets are left the scan is done. -/
theorem Scanning.finish (hB : Bucketed s n h f0 bh0) {t : Scan}
    (hS : Scanning s n h f0 bh0 t)
    (hrun : ∀ i, t.r + 1 ≤ i → i ≤ n - 1 → issetBH bh0 i = true) :
    Bucketed s n (h + h) t.fmap t.bhtab ∧
      (t.nNotDone = 0 → ∀ i, 0 < i → i ≤ n - 1 →
        pre s n h (t.fmap (i - 1)) < pre s n h (t.fmap i)) := by
  have hgood : ∀ i, 0 < i → i ≤ n - 1 → Good s n (h + h) t.fmap t.bhtab i := by
    intro i hi hin
    by_cases h1 : i ≤ t.r
    · exact hS.good i hi h1
    · have hset := hrun i (by omega) hin
      exact good_of_head hB hi hin hset (hS.keep i hset) hS.key
  have hle := hS.r_le
  refine ⟨⟨hS.perm.injOn hB.inj, hS.perm.forall (P := fun v => 0 ≤ v ∧ v ≤ n - 1) hB.range, ?_, hS.keep 0 hB.first,
    fun i hi hin => (hgood i hi hin).2, hS.keep n hB.stop, ?_⟩, fun h0 i hi hin => ?_⟩
  · exact ordOn_of_adjacent fun i hi hin => (hgood i hi hin).1
  · rw [hS.bits (n + 1) (by omega)]
    exact hB.past
  · have hset : issetBH bh0 i = true := by
      by_cases h1 : i ≤ t.r
      · exact hS.count h0 i hi h1
      · exact hrun i (by omega) hin
    rw [hS.key _ (by omega) (by omega), hS.key i (by omega) hin]
    exact lt_of_le_of_ne (hB.ord (i - 1) i (by omega) (by omega) hin)
      ((hB.head i hi hin).mp hset)

/-- Both scans of a round stop: the one over set bits by the clear bit past the block, the one over
    clear bits by the bit that ends the last bucket. -/
def ScansStop (n : Int) (t : Scan) : Prop :=
  ∃ e, skipSet t.bhtab (n + 70).toNat (t.r + 1) = .ok e ∧ e ≤ n + 1 ∧
    (e - 1 < n → ∃ e2, skipClear t.bhtab (n + 70).toNat e = .ok e2 ∧ e2 ≤ n)

/-- **Where the scans stop**: at the end of the buckets of one row, and if that is not the end of
    the block at the end of the bucket that follows. -/
theorem Scanning.scans (hB : Bucketed s n h f0 bh0) {t : Scan} (hS : Scanning s n h f0 bh0 t) :
    ∃ e, skipSet t.bhtab (n + 70).toNat (t.r + 1) = .ok e ∧ t.r + 1 ≤ e ∧ e ≤ n + 1 ∧
      (∀ i, t.r + 1 ≤ i → i < e → issetBH bh0 i = true) ∧
      (e - 1 < n → t.r + 1 < e ∧ ∃ e2, skipClear t.bhtab (n + 70).toNat e = .ok e2 ∧ e < e2 ∧
        e2 ≤ n ∧ (∀ i, e ≤ i → i < e2 → issetBH bh0 i = false) ∧ issetBH bh0 e2 = true) := by
  have hge := hS.r_ge
  have hle := hS.r_le
  -- the first clear bit, at most the sentinel past the block
  have hpast : issetBH t.bhtab (t.r + 1 + ((n - t.r).toNat : Int)) = false := by
    have e : t.r + 1 + ((n - t.r).toNat : Int) = n + 1 := by omega
    rw [e, hS.bits _ (by omega)]
    exact hB.past
  obtain ⟨e, he1, he2, herun, hestop⟩ := exists_first_stop (fun i => issetBH t.bhtab i) _ _ hpast
  have hskip : skipSet t.bhtab (n + 70).toNat (t.r + 1) = .ok e :=
    skipSet_spec he1 herun hestop (by omega)
  have hrun : ∀ i, t.r + 1 ≤ i → i < e → issetBH bh0 i = true := fun i h1 h2 => by
    rw [← hS.bits i (by omega)]
    exact herun i h1 h2
  refine ⟨e, hskip, he1, by omega, hrun, fun hl => ?_⟩
  have hen : e ≠ n := fun heq => by
    rw [heq, hS.bits n (by omega), hB.stop] at hestop
    cases hestop
  have hne1 : e ≠ t.r + 1 := fun heq => by
    rw [heq, hS.bits _ (by omega), hS.start] at hestop
    cases hestop
  -- the next set bit, at most the sentinel at the end of the block
  have hstop : (!issetBH t.bhtab (e + ((n - e).toNat : Int))) = false := by
    have e' : e + ((n - e).toNat : Int) = n := by omega
    rw [e', hS.bits _ (by omega), hB.stop]
    rfl
  obtain ⟨e2, h1, h2, h3, h4⟩ := exists_first_stop (fun i => !issetBH t.bhtab i) _ _ hstop
  have hclr : ∀ i, e ≤ i → i < e2 → issetBH t.bhtab i = false := fun i hi1 hi2 => by
    simpa using h3 i hi1 hi2
  have hset : issetBH t.bhtab e2 = true := by simpa using h4
  have hee : e ≠ e2 := fun heq => by
    rw [← heq, hestop] at hset
    cases hset
  have hskip2 : skipClear t.bhtab (n + 70).toNat e = .ok e2 :=
    skipClear_spec h1 hclr hset (by omega)
  refine ⟨by omega, e2, hskip2, by omega, by omega, fun i hi1 hi2 => ?_, ?_⟩
  · rw [← hS.bits i (by omega)]
    exact hclr i hi1 hi2
  · rw [← hS.bits e2 (by omega)]
    exact hset

theorem Scanning.scansStop (hB : Bucketed s n h f0 bh0) {t : Scan}
    (hS : Scanning s n h f0 bh0 t) : ScansStop n t := by
  obtain ⟨e, hskip, _, hle, _, hnext⟩ := hS.scans hB
  refine ⟨e, hskip, hle, fun hl => ?_⟩
  obtain ⟨_, e2, hskip2, _, hle2, _⟩ := hnext hl
  exact ⟨e2, hskip2, hle2⟩

/-- **What a round of the bucket scan does**: it sorts one bucket and marks the class changes, or
    only buckets of one row are left. -/
theorem scanStep_cases (hB : Bucketed s n h f0 bh0) (hbig : n < 2 ^ 97) (eclass : Cells Int)
    {t : Scan} (hS : Scanning s n h f0 bh0 t) :
    (∃ l r fmap, t.r + 1 ≤ l ∧ l < r ∧ r ≤ n - 1 ∧
      (∀ i, t.r + 1 ≤ i → i ≤ l → issetBH bh0 i = true) ∧
      (∀ i, l < i → i ≤ r → issetBH bh0 i = false) ∧ issetBH bh0 (r + 1) = true ∧
      fallbackQSort3 t.fmap eclass l r = .ok fmap ∧ PermOn l r t.fmap fmap ∧
      OrdOn eclass.get l r fmap ∧
      scanStep eclass n t = .ok (.inl ⟨fmap,
        markChanges fmap eclass (r - l + 1).toNat l (-1) t.bhtab, r, t.nNotDone + (r - l + 1)⟩)) ∨
    scanStep eclass n t = .ok (.inr t) ∧ ∀ i, t.r + 1 ≤ i → i ≤ n - 1 → issetBH bh0 i = true := by
  have hge := hS.r_ge
  obtain ⟨e, hskip, he1, he2, hrun, hnext⟩ := hS.scans hB
  unfold scanStep
  simp only [bind, Except.bind, hskip]
  by_cases hl : e - 1 ≥ n
  · right
    rw [if_pos hl]
    exact ⟨rfl, fun i h1 h2 => hrun i h1 (by omega)⟩
  · left
    rw [if_neg hl]
    obtain ⟨hne1, e2, hskip2, hee, hen, hclr, hset⟩ := hnext (by omega)
    simp only [hskip2]
    rw [if_neg (by omega), if_pos (by omega)]
    obtain ⟨fmap, hq, hp, ho⟩ := fallbackQSort3_spec t.fmap eclass (show e - 1 ≤ e2 - 1 by omega)
      (by unfold segSize; dsimp only; omega)
    have e' : e2 - 1 + 1 = e2 := by omega
    refine ⟨e - 1, e2 - 1, fmap, by omega, by omega, by omega, fun i h1 h2 => hrun i h1 (by omega),
      fun i h1 h2 => hclr i (by omega) (by omega), by rw [e']; exact hset, hq, hp, ho, ?_⟩
    rw [hq]

/-- **One round of the bucket scan.** -/
theorem scanStep_spec (hB : Bucketed s n h f0 bh0) (hbig : n < 2 ^ 97)
    {eclass : Cells Int} (hC : Classed s n h eclass) {t : Scan}
    (hS : Scanning s n h f0 bh0 t) :
    (∃ t', scanStep eclass n t = .ok (.inl t') ∧ Scanning s n h f0 bh0 t' ∧
      (n - t'.r).toNat < (n - t.r).toNat) ∨
    ∃ t', scanStep eclass n t = .ok (.inr t') ∧ Bucketed s n (h + h) t'.fmap t'.bhtab ∧
      PermOn 0 (n - 1) f0 t'.fmap ∧
      (t'.nNotDone = 0 → ∀ i, 0 < i → i ≤ n - 1 →
        pre s n h (t'.fmap (i - 1)) < pre s n h (t'.fmap i)) := by
  rcases scanStep_cases hB hbig eclass hS with
    ⟨l, r, fmap, hl, hlr, hr, hrun, hclear, hnext, -, hp, ho, he⟩ | ⟨he, hrun⟩
  · exact .inl ⟨_, he, hS.sorted hB hC hl hlr hr hrun hclear hnext hp ho, by dsimp only; omega⟩
  · obtain ⟨hfin, hall⟩ := hS.finish hB hrun
    exact .inr ⟨t, he, hfin, hS.perm, hall⟩

end Scan

/-! ## 3. The loop over depths -/

/-- The bucket scan of a depth starts at the first bucket. -/
theorem Scanning.begin (hs1 : 1 ≤ n) {h : Nat} {fmap : Cells Int} {bhtab : Cells Word32}
    (hB : Bucketed s n h fmap bhtab) : Scanning s n h fmap bhtab ⟨fmap, bhtab, -1, 0⟩ :=
  ⟨Int.le_refl _, by dsimp only; omega, PermOn.refl _ _ _, fun _ _ _ => rfl,
    fun i h2 h3 => by dsimp only at h3; omega, fun _ _ => rfl, fun _ h => h, Int.le_refl _,
    fun _ i h2 h3 => by dsimp only at h3; omega, hB.first⟩

/-- **One depth** doubles the order, and leaves when the whole rotations are in order. -/
theorem depthStep_spec (hs1 : 1 ≤ n) (hbig : n < 2 ^ 97) {d : Depth} {h : Nat}
    (hd : d.h = h) (h1 : 1 ≤ h) (hn : (h : Int) ≤ n) (hB : Bucketed s n h d.fmap d.bhtab) :
    (∃ d', depthStep n d = .ok (.inl d') ∧ PermOn 0 (n - 1) d.fmap d'.fmap ∧
      d'.h = ((h + h : Nat) : Int) ∧ ((h + h : Nat) : Int) ≤ n ∧
      Bucketed s n (h + h) d'.fmap d'.bhtab) ∨
    ∃ d', depthStep n d = .ok (.inr d') ∧ RotSort s n d'.fmap := by
  have hC := classed_classes hB h1 hn d.eclass
  have hscan : ∃ t, iter Halt.diverge (scanStep (classes d.fmap d.bhtab n h d.eclass) n)
      (n + 2).toNat ⟨d.fmap, d.bhtab, -1, 0⟩ = .ok t ∧ Bucketed s n (h + h) t.fmap t.bhtab ∧
        PermOn 0 (n - 1) d.fmap t.fmap ∧
        (t.nNotDone = 0 → ∀ i, 0 < i → i ≤ n - 1 →
          pre s n h (t.fmap (i - 1)) < pre s n h (t.fmap i)) :=
    iter_spec (Scanning s n h d.fmap d.bhtab) _ (fun t => (n - t.r).toNat)
      (fun t ht => scanStep_spec hB hbig hC ht) _ _ (Scanning.begin hs1 hB)
      (by dsimp only; omega)
  obtain ⟨t, hiter, hfin, hperm, hall⟩ := hscan
  unfold depthStep
  rw [hd]
  simp only [bind, Except.bind, hiter]
  by_cases hc : (h : Int) * 2 > n ∨ t.nNotDone = 0
  · right
    rw [if_pos hc]
    refine ⟨_, rfl, hfin.inj, hfin.range, ?_⟩
    rcases hc with hgt | h0
    · intro i j hi hij hj
      exact pre_le_mono (by omega) (hfin.ord i j hi hij hj)
    · exact ordOn_of_adjacent fun i hi hin => (pre_lt_mono (by omega) (hall h0 i hi hin)).le
  · left
    rw [if_neg hc]
    exact ⟨_, rfl, hperm, by dsimp only; omega, by omega, hfin⟩

/-- The invariant of the loop over depths. -/
def Doubling (s : Int → Nat) (n : Int) (d : Depth) : Prop :=
  ∃ h : Nat, d.h = h ∧ 1 ≤ h ∧ (h : Int) ≤ n ∧ Bucketed s n h d.fmap d.bhtab

theorem Doubling.step (hn : 1 ≤ n) (hbig : n < 2 ^ 97) {d d' : Depth} (hD : Doubling s n d)
    (hd' : depthStep n d = .ok (.inl d')) : Doubling s n d' := by
  obtain ⟨h, hd, h1, hle, hBd⟩ := hD
  rcases depthStep_spec hn hbig hd h1 hle hBd with ⟨_, he, _, hdh, hle', hB'⟩ | ⟨_, he, _⟩
  · rw [he] at hd'
    cases hd'
    exact ⟨h + h, hdh, by omega, hle', hB'⟩
  · rw [he] at hd'
    cases hd'

/-- **At every depth, every scan stops at a sentinel.** -/
theorem scansStop_of_visits (hn : 1 ≤ n) (hbig : n < 2 ^ 97) {d0 d : Depth}
    (h0 : Doubling s n d0) (hd : Visits (depthStep n) d0 d) {t : Scan}
    (ht : Visits (scanStep (classes d.fmap d.bhtab n d.h d.eclass) n) ⟨d.fmap, d.bhtab, -1, 0⟩ t) :
    ScansStop n t := by
  obtain ⟨h, hdh, h1, hle, hB⟩ :=
    hd.inv (P := Doubling s n) h0 fun d d' hD hd' => hD.step hn hbig hd'
  rw [hdh] at ht
  have hC := classed_classes hB h1 hle d.eclass
  refine (ht.inv (P := Scanning s n h d.fmap d.bhtab) (Scanning.begin hn hB) ?_).scansStop hB
  intro t t' hS he
  rcases scanStep_spec hB hbig hC hS with ⟨_, he', hS', _⟩ | ⟨_, he', _⟩
  · rw [he'] at he
    cases he
    exact hS'
  · rw [he'] at he
    cases he

/-- **The loop over depths** returns with the rotations in order. -/
theorem depthLoop_spec (hn : 1 ≤ n) (hbig : n < 2 ^ 97) {fmap : Cells Int} {bh : Cells Word32}
    (hB : Bucketed s n 1 fmap bh) (eclass : Cells Int) :
    ∃ d, iter Halt.diverge (depthStep n) (n + 2).toNat ⟨fmap, eclass, bh, 1⟩ = .ok d ∧
      RotSort s n d.fmap := by
  refine iter_spec (Doubling s n) (fun d : Depth => RotSort s n d.fmap)
    (fun d => (n - d.h).toNat) ?_ (n + 2).toNat _
    ⟨1, rfl, Nat.le_refl _, by omega, hB⟩ (by dsimp only; omega)
  rintro d ⟨h, hd, h1, hle, hBd⟩
  rcases depthStep_spec hn hbig hd h1 hle hBd with ⟨d', he, _, hd', hle', hB'⟩ | ⟨d', he, hr⟩
  · exact .inl ⟨d', he, ⟨h + h, hd', by omega, hle', hB'⟩, by omega⟩
  · exact .inr ⟨d', he, hr⟩

end Qbz2
