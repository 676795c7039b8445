/-
  File:      Qbz2/BlockSort/QSort3.lean
  Subject:   `fallbackQSort3` returns, never overflows its stack, and sorts its segment.

  * `Zones` -- the five zones of the partition loop; `scanLo_spec`, `scanHi_spec`,
    `partStep_spec`, `partition_spec`;
  * `get_fvswap`, `Split`, `Zones.split` -- the two exchanges bring the equal runs to the middle;
    `qsortSplit_spec` -- the two parts left are pushed, the larger below;
  * `Unsorted` -- any two cells not inside one pending segment are in order, for any key;
    `Unsorted.replace` is the step; `Sorting` -- what holds at every round of the main loop;
  * **`fallbackQSort3_spec`**, **`fallbackQSort3_sorts`** -- the latter with the stack's depth.
-/
import Mathlib.Tactic.Ring
import Qbz2.BlockSort.SimpleSort

namespace Qbz2

open Loop Segment

variable {eclass : Cells Int} {lo hi med : Int}

/-! ## 1. Partition -/

theorem get_fswap (fmap : Cells Int) (a b i : Int) :
    (fswap fmap a b) i = if i = b then fmap a else if i = a then fmap b else fmap i := by
  unfold fswap
  rw [Cells.get_set, Cells.get_set]

theorem fswap_perm {fmap : Cells Int} {a b : Int} (ha : lo ≤ a ∧ a ≤ hi) (hb : lo ≤ b ∧ b ≤ hi) :
    PermOn lo hi fmap (fswap fmap a b) :=
  PermOn.swap ha hb (get_fswap fmap a b)

/-- The zones during a partition: equal, smaller, unknown, greater, equal. -/
structure Zones (eclass : Cells Int) (med lo hi : Int) (f0 : Cells Int) (p : Part) : Prop where
  perm : PermOn lo hi f0 p.fmap
  le_ltLo : lo ≤ p.ltLo
  le_unLo : p.ltLo ≤ p.unLo
  le_unHi : p.unLo ≤ p.unHi + 1
  le_gtHi : p.unHi ≤ p.gtHi
  le_hi : p.gtHi ≤ hi
  eqLo : ∀ i, lo ≤ i → i < p.ltLo → eclass (p.fmap i) = med
  lt : ∀ i, p.ltLo ≤ i → i < p.unLo → eclass (p.fmap i) < med
  gt : ∀ i, p.unHi < i → i ≤ p.gtHi → med < eclass (p.fmap i)
  eqHi : ∀ i, p.gtHi < i → i ≤ hi → eclass (p.fmap i) = med

section Scans

variable {f0 : Cells Int}

/-- An equal cell at the low end joins the equal run. -/
theorem Zones.takeLo {p : Part} (h : Zones eclass med lo hi f0 p) (hu : p.unLo ≤ p.unHi)
    (he : eclass (p.fmap p.unLo) = med) :
    Zones eclass med lo hi f0
      { p with fmap := fswap p.fmap p.unLo p.ltLo, unLo := p.unLo + 1, ltLo := p.ltLo + 1 } := by
  obtain ⟨hp, h1, h2, h3, h4, h5, hel, hlt, hgt, heh⟩ := h
  refine ⟨hp.trans (fswap_perm ⟨by omega, by omega⟩ ⟨by omega, by omega⟩), by dsimp; omega,
    by dsimp; omega, by dsimp; omega, h4, h5, fun i hl hh => ?_, fun i hl hh => ?_,
    fun i hl hh => ?_, fun i hl hh => ?_⟩ <;> dsimp only at hl hh ⊢ <;> rw [get_fswap]
  · split
    · exact he
    · rw [if_neg (by omega)]
      exact hel i hl (by omega)
  · rw [if_neg (by omega)]
    split
    · exact hlt p.ltLo (by omega) (by omega)
    · exact hlt i (by omega) (by omega)
  · rw [if_neg (by omega), if_neg (by omega)]
    exact hgt i hl hh
  · rw [if_neg (by omega), if_neg (by omega)]
    exact heh i hl hh

/-- An equal cell at the high end joins the equal run. -/
theorem Zones.takeHi {p : Part} (h : Zones eclass med lo hi f0 p) (hu : p.unLo ≤ p.unHi)
    (he : eclass (p.fmap p.unHi) = med) :
    Zones eclass med lo hi f0
      { p with fmap := fswap p.fmap p.unHi p.gtHi, unHi := p.unHi - 1, gtHi := p.gtHi - 1 } := by
  obtain ⟨hp, h1, h2, h3, h4, h5, hel, hlt, hgt, heh⟩ := h
  refine ⟨hp.trans (fswap_perm ⟨by omega, by omega⟩ ⟨by omega, by omega⟩), h1, h2,
    by dsimp; omega, by dsimp; omega, by dsimp; omega, fun i hl hh => ?_, fun i hl hh => ?_,
    fun i hl hh => ?_, fun i hl hh => ?_⟩ <;> dsimp only at hl hh ⊢ <;> rw [get_fswap]
  · rw [if_neg (by omega), if_neg (by omega)]
    exact hel i hl hh
  · rw [if_neg (by omega), if_neg (by omega)]
    exact hlt i hl hh
  · rw [if_neg (by omega)]
    split
    · exact hgt p.gtHi (by omega) (by omega)
    · exact hgt i (by omega) (by omega)
  · split
    · exact he
    · rw [if_neg (by omega)]
      exact heh i (by omega) hh

theorem scanLo_spec {unHi gtHi : Int} :
    ∀ (k : Nat) (fmap : Cells Int) (unLo ltLo : Int),
      Zones eclass med lo hi f0 ⟨fmap, unLo, unHi, ltLo, gtHi⟩ → unHi - unLo + 1 ≤ k →
      ∀ r, scanLo eclass med unHi k fmap unLo ltLo = r →
        Zones eclass med lo hi f0 ⟨r.1, r.2.1, unHi, r.2.2, gtHi⟩ ∧ unLo ≤ r.2.1 ∧
          (r.2.1 ≤ unHi → med < eclass (r.1 r.2.1)) := by
  intro k
  induction k with
  | zero =>
    rintro fmap unLo ltLo h hk r rfl
    exact ⟨h, Int.le_refl _, fun hle => by simp only [scanLo] at hle; omega⟩
  | succ k ih =>
    rintro fmap unLo ltLo h hk r rfl
    unfold scanLo
    by_cases hu : unLo > unHi
    · rw [if_pos hu]
      exact ⟨h, Int.le_refl _, fun hle => absurd hle (by dsimp only; omega)⟩
    · rw [if_neg hu]
      dsimp only
      by_cases h0 : eclass (fmap unLo) - med = 0
      · rw [if_pos h0]
        have hz := h.takeLo (by dsimp only; omega) (by dsimp only; omega)
        obtain ⟨hz', hle, hstop⟩ :=
          ih (fswap fmap unLo ltLo) (unLo + 1) (ltLo + 1) hz (by omega) _ rfl
        exact ⟨hz', by omega, hstop⟩
      · rw [if_neg h0]
        by_cases hpos : eclass (fmap unLo) - med > 0
        · rw [if_pos hpos]
          exact ⟨h, Int.le_refl _, fun _ => by dsimp only; omega⟩
        · rw [if_neg hpos]
          have hz : Zones eclass med lo hi f0 ⟨fmap, unLo + 1, unHi, ltLo, gtHi⟩ := by
            obtain ⟨hp, h1, h2, h3, h4, h5, hel, hlt, hgt, heh⟩ := h
            dsimp only at h1 h2 h3 h4 h5 hlt
            refine ⟨hp, h1, by dsimp only; omega, by dsimp only; omega, h4, h5, hel,
              fun i hl hh => ?_, hgt, heh⟩
            dsimp only at hl hh ⊢
            by_cases hi : i = unLo
            · rw [hi]
              omega
            · exact hlt i hl (by omega)
          obtain ⟨hz', hle, hstop⟩ := ih _ _ _ hz (by omega) _ rfl
          exact ⟨hz', by omega, hstop⟩

theorem scanHi_spec {unLo ltLo : Int} :
    ∀ (k : Nat) (fmap : Cells Int) (unHi gtHi : Int),
      Zones eclass med lo hi f0 ⟨fmap, unLo, unHi, ltLo, gtHi⟩ → unHi - unLo + 1 ≤ k →
      (unLo ≤ unHi → med < eclass (fmap unLo)) →
      ∀ r, scanHi eclass med unLo k fmap unHi gtHi = r →
        Zones eclass med lo hi f0 ⟨r.1, unLo, r.2.1, ltLo, r.2.2⟩ ∧ r.2.1 ≤ unHi ∧
          (unLo ≤ r.2.1 → med < eclass (r.1 unLo) ∧ eclass (r.1 r.2.1) < med) := by
  intro k
  induction k with
  | zero =>
    rintro fmap unHi gtHi h hk _ r rfl
    exact ⟨h, Int.le_refl _, fun hle => by simp only [scanHi] at hle; omega⟩
  | succ k ih =>
    rintro fmap unHi gtHi h hk hun r rfl
    unfold scanHi
    by_cases hu : unLo > unHi
    · rw [if_pos hu]
      exact ⟨h, Int.le_refl _, fun hle => absurd hle (by dsimp only; omega)⟩
    · rw [if_neg hu]
      dsimp only
      have hle := h.le_gtHi
      dsimp only at hle
      by_cases h0 : eclass (fmap unHi) - med = 0
      · rw [if_pos h0]
        have hz := h.takeHi (by dsimp only; omega) (by dsimp only; omega)
        have hun' : unLo ≤ unHi - 1 → med < eclass ((fswap fmap unHi gtHi) unLo) := by
          intro hle'
          rw [get_fswap, if_neg (by omega), if_neg (by omega)]
          exact hun (by omega)
        obtain ⟨hz', hle', hstop⟩ :=
          ih (fswap fmap unHi gtHi) (unHi - 1) (gtHi - 1) hz (by omega) hun' _ rfl
        exact ⟨hz', by omega, hstop⟩
      · rw [if_neg h0]
        by_cases hneg : eclass (fmap unHi) - med < 0
        · rw [if_pos hneg]
          exact ⟨h, Int.le_refl _, fun hle => ⟨hun hle, by dsimp only; omega⟩⟩
        · rw [if_neg hneg]
          have hz : Zones eclass med lo hi f0 ⟨fmap, unLo, unHi - 1, ltLo, gtHi⟩ := by
            obtain ⟨hp, h1, h2, h3, h4, h5, hel, hlt, hgt, heh⟩ := h
            dsimp only at h1 h2 h3 h4 h5 hgt
            refine ⟨hp, h1, h2, by dsimp only; omega, by dsimp only; omega, h5, hel, hlt,
              fun i hl hh => ?_, heh⟩
            dsimp only at hl hh ⊢
            by_cases hi : i = unHi
            · rw [hi]
              omega
            · exact hgt i (by omega) hh
          obtain ⟨hz', hle, hstop⟩ := ih _ _ _ hz (by omega) (fun hle => hun (by omega)) _ rfl
          exact ⟨hz', by omega, hstop⟩

/-- The cells not looked at yet. -/
def Part.todo (p : Part) : Nat := (p.unHi - p.unLo + 1).toNat

/-- **One round of the partition loop** keeps the zones, and leaves or looks at more cells. -/
theorem partStep_spec {p : Part} (h : Zones eclass med lo hi f0 p) :
    (∃ p', partStep eclass med p = .ok (.inl p') ∧ Zones eclass med lo hi f0 p' ∧
      p'.todo < p.todo) ∨
    ∃ p', partStep eclass med p = .ok (.inr p') ∧ Zones eclass med lo hi f0 p' ∧
      p'.unHi < p'.unLo := by
  obtain ⟨fmap, unLo, unHi, ltLo, gtHi⟩ := p
  unfold partStep Part.todo
  dsimp only
  obtain ⟨h1, hle1, hs1⟩ := scanLo_spec (unHi - unLo + 1).toNat fmap unLo ltLo h (by omega) _ rfl
  generalize scanLo eclass med unHi (unHi - unLo + 1).toNat fmap unLo ltLo = r1 at h1 hle1 hs1 ⊢
  obtain ⟨f1, unLo1, ltLo1⟩ := r1
  dsimp only at h1 hle1 hs1 ⊢
  obtain ⟨h2, hle2, hs2⟩ :=
    scanHi_spec (unHi - unLo1 + 1).toNat f1 unHi gtHi h1 (by omega) hs1 _ rfl
  generalize scanHi eclass med unLo1 (unHi - unLo1 + 1).toNat f1 unHi gtHi = r2 at h2 hle2 hs2 ⊢
  obtain ⟨f2, unHi2, gtHi2⟩ := r2
  dsimp only at h2 hle2 hs2 ⊢
  by_cases hu : unLo1 > unHi2
  · rw [if_pos hu]
    exact .inr ⟨_, rfl, h2, hu⟩
  · rw [if_neg hu]
    obtain ⟨hgt1, hlt1⟩ := hs2 (by omega)
    -- the two stopping cells differ, so the cursors do not cross by more than one
    have hne : unLo1 ≠ unHi2 := fun e => by rw [e] at hgt1; omega
    left
    refine ⟨_, rfl, ?_, by dsimp only; omega⟩
    obtain ⟨hp, b1, b2, b3, b4, b5, hel, hlt, hgt, heh⟩ := h2
    dsimp only at b1 b2 b3 b4 b5 hel hlt hgt heh
    refine ⟨hp.trans (fswap_perm ⟨by omega, by omega⟩ ⟨by omega, by omega⟩), b1, by dsimp; omega,
      by dsimp; omega, by dsimp; omega, b5, fun i hl hh => ?_, fun i hl hh => ?_,
      fun i hl hh => ?_, fun i hl hh => ?_⟩ <;> dsimp only at hl hh ⊢ <;> rw [get_fswap]
    · rw [if_neg (by omega), if_neg (by omega)]
      exact hel i hl hh
    · rw [if_neg (by omega)]
      split
      · exact hlt1
      · exact hlt i hl (by omega)
    · split
      · exact hgt1
      · rw [if_neg (by omega)]
        exact hgt i (by omega) hh
    · rw [if_neg (by omega), if_neg (by omega)]
      exact heh i hl hh

/-- **The partition loop** returns with the unknown zone empty. -/
theorem partition_spec (eclass f0 : Cells Int) (med : Int) (h : lo ≤ hi) :
    ∃ p, iter Halt.diverge (partStep eclass med) (hi - lo + 3).toNat ⟨f0, lo, hi, lo, hi⟩ = .ok p ∧
      Zones eclass med lo hi f0 p ∧ p.unHi < p.unLo := by
  refine iter_spec (Zones eclass med lo hi f0)
    (fun p => Zones eclass med lo hi f0 p ∧ p.unHi < p.unLo) Part.todo
    (fun p hp => partStep_spec hp) _ _ ?_ ?_
  · refine ⟨PermOn.refl _ _ _, Int.le_refl _, Int.le_refl _, by dsimp only; omega, Int.le_refl _,
      Int.le_refl _, ?_, ?_, ?_, ?_⟩ <;> intro i hl hh <;> dsimp only at hl hh <;> omega
  · unfold Part.todo
    dsimp only
    omega

end Scans

/-! ## 2. Bringing the equal runs to the middle -/

theorem get_fvswap :
    ∀ (n : Nat) (fmap : Cells Int) (p1 p2 i : Int), p1 + n ≤ p2 →
      (fvswap fmap p1 p2 n) i =
        if p1 ≤ i ∧ i < p1 + n then fmap (i - p1 + p2)
        else if p2 ≤ i ∧ i < p2 + n then fmap (i - p2 + p1) else fmap i := by
  intro n
  induction n with
  | zero =>
    intro fmap p1 p2 i _
    rw [if_neg (by omega), if_neg (by omega)]
    rfl
  | succ n ih =>
    intro fmap p1 p2 i h
    unfold fvswap
    rw [ih _ _ _ _ (by omega)]
    by_cases h1 : p1 + 1 ≤ i ∧ i < p1 + 1 + n
    · rw [if_pos h1, if_pos (by omega), get_fswap, if_neg (by omega), if_neg (by omega)]
      congr 1
      omega
    · rw [if_neg h1]
      by_cases h2 : p2 + 1 ≤ i ∧ i < p2 + 1 + n
      · rw [if_pos h2, if_neg (by omega), if_pos (by omega), get_fswap, if_neg (by omega),
          if_neg (by omega)]
        congr 1
        omega
      · rw [if_neg h2, get_fswap]
        by_cases e2 : i = p2
        · rw [if_pos e2, if_neg (by omega), if_pos (by omega)]
          congr 1
          omega
        · rw [if_neg e2]
          by_cases e1 : i = p1
          · rw [if_pos e1, if_pos (by omega)]
            congr 1
            omega
          · rw [if_neg e1, if_neg (by omega), if_neg (by omega)]

theorem fvswap_perm :
    ∀ (n : Nat) (fmap : Cells Int) (p1 p2 : Int), p1 + n ≤ p2 → lo ≤ p1 → p2 + n ≤ hi + 1 →
      PermOn lo hi fmap (fvswap fmap p1 p2 n) := by
  intro n
  induction n with
  | zero => exact fun fmap p1 p2 _ _ _ => PermOn.refl _ _ _
  | succ n ih =>
    intro fmap p1 p2 h hl hh
    unfold fvswap
    exact (fswap_perm ⟨by omega, by omega⟩ ⟨by omega, by omega⟩).trans
      (ih _ _ _ (by omega) (by omega) (by omega))

/-- Two neighbouring runs `a..b-1` and `b..c-1` change places when the shorter one is exchanged
    with the far end of the longer one. -/
theorem fvswap_runs {P Q : Int → Prop} {fmap : Cells Int} {a b c k : Int} (hab : a ≤ b)
    (hbc : b ≤ c) (hk : k = b - a ∧ k ≤ c - b ∨ k = c - b ∧ k ≤ b - a)
    (hP : ∀ i, a ≤ i → i < b → P (fmap i)) (hQ : ∀ i, b ≤ i → i < c → Q (fmap i)) :
    (∀ i, a ≤ i → i < a + (c - b) → Q ((fvswap fmap a (c - k) k.toNat) i)) ∧
    (∀ i, a + (c - b) ≤ i → i < c → P ((fvswap fmap a (c - k) k.toNat) i)) ∧
    (∀ i, i < a ∨ c ≤ i → (fvswap fmap a (c - k) k.toNat) i = fmap i) := by
  have hget := fun i => get_fvswap k.toNat fmap a (c - k) i (by omega)
  refine ⟨fun i hl hh => ?_, fun i hl hh => ?_, fun i hi => ?_⟩
  · rw [hget]
    split
    · exact hQ _ (by omega) (by omega)
    · rw [if_neg (by omega)]
      exact hQ _ (by omega) (by omega)
  · rw [hget]
    rw [if_neg (by omega)]
    split
    · exact hP _ (by omega) (by omega)
    · exact hP _ (by omega) (by omega)
  · rw [hget, if_neg (by omega), if_neg (by omega)]

theorem fmin_cases (a b : Int) : fmin a b = a ∧ fmin a b ≤ b ∨ fmin a b = b ∧ fmin a b ≤ a := by
  unfold fmin
  split <;> omega

/-- A segment after a round: smaller up to `n`, greater from `m` on, equal and not empty
    between. -/
structure Split (eclass : Cells Int) (med lo hi n m : Int) (f0 f : Cells Int) : Prop where
  perm : PermOn lo hi f0 f
  le_n : lo ≤ n + 1
  n_lt : n + 1 < m
  m_le : m ≤ hi + 1
  lt : ∀ i, lo ≤ i → i ≤ n → eclass (f i) < med
  eq : ∀ i, n < i → i < m → eclass (f i) = med
  gt : ∀ i, m ≤ i → i ≤ hi → med < eclass (f i)

/-- No cell was greater or smaller: the segment is all equal. -/
theorem Zones.all_equal {f0 : Cells Int} {p : Part} (h : Zones eclass med lo hi f0 p)
    (hall : p.gtHi < p.ltLo) :
    ∀ x, lo ≤ x → x ≤ hi → eclass (p.fmap x) = med := by
  intro x hxl hxh
  by_cases hx' : x < p.ltLo
  · exact h.eqLo x hxl hx'
  · exact h.eqHi x (by omega) hxh

/-- **The two exchanges**, `n` and `m` cells long, split the segment. -/
theorem Zones.split {f0 : Cells Int} {p : Part} (h : Zones eclass med lo hi f0 p)
    (hx : p.unHi < p.unLo) (hpiv : ∃ x, lo ≤ x ∧ x ≤ hi ∧ eclass (f0 x) = med)
    (hall : ¬ p.gtHi < p.ltLo) {n m : Int} (hn : n = fmin (p.ltLo - lo) (p.unLo - p.ltLo))
    (hm : m = fmin (hi - p.gtHi) (p.gtHi - p.unHi)) :
    Split eclass med lo hi (lo + p.unLo - p.ltLo - 1) (hi - (p.gtHi - p.unHi) + 1) f0
      (fvswap (fvswap p.fmap lo (p.unLo - n) n.toNat) p.unLo (hi - m + 1) m.toNat) := by
  obtain ⟨hp, b1, b2, b3, b4, b5, hel, hlt, hgt, heh⟩ := h
  obtain ⟨f, unLo, unHi, ltLo, gtHi⟩ := p
  dsimp only at hp b1 b2 b3 b4 b5 hel hlt hgt heh hx hall hn hm ⊢
  obtain ⟨g1, hg1⟩ : ∃ g, g = fvswap f lo (unLo - n) n.toNat := ⟨_, rfl⟩
  obtain ⟨g2, hg2⟩ : ∃ g, g = fvswap g1 unLo (hi - m + 1) m.toNat := ⟨_, rfl⟩
  rw [← hg1, ← hg2]
  have k1 := fmin_cases (ltLo - lo) (unLo - ltLo)
  have k2 := fmin_cases (hi - gtHi) (gtHi - unHi)
  rw [← hn] at k1
  rw [← hm] at k2
  -- smaller cells to the low end
  obtain ⟨r1, r2, r3⟩ := fvswap_runs (P := fun v => eclass v = med)
    (Q := fun v => eclass v < med) b1 b2 k1 hel hlt
  rw [← hg1] at r1 r2 r3
  -- greater cells to the high end
  have e : hi - m + 1 = hi + 1 - m := by omega
  rw [e] at hg2
  obtain ⟨s1, s2, s3⟩ := fvswap_runs (P := fun v => med < eclass v)
    (Q := fun v => eclass v = med) (a := unLo) (b := gtHi + 1) (c := hi + 1)
    (k := m) (by omega) (by omega) (by omega)
    (fun i hl hh => by rw [r3 i (by omega)]; exact hgt i (by omega) (by omega))
    (fun i hl hh => by rw [r3 i (by omega)]; exact heh i (by omega) (by omega))
  rw [← hg2] at s1 s2 s3
  have hp1 : PermOn lo hi f g1 := by
    rw [hg1]
    exact fvswap_perm _ _ _ _ (by omega) (by omega) (by omega)
  have hp2 : PermOn lo hi g1 g2 := by
    rw [hg2]
    exact fvswap_perm _ _ _ _ (by omega) (by omega) (by omega)
  -- the pivot is one of the cells, so an equal run is not empty
  have hne : lo < ltLo ∨ gtHi < hi := by
    obtain ⟨x, hxl, hxh, hxm⟩ := hpiv
    obtain ⟨y, hyl, hyh, hy⟩ := hp.symm.src hxl hxh
    rw [hy] at hxm
    by_contra hc
    by_cases hyu : y < unLo
    · have := hlt y (by omega) hyu
      omega
    · have := hgt y (by omega) (by omega)
      omega
  refine ⟨(hp.trans hp1).trans hp2, by omega, by omega, by omega, fun i hl hh => ?_,
    fun i hl hh => ?_, fun i hl hh => ?_⟩
  · rw [s3 i (by omega)]
    exact r1 i hl (by omega)
  · by_cases hiu : i < unLo
    · rw [s3 i (by omega)]
      exact r2 i (by omega) hiu
    · exact s1 i (by omega) (by omega)
  · exact s2 i (by omega) (by omega)

/-- **What follows a partition**: the segment is all equal, or it is split and its two parts are
    pushed, the larger first. -/
theorem qsortSplit_spec {f0 : Cells Int} {p : Part} (h : Zones eclass med lo hi f0 p)
    (hx : p.unHi < p.unLo) (hpiv : ∃ x, lo ≤ x ∧ x ≤ hi ∧ eclass (f0 x) = med) (q : QSort)
    (r : Int) :
    (PermOn lo hi f0 (qsortSplit q r lo hi p).fmap ∧
      OrdOn eclass.get lo hi (qsortSplit q r lo hi p).fmap ∧
      (qsortSplit q r lo hi p).stack = q.stack) ∨
    ∃ n m, Split eclass med lo hi n m f0 (qsortSplit q r lo hi p).fmap ∧
      (hi - m < n - lo ∧ (qsortSplit q r lo hi p).stack = (m, hi) :: (lo, n) :: q.stack ∨
        n - lo ≤ hi - m ∧ (qsortSplit q r lo hi p).stack = (lo, n) :: (m, hi) :: q.stack) := by
  unfold qsortSplit
  dsimp only
  by_cases hall : p.gtHi < p.ltLo
  · left
    rw [if_pos hall]
    have hcls := h.all_equal hall
    exact ⟨h.perm, fun i j hl hij hh => Int.le_of_eq (by
      dsimp only
      rw [hcls i hl (by omega), hcls j (by omega) hh]), rfl⟩
  · right
    rw [if_neg hall]
    have hsplit := h.split hx hpiv hall rfl rfl
    refine ⟨lo + p.unLo - p.ltLo - 1, hi - (p.gtHi - p.unHi) + 1, ?_, ?_⟩
    · split
      · exact hsplit
      · exact hsplit
    · split
      · exact .inl ⟨by omega, rfl⟩
      · exact .inr ⟨by omega, rfl⟩

/-! ## 3. The main loop -/

/-- The cells of a segment. -/
def segSize (s : Int × Int) : Nat := (s.2 - s.1 + 1).toNat

/-- Two pending segments have no cell in common. -/
def Apart (s t : Int × Int) : Prop := s.2 < t.1 ∨ t.2 < s.1

/-- The loop's measure: an empty segment still takes a round. -/
def stackTodo : List (Int × Int) → Nat
  | [] => 0
  | s :: rest => 2 * segSize s + 1 + stackTodo rest

theorem stackTodo_cons (s : Int × Int) (rest : List (Int × Int)) :
    stackTodo (s :: rest) = 2 * segSize s + 1 + stackTodo rest := rfl

/-- Every segment of the stack is at most a `2^d`-th of the whole, `d` segments below it. -/
def Halving (N : Nat) : List (Int × Int) → Prop
  | [] => True
  | s :: rest => segSize s * 2 ^ rest.length ≤ N ∧ Halving N rest

/-- **Segments yet to be sorted**: the cells are permuted, and any two that are not inside one
    pending segment are in order. -/
structure Unsorted {κ : Type*} [LE κ] (key : Int → κ) (loSt hiSt : Int) (f0 f : Cells Int)
    (segs : List (Int × Int)) : Prop where
  perm : PermOn loSt hiSt f0 f
  range : ∀ s ∈ segs, loSt ≤ s.1 ∧ s.2 ≤ hiSt
  apart : segs.Pairwise Apart
  ord : ∀ i j, loSt ≤ i → i ≤ j → j ≤ hiSt → (∀ s ∈ segs, ¬ (s.1 ≤ i ∧ j ≤ s.2)) →
    key (f i) ≤ key (f j)

/-- **The invariant of the main loop.** -/
structure Sorting (eclass : Cells Int) (loSt hiSt : Int) (f0 : Cells Int) (q : QSort) :
    Prop where
  perm : PermOn loSt hiSt f0 q.fmap
  range : ∀ s ∈ q.stack, loSt ≤ s.1 ∧ s.2 ≤ hiSt
  apart : q.stack.Pairwise Apart
  ord : ∀ i j, loSt ≤ i → i ≤ j → j ≤ hiSt → (∀ s ∈ q.stack, ¬ (s.1 ≤ i ∧ j ≤ s.2)) →
    eclass (q.fmap i) ≤ eclass (q.fmap j)
  halving : Halving (segSize (loSt, hiSt)) q.stack
  depth : q.stack.length ≤ 1 ∨ 2 ^ (q.stack.length - 2) ≤ segSize (loSt, hiSt)

section Main

variable {loSt hiSt : Int} {f0 : Cells Int}

section Replace

variable {κ : Type*} [LE κ] {key : Int → κ} {f f' : Cells Int} {s : Int × Int}
  {rest new : List (Int × Int)}

/-- At first the whole segment is pending. -/
theorem unsorted_start (f : Cells Int) : Unsorted key loSt hiSt f f [(loSt, hiSt)] := by
  refine ⟨PermOn.refl _ _ _, by simp, by simp, fun i j hl hij hh hno => ?_⟩
  exact absurd ⟨hl, hh⟩ (hno (loSt, hiSt) (by simp))

/-- **The step**: a segment is permuted and replaced by segments inside it. -/
theorem Unsorted.replace (h : Unsorted key loSt hiSt f0 f (s :: rest))
    (hperm : PermOn s.1 s.2 f f') (hrange : ∀ t ∈ new, s.1 ≤ t.1 ∧ t.2 ≤ s.2)
    (hapart : new.Pairwise Apart)
    (hord : ∀ i j, s.1 ≤ i → i ≤ j → j ≤ s.2 → (∀ t ∈ new, ¬ (t.1 ≤ i ∧ j ≤ t.2)) →
      key (f' i) ≤ key (f' j)) :
    Unsorted key loSt hiSt f0 f' (new ++ rest) := by
  obtain ⟨hp, hr, ha, ho⟩ := h
  obtain ⟨hs, harest⟩ := List.pairwise_cons.mp ha
  have hsr := hr s List.mem_cons_self
  -- no other pending segment contains a cell of this one
  have hout : ∀ t ∈ rest, ∀ x, s.1 ≤ x → x ≤ s.2 → ¬ (t.1 ≤ x ∧ x ≤ t.2) := by
    intro t ht x hxl hxh hx
    have := hs t ht
    unfold Apart at this
    omega
  refine ⟨hp.trans (hperm.mono hsr.1 hsr.2), ?_, ?_, ?_⟩
  · intro t ht
    rcases List.mem_append.mp ht with ht | ht
    · have := hrange t ht
      omega
    · exact hr t (List.mem_cons_of_mem _ ht)
  · refine List.pairwise_append.mpr ⟨hapart, harest, fun t ht u hu => ?_⟩
    have h1 := hrange t ht
    have h2 := hs u hu
    unfold Apart at h2 ⊢
    omega
  · intro i j hl hij hh hno
    have hnew : ∀ t ∈ new, ¬ (t.1 ≤ i ∧ j ≤ t.2) := fun t ht => hno t (List.mem_append_left _ ht)
    have hrest : ∀ t ∈ rest, ¬ (t.1 ≤ i ∧ j ≤ t.2) :=
      fun t ht => hno t (List.mem_append_right _ ht)
    by_cases hi : s.1 ≤ i ∧ i ≤ s.2
    · by_cases hj : j ≤ s.2
      · exact hord i j hi.1 hij hj hnew
      · obtain ⟨k, hkl, hkh, e⟩ := hperm.src hi.1 hi.2
        rw [e, hperm.outside (i := j) (by omega)]
        refine ho k j (by omega) (by omega) hh fun t ht hc => ?_
        rcases List.mem_cons.mp ht with rfl | ht
        · omega
        · exact hout t ht k hkl hkh ⟨hc.1, by omega⟩
    · by_cases hj : s.1 ≤ j ∧ j ≤ s.2
      · obtain ⟨k, hkl, hkh, e⟩ := hperm.src hj.1 hj.2
        rw [e, hperm.outside (i := i) (by omega)]
        refine ho i k hl (by omega) (by omega) fun t ht hc => ?_
        rcases List.mem_cons.mp ht with rfl | ht
        · omega
        · exact hout t ht k hkl hkh ⟨by omega, hc.2⟩
      · rw [hperm.outside (i := i) (by omega), hperm.outside (i := j) (by omega)]
        refine ho i j hl hij hh fun t ht hc => ?_
        rcases List.mem_cons.mp ht with rfl | ht
        · omega
        · exact hrest t ht hc

end Replace

/-- **The step** of the main loop: the top segment is replaced. -/
theorem Sorting.replace {q : QSort} {s : Int × Int} {rest : List (Int × Int)}
    (h : Sorting eclass loSt hiSt f0 q) (hq : q.stack = s :: rest) (q' : QSort)
    (new : List (Int × Int)) (hq' : q'.stack = new ++ rest)
    (hperm : PermOn s.1 s.2 q.fmap q'.fmap) (hrange : ∀ t ∈ new, s.1 ≤ t.1 ∧ t.2 ≤ s.2)
    (hapart : new.Pairwise Apart)
    (hord : ∀ i j, s.1 ≤ i → i ≤ j → j ≤ s.2 → (∀ t ∈ new, ¬ (t.1 ≤ i ∧ j ≤ t.2)) →
      eclass (q'.fmap i) ≤ eclass (q'.fmap j))
    (hhalf : Halving (segSize (loSt, hiSt)) (new ++ rest))
    (hdepth : (new ++ rest).length ≤ 1 ∨
      2 ^ ((new ++ rest).length - 2) ≤ segSize (loSt, hiSt)) :
    Sorting eclass loSt hiSt f0 q' := by
  have hpend : Unsorted eclass.get loSt hiSt f0 q.fmap (s :: rest) := by
    rw [← hq]
    exact ⟨h.perm, h.range, h.apart, h.ord⟩
  obtain ⟨hp, hr, ha, ho⟩ := hpend.replace hperm hrange hapart hord
  rw [← hq'] at hr ha ho hhalf hdepth
  exact ⟨hp, hr, ha, ho, hhalf, hdepth⟩

theorem pickMed_mem (fmap eclass : Cells Int) (r : Int) (h : lo ≤ hi) :
    ∃ x, lo ≤ x ∧ x ≤ hi ∧ eclass (fmap x) = pickMed fmap eclass r lo hi := by
  unfold pickMed
  dsimp only
  split
  · exact ⟨lo, Int.le_refl _, h, rfl⟩
  · split
    · exact ⟨(lo + hi) / 2, by omega, by omega, rfl⟩
    · exact ⟨hi, h, Int.le_refl _, rfl⟩

/-- The stack stays below its limit. -/
theorem Sorting.length_lt {q : QSort} (h : Sorting eclass loSt hiSt f0 q)
    (hN : segSize (loSt, hiSt) < 2 ^ 97) : q.stack.length < 99 := by
  rcases h.depth with h1 | h2
  · omega
  · by_contra hlen
    have : 2 ^ 97 ≤ 2 ^ (q.stack.length - 2) := Nat.pow_le_pow_right (by decide) (by omega)
    omega

/-- A short segment is sorted and dropped. -/
theorem Sorting.simple {q : QSort} {s : Int × Int} {rest : List (Int × Int)}
    (h : Sorting eclass loSt hiSt f0 q) (hq : q.stack = s :: rest) :
    Sorting eclass loSt hiSt f0
      { q with fmap := fallbackSimpleSort q.fmap eclass s.1 s.2, stack := rest } := by
  obtain ⟨hp, ho⟩ := fallbackSimpleSort_spec q.fmap eclass s.1 s.2
  have hh := h.halving
  have hd := h.depth
  rw [hq] at hh hd
  refine h.replace hq _ [] rfl hp (by simp) List.Pairwise.nil (fun i j hl hij hh _ => ho i j hl hij hh)
    hh.2 ?_
  rw [List.nil_append]
  rcases hd with hd | hd
  · left
    rw [List.length_cons] at hd
    omega
  · right
    refine Nat.le_trans (Nat.pow_le_pow_right (by decide) ?_) hd
    rw [List.length_cons]
    omega

/-- Two parts pushed, the smaller on top of the larger, both within the old top segment. -/
theorem halving_push {N : Nat} {s small large : Int × Int} {rest : List (Int × Int)}
    (h : Halving N (s :: rest)) (hle : segSize small ≤ segSize large)
    (hsum : segSize small + segSize large ≤ segSize s) :
    Halving N (small :: large :: rest) := by
  obtain ⟨h1, h2⟩ := h
  refine ⟨?_, ?_, h2⟩
  · rw [List.length_cons, Nat.pow_succ]
    calc segSize small * (2 ^ rest.length * 2)
        = (segSize small + segSize small) * 2 ^ rest.length := by ring
      _ ≤ segSize s * 2 ^ rest.length := Nat.mul_le_mul_right _ (by omega)
      _ ≤ N := h1
  · exact Nat.le_trans (Nat.mul_le_mul_right _ (by omega)) h1

/-- **A long segment is split.** -/
theorem Sorting.split {q : QSort} {s : Int × Int} {rest : List (Int × Int)}
    (h : Sorting eclass loSt hiSt f0 q) (hq : q.stack = s :: rest) (hs : 0 < segSize s)
    {n m : Int} {q' : QSort} {med : Int}
    (hsp : Split eclass med s.1 s.2 n m q.fmap q'.fmap)
    (hst : s.2 - m < n - s.1 ∧ q'.stack = (m, s.2) :: (s.1, n) :: rest ∨
      n - s.1 ≤ s.2 - m ∧ q'.stack = (s.1, n) :: (m, s.2) :: rest) :
    Sorting eclass loSt hiSt f0 q' ∧ stackTodo q'.stack < stackTodo q.stack := by
  obtain ⟨hp, b1, b2, b3, hlt, heq, hgt⟩ := hsp
  have hhalf := h.halving
  rw [hq] at hhalf
  have hord : ∀ i j, s.1 ≤ i → i ≤ j → j ≤ s.2 → ¬ (s.1 ≤ i ∧ j ≤ n) → ¬ (m ≤ i ∧ j ≤ s.2) →
      eclass (q'.fmap i) ≤ eclass (q'.fmap j) := by
    intro i j hl hij hh h1 h2
    have hi : eclass (q'.fmap i) ≤ med := by
      by_cases hin : i ≤ n
      · exact Int.le_of_lt (hlt i hl hin)
      · exact Int.le_of_eq (heq i (by omega) (by omega))
    have hj : med ≤ eclass (q'.fmap j) := by
      by_cases hjm : m ≤ j
      · exact Int.le_of_lt (hgt j hjm hh)
      · exact Int.le_of_eq (heq j (by omega) (by omega)).symm
    exact Int.le_trans hi hj
  have hdepth : ∀ a b : Int × Int, (a :: b :: rest).length ≤ 1 ∨
      2 ^ ((a :: b :: rest).length - 2) ≤ segSize (loSt, hiSt) := by
    intro a b
    right
    have h1 := hhalf.1
    have e : (a :: b :: rest).length - 2 = rest.length := by simp
    rw [e]
    exact Nat.le_trans (Nat.le_mul_of_pos_left _ hs) h1
  have hsum : segSize (s.1, n) + segSize (m, s.2) + 1 ≤ segSize s := by
    unfold segSize
    dsimp only
    omega
  rcases hst with ⟨hlen, hst⟩ | ⟨hlen, hst⟩
  · refine ⟨h.replace hq q' [(m, s.2), (s.1, n)] hst hp ?_ ?_ ?_ ?_ (hdepth _ _), ?_⟩
    · simp only [List.mem_cons, List.not_mem_nil, or_false]
      rintro t (rfl | rfl) <;> dsimp only <;> omega
    · simp only [List.pairwise_cons, List.mem_cons, List.not_mem_nil, or_false, Apart]
      refine ⟨fun t ht => ?_, fun t ht => absurd ht id, List.Pairwise.nil⟩
      subst ht
      dsimp only
      omega
    · intro i j hl hij hh hno
      exact hord i j hl hij hh (hno (s.1, n) (by simp)) (hno (m, s.2) (by simp))
    · refine halving_push hhalf ?_ (by omega)
      unfold segSize
      dsimp only
      omega
    · rw [hst, hq, stackTodo_cons, stackTodo_cons, stackTodo_cons]
      omega
  · refine ⟨h.replace hq q' [(s.1, n), (m, s.2)] hst hp ?_ ?_ ?_ ?_ (hdepth _ _), ?_⟩
    · simp only [List.mem_cons, List.not_mem_nil, or_false]
      rintro t (rfl | rfl) <;> dsimp only <;> omega
    · simp only [List.pairwise_cons, List.mem_cons, List.not_mem_nil, or_false, Apart]
      refine ⟨fun t ht => ?_, fun t ht => absurd ht id, List.Pairwise.nil⟩
      subst ht
      dsimp only
      omega
    · intro i j hl hij hh hno
      exact hord i j hl hij hh (hno (s.1, n) (by simp)) (hno (m, s.2) (by simp))
    · refine halving_push hhalf ?_ (by omega)
      unfold segSize
      dsimp only
      omega
    · rw [hst, hq, stackTodo_cons, stackTodo_cons, stackTodo_cons]
      omega

/-- **One round of the main loop.** -/
theorem qsortStep_spec (hN : segSize (loSt, hiSt) < 2 ^ 97) {q : QSort}
    (h : Sorting eclass loSt hiSt f0 q) :
    (∃ q', qsortStep eclass q = .ok (.inl q') ∧ Sorting eclass loSt hiSt f0 q' ∧
      stackTodo q'.stack < stackTodo q.stack) ∨
    ∃ f, qsortStep eclass q = .ok (.inr f) ∧ PermOn loSt hiSt f0 f ∧
      OrdOn eclass.get loSt hiSt f := by
  have hlen := h.length_lt hN
  obtain ⟨fmap, r, stack⟩ := q
  dsimp only at hlen
  unfold qsortStep
  cases stack with
  | nil =>
    exact .inr ⟨fmap, rfl, h.perm, fun i j hl hij hh => h.ord i j hl hij hh (by simp)⟩
  | cons s rest =>
    left
    obtain ⟨lo, hi⟩ := s
    dsimp only
    simp only [assertH, hlen, decide_true, if_true]
    by_cases hshort : hi - lo < 10
    · refine ⟨_, by rw [if_pos hshort]; rfl, h.simple rfl, ?_⟩
      dsimp only [stackTodo]
      omega
    · obtain ⟨p, hiter, hz, hx⟩ :=
        partition_spec eclass fmap (pickMed fmap eclass ((r * 7621 + 1) % 32768) lo hi)
          (show lo ≤ hi by omega)
      have hpiv := pickMed_mem fmap eclass ((r * 7621 + 1) % 32768) (show lo ≤ hi by omega)
      refine ⟨qsortSplit ⟨fmap, r, rest⟩ ((r * 7621 + 1) % 32768) lo hi p, ?_, ?_⟩
      · rw [if_neg hshort]
        simp only [bind, Except.bind]
        rw [hiter]
      · have hpos : 0 < segSize (lo, hi) := by
          unfold segSize
          dsimp only
          omega
        rcases qsortSplit_spec hz hx hpiv ⟨fmap, r, rest⟩ ((r * 7621 + 1) % 32768) with
          ⟨hp, ho, hst⟩ | ⟨n, m, hsp, hst⟩
        · refine ⟨?_, by rw [hst]; dsimp only [stackTodo]; omega⟩
          have hh := h.halving
          refine h.replace rfl _ [] hst hp (by simp) List.Pairwise.nil
            (fun i j hl hij hh _ => ho i j hl hij hh) hh.2 ?_
          rw [List.nil_append]
          rcases h.depth with hd | hd
          · left
            simp only [List.length_cons] at hd
            omega
          · right
            refine Nat.le_trans (Nat.pow_le_pow_right (by decide) ?_) hd
            simp only [List.length_cons]
            omega
        · exact h.split rfl hpos hsp hst

/-- The loop starts with the whole segment. -/
theorem sorting_start (fmap eclass : Cells Int) :
    Sorting eclass loSt hiSt fmap ⟨fmap, 0, [(loSt, hiSt)]⟩ := by
  have hstart : Unsorted eclass.get loSt hiSt fmap fmap [(loSt, hiSt)] := unsorted_start fmap
  obtain ⟨hp, hr, ha, ho⟩ := hstart
  exact ⟨hp, hr, ha, ho, by simp [Halving], by simp⟩

/-- **`fallbackQSort3`** returns with the segment permuted and in order by class; no assertion
    fires on a segment of fewer than `2^97` cells. -/
theorem fallbackQSort3_spec (fmap eclass : Cells Int) {loSt hiSt : Int} (hle : loSt ≤ hiSt)
    (hN : segSize (loSt, hiSt) < 2 ^ 97) :
    ∃ f, fallbackQSort3 fmap eclass loSt hiSt = .ok f ∧ PermOn loSt hiSt fmap f ∧
      OrdOn eclass.get loSt hiSt f := by
  refine iter_spec (Sorting eclass loSt hiSt fmap)
    (fun f : Cells Int => PermOn loSt hiSt fmap f ∧ OrdOn eclass.get loSt hiSt f)
    (fun q => stackTodo q.stack) (fun q hq => qsortStep_spec hN hq) _ _ (sorting_start fmap eclass) ?_
  simp only [stackTodo, segSize]
  omega

/-- A segment is pending only while the stack below it is no deeper than the halvings of the whole. -/
theorem Sorting.length_le {q : QSort} (h : Sorting eclass loSt hiSt f0 q) :
    q.stack.length ≤ Nat.log2 (segSize (loSt, hiSt)) + 2 := by
  rcases h.depth with h1 | h2
  · omega
  · have hne : segSize (loSt, hiSt) ≠ 0 := fun h0 => by
      rw [h0] at h2
      exact absurd h2 (Nat.not_le_of_lt (Nat.two_pow_pos _))
    have := (Nat.le_log2 hne).mpr h2
    omega

/-- **`fallbackQSort3` sorts by class.** Every call on a segment within the range of `Int32` returns,
    and leaves the cells of the segment permuted and their classes in order, and all others as they
    were; at every round of the main loop at most `log2(hi-lo+1) + 2` segments are on the stack. Of
    classes below `2^31` the differences in `Int32` are the ones taken here. -/
theorem fallbackQSort3_sorts (fmap eclass : Cells Int) (lo hi : Int) (hlo : -2 ^ 31 ≤ lo)
    (hle : lo ≤ hi) (hhi : hi < 2 ^ 31) :
    (∃ f, fallbackQSort3 fmap eclass lo hi = .ok f ∧
      (∃ σ : Equiv.Perm Int, (∀ i, i < lo ∨ hi < i → σ i = i) ∧ ∀ i, f i = fmap (σ i)) ∧
      (∀ i, i < lo ∨ hi < i → f i = fmap i) ∧
      ∀ i j, lo ≤ i → i ≤ j → j ≤ hi → eclass (f i) ≤ eclass (f j)) ∧
    ∀ q, Visits (qsortStep eclass) ⟨fmap, 0, [(lo, hi)]⟩ q →
      q.stack.length ≤ Nat.log2 (hi - lo + 1).toNat + 2 := by
  have hN : segSize (lo, hi) < 2 ^ 97 := by
    unfold segSize
    dsimp only
    omega
  obtain ⟨f, hf, hp, ho⟩ := fallbackQSort3_spec fmap eclass hle hN
  refine ⟨⟨f, hf, hp, fun i hi' => hp.outside hi', ho⟩, fun q hq => ?_⟩
  have hS : Sorting eclass lo hi fmap q := by
    refine hq.inv (sorting_start fmap eclass) fun s s' hs he => ?_
    rcases qsortStep_spec hN hs with ⟨t, ht, hS, _⟩ | ⟨r, hr, _⟩
    · rw [ht] at he
      cases he
      exact hS
    · rw [hr] at he
      cases he
  exact hS.length_le

/-- Fourteen cells of seven classes: the first round splits them. -/
theorem fallbackQSort3_sorts_fourteen : ∃ f q,
    fallbackQSort3 (.ofFn fun i => i) (.ofFn fun i => 5 * i % 7) 0 13 = .ok f ∧
    (∀ i, i < 0 ∨ 13 < i → f i = i) ∧
    (∀ i j, 0 ≤ i → i ≤ j → j ≤ 13 → 5 * f i % 7 ≤ 5 * f j % 7) ∧
    Visits (qsortStep (.ofFn fun i => 5 * i % 7)) ⟨.ofFn fun i => i, 0, [(0, 13)]⟩ q ∧
    q.stack.length = 2 ∧ q.stack.length ≤ 5 := by
  obtain ⟨⟨f, hf, -, hout, ho⟩, hdepth⟩ := fallbackQSort3_sorts (.ofFn fun i => i)
    (.ofFn fun i => 5 * i % 7) 0 13 (by decide) (by decide) (by decide)
  obtain ⟨q, hstep, hlen⟩ : ∃ q, qsortStep (.ofFn fun i => 5 * i % 7)
      ⟨.ofFn fun i => i, 0, [(0, 13)]⟩ = .ok (.inl q) ∧ q.stack.length = 2 :=
    ⟨_, rfl, by decide +kernel⟩
  have hq := Visits.start.next hstep
  exact ⟨f, q, hf, hout, ho, hq, hlen, hdepth q hq⟩

end Main

end Qbz2
