/-
  File:      Qbz2/BlockSort/Ties.lean
  Subject:   Where `fallbackSort` leaves rotation 0 among the rotations equal to it.

  The first distribution puts it last of them. The pass with gap 1 of `fallbackSimpleSort` keeps
  cells of one class in order, and no sort moves anything in a bucket of one class; the pass with
  gap 4 and the exchanges of `fallbackQSort3` do neither.

  * `LastTie E lo hi f` -- no cell behind the one that holds `0` holds a tie of `0`;
  * `fallbackSimpleSort_last`, `fallbackQSort3_const` -- short segments, and segments of one class;
  * `Undisturbed block n` -- rotation 0 is in no bucket of five or more cells and two classes;
  * **`fallbackSort_last`** -- then it stays the last of its equals.
-/
import Qbz2.BlockSort.Fallback

namespace Qbz2

open Loop Segment Rotation Counting

/-- Of the cells that hold `0` or a tie of `0`, the one with `0` comes last. -/
def LastTie (E : Int → Prop) (lo hi : Int) (f : Int → Int) : Prop :=
  ∀ i j, lo ≤ i → i < j → j ≤ hi → f i = 0 → ¬ E (f j)

/-! ## 1. Short segments -/

section Short

variable {E : Int → Prop} {eclass : Cells Int} {lo hi : Int}

/-- Neighbours of different classes are exchanged. -/
theorem LastTie.swap {f g : Int → Int} (h : LastTie E lo hi f)
    (hE : ∀ x, E x → eclass x = eclass 0) {a : Int} (ha : lo ≤ a) (ha1 : a + 1 ≤ hi)
    (hlt : eclass (f (a + 1)) < eclass (f a))
    (hg : ∀ i, g i = if i = a + 1 then f a else if i = a then f (a + 1) else f i) :
    LastTie E lo hi g := by
  intro i j hl hij hh h0 hj
  rw [hg] at h0 hj
  by_cases hi1 : i = a + 1
  · rw [if_pos hi1] at h0
    rw [if_neg (by omega), if_neg (by omega)] at hj
    exact h a j ha (by omega) hh h0 hj
  rw [if_neg hi1] at h0
  by_cases hia : i = a
  · rw [if_pos hia] at h0
    by_cases hj1 : j = a + 1
    · rw [if_pos hj1] at hj
      have := hE _ hj
      rw [h0] at hlt
      omega
    · rw [if_neg hj1, if_neg (by omega)] at hj
      exact h (a + 1) j (by omega) (by omega) hh h0 hj
  rw [if_neg hia] at h0
  by_cases hj1 : j = a + 1
  · rw [if_pos hj1] at hj
    exact h i a hl (by omega) (by omega) h0 hj
  rw [if_neg hj1] at hj
  by_cases hja : j = a
  · rw [if_pos hja] at hj
    exact h i (a + 1) hl (by omega) ha1 h0 hj
  · rw [if_neg hja] at hj
    exact h i j hl hij hh h0 hj

/-- A cell moves up past cells of smaller classes only. -/
theorem shiftLoop_last (hE : ∀ x, E x → eclass x = eclass 0) {tmp : Int} :
    ∀ (k : Nat) (fmap : Cells Int) (j : Int), lo ≤ j - 1 →
      LastTie E lo hi (fmap.set (j - 1) tmp) →
      ∀ r, shiftLoop 1 eclass hi (eclass tmp) k fmap j = r →
        LastTie E lo hi (r.1.set (r.2 - 1) tmp) := by
  intro k
  induction k with
  | zero =>
    rintro fmap j _ h r rfl
    exact h
  | succ k ih =>
    rintro fmap j hl h r rfl
    unfold shiftLoop
    by_cases hc : j ≤ hi ∧ eclass tmp > eclass (fmap j)
    · rw [if_pos hc]
      refine ih _ (j + 1) (by omega) (h.swap hE hl (by omega) ?_ fun i => ?_) _ rfl
      · rw [Cells.get_set_of_ne _ (by omega), Cells.get_set_self, show j - 1 + 1 = j by omega]
        exact hc.2
      · rw [show j + 1 - 1 = j by omega, show j - 1 + 1 = j by omega, Cells.get_set_self,
          Cells.get_set_of_ne (i := j - 1) (k := j) _ (by omega), Cells.get_set, Cells.get_set,
          Cells.get_set]
        split
        · rfl
        · split <;> rfl
    · rw [if_neg hc]
      exact h

theorem insertPass_last (hE : ∀ x, E x → eclass x = eclass 0) :
    ∀ (k : Nat) (fmap : Cells Int) (i : Int), lo ≤ i - k + 1 → LastTie E lo hi fmap →
      LastTie E lo hi (insertPass 1 eclass hi k fmap i) := by
  intro k
  induction k with
  | zero => exact fun fmap i _ h => h
  | succ k ih =>
    intro fmap i hl h
    rw [insertPass_succ]
    refine ih _ (i - 1) (by omega) (shiftLoop_last hE _ fmap (i + 1) (by omega) ?_ _ rfl)
    rw [show i + 1 - 1 = i by omega, Cells.get_set_get]
    exact h

/-- **At most four cells**: there is no pass with gap 4. -/
theorem fallbackSimpleSort_last (hE : ∀ x, E x → eclass x = eclass 0) {fmap : Cells Int}
    (hshort : hi - lo ≤ 3) (h : LastTie E lo hi fmap) :
    LastTie E lo hi (fallbackSimpleSort fmap eclass lo hi) := by
  unfold fallbackSimpleSort
  split
  · exact h
  · dsimp only
    rw [if_neg (by omega)]
    by_cases hlt : hi < lo
    · rw [show (hi - 1 - lo + 1).toNat = 0 by omega]
      exact h
    · exact insertPass_last hE _ fmap (hi - 1) (by omega) h

/-- A segment of at most ten cells is left to `fallbackSimpleSort`. -/
theorem fallbackQSort3_short (fmap eclass : Cells Int) (hle : lo ≤ hi) (hshort : hi - lo < 10) :
    fallbackQSort3 fmap eclass lo hi = .ok (fallbackSimpleSort fmap eclass lo hi) := by
  obtain ⟨k, hk⟩ : ∃ k, (2 * (hi - lo + 1) + 3).toNat = k + 2 :=
    ⟨(2 * (hi - lo + 1) + 1).toNat, by omega⟩
  have hfirst : qsortStep eclass ⟨fmap, 0, [(lo, hi)]⟩ =
      .ok (.inl ⟨fallbackSimpleSort fmap eclass lo hi, 0, []⟩) := by
    unfold qsortStep
    dsimp only
    rw [if_pos hshort]
    rfl
  unfold fallbackQSort3
  rw [hk, iter, hfirst]
  rfl

end Short

/-! ## 2. Segments of one class -/

section Const

variable {eclass : Cells Int} {lo hi c : Int}

theorem insertPass_const (lo : Int) {gap : Int} (hg : 1 ≤ gap) :
    ∀ (k : Nat) (fmap : Cells Int) (i : Int), lo ≤ i - k + 1 → i ≤ hi →
      (∀ x, lo ≤ x → x ≤ hi → eclass (fmap x) = c) →
      (insertPass gap eclass hi k fmap i).get = fmap.get := by
  intro k
  induction k with
  | zero => exact fun fmap i _ _ _ => rfl
  | succ k ih =>
    intro fmap i hl hh hc
    have hstay : ∀ m, shiftLoop gap eclass hi (eclass (fmap i)) m fmap (i + gap) =
        (fmap, i + gap) := by
      intro m
      cases m with
      | zero => rfl
      | succ m =>
        unfold shiftLoop
        refine if_neg ?_
        rintro ⟨h1, h2⟩
        rw [hc i (by omega) hh, hc (i + gap) (by omega) h1] at h2
        omega
    have hget : (fmap.set (i + gap - gap) (fmap i)).get = fmap.get := by
      rw [show i + gap - gap = i by omega, Cells.get_set_get]
    rw [insertPass_succ, hstay]
    dsimp only
    rw [ih _ (i - 1) (by omega) (by omega) (by rw [hget]; exact hc), hget]

theorem fallbackSimpleSort_const {fmap : Cells Int} (hle : lo ≤ hi)
    (hc : ∀ x, lo ≤ x → x ≤ hi → eclass (fmap x) = c) :
    (fallbackSimpleSort fmap eclass lo hi).get = fmap.get := by
  have h4 : (if hi - lo > 3 then insertPass 4 eclass hi (hi - 4 - lo + 1).toNat fmap (hi - 4)
      else fmap : Cells Int).get = fmap.get := by
    split
    · exact insertPass_const lo (by decide) _ fmap (hi - 4) (by omega) (by omega) hc
    · rfl
  unfold fallbackSimpleSort
  split
  · rfl
  · rw [insertPass_const lo (by decide) _ _ (hi - 1) (by omega) (by omega) (by rw [h4]; exact hc), h4]

theorem fswap_self (fmap : Cells Int) (a : Int) : (fswap fmap a a).get = fmap.get := by
  funext i
  rw [get_fswap]
  split
  · rename_i h
    rw [h]
  · rfl

/-- The first scan runs to the end, and exchanges every cell with itself. -/
theorem scanLo_const :
    ∀ (k : Nat) (fmap : Cells Int) (u : Int), hi - u + 1 = k →
      (∀ x, u ≤ x → x ≤ hi → eclass (fmap x) = c) →
      ∃ f, scanLo eclass c hi k fmap u u = (f, hi + 1, hi + 1) ∧ f.get = fmap.get := by
  intro k
  induction k with
  | zero =>
    intro fmap u hk _
    refine ⟨fmap, ?_, rfl⟩
    rw [scanLo, show u = hi + 1 by omega]
  | succ k ih =>
    intro fmap u hk hc
    obtain ⟨f, hf, hget⟩ := ih (fswap fmap u u) (u + 1) (by omega) fun x h1 h2 => by
      rw [fswap_self]
      exact hc x (by omega) h2
    refine ⟨f, ?_, hget.trans (fswap_self fmap u)⟩
    unfold scanLo
    rw [if_neg (by omega)]
    dsimp only
    rw [if_pos (by rw [hc u (by omega) (by omega), Int.sub_self])]
    exact hf

/-- **A segment of one class** is left as it is. -/
theorem fallbackQSort3_const {fmap : Cells Int} (hle : lo ≤ hi)
    (hc : ∀ x, lo ≤ x → x ≤ hi → eclass (fmap x) = c) :
    ∃ f, fallbackQSort3 fmap eclass lo hi = .ok f ∧ f.get = fmap.get := by
  by_cases hshort : hi - lo < 10
  · exact ⟨_, fallbackQSort3_short fmap eclass hle hshort, fallbackSimpleSort_const hle hc⟩
  · obtain ⟨f, hf, hget⟩ := scanLo_const (hi - lo + 1).toNat fmap lo (by omega) hc
    have hmed : pickMed fmap eclass ((0 * 7621 + 1) % 32768) lo hi = c := by
      obtain ⟨x, hx0, hx1, e⟩ := pickMed_mem fmap eclass ((0 * 7621 + 1) % 32768) hle
      rw [← e]
      exact hc x hx0 hx1
    have hpart : partStep eclass c ⟨fmap, lo, hi, lo, hi⟩ = .ok (.inr ⟨f, hi + 1, hi, hi + 1, hi⟩) := by
      unfold partStep
      dsimp only
      rw [hf, show (hi - (hi + 1) + 1).toNat = 0 by omega]
      exact if_pos (by dsimp only [scanHi]; omega)
    obtain ⟨m, hm⟩ : ∃ m, (hi - lo + 3).toNat = m + 1 := ⟨(hi - lo + 2).toNat, by omega⟩
    have hiter : iter Halt.diverge (partStep eclass c) (hi - lo + 3).toNat ⟨fmap, lo, hi, lo, hi⟩ =
        .ok ⟨f, hi + 1, hi, hi + 1, hi⟩ := by
      rw [hm, iter, hpart]
    have hfirst : qsortStep eclass ⟨fmap, 0, [(lo, hi)]⟩ =
        .ok (.inl ⟨f, (0 * 7621 + 1) % 32768, []⟩) := by
      unfold qsortStep
      dsimp only
      rw [if_neg hshort, hmed, hiter]
      show Except.ok (Sum.inl (qsortSplit _ _ _ _ _)) = _
      unfold qsortSplit
      rw [if_pos (by dsimp only; omega)]
    obtain ⟨k, hk⟩ : ∃ k, (2 * (hi - lo + 1) + 3).toNat = k + 2 :=
      ⟨(2 * (hi - lo + 1) + 1).toNat, by omega⟩
    refine ⟨f, ?_, hget⟩
    unfold fallbackQSort3
    rw [hk, iter, hfirst]
    rfl

end Const

/-! ## 3. The bucket of rotation 0 -/

/-- The rotations equal to rotation 0. -/
def Tie (s : Int → Nat) (n x : Int) : Prop := pre s n n.toNat x = pre s n n.toNat 0

/-- **No bucket with rotation 0 in it is disturbed**: it has at most four cells from the start, or
    all its rotations are equal. -/
def Undisturbed (s : Int → Nat) (n : Int) : Prop :=
  holding s n.toNat (s 0) ≤ 4 ∨ ∀ x, 0 ≤ x → x < n → s x = s 0 → Tie s n x

section Bucket

variable {s : Int → Nat} {n : Int} {h : Nat} {f0 : Cells Int} {bh0 : Cells Word32} {t : Scan}
  {eclass : Cells Int}

/-- Rows that start with one byte are no more than the cells that hold it. -/
theorem rows_le_holding {f : Int → Int} (hinj : InjOn 0 (n - 1) f)
    (hr : ∀ i, 0 ≤ i → i ≤ n - 1 → 0 ≤ f i ∧ f i ≤ n - 1) {l r : Int} (hl : 0 ≤ l) (hrn : r ≤ n - 1)
    {b : Nat} (hb : ∀ p, l ≤ p → p ≤ r → s (f p) = b) : r - l + 1 ≤ holding s n.toNat b := by
  unfold holding
  rw [Nat.count_eq_card_filter_range]
  have hcard : (Finset.Icc l r).card ≤ (Finset.filter (fun x : Nat => s x = b)
      (Finset.range n.toNat)).card := by
    refine Finset.card_le_card_of_injOn (fun p => (f p).toNat) (fun p hp => ?_) fun p hp q hq e => ?_
    · rw [Finset.coe_Icc, Set.mem_Icc] at hp
      obtain ⟨h0, h1⟩ := hr p (by omega) (by omega)
      rw [Finset.coe_filter, Set.mem_ofPred_eq, Finset.mem_range, Int.toNat_of_nonneg h0]
      refine ⟨?_, hb p hp.1 hp.2⟩
      dsimp only
      omega
    · rw [Finset.coe_Icc, Set.mem_Icc] at hp hq
      obtain ⟨h0, -⟩ := hr p (by omega) (by omega)
      obtain ⟨k0, -⟩ := hr q (by omega) (by omega)
      exact hinj p q (by omega) (by omega) (by omega) (by omega) (by dsimp only at e; omega)
  rw [Int.card_Icc] at hcard
  omega

/-- A segment is permuted, and in it the tie stays last. -/
theorem LastTie.widen {E : Int → Prop} {f g : Int → Int} (hf : LastTie E 0 (n - 1) f) {l r : Int}
    (hl : 0 ≤ l) (hr : r ≤ n - 1) (hp : PermOn l r f g) (hg : LastTie E l r g) :
    LastTie E 0 (n - 1) g := by
  intro i j hi hij hj h0 hE
  by_cases hin : l ≤ i ∧ i ≤ r
  · by_cases hjr : j ≤ r
    · exact hg i j hin.1 hij hjr h0 hE
    · obtain ⟨k, hkl, hkr, e⟩ := hp.src hin.1 hin.2
      rw [e] at h0
      rw [hp.outside (i := j) (by omega)] at hE
      exact hf k j (by omega) (by omega) hj h0 hE
  · rw [hp.outside (i := i) (by omega)] at h0
    by_cases hjn : l ≤ j ∧ j ≤ r
    · obtain ⟨k, hkl, hkr, e⟩ := hp.src hjn.1 hjn.2
      rw [e] at hE
      exact hf i k hi (by omega) (by omega) h0 hE
    · rw [hp.outside (i := j) (by omega)] at hE
      exact hf i j hi hij hj h0 hE

/-- Equal rotations are of one class. -/
theorem Classed.tie (hC : Classed s n h eclass) (hn : 1 ≤ n) {x : Int} (hx0 : 0 ≤ x)
    (hx1 : x ≤ n - 1) (hx : Tie s n x) : eclass x = eclass 0 := by
  have hall := pre_eq_of_period (by omega) hx (h + h)
  rw [pre_add, pre_add] at hall
  exact (hC.eq_iff hx0 hx1 (Int.le_refl 0) (by omega)).mpr
    (List.append_inj_right hall (by rw [length_pre, length_pre]))

/-- **One bucket sorted.** -/
theorem Scanning.last (hn : 1 ≤ n) (h1 : 1 ≤ h) (hB : Bucketed s n h f0 bh0)
    (hC : Classed s n h eclass) (hU : Undisturbed s n) (hS : Scanning s n h f0 bh0 t)
    (hT : LastTie (Tie s n) 0 (n - 1) t.fmap) {l r : Int} (hl : 0 ≤ l) (hlr : l < r)
    (hr : r ≤ n - 1) (hclear : ∀ i, l < i → i ≤ r → issetBH bh0 i = false) {fmap : Cells Int}
    (hq : fallbackQSort3 t.fmap eclass l r = .ok fmap) (hp : PermOn l r t.fmap fmap) :
    LastTie (Tie s n) 0 (n - 1) fmap := by
  refine hT.widen hl hr hp ?_
  have hinj := hS.perm.injOn hB.inj
  have hrange : ∀ p, 0 ≤ p → p ≤ n - 1 → 0 ≤ t.fmap p ∧ t.fmap p ≤ n - 1 :=
    hS.perm.forall (P := fun v => 0 ≤ v ∧ v ≤ n - 1) hB.range
  by_cases htie : ∃ p, l ≤ p ∧ p ≤ r ∧ Tie s n (t.fmap p)
  · obtain ⟨p, hpl, hpr, hE⟩ := htie
    -- the rows of the bucket start as rotation 0 does
    have hconst := hB.key_const hl hr hclear
    have hfirst : ∀ q, l ≤ q → q ≤ r → s (t.fmap q) = s 0 := by
      intro q hql hqr
      have hpre : pre s n h (t.fmap q) = pre s n h 0 := by
        rw [hS.key q (by omega) (by omega), hconst q hql hqr, ← hconst p hpl hpr,
          ← hS.key p (by omega) (by omega), pre_eq_of_period (by omega) hE h]
      have hq' := hrange q (by omega) (by omega)
      have := symbol_eq_of_pre hpre (k := 0) (by omega)
      rwa [Nat.cast_zero, Int.add_zero, Int.add_zero, Int.emod_eq_of_lt hq'.1 (by omega),
        Int.zero_emod] at this
    rcases hU with hfew | hall
    · have hle := rows_le_holding hinj hrange hl hr hfirst
      have hloc : LastTie (fun x => 0 ≤ x ∧ x ≤ n - 1 ∧ Tie s n x) l r t.fmap :=
        fun i j hi hij hj h0 hEj => hT i j (by omega) hij (by omega) h0 hEj.2.2
      rw [fallbackQSort3_short _ _ (by omega) (by omega)] at hq
      cases hq
      have heq : ∀ x, 0 ≤ x ∧ x ≤ n - 1 ∧ Tie s n x → eclass x = eclass 0 :=
        fun x hx => hC.tie hn hx.1 hx.2.1 hx.2.2
      have hlast := fallbackSimpleSort_last heq (by omega) hloc
      intro i j hi hij hj h0 hEj
      have hj' := hp.forall (P := fun v => 0 ≤ v ∧ v ≤ n - 1)
        (fun q hq1 hq2 => hrange q (by omega) (by omega)) j (by omega) hj
      exact hlast i j hi hij hj h0 ⟨hj'.1, hj'.2, hEj⟩
    · have hclass : ∀ q, l ≤ q → q ≤ r → eclass (t.fmap q) = eclass 0 := by
        intro q hql hqr
        have hq' := hrange q (by omega) (by omega)
        exact hC.tie hn hq'.1 hq'.2 (hall _ hq'.1 (by omega) (hfirst q hql hqr))
      obtain ⟨f, hf, hget⟩ := fallbackQSort3_const (show l ≤ r by omega) hclass
      rw [hf] at hq
      cases hq
      rw [hget]
      exact fun i j hi hij hj h0 hEj => hT i j (by omega) hij (by omega) h0 hEj
  · intro i j hi hij hj _ hEj
    exact hp.forall (P := fun v => ¬ Tie s n v)
      (fun q hql hqr hE => htie ⟨q, hql, hqr, hE⟩) j (by omega) hj hEj

end Bucket

/-! ## 4. The whole sort -/

section Whole

variable {s : Int → Nat} {n : Int}

/-- **One depth.** -/
theorem depthStep_last (hn : 1 ≤ n) (hbig : n < 2 ^ 97) (hU : Undisturbed s n) {d : Depth}
    (hD : Doubling s n d) (hT : LastTie (Tie s n) 0 (n - 1) d.fmap) {x : Depth ⊕ Depth}
    (hx : depthStep n d = .ok x) :
    LastTie (Tie s n) 0 (n - 1) (x.elim Depth.fmap Depth.fmap).get := by
  obtain ⟨h, hd, h1, hle, hB⟩ := hD
  have hC := classed_classes hB h1 hle d.eclass
  unfold depthStep at hx
  rw [hd] at hx
  simp only [bind, Except.bind] at hx
  generalize hscan : iter Halt.diverge (scanStep (classes d.fmap d.bhtab n h d.eclass) n)
    (n + 2).toNat ⟨d.fmap, d.bhtab, -1, 0⟩ = res at hx
  cases res with
  | error e => cases hx
  | ok t =>
    have hlast : LastTie (Tie s n) 0 (n - 1) t.fmap := by
      refine iter_inv
        (fun t : Scan => Scanning s n h d.fmap d.bhtab t ∧ LastTie (Tie s n) 0 (n - 1) t.fmap)
        (fun t : Scan => LastTie (Tie s n) 0 (n - 1) t.fmap) ?_ ?_ _ _ _
        ⟨Scanning.begin hn hB, hT⟩ hscan
      · rintro t t' ⟨hS, hl⟩ he
        rcases scanStep_cases hB hbig (classes d.fmap d.bhtab n h d.eclass) hS with
          ⟨l, r, fmap, hl0, hlr, hr, hrun, hclear, hnext, hq, hp, ho, he'⟩ | ⟨he', -⟩
        · rw [he'] at he
          cases he
          have := hS.r_ge
          exact ⟨hS.sorted hB hC hl0 hlr hr hrun hclear hnext hp ho,
            hS.last hn h1 hB hC hU hl (by omega) hlr hr hclear hq hp⟩
        · rw [he'] at he
          cases he
      · rintro t t' ⟨hS, hl⟩ he
        rcases scanStep_cases hB hbig (classes d.fmap d.bhtab n h d.eclass) hS with
          ⟨l, r, fmap, hl0, hlr, hr, hrun, hclear, hnext, hq, hp, ho, he'⟩ | ⟨he', -⟩
        · rw [he'] at he
          cases he
        · rw [he'] at he
          cases he
          exact hl
    dsimp only at hx
    split at hx
    · cases hx
      exact hlast
    · cases hx
      exact hlast

/-- **After the first distribution** rotation 0 is the last of its bucket. -/
theorem depthStart_last (hn : 1 ≤ n) (fmap : Cells Int) (block : Cells Byte) (bhtab : Cells Word32) :
    LastTie (Tie (sym block) n) 0 (n - 1) (depthStart fmap block bhtab n).fmap := by
  have hplaced := radixPass_sorted n fmap block
  obtain ⟨hinj, hbucket⟩ := radixPass_bucket (sym_lt block) hplaced
  intro i j hi hij hj h0 hE
  change (radixPass block n fmap (radixSums (radixCounts block n))).1 i = 0 at h0
  change Tie (sym block) n ((radixPass block n fmap (radixSums (radixCounts block n))).1 j) at hE
  generalize radixPass block n fmap (radixSums (radixCounts block n)) = t at hplaced hinj hbucket h0 hE
  obtain ⟨hj', -, hjb⟩ := hbucket j (by omega) hj
  have hfirst : sym block (t.1 j) = sym block 0 := by
    have := symbol_eq_of_pre hE (k := 0) (by omega)
    rwa [Nat.cast_zero, Int.add_zero, Int.add_zero, Int.emod_eq_of_lt hj'.1 (by omega),
      Int.zero_emod] at this
  have hle := below_le (s := sym block) n.toNat (sym block 0 + 1)
  rw [hfirst] at hjb
  have hrow := hinj i ((below (sym block) n.toNat (sym block 0 + 1) : Int) - 1) hi (by omega)
    (by omega) (by omega) (by rw [h0, hplaced.zero (by omega)])
  omega

/-- **Rotation 0 stays the last of its equals**, if no bucket with it is disturbed. -/
theorem fallbackSort_last (hn : 1 ≤ n) (hbig : n < 2 ^ 97) {fmap f : Cells Int} {block e : Cells Byte}
    {bhtab b : Cells Word32} (hU : Undisturbed (sym block) n)
    (hf : fallbackSort fmap block bhtab n = .ok (f, e, b)) :
    LastTie (Tie (sym block) n) 0 (n - 1) f := by
  have hdepth : ∃ d, iter Halt.diverge (depthStep n) (n + 2).toNat (depthStart fmap block bhtab n) =
      .ok d ∧ d.fmap = f := by
    unfold fallbackSort at hf
    change (iter Halt.diverge (depthStep n) (n + 2).toNat (depthStart fmap block bhtab n)).bind _ =
      _ at hf
    generalize iter Halt.diverge (depthStep n) (n + 2).toNat (depthStart fmap block bhtab n) = res at hf
    cases res with
    | error e => cases hf
    | ok d =>
      refine ⟨d, rfl, ?_⟩
      simp only [Except.bind, bind] at hf
      split at hf
      · cases hf
      · split at hf
        · cases hf
        · cases hf
          rfl
  obtain ⟨d, hd, rfl⟩ := hdepth
  refine iter_inv
    (fun d : Depth => Doubling (sym block) n d ∧ LastTie (Tie (sym block) n) 0 (n - 1) d.fmap)
    (fun d : Depth => LastTie (Tie (sym block) n) 0 (n - 1) d.fmap) ?_ ?_ _ _ _
    ⟨⟨1, rfl, Nat.le_refl _, by omega, depthStart_bucketed hn fmap block bhtab⟩,
      depthStart_last hn fmap block bhtab⟩ hd
  · rintro d d' ⟨hD, hT⟩ he
    exact ⟨hD.step hn hbig he, depthStep_last hn hbig hU hD hT he⟩
  · rintro d d' ⟨hD, hT⟩ he
    exact depthStep_last hn hbig hU hD hT he

end Whole

end Qbz2
