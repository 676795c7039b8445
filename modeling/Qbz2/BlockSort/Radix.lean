/-
  File:      Qbz2/BlockSort/Radix.lean
  Subject:   The first distribution of `fallbackSort`: the rotations in order of their first byte.

  * `radixCounts_get`, `radixSums_get` -- the tables the source computes are the counts of the
    bytes, single and cumulated;
  * `Placed`, `radixPass_placed`, `radixPass_bucket` -- every rotation is placed once, in the
    bucket of its first byte;
  * `Bucketed` -- what holds of `fmap` and the header bits before each depth; **`bucketed_one`**
    establishes it for depth 1.
-/
import Mathlib.Tactic.Choose
import Qbz2.BlockSort.HeaderBits
import Qbz2.Lib.Counting
import Qbz2.Lib.Rotation

namespace Qbz2

open Loop Segment Rotation Counting

/-- The byte at a cell, as a number. -/
def sym (block : Cells Byte) (i : Int) : Nat := (block i).toNat

theorem sym_lt (block : Cells Byte) (i : Int) : sym block i < 256 := (block i).isLt

variable {s : Int → Nat}

/-! ## 1. The tables -/

theorem radixCounts_get (eclass8 : Cells Byte) (nblock : Int) (b : Nat) :
    (radixCounts eclass8 nblock) b = holding (sym eclass8) nblock.toNat b := by
  unfold radixCounts
  refine forUpto_inv (fun i (ftab : Cells Int) =>
    ∀ b : Nat, ftab b = holding (sym eclass8) i b) ?_ nblock.toNat ?_ b
  · intro b
    simp [holding]
  · intro i ftab _ h b
    rw [Cells.get_set, holding_succ]
    by_cases e : sym eclass8 i = b
    · have e' : (b : Int) = ((eclass8 i).toNat : Nat) := by rw [← e]; rfl
      rw [if_pos e', if_pos e, ← e', h]
      omega
    · have e' : ¬ (b : Int) = ((eclass8 i).toNat : Nat) := fun h => e (by unfold sym; omega)
      rw [if_neg e', if_neg e, h]
      omega

theorem radixSums_get {ftab : Cells Int} {m : Nat} (h : ∀ b : Nat, ftab b = holding s m b)
    {b : Nat} (hb : b ≤ 256) : (radixSums ftab) b = below s m (b + 1) := by
  unfold radixSums
  have hinv := forUpto_inv (f := fun (i : Nat) (ftab : Cells Int) =>
      ftab.set ((i : Int) + 1) (ftab ((i : Int) + 1) + ftab i)) (s := ftab)
    (fun i (t : Cells Int) => (∀ c : Nat, c ≤ i → t c = below s m (c + 1)) ∧
      ∀ c : Nat, i < c → t c = holding s m c) ?_ 256 ?_
  · exact hinv.1 b hb
  · refine ⟨fun c hc => ?_, fun c _ => h c⟩
    have e : c = 0 := by omega
    subst e
    rw [h, below_succ, below_zero]
    omega
  · rintro i t _ ⟨h1, h2⟩
    have e : ((i : Int) + 1) = ((i + 1 : Nat) : Int) := by omega
    rw [e]
    refine ⟨fun c hc => ?_, fun c hc => ?_⟩
    · rw [Cells.get_set]
      by_cases hci : c = i + 1
      · subst hci
        rw [if_pos rfl, h1 i (Nat.le_refl _), h2 (i + 1) (by omega), below_succ _ (i + 1)]
        omega
      · rw [if_neg (by omega)]
        exact h1 c (by omega)
    · rw [Cells.get_set, if_neg (by omega)]
      exact h2 c (by omega)

/-! ## 2. The distribution -/

/-- After `i` rotations: the pointer of each bucket, a row for each rotation placed, and rotation 0
    in the last row of its bucket. -/
structure Placed (s : Int → Nat) (m i : Nat) (t : Cells Int × Cells Int) : Prop where
  tab : ∀ b : Nat, b < 256 → t.2 b = (below s m (b + 1) : Int) - holding s i b
  row : ∀ x : Nat, x < i → ∃ p, t.2 (s x) ≤ p ∧ p < below s m (s x + 1) ∧ t.1 p = x
  zero : 0 < i → t.1 ((below s m (s 0 + 1) : Int) - 1) = 0

theorem radixPass_placed {eclass8 : Cells Byte} {nblock : Int} {fmap ftab : Cells Int}
    (h : ∀ b : Nat, b ≤ 256 → ftab b = below (sym eclass8) nblock.toNat (b + 1)) :
    Placed (sym eclass8) nblock.toNat nblock.toNat (radixPass eclass8 nblock fmap ftab) := by
  unfold radixPass
  refine forUpto_inv (fun i t => Placed (sym eclass8) nblock.toNat i t) ?_ nblock.toNat ?_
  · refine ⟨fun b hb => ?_, fun x hx => absurd hx (Nat.not_lt_zero x), fun h0 => by omega⟩
    rw [h b (by omega)]
    simp [holding]
  · rintro i ⟨f, t⟩ hi ⟨htab, hrow, hzero⟩
    dsimp only at htab hrow hzero ⊢
    have hj : ((eclass8 i).toNat : Int) = (sym eclass8 i : Nat) := rfl
    have hj256 := sym_lt eclass8 i
    rw [hj]
    have htj := htab _ hj256
    have hroom := holding_lt (s := sym eclass8) hi
    have hsucc := below_succ (s := sym eclass8) nblock.toNat (sym eclass8 i)
    refine ⟨fun b hb => ?_, fun x hx => ?_, fun _ => ?_⟩
    · rw [Cells.get_set, holding_succ]
      by_cases e : b = sym eclass8 i
      · subst e
        rw [if_pos rfl, if_pos rfl, htj]
        omega
      · rw [if_neg (by omega), if_neg (Ne.symm e), htab b hb]
        omega
    · by_cases hxi : x = i
      · subst hxi
        refine ⟨t (sym eclass8 x : Nat) - 1, ?_, by omega, ?_⟩
        · rw [Cells.get_set_self]
        · rw [Cells.get_set_self]
      · obtain ⟨p, hp1, hp2, hp3⟩ := hrow x (by omega)
        have htx := htab _ (sym_lt eclass8 x)
        have hx1 := holding_mono (s := sym eclass8) (show i ≤ nblock.toNat by omega)
          (sym eclass8 x)
        have hx2 := below_succ (s := sym eclass8) nblock.toNat (sym eclass8 x)
        -- the cell written lies in another bucket, or below every cell placed in this one
        have hne : p ≠ t (sym eclass8 i : Nat) - 1 := by
          rcases Nat.lt_trichotomy (sym eclass8 x) (sym eclass8 i) with hlt | heq | hgt
          · have := below_mono (s := sym eclass8) nblock.toNat
              (show sym eclass8 x + 1 ≤ sym eclass8 i by omega)
            omega
          · rw [heq] at hp1
            omega
          · have := below_mono (s := sym eclass8) nblock.toNat
              (show sym eclass8 i + 1 ≤ sym eclass8 x by omega)
            omega
        refine ⟨p, ?_, hp2, by rw [Cells.get_set_of_ne _ hne]; exact hp3⟩
        rw [Cells.get_set]
        split
        · rename_i heq
          rw [heq] at hp1
          omega
        · exact hp1
    · cases i with
      | zero =>
        have hfirst : holding (sym eclass8) 0 (sym eclass8 (0 : Nat)) = 0 := rfl
        rw [hfirst] at htj
        rw [htj, Nat.cast_zero, Int.sub_zero, Cells.get_set_self]
      | succ i =>
        have hone : holding (sym eclass8) 1 (sym eclass8 0) = 1 := by
          rw [holding_succ, Nat.cast_zero, if_pos rfl]
          rfl
        have hmono := holding_mono (s := sym eclass8) (show 1 ≤ i + 1 by omega) (sym eclass8 0)
        have hsucc0 := below_succ (s := sym eclass8) nblock.toNat (sym eclass8 0)
        rw [Cells.get_set_of_ne _ ?_]
        · exact hzero (Nat.succ_pos i)
        · rcases Nat.lt_trichotomy (sym eclass8 0) (sym eclass8 (i + 1 : Nat)) with hlt | heq | hgt
          · have := below_mono (s := sym eclass8) nblock.toNat
              (show sym eclass8 0 + 1 ≤ sym eclass8 (i + 1 : Nat) by omega)
            omega
          · rw [← heq] at htj ⊢
            omega
          · have := below_mono (s := sym eclass8) nblock.toNat
              (show sym eclass8 (i + 1 : Nat) + 1 ≤ sym eclass8 0 by omega)
            have := holding_mono (s := sym eclass8) (show i + 1 ≤ nblock.toNat by omega)
              (sym eclass8 0)
            omega

/-- **After the distribution** every row holds a rotation of the bucket it lies in, each once. -/
theorem radixPass_bucket {nblock : Int} {t : Cells Int × Cells Int} (hs : ∀ i, s i < 256)
    (h : Placed s nblock.toNat nblock.toNat t) :
    InjOn 0 (nblock - 1) t.1 ∧
    ∀ p, 0 ≤ p → p ≤ nblock - 1 → (0 ≤ t.1 p ∧ t.1 p ≤ nblock - 1) ∧
      (below s nblock.toNat (s (t.1 p)) : Int) ≤ p ∧
      p < below s nblock.toNat (s (t.1 p) + 1) := by
  have hrow : ∀ x : Int, 0 ≤ x → x ≤ nblock - 1 → ∃ p : Int,
      (below s nblock.toNat (s x) : Int) ≤ p ∧ p < below s nblock.toNat (s x + 1) ∧
        t.1 p = x := by
    intro x h1 h2
    obtain ⟨p, hp1, hp2, hp3⟩ := h.row x.toNat (by omega)
    rw [Int.toNat_of_nonneg h1] at hp1 hp2 hp3
    have := h.tab (s x) (hs x)
    have := below_succ (s := s) nblock.toNat (s x)
    exact ⟨p, by omega, hp2, hp3⟩
  choose! g hg1 hg2 hg3 using hrow
  have hrange : ∀ x, 0 ≤ x → x ≤ nblock - 1 → 0 ≤ g x ∧ g x ≤ nblock - 1 := by
    intro x h1 h2
    have := hg1 x h1 h2
    have := hg2 x h1 h2
    have := below_le (s := s) nblock.toNat (s x + 1)
    omega
  have hinj : InjOn 0 (nblock - 1) g := by
    intro x y hx1 hx2 hy1 hy2 e
    rw [← hg3 x hx1 hx2, ← hg3 y hy1 hy2, e]
  refine ⟨?_, fun p h1 h2 => ?_⟩
  · intro p q hp1 hp2 hq1 hq2 e
    obtain ⟨x, hx1, hx2, rfl⟩ := hits_of_injOn hinj hrange hp1 hp2
    obtain ⟨y, hy1, hy2, rfl⟩ := hits_of_injOn hinj hrange hq1 hq2
    rw [hg3 x hx1 hx2, hg3 y hy1 hy2] at e
    rw [e]
  · obtain ⟨x, hx1, hx2, rfl⟩ := hits_of_injOn hinj hrange h1 h2
    rw [hg3 x hx1 hx2]
    exact ⟨⟨hx1, hx2⟩, hg1 x hx1 hx2, hg2 x hx1 hx2⟩

/-! ## 3. Before the first depth -/

/-- **The state before a depth.** `fmap` lists the rotations in order of their first `h` bytes; a
    header bit is set where a new bucket starts, and past the block bit `nblock` is set and the
    next one clear. -/
structure Bucketed (s : Int → Nat) (n : Int) (h : Nat) (fmap : Cells Int) (bh : Cells Word32) :
    Prop where
  inj : InjOn 0 (n - 1) fmap
  range : ∀ i, 0 ≤ i → i ≤ n - 1 → 0 ≤ fmap i ∧ fmap i ≤ n - 1
  ord : OrdOn (pre s n h) 0 (n - 1) fmap
  first : issetBH bh 0 = true
  head : ∀ i, 0 < i → i ≤ n - 1 →
    (issetBH bh i = true ↔ pre s n h (fmap (i - 1)) ≠ pre s n h (fmap i))
  stop : issetBH bh n = true
  past : issetBH bh (n + 1) = false

/-- The first byte of a rotation of the block. -/
theorem pre_one {n x : Int} (h0 : 0 ≤ x) (h1 : x ≤ n - 1) : pre s n 1 x = [s x] := by
  rw [pre, pre, Int.emod_eq_of_lt h0 (by omega)]

/-- Rotations in order are in order of their first byte. -/
theorem sym_le_of_pre_le {n : Int} {h : Nat} (h1 : 1 ≤ h) {x y : Int} (hx0 : 0 ≤ x)
    (hx1 : x ≤ n - 1) (hy0 : 0 ≤ y) (hy1 : y ≤ n - 1) (hle : pre s n h x ≤ pre s n h y) :
    s x ≤ s y := by
  have hle1 := pre_le_mono h1 hle
  rw [pre_one hx0 hx1, pre_one hy0 hy1] at hle1
  by_contra hlt
  exact absurd (List.Lex.rel (Nat.lt_of_not_le hlt)) (not_lt_of_ge hle1)

/-- **The first distribution** leaves the rotations bucketed by their first byte. -/
theorem bucketed_one {nblock : Int} (hn : 1 ≤ nblock) (hs : ∀ i, s i < 256)
    {t : Cells Int × Cells Int} (h : Placed s nblock.toNat nblock.toNat t) (bhtab : Cells Word32) :
    Bucketed s nblock 1 t.1 (initBH t.2 nblock bhtab) := by
  obtain ⟨hinj, hb⟩ := radixPass_bucket hs h
  have htab : ∀ b : Nat, b < 256 → t.2 b = (below s nblock.toNat b : Int) := by
    intro b hb
    rw [h.tab b hb, below_succ]
    omega
  have hord : ∀ i j, 0 ≤ i → i ≤ j → j ≤ nblock - 1 → s (t.1 i) ≤ s (t.1 j) := by
    intro i j hi hij hj
    obtain ⟨_, h1, _⟩ := hb i hi (by omega)
    obtain ⟨_, _, h2⟩ := hb j (by omega) hj
    by_contra hlt
    have := below_mono (s := s) nblock.toNat (show s (t.1 j) + 1 ≤ s (t.1 i) by omega)
    omega
  obtain ⟨hstop, hpast⟩ := initBH_sentinel t.2 nblock bhtab
  refine ⟨hinj, fun i h1 h2 => (hb i h1 h2).1, ?_, ?_, ?_, hstop, hpast⟩
  · intro i j hi hij hj
    obtain ⟨hri, _⟩ := hb i hi (by omega)
    obtain ⟨hrj, _⟩ := hb j (by omega) hj
    rw [pre_one hri.1 hri.2, pre_one hrj.1 hrj.2]
    rcases Nat.lt_or_eq_of_le (hord i j hi hij hj) with hlt | heq
    · exact le_of_lt (List.Lex.rel hlt)
    · exact le_of_eq (by rw [heq])
  · rw [issetBH_initBH _ _ (Int.le_refl 0) (by omega)]
    exact ⟨0, by decide, by rw [htab 0 (by decide), below_zero]; rfl⟩
  · intro i hi hin
    rw [issetBH_initBH _ _ (by omega) (by omega)]
    obtain ⟨hr0, h1, h2⟩ := hb (i - 1) (by omega) (by omega)
    obtain ⟨hr1, h3, h4⟩ := hb i (by omega) hin
    have hle := hord (i - 1) i (by omega) (by omega) hin
    rw [pre_one hr0.1 hr0.2, pre_one hr1.1 hr1.2, ne_eq, List.cons.injEq, not_and]
    constructor
    · rintro ⟨b, hb256, e⟩ heq
      rw [htab b hb256] at e
      rw [heq] at h1 h2
      -- a bucket start lies between two cells of different buckets
      rcases Nat.lt_or_ge (s (t.1 i)) b with hlt | hge
      · have := below_mono (s := s) nblock.toNat (show s (t.1 i) + 1 ≤ b by omega)
        omega
      · have := below_mono (s := s) nblock.toNat hge
        omega
    · intro hne
      have hlt : s (t.1 (i - 1)) < s (t.1 i) := by
        rcases Nat.lt_or_eq_of_le hle with hlt | heq
        · exact hlt
        · exact absurd rfl (hne heq)
      have := below_mono (s := s) nblock.toNat (show s (t.1 (i - 1)) + 1 ≤ s (t.1 i) by omega)
      exact ⟨s (t.1 i), hs _, by rw [htab _ (hs _)]; omega⟩

end Qbz2
