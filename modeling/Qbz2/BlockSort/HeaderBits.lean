/-
  File:      Qbz2/BlockSort/HeaderBits.lean
  Subject:   The bucket header bits of `fallbackSort`.

  * `issetBH_setBH`, `issetBH_clearBH` -- a header bit after `SET_BH` and `CLEAR_BH`;
  * `skipRun_spec`, `skipSet_spec`, `skipClear_spec` -- the word-at-a-time scans stop at the first
    bit of the other kind;
  * `issetBH_markChanges` -- the bits set at the class changes of a bucket;
  * `issetBH_initBH`, `initBH_sentinel` -- the bits before the first depth.
-/
import Qbz2.BlockSort.Model

namespace Qbz2

open Loop

/-! ## 1. One bit -/

theorem issetBH_eq (bhtab : Cells Word32) (zz : Int) :
    issetBH bhtab zz = (bhtab (zz / 32)).getLsbD (zz % 32).toNat := by
  have hlt : (zz % 32).toNat < 32 := by omega
  unfold issetBH
  rw [Bool.eq_iff_iff, bne_iff_ne, ne_eq]
  constructor
  · intro h
    by_contra hc
    refine h (BitVec.eq_of_getLsbD_eq fun i hi => ?_)
    rw [BitVec.getLsbD_and, BitVec.getLsbD_shiftLeft, BitVec.getLsbD_one, BitVec.getLsbD_zero]
    by_cases e : i = (zz % 32).toNat
    · subst e
      simp [hc]
    · have : ¬ i - (zz % 32).toNat = 0 ∨ i < (zz % 32).toNat := by omega
      rcases this with h1 | h1 <;> simp [h1]
  · intro h hz
    have hbit : (bhtab (zz / 32) &&& 1#32 <<< (zz % 32).toNat).getLsbD (zz % 32).toNat = false := by
      rw [hz, BitVec.getLsbD_zero]
    rw [BitVec.getLsbD_and, BitVec.getLsbD_shiftLeft, BitVec.getLsbD_one, h] at hbit
    simp [hlt] at hbit

/-- Two positions in one word at one offset are one position. -/
theorem bit_index_inj {i zz : Int} (h1 : i / 32 = zz / 32) (h2 : (i % 32).toNat = (zz % 32).toNat) :
    i = zz := by
  omega

theorem issetBH_setBH (bhtab : Cells Word32) (zz i : Int) :
    issetBH (setBH bhtab zz) i = (decide (i = zz) || issetBH bhtab i) := by
  have hi : (i % 32).toNat < 32 := by omega
  rw [issetBH_eq, issetBH_eq]
  unfold setBH
  rw [Cells.get_set]
  by_cases hw : i / 32 = zz / 32
  · rw [if_pos hw, BitVec.getLsbD_or, BitVec.getLsbD_shiftLeft, BitVec.getLsbD_one, ← hw]
    by_cases e : i = zz
    · subst e
      simp [hi]
    · have hne : (i % 32).toNat ≠ (zz % 32).toNat := fun h => e (bit_index_inj hw h)
      have : ¬ (i % 32).toNat - (zz % 32).toNat = 0 ∨ (i % 32).toNat < (zz % 32).toNat := by omega
      rcases this with h1 | h1 <;> simp [h1, e]
  · have e : i ≠ zz := fun h => hw (by rw [h])
    rw [if_neg hw]
    simp [e]

theorem issetBH_clearBH (bhtab : Cells Word32) (zz i : Int) :
    issetBH (clearBH bhtab zz) i = (!decide (i = zz) && issetBH bhtab i) := by
  have hi : (i % 32).toNat < 32 := by omega
  rw [issetBH_eq, issetBH_eq]
  unfold clearBH
  rw [Cells.get_set]
  by_cases hw : i / 32 = zz / 32
  · rw [if_pos hw, BitVec.getLsbD_and, BitVec.getLsbD_not, BitVec.getLsbD_shiftLeft,
      BitVec.getLsbD_one, ← hw]
    by_cases e : i = zz
    · subst e
      simp [hi]
    · have hne : (i % 32).toNat ≠ (zz % 32).toNat := fun h => e (bit_index_inj hw h)
      have : ¬ (i % 32).toNat - (zz % 32).toNat = 0 ∨ (i % 32).toNat < (zz % 32).toNat := by omega
      rcases this with h1 | h1 <;> simp [h1, e, hi]
  · have e : i ≠ zz := fun h => hw (by rw [h])
    rw [if_neg hw]
    simp [e]

/-- A word is full exactly when its 32 bits are set. -/
theorem wordBH_full (bhtab : Cells Word32) {k : Int} (hk : k % 32 = 0) :
    (wordBH bhtab k == 0xffffffff#32) = true ↔
      ∀ j, k ≤ j → j < k + 32 → issetBH bhtab j = true := by
  unfold wordBH
  rw [beq_iff_eq]
  constructor
  · intro h j hj1 hj2
    have e : j / 32 = k / 32 := by omega
    have hlt : (j % 32).toNat < 32 := by omega
    rw [issetBH_eq, e, h]
    have : (0xffffffff#32 : Word32) = BitVec.allOnes 32 := by decide
    rw [this, BitVec.getLsbD_allOnes]
    simp [hlt]
  · intro h
    refine BitVec.eq_of_getLsbD_eq fun i hi => ?_
    have h1 := h (k + i) (by omega) (by omega)
    rw [issetBH_eq] at h1
    have e1 : (k + i) / 32 = k / 32 := by omega
    have e2 : ((k + i) % 32).toNat = i := by omega
    rw [e1, e2] at h1
    have : (0xffffffff#32 : Word32) = BitVec.allOnes 32 := by decide
    rw [this, BitVec.getLsbD_allOnes, h1]
    simp [hi]

/-- A word is empty exactly when its 32 bits are clear. -/
theorem wordBH_empty (bhtab : Cells Word32) {k : Int} (hk : k % 32 = 0) :
    (wordBH bhtab k == 0x00000000#32) = true ↔
      ∀ j, k ≤ j → j < k + 32 → (!issetBH bhtab j) = true := by
  unfold wordBH
  rw [beq_iff_eq]
  constructor
  · intro h j hj1 hj2
    have e : j / 32 = k / 32 := by omega
    rw [issetBH_eq, e, h]
    simp
  · intro h
    refine BitVec.eq_of_getLsbD_eq fun i hi => ?_
    have h1 := h (k + i) (by omega) (by omega)
    rw [issetBH_eq] at h1
    have e1 : (k + i) / 32 = k / 32 := by omega
    have e2 : ((k + i) % 32).toNat = i := by omega
    rw [e1, e2] at h1
    simpa using h1

/-! ## 2. The scans -/

theorem advance_spec (cond : Int → Bool) (d : Int) :
    ∀ (m fuel : Nat) (k : Int), (∀ j : Nat, j < m → cond (k + d * j) = true) →
      cond (k + d * m) = false → m < fuel → advance cond d fuel k = .ok (k + d * m) := by
  intro m
  induction m with
  | zero =>
    intro fuel k _ hstop hf
    obtain ⟨fuel, rfl⟩ := Nat.exists_eq_add_of_lt hf
    have e : k + d * ((0 : Nat) : Int) = k := by simp
    rw [e] at hstop ⊢
    unfold advance
    rw [Nat.zero_add, iter]
    simp [hstop]
  | succ m ih =>
    intro fuel k hrun hstop hf
    cases fuel with
    | zero => omega
    | succ fuel =>
      have e : ∀ j : Nat, k + d + d * (j : Int) = k + d * ((j + 1 : Nat) : Int) := by
        intro j
        have e' : ((j + 1 : Nat) : Int) = j + 1 := by omega
        rw [e', Int.mul_add, Int.mul_one]
        omega
      have h0 : cond k = true := by simpa using hrun 0 (by omega)
      have := ih fuel (k + d) (fun j hj => by rw [e]; exact hrun (j + 1) (by omega))
        (by rw [e]; exact hstop) (by omega)
      unfold advance at this ⊢
      rw [iter]
      simp only [h0, if_true]
      rw [this, e]

/-- **A scan stops at the first position that is not to be skipped.** -/
theorem skipRun_spec {p full : Int → Bool}
    (hfull : ∀ k, k % 32 = 0 → (full k = true ↔ ∀ j, k ≤ j → j < k + 32 → p j = true))
    {fuel : Nat} {k e : Int} (hke : k ≤ e) (hrun : ∀ j, k ≤ j → j < e → p j = true)
    (hstop : p e = false) (hf : e - k < fuel) : skipRun p full fuel k = .ok e := by
  unfold skipRun
  by_cases he : e ≤ k + (-k) % 32
  · -- the stop comes before the next word boundary
    have h1 := advance_spec (fun k => p k && unalignedBH k) 1 (e - k).toNat fuel k
      (fun j hj => by
        rw [hrun _ (by omega) (by omega), Bool.true_and]
        unfold unalignedBH
        rw [bne_iff_ne]
        omega)
      (by
        have e1 : k + 1 * (((e - k).toNat : Nat) : Int) = e := by omega
        rw [e1, hstop, Bool.false_and]) (by omega)
    have e1 : k + 1 * (((e - k).toNat : Nat) : Int) = e := by omega
    rw [e1] at h1
    simp only [bind, Except.bind, h1, hstop, Bool.false_eq_true, if_false]
  · obtain ⟨a, ha⟩ : ∃ a, a = k + (-k) % 32 := ⟨_, rfl⟩
    have h1 := advance_spec (fun k => p k && unalignedBH k) 1 (a - k).toNat fuel k
      (fun j hj => by
        rw [hrun _ (by omega) (by omega), Bool.true_and]
        unfold unalignedBH
        rw [bne_iff_ne]
        omega)
      (by
        have e1 : k + 1 * (((a - k).toNat : Nat) : Int) = a := by omega
        have e2 : a % 32 = 0 := by omega
        rw [e1]
        simp [unalignedBH, e2]) (by omega)
    have e1 : k + 1 * (((a - k).toNat : Nat) : Int) = a := by omega
    rw [e1] at h1
    obtain ⟨m, hm⟩ : ∃ m : Nat, m = ((e - a) / 32).toNat := ⟨_, rfl⟩
    have h2 := advance_spec full 32 m fuel a
      (fun j hj => (hfull _ (by omega)).mpr fun i hi1 hi2 => hrun i (by omega) (by omega))
      (by
        rw [← Bool.not_eq_true, hfull _ (by omega)]
        intro hall
        have := hall e (by omega) (by omega)
        rw [hstop] at this
        cases this) (by omega)
    have h3 := advance_spec p 1 (e - (a + 32 * m)).toNat fuel (a + 32 * m)
      (fun j hj => hrun _ (by omega) (by omega))
      (by
        have e3 : a + 32 * (m : Int) + 1 * (((e - (a + 32 * m)).toNat : Nat) : Int) = e := by omega
        rw [e3, hstop]) (by omega)
    have e3 : a + 32 * (m : Int) + 1 * (((e - (a + 32 * m)).toNat : Nat) : Int) = e := by omega
    rw [e3] at h3
    have hpa : p a = true := hrun a (by omega) (by omega)
    simp only [bind, Except.bind, h1, hpa, if_true, h2, h3]

/-- A position that stops a scan has a first one before it. -/
theorem exists_first_stop (p : Int → Bool) :
    ∀ (d : Nat) (k : Int), p (k + d) = false →
      ∃ e, k ≤ e ∧ e ≤ k + d ∧ (∀ j, k ≤ j → j < e → p j = true) ∧ p e = false := by
  intro d
  induction d with
  | zero =>
    intro k h
    exact ⟨k + ((0 : Nat) : Int), by omega, Int.le_refl _, fun j h1 h2 => by omega, h⟩
  | succ d ih =>
    intro k h
    cases hk : p k with
    | false => exact ⟨k, Int.le_refl _, by omega, fun j h1 h2 => by omega, hk⟩
    | true =>
      have e : k + ((d + 1 : Nat) : Int) = k + 1 + d := by omega
      rw [e] at h
      obtain ⟨e, h1, h2, h3, h4⟩ := ih (k + 1) h
      refine ⟨e, by omega, by omega, fun j hj1 hj2 => ?_, h4⟩
      by_cases hjk : j = k
      · rw [hjk, hk]
      · exact h3 j (by omega) hj2

theorem skipSet_spec {bhtab : Cells Word32} {fuel : Nat} {k e : Int} (hke : k ≤ e)
    (hrun : ∀ j, k ≤ j → j < e → issetBH bhtab j = true) (hstop : issetBH bhtab e = false)
    (hf : e - k < fuel) : skipSet bhtab fuel k = .ok e :=
  skipRun_spec (fun _ hk => wordBH_full bhtab hk) hke hrun hstop hf

theorem skipClear_spec {bhtab : Cells Word32} {fuel : Nat} {k e : Int} (hke : k ≤ e)
    (hrun : ∀ j, k ≤ j → j < e → issetBH bhtab j = false) (hstop : issetBH bhtab e = true)
    (hf : e - k < fuel) : skipClear bhtab fuel k = .ok e :=
  skipRun_spec (fun _ hk => wordBH_empty bhtab hk) hke (fun j h1 h2 => by simp [hrun j h1 h2])
    (by simp [hstop]) hf

/-! ## 3. Marking a sorted bucket -/

/-- **The bits after a bucket was marked**: the old ones, and those where the class changes. -/
theorem issetBH_markChanges (fmap eclass : Cells Int) :
    ∀ (n : Nat) (i cc : Int) (bhtab : Cells Word32) (p : Int),
      issetBH (markChanges fmap eclass n i cc bhtab) p = true ↔
        issetBH bhtab p = true ∨ i ≤ p ∧ p < i + n ∧
          (if p = i then cc else eclass (fmap (p - 1))) ≠ eclass (fmap p) := by
  intro n
  induction n with
  | zero =>
    intro i cc bhtab p
    unfold markChanges
    constructor
    · exact .inl
    · rintro (h | ⟨h1, h2, _⟩)
      · exact h
      · omega
  | succ n ih =>
    intro i cc bhtab p
    unfold markChanges
    -- the class of cell `i` is the one the next round compares with, changed or not
    have hrest : (p = i ∧ False ∨ i + 1 ≤ p ∧ p < i + 1 + n ∧
        (if p = i + 1 then eclass (fmap i) else eclass (fmap (p - 1))) ≠ eclass (fmap p)) ↔
        (p ≠ i ∧ i ≤ p ∧ p < i + ((n + 1 : Nat) : Int) ∧
          eclass (fmap (p - 1)) ≠ eclass (fmap p)) := by
      by_cases e : p = i + 1
      · subst e
        have e' : i + 1 - 1 = i := by omega
        rw [if_pos rfl, e']
        constructor
        · rintro (⟨_, h⟩ | ⟨h1, h2, h3⟩)
          · exact h.elim
          · exact ⟨by omega, by omega, by omega, h3⟩
        · rintro ⟨_, _, h2, h3⟩
          exact .inr ⟨by omega, by omega, h3⟩
      · rw [if_neg e]
        constructor
        · rintro (⟨_, h⟩ | ⟨h1, h2, h3⟩)
          · exact h.elim
          · exact ⟨by omega, by omega, by omega, h3⟩
        · rintro ⟨h0, h1, h2, h3⟩
          exact .inr ⟨by omega, by omega, h3⟩
    rw [and_false, false_or] at hrest
    dsimp only
    by_cases hcc : cc = eclass (fmap i)
    · rw [if_neg (not_not.mpr hcc), ih, hcc, hrest]
      by_cases e : p = i
      · subst e
        simp
      · simp [e]
    · rw [if_pos hcc, ih, hrest, issetBH_setBH]
      by_cases e : p = i
      · subst e
        have hp : p < p + ((n + 1 : Nat) : Int) := by omega
        have hself : (decide (p = p) || issetBH bhtab p) = true := by simp
        rw [if_pos rfl, hself]
        exact ⟨fun _ => .inr ⟨Int.le_refl p, hp, hcc⟩, fun _ => .inl rfl⟩
      · simp [e]

/-! ## 4. The bits before the first depth -/

/-- Words set to zero. -/
theorem issetBH_zeroed (bhtab : Cells Word32) {m : Nat} {i : Int} (h0 : 0 ≤ i) (hm : i / 32 < m) :
    issetBH (forUpto m (fun i bhtab => bhtab.set i 0#32) bhtab) i = false := by
  have h : ∀ w : Int, 0 ≤ w → w < m →
      (forUpto m (fun (i : Nat) (bhtab : Cells Word32) => bhtab.set i 0#32) bhtab) w = 0#32 := by
    refine forUpto_inv (fun k (b : Cells Word32) => ∀ w : Int, 0 ≤ w → w < k → b w = 0#32) ?_ m ?_
    · intro w h1 h2
      omega
    · intro k b _ hb w h1 h2
      rw [Cells.get_set]
      split
      · rfl
      · exact hb w h1 (by omega)
  rw [issetBH_eq, h _ (by omega) hm, BitVec.getLsbD_zero]

/-- Bits set at the positions of a table. -/
theorem issetBH_setAll (ftab : Cells Int) (m : Nat) (bhtab : Cells Word32) (i : Int) :
    issetBH (forUpto m (fun b bhtab => setBH bhtab (ftab b)) bhtab) i = true ↔
      issetBH bhtab i = true ∨ ∃ b : Nat, b < m ∧ i = ftab b := by
  refine forUpto_inv (fun k (t : Cells Word32) => issetBH t i = true ↔
    issetBH bhtab i = true ∨ ∃ b : Nat, b < k ∧ i = ftab b) (by simp) m ?_
  intro k t _ ht
  rw [issetBH_setBH, Bool.or_eq_true, decide_eq_true_eq, ht]
  constructor
  · rintro (e | h | ⟨b, hb, e⟩)
    · exact .inr ⟨k, by omega, e⟩
    · exact .inl h
    · exact .inr ⟨b, by omega, e⟩
  · rintro (h | ⟨b, hb, e⟩)
    · exact .inr (.inl h)
    · by_cases hbk : b = k
      · subst hbk
        exact .inl e
      · exact .inr (.inr ⟨b, by omega, e⟩)

/-- The sentinels leave the bits of the block alone; bit `nblock` is set, the next one clear. -/
theorem issetBH_sentinels (nblock : Int) (bhtab : Cells Word32) (m : Nat) :
    (∀ i, i < nblock →
      issetBH (forUpto m (fun k b => clearBH (setBH b (nblock + 2 * k)) (nblock + 2 * k + 1)) bhtab)
        i = issetBH bhtab i) ∧
    (0 < m →
      issetBH (forUpto m (fun k b => clearBH (setBH b (nblock + 2 * k)) (nblock + 2 * k + 1)) bhtab)
        nblock = true ∧
      issetBH (forUpto m (fun k b => clearBH (setBH b (nblock + 2 * k)) (nblock + 2 * k + 1)) bhtab)
        (nblock + 1) = false) := by
  refine forUpto_inv (fun k (t : Cells Word32) =>
    (∀ i, i < nblock → issetBH t i = issetBH bhtab i) ∧
      (0 < k → issetBH t nblock = true ∧ issetBH t (nblock + 1) = false))
    ⟨fun _ _ => rfl, fun h => absurd h (Nat.lt_irrefl 0)⟩ m ?_
  rintro k t _ ⟨h1, h2⟩
  refine ⟨fun i hi => ?_, fun _ => ?_⟩
  · rw [issetBH_clearBH, issetBH_setBH, h1 i hi]
    have e1 : i ≠ nblock + 2 * k := by omega
    have e2 : i ≠ nblock + 2 * k + 1 := by omega
    simp [e1, e2]
  · rw [issetBH_clearBH, issetBH_setBH, issetBH_clearBH, issetBH_setBH]
    by_cases hk : k = 0
    · subst hk
      have e1 : nblock ≠ nblock + 1 := by omega
      simp [e1]
    · obtain ⟨h3, h4⟩ := h2 (by omega)
      have e1 : nblock ≠ nblock + 2 * k := by omega
      have e2 : nblock ≠ nblock + 2 * k + 1 := by omega
      have e3 : nblock + 1 ≠ nblock + 2 * k := by omega
      have e4 : nblock + 1 ≠ nblock + 2 * k + 1 := by omega
      simp [h3, h4, e1, e2, e3, e4]

/-- **The bits of the block before the first depth** are the bucket starts. -/
theorem issetBH_initBH (ftab : Cells Int) {nblock : Int} (bhtab : Cells Word32) {i : Int}
    (h0 : 0 ≤ i) (hi : i < nblock) :
    issetBH (initBH ftab nblock bhtab) i = true ↔ ∃ b : Nat, b < 256 ∧ i = ftab b := by
  unfold initBH
  dsimp only
  rw [(issetBH_sentinels nblock _ 32).1 i hi, issetBH_setAll, issetBH_zeroed _ h0 (by omega)]
  simp

theorem initBH_sentinel (ftab : Cells Int) (nblock : Int) (bhtab : Cells Word32) :
    issetBH (initBH ftab nblock bhtab) nblock = true ∧
      issetBH (initBH ftab nblock bhtab) (nblock + 1) = false := by
  unfold initBH
  exact (issetBH_sentinels nblock _ 32).2 (by decide)

end Qbz2
