/-
  File:      Qbz2/Reference/PairSort.lean
  Subject:   The first distribution of `mainSort`: the rotations in order of their first two bytes.

  * `pairAt block n x` -- the first two bytes of a rotation, as a number;
  * `countPairs_spec`, `sumPairs_spec`, `placePairs_spec` -- the frequencies, cumulated, and every
    rotation at its `place` in the stable sort by pairs;
  * `Buckets` -- every cell holds a rotation of the small bucket it lies in, each once.
-/
import Qbz2.Reference.Comparison

namespace Qbz2

open Loop Segment Rotation Counting

variable {block : Cells Byte} {n : Nat}

/-! ## 1. Pairs -/

/-- The first two bytes of a rotation. -/
def pairAt (block : Cells Byte) (n : Nat) (x : Int) : Nat :=
  sym block x * 256 + sym block ((x + 1) % n)

theorem pairAt_lt (block : Cells Byte) (n : Nat) (x : Int) : pairAt block n x < 65536 := by
  have h1 := sym_lt block x
  have h2 := sym_lt block ((x + 1) % n)
  unfold pairAt
  omega

/-- The pair with the first byte `b`, and the second the first byte of the pair before. -/
theorem shiftPair_eq {j a : Nat} (hj : j >>> 8 = a) (ha : a < 256) (b : Byte) :
    shiftPair j b = b.toNat * 256 + a := by
  unfold shiftPair
  rw [hj, Nat.or_comm, ← Nat.shiftLeft_add_eq_or_of_lt ha, Nat.shiftLeft_eq]

/-- What both loops do with `j`. -/
theorem shiftPair_spec {j i : Nat} (hj : j >>> 8 = sym block (((i + 1 : Nat) : Int) % n)) (hi : i < n) :
    shiftPair j (block i) = pairAt block n i ∧
      shiftPair j (block i) >>> 8 = sym block ((i : Int) % n) := by
  have he := shiftPair_eq hj (sym_lt block _) (block i)
  have hlt := sym_lt block (((i + 1 : Nat) : Int) % n)
  refine ⟨by rw [he, pairAt, Nat.cast_add]; rfl, ?_⟩
  have hmod : (i : Int) % n = i := Int.emod_eq_of_lt (by omega) (by omega)
  have hb : (block i).toNat = sym block i := rfl
  rw [he, hmod, hb, Nat.shiftRight_eq_div_pow]
  omega

/-! ## 2. The tables -/

theorem toNat_succ {w : Word32} (h : w.toNat + 1 < 2 ^ 32) : (w + 1).toNat = w.toNat + 1 := by
  rw [BitVec.toNat_add]
  exact Nat.mod_eq_of_lt h

theorem toNat_pred {w : Word32} (h : 0 < w.toNat) : (w - 1).toNat = w.toNat - 1 := by
  have h1 : (1 : Word32).toNat = 1 := rfl
  have := w.isLt
  rw [BitVec.toNat_sub, h1]
  omega

/-- **The frequencies**, and quadrants that say nothing. -/
theorem countPairs_spec (block : Cells Byte) (hn : 0 < n) (hmax : n < 2 ^ 21) (ftab : Cells Word32)
    (quadrant : Cells (BitVec 16)) :
    (∀ c : Nat, c ≤ 65536 →
      ((countPairs block n ftab quadrant).ftab c).toNat = holding (pairAt block n) n c) ∧
    ∀ x : Int, 0 ≤ x → x < n → (countPairs block n ftab quadrant).quadrant x = 0 := by
  unfold countPairs
  rw [fourByFour_eq]
  have hinv := countdown_inv (f := countPair block) (n := n)
    (s := ⟨(block 0).toNat <<< 8, ftab.fill 0 65537 0, quadrant⟩)
    (fun i (s : PairCount) => s.j >>> 8 = sym block ((i : Int) % n) ∧
      (∀ c : Nat, c ≤ 65536 → (s.ftab c).toNat + holding (pairAt block n) i c =
        holding (pairAt block n) n c) ∧
      ∀ x : Int, i ≤ x → x < n → s.quadrant x = 0) ?_ ?_
  · obtain ⟨-, h1, h2⟩ := hinv
    refine ⟨fun c hc => ?_, fun x h0 hx => h2 x h0 hx⟩
    have := h1 c hc
    simpa [holding] using this
  · refine ⟨?_, fun c hc => ?_, fun x h0 hx => by omega⟩
    · rw [Int.emod_self, Nat.shiftLeft_eq, Nat.shiftRight_eq_div_pow]
      exact Nat.mul_div_cancel _ (by decide)
    · rw [Cells.get_fill, if_pos (by omega)]
      exact Nat.zero_add _
  · rintro i ⟨j, ftab, quadrant⟩ hi ⟨hj, htab, hq⟩
    obtain ⟨he, hsh⟩ := shiftPair_spec hj hi
    dsimp only at hj htab hq
    unfold countPair
    dsimp only
    refine ⟨hsh, fun c hc => ?_, fun x h0 hx => ?_⟩
    · have hc' := htab c hc
      rw [holding_succ] at hc'
      have hle := holding_le (s := pairAt block n) n c
      rw [he, Cells.get_set]
      by_cases hpc : pairAt block n i = c
      · rw [if_pos hpc] at hc'
        rw [hpc, if_pos rfl, toNat_succ (by omega)]
        omega
      · rw [if_neg hpc] at hc'
        rw [if_neg (fun h => hpc (by omega))]
        omega
    · rw [Cells.get_set]
      split
      · rfl
      · exact hq x (by omega) hx

/-- **The frequencies cumulated.** -/
theorem sumPairs_spec (hmax : n < 2 ^ 21) {s : Int → Nat} {ftab : Cells Word32}
    (h : ∀ c : Nat, c ≤ 65536 → (ftab c).toNat = holding s n c) {c : Nat} (hc : c ≤ 65536) :
    ((sumPairs ftab) c).toNat = below s n (c + 1) := by
  unfold sumPairs
  have hinv := forUpto_inv (f := fun (i : Nat) (ftab : Cells Word32) =>
      ftab.set (i + 1 : Nat) (ftab (i + 1 : Nat) + ftab i)) (s := ftab)
    (fun i (t : Cells Word32) => (∀ c : Nat, c ≤ i → (t c).toNat = below s n (c + 1)) ∧
      ∀ c : Nat, i < c → c ≤ 65536 → (t c).toNat = holding s n c) ?_ 65536 ?_
  · exact hinv.1 c hc
  · refine ⟨fun c hc => ?_, fun c _ hc => h c hc⟩
    obtain rfl : c = 0 := by omega
    rw [h 0 (by omega), below_succ, below_zero, Nat.zero_add]
  · rintro i t hi ⟨h1, h2⟩
    refine ⟨fun c hc => ?_, fun c hic hc => ?_⟩
    · rw [Cells.get_set]
      by_cases hci : c = i + 1
      · subst hci
        have hle := below_le (s := s) n (i + 1 + 1)
        rw [below_succ] at hle ⊢
        rw [if_pos rfl, BitVec.toNat_add, h1 i (Nat.le_refl _), h2 (i + 1) (by omega) (by omega),
          Nat.mod_eq_of_lt (by omega)]
        omega
      · rw [if_neg (by omega)]
        exact h1 c (by omega)
    · rw [Cells.get_set, if_neg (by omega)]
      exact h2 c (by omega) hc

/-! ## 3. The distribution -/

/-- **Every rotation is placed** where the stable sort by pairs puts it. -/
theorem placePairs_spec (block : Cells Byte) {ftab : Cells Word32}
    (h : ∀ c : Nat, c ≤ 65536 → (ftab c).toNat = below (pairAt block n) n (c + 1)) (ptr : Cells Int) :
    (∀ c : Nat, c ≤ 65536 → ((placePairs block n ftab ptr).ftab c).toNat =
      below (pairAt block n) n c) ∧
    ∀ x : Nat, x < n → (placePairs block n ftab ptr).ptr (place (pairAt block n) n x) = x := by
  have hall : below (pairAt block n) n 65536 = n := below_eq_self fun x _ => pairAt_lt block n x
  unfold placePairs
  rw [fourByFour_eq]
  have hinv := countdown_inv (f := placePair block) (n := n)
    (s := ⟨(block 0).toNat <<< 8, ftab, ptr⟩)
    (fun i (t : PairPlace) => t.s >>> 8 = sym block ((i : Int) % n) ∧
      (∀ c : Nat, c ≤ 65536 → (t.ftab c).toNat =
        below (pairAt block n) n c + holding (pairAt block n) i c) ∧
      ∀ x : Nat, i ≤ x → x < n → t.ptr (place (pairAt block n) n x) = x) ?_ ?_
  · obtain ⟨-, h1, h2⟩ := hinv
    refine ⟨fun c hc => ?_, fun x hx => h2 x (Nat.zero_le _) hx⟩
    have := h1 c hc
    simpa [holding] using this
  · refine ⟨?_, fun c hc => ?_, fun x h0 hx => by omega⟩
    · rw [Int.emod_self, Nat.shiftLeft_eq, Nat.shiftRight_eq_div_pow]
      exact Nat.mul_div_cancel _ (by decide)
    · rw [h c hc, below_succ]
  · rintro i ⟨s, ftab, ptr⟩ hi ⟨hs, htab, hptr⟩
    obtain ⟨he, hsh⟩ := shiftPair_spec hs hi
    dsimp only at hs htab hptr
    have hlt := pairAt_lt block n i
    have hci := htab (pairAt block n i) (by omega)
    rw [holding_succ, if_pos rfl] at hci
    have hpl : (ftab (pairAt block n i : Nat) - 1).toNat = place (pairAt block n) n i := by
      rw [toNat_pred (by omega), hci]
      rfl
    unfold placePair
    dsimp only
    rw [he]
    rw [he] at hsh
    refine ⟨hsh, fun c hc => ?_, fun x hix hx => ?_⟩
    · rw [Cells.get_set]
      by_cases hpc : c = pairAt block n i
      · rw [if_pos (by omega), hpl, hpc]
        rfl
      · have hc' := htab c hc
        rw [holding_succ, if_neg (Ne.symm hpc)] at hc'
        rw [if_neg (by omega)]
        omega
    · rw [hpl, Cells.get_set]
      by_cases hxi : x = i
      · rw [hxi, if_pos rfl]
      · rw [if_neg fun e => hxi (place_inj (s := pairAt block n) hx hi (by omega))]
        exact hptr x (by omega) hx

/-! ## 4. Small buckets -/

/-- Where the small bucket of a pair starts. -/
def startOfPair (block : Cells Byte) (n c : Nat) : Nat := below (pairAt block n) n c

/-- A cell of the small bucket `c`. -/
def InBucket (block : Cells Byte) (n c : Nat) (p : Int) : Prop :=
  (startOfPair block n c : Int) ≤ p ∧ p < startOfPair block n (c + 1)

theorem startOfPair_mono (block : Cells Byte) (n : Nat) {c c' : Nat} (h : c ≤ c') :
    startOfPair block n c ≤ startOfPair block n c' :=
  below_mono _ h

theorem startOfPair_le (block : Cells Byte) (n c : Nat) : startOfPair block n c ≤ n := below_le _ _

/-- Small buckets have no cell in common. -/
theorem InBucket.unique {c c' : Nat} {p : Int} (h : InBucket block n c p) (h' : InBucket block n c' p) :
    c = c' := by
  obtain ⟨h1, h2⟩ := h
  obtain ⟨h1', h2'⟩ := h'
  rcases Nat.lt_trichotomy c c' with hlt | he | hgt
  · have := startOfPair_mono block n (show c + 1 ≤ c' by omega)
    omega
  · exact he
  · have := startOfPair_mono block n (show c' + 1 ≤ c by omega)
    omega

/-- **The small buckets**: every cell holds a rotation with the pair of its bucket, each once. -/
structure Buckets (block : Cells Byte) (n : Nat) (ptr : Cells Int) : Prop where
  cell : ∀ c p, InBucket block n c p → 0 ≤ ptr p ∧ ptr p < n ∧ pairAt block n (ptr p) = c
  inj : ∀ c p q, InBucket block n c p → InBucket block n c q → ptr p = ptr q → p = q

/-- Every cell of the block lies in a small bucket. -/
theorem exists_inBucket (block : Cells Byte) (n : Nat) {p : Int} (h0 : 0 ≤ p) (h1 : p < n) :
    ∃ c, c < 65536 ∧ InBucket block n c p := by
  obtain ⟨x, hx, he⟩ := exists_place (s := pairAt block n) (show p.toNat < n by omega)
  have hr := place_range (s := pairAt block n) hx
  exact ⟨pairAt block n x, pairAt_lt block n x, by unfold startOfPair; omega,
    by unfold startOfPair; omega⟩

/-- **After the distribution.** -/
theorem buckets_of_place {ptr : Cells Int}
    (h : ∀ x : Nat, x < n → ptr (place (pairAt block n) n x) = x) : Buckets block n ptr := by
  have hcell : ∀ c p, InBucket block n c p →
      ∃ x : Nat, x < n ∧ p = place (pairAt block n) n x ∧ ptr p = x ∧ pairAt block n x = c := by
    intro c p hp
    have hle := startOfPair_le block n (c + 1)
    obtain ⟨x, hx, he⟩ := exists_place (s := pairAt block n) (show p.toNat < n by
      obtain ⟨h1, h2⟩ := hp
      omega)
    have hr := place_range (s := pairAt block n) hx
    have hp' : p = place (pairAt block n) n x := by
      obtain ⟨h1, h2⟩ := hp
      omega
    refine ⟨x, hx, hp', by rw [hp']; exact h x hx, ?_⟩
    exact InBucket.unique (p := p) ⟨by unfold startOfPair; omega, by unfold startOfPair; omega⟩ hp
  refine ⟨fun c p hp => ?_, fun c p q hp hq e => ?_⟩
  · obtain ⟨x, hx, -, he, hc⟩ := hcell c p hp
    rw [he]
    exact ⟨by omega, by omega, hc⟩
  · obtain ⟨x, -, hpx, hex, -⟩ := hcell c p hp
    obtain ⟨y, -, hqy, hey, -⟩ := hcell c q hq
    rw [hex, hey] at e
    rw [hpx, hqy, show x = y by omega]

end Qbz2
