/-
  File:      Qbz2/Reference/SmallBuckets.lean
  Subject:   The main loop of `mainSort`: its invariant, and step 1, which sorts the small buckets of
             a big bucket.

  * `runningOrder_perm` -- every big bucket has its turn once;
  * `MainState.Marked` -- the mark of a small bucket in `ftab`, which leaves its start as it is;
  * `MainInv done s` -- the invariant, with the big buckets of `done` behind the loop;
  * **`sortSmalls_spec`** -- step 1 succeeds, or the budget is used up.
-/
import Qbz2.Reference.QSort3
import Qbz2.Reference.Scan

namespace Qbz2

open Loop Segment Rotation Counting

variable {block : Cells Byte} {n : Nat} {ss : Nat}

/-! ## 1. The running order -/

theorem orderPass_perm (ftab : Cells Word32) {h : Int} (h1 : 1 ≤ h) (order : Cells Int) :
    PermOn 0 255 order (orderPass ftab h order) := by
  unfold orderPass
  refine forUpto_inv (fun (_ : Nat) (t : Cells Int) => PermOn 0 255 order t) (PermOn.refl _ _ _) _ fun k t hk ht => ?_
  exact ht.trans (insertAt_perm (gtFreq ftab) h1 (by omega) (by omega) ())

/-- **Every big bucket has its turn once.** -/
theorem runningOrder_perm (ftab : Cells Word32) :
    PermOn 0 255 (Cells.ofFn fun i => i) (runningOrder ftab) := by
  unfold runningOrder
  exact ((((orderPass_perm ftab (by decide) _).trans (orderPass_perm ftab (by decide) _)).trans
    (orderPass_perm ftab (by decide) _)).trans (orderPass_perm ftab (by decide) _)).trans
    (orderPass_perm ftab (by decide) _)

/-! ## 2. Marks -/

theorem or_and_clear (w : Word32) : (w ||| setMask) &&& clearMask = w &&& clearMask := by
  unfold clearMask
  ext i hi
  simp only [BitVec.getElem_and, BitVec.getElem_or, BitVec.getElem_not]
  cases w[i] <;> cases setMask[i] <;> rfl

theorem or_and_set (w : Word32) : (w ||| setMask) &&& setMask = setMask := by
  ext i hi
  simp only [BitVec.getElem_and, BitVec.getElem_or]
  cases w[i] <;> cases setMask[i] <;> rfl

theorem and_set_of_lt {w : Word32} (h : w.toNat < 2 ^ 21) : w &&& setMask = 0 := by
  have hm : setMask.toNat = 2 ^ 21 := by decide
  refine BitVec.eq_of_toNat_eq ?_
  rw [BitVec.toNat_and, hm]
  refine Nat.eq_of_testBit_eq fun i => ?_
  rw [Nat.testBit_and, Nat.testBit_two_pow]
  by_cases hi : 21 = i
  · rw [← hi, Nat.testBit_lt_two_pow h]
    rfl
  · simp [hi]

theorem and_clear_of_lt {w : Word32} (h : w.toNat < 2 ^ 21) : w &&& clearMask = w := by
  have hs := and_set_of_lt h
  unfold clearMask
  ext i hi
  have hb := congrArg (fun v : Word32 => v[i]) hs
  simp only [BitVec.getElem_and, BitVec.getElem_not] at hb ⊢
  have hz : (0 : Word32)[i] = false := by simp
  rw [hz] at hb
  revert hb
  cases w[i] <;> cases setMask[i] <;> simp

/-- The small bucket is marked as sorted. -/
def MainState.Marked (s : MainState) (c : Nat) : Prop := s.ftab c &&& setMask ≠ 0

theorem MainState.start_mark (s : MainState) (c c' : Int) : (s.mark c).start c' = s.start c' := by
  unfold MainState.start MainState.mark
  dsimp only
  rw [Cells.get_set]
  split
  · rename_i he
    rw [or_and_clear, he]
  · rfl

theorem MainState.marked_mark (s : MainState) (c c' : Nat) :
    (s.mark c).Marked c' ↔ c' = c ∨ s.Marked c' := by
  unfold MainState.Marked MainState.mark
  dsimp only
  rw [Cells.get_set]
  by_cases he : c' = c
  · rw [if_pos (by rw [he]), or_and_set]
    exact ⟨fun _ => .inl he, fun _ => by decide⟩
  · rw [if_neg (by omega)]
    exact ⟨.inr, fun h => h.resolve_left he⟩

/-! ## 3. The invariant -/

/-- The small bucket is in order. -/
def SmallOrd (block : Cells Byte) (n c : Nat) (ptr : Cells Int) : Prop :=
  OrdOn (rot (sym block) n) (startOfPair block n c) (startOfPair block n (c + 1) - 1) ptr

/-- **The invariant of the main loop**, with the big buckets of `done` behind it. -/
structure MainInv (block : Cells Byte) (n : Nat) (done : Nat → Prop) (s : MainState) : Prop where
  tab : ∀ c : Nat, c ≤ 65536 → s.start c = startOfPair block n c
  small : Buckets block n s.ptr
  sorted : ∀ c : Nat, c < 65536 → s.Marked c → SmallOrd block n c s.ptr
  big : ∀ a : Nat, a < 256 → (s.bigDone a = true ↔ done a)
  rows : ∀ a : Nat, a < 256 → done a → ∀ b : Nat, b < 256 → s.Marked (a * 256 + b)
  quad : Quadrants block n s.quadrant

variable {done : Nat → Prop} {s : MainState}

theorem MainInv.mark (h : MainInv block n done s) {c : Nat} (ho : SmallOrd block n c s.ptr) :
    MainInv block n done (s.mark c) := by
  refine ⟨fun c' hc' => by rw [MainState.start_mark]; exact h.tab c' hc', h.small, fun c' hc' hm => ?_,
    h.big, fun a ha hd b hb => (s.marked_mark _ _).mpr (.inr (h.rows a ha hd b hb)), h.quad⟩
  rcases (s.marked_mark c c').mp hm with rfl | hm
  · exact ho
  · exact h.sorted c' hc' hm

/-- Small buckets in order, read across. -/
theorem Buckets.ord {ptr : Cells Int} (h : Buckets block n ptr) {c c' : Nat} {p q : Int}
    (hp : InBucket block n c p) (hq : InBucket block n c' q) (hpq : p ≤ q)
    (ho : SmallOrd block n c ptr) : rot (sym block) n (ptr p) ≤ rot (sym block) n (ptr q) := by
  obtain ⟨p0, p1, hpc⟩ := h.cell c p hp
  obtain ⟨q0, q1, hqc⟩ := h.cell c' q hq
  rcases Nat.lt_trichotomy c c' with hlt | rfl | hgt
  · exact rot_le_of_pair p0 p1 q0 q1 (by omega)
  · exact ho p q hp.1 hpq (by have := hq.2; omega)
  · have := startOfPair_mono block n (show c' + 1 ≤ c by omega)
    have := hp.1
    have := hq.2
    omega

theorem Buckets.injOn {ptr : Cells Int} (h : Buckets block n ptr) : InjOn 0 (n - 1) ptr := by
  intro p q hp0 hp1 hq0 hq1 e
  obtain ⟨c, -, hc⟩ := exists_inBucket block n hp0 (show p < n by omega)
  obtain ⟨c', -, hc'⟩ := exists_inBucket block n hq0 (show q < n by omega)
  have h1 := (h.cell c p hc).2.2
  have h2 := (h.cell c' q hc').2.2
  rw [e, h2] at h1
  rw [← h1] at hc
  exact h.inj c' p q hc hc' e

theorem InBucket.range {c : Nat} {p : Int} (h : InBucket block n c p) : 0 ≤ p ∧ p < n := by
  have := startOfPair_le block n (c + 1)
  obtain ⟨h1, h2⟩ := h
  omega

/-- Every rotation is in its small bucket. -/
theorem Buckets.hits {ptr : Cells Int} (h : Buckets block n ptr) {x : Int} (h0 : 0 ≤ x) (h1 : x < n) :
    ∃ p, InBucket block n (pairAt block n x) p ∧ ptr p = x := by
  obtain ⟨p, hp0, hp1, e⟩ := hits_of_injOn h.injOn (fun i hi0 hi1 => by
    obtain ⟨c, -, hc⟩ := exists_inBucket block n hi0 (show i < n by omega)
    have := h.cell c i hc
    omega) h0 (show x ≤ n - 1 by omega)
  obtain ⟨c, -, hc⟩ := exists_inBucket block n hp0 (show p < n by omega)
  have := (h.cell c p hc).2.2
  rw [e] at this
  rw [this]
  exact ⟨p, hc, e⟩

/-- A small bucket permuted. -/
theorem Buckets.perm {ptr ptr' : Cells Int} (h : Buckets block n ptr) {c : Nat}
    (hp : PermOn (startOfPair block n c) (startOfPair block n (c + 1) - 1) ptr ptr') :
    Buckets block n ptr' := by
  have hout : ∀ c' p, c' ≠ c → InBucket block n c' p → ptr' p = ptr p := by
    intro c' p hne hin
    refine hp.outside ?_
    by_contra hc
    exact hne (hin.unique ⟨by omega, by omega⟩)
  refine ⟨fun c' p hin => ?_, fun c' p q hin hin' e => ?_⟩
  · by_cases hc : c' = c
    · subst hc
      exact hp.forall (P := fun v => 0 ≤ v ∧ v < n ∧ pairAt block n v = c')
        (fun i hl hh => h.cell c' i ⟨hl, by omega⟩) p hin.1 (by have := hin.2; omega)
    · rw [hout c' p hc hin]
      exact h.cell c' p hin
  · by_cases hc : c' = c
    · subst hc
      have hinj := hp.injOn fun i j hil hih hjl hjh e => h.inj c' i j ⟨hil, by omega⟩ ⟨hjl, by omega⟩ e
      exact hinj p q hin.1 (by have := hin.2; omega) hin'.1 (by have := hin'.2; omega) e
    · rw [hout c' p hc hin, hout c' q hc hin'] at e
      exact h.inj c' p q hin hin' e

/-! ## 4. Step 1 -/

/-- The small buckets are sorted one by one. -/
theorem MainInv.resort (h : MainInv block n done s) {c : Nat} {ptr : Cells Int} {budget : Word32}
    (hp : PermOn (startOfPair block n c) (startOfPair block n (c + 1) - 1) s.ptr ptr)
    (ho : SmallOrd block n c ptr) :
    MainInv block n done { s with ptr := ptr, budget := budget } := by
  refine ⟨h.tab, h.small.perm hp, fun c' hc' hm => ?_, h.big, h.rows, h.quad⟩
  by_cases hc : c' = c
  · rw [hc]
    exact ho
  · have hout : ∀ p, (startOfPair block n c' : Int) ≤ p → p ≤ startOfPair block n (c' + 1) - 1 →
        ptr p = s.ptr p := by
      intro p hl hh
      refine hp.outside ?_
      by_contra hin
      exact hc (InBucket.unique (p := p) ⟨hl, by omega⟩ ⟨by omega, by omega⟩)
    intro p q hl hpq hh
    rw [hout p hl (by omega), hout q (by omega) hh]
    exact h.sorted c' hc' hm p q hl hpq hh

theorem shares_of_pair {a b : Nat} (hb : b < 256) {x : Int} (h0 : 0 ≤ x) (h1 : x < n)
    (hp : pairAt block n x = a * 256 + b) : Shares block n 2 [a, b] x := by
  have hlt := sym_lt block ((x + 1) % n)
  unfold pairAt at hp
  refine ⟨h0, h1, ?_⟩
  rw [pre, pre, pre, Int.emod_eq_of_lt h0 h1, show sym block x = a by omega,
    show sym block ((x + 1) % n) = b by omega]

section Steps

variable (hn : bzNOvershoot < n) (hmax : n < 2 ^ 21) (hb : Overshot block n)

include hn hmax hb

/-- **Step 1, one small bucket.** -/
theorem sortSmall_spec (h : MainInv block n done s) (hss : ss < 256) {j : Nat} (hj : j < 256) :
    (∃ s', sortSmall block n ss j s = .ok (.inl s') ∧ MainInv block n done s' ∧
      (j ≠ ss → s'.Marked (ss * 256 + j)) ∧ ∀ c, s.Marked c → s'.Marked c) ∨
    ∃ r, sortSmall block n ss j s = .ok (.inr r) ∧ r.budget.slt 0 = true := by
  have hsb : (ss : Int) * 256 + (j : Int) = ((ss * 256 + j : Nat) : Int) := by push_cast; rfl
  have hsb1 : ((ss * 256 + j : Nat) : Int) + 1 = ((ss * 256 + j + 1 : Nat) : Int) := by push_cast; rfl
  have hlo := h.tab (ss * 256 + j) (by omega)
  have hhi := h.tab (ss * 256 + j + 1) (by omega)
  have hmark : ∀ {t : MainState}, (∀ c, s.Marked c → t.Marked c) →
      ∀ c, s.Marked c → (t.mark (ss * 256 + j : Nat)).Marked c :=
    fun hst c hc => (MainState.marked_mark _ _ _).mpr (.inr (hst c hc))
  have hself : ∀ t : MainState, (t.mark (ss * 256 + j : Nat)).Marked (ss * 256 + j) :=
    fun t => (MainState.marked_mark _ _ _).mpr (.inl rfl)
  unfold sortSmall
  by_cases hjs : j = ss
  · rw [if_neg (by rw [hjs]; exact not_not.mpr rfl)]
    exact .inl ⟨s, rfl, h, fun hne => absurd hjs hne, fun c hc => hc⟩
  rw [if_pos (by omega)]
  dsimp only
  rw [hsb, hsb1]
  by_cases hm : s.ftab (ss * 256 + j : Nat) &&& setMask = 0
  · rw [if_pos hm, hlo, hhi]
    by_cases hsize : (startOfPair block n (ss * 256 + j + 1) : Int) - 1 > startOfPair block n (ss * 256 + j)
    · rw [if_pos hsize]
      have hle := startOfPair_le block n (ss * 256 + j + 1)
      have hN : segSize (startOfPair block n (ss * 256 + j),
          startOfPair block n (ss * 256 + j + 1) - 1) ≤ 2 ^ 32 := by
        unfold segSize
        dsimp only
        omega
      have hshares : ∀ x : Int, startOfPair block n (ss * 256 + j) ≤ x →
          x ≤ startOfPair block n (ss * 256 + j + 1) - 1 → Shares block n 2 [ss, j] (s.ptr x) := by
        intro x hl hh
        obtain ⟨h0, h1, hp⟩ := h.small.cell (ss * 256 + j) x ⟨hl, by omega⟩
        exact shares_of_pair hj h0 h1 hp
      obtain ⟨hstart, hfuel⟩ := mainSorting_start (by omega) (by decide) hshares s.budget
      obtain ⟨⟨ptr, budget⟩, hr, hout⟩ :=
        mainQsortLoop_spec (by omega) hb h.quad hN hstart hfuel
      unfold mainQSort3
      rw [hr]
      simp only [bind, Except.bind]
      cases hbud : budget.slt 0 with
      | true => exact .inr ⟨_, if_pos rfl, hbud⟩
      | false =>
        have ho : SmallOrd block n (ss * 256 + j) ptr := hout.ord hbud
        refine .inl ⟨_, if_neg Bool.false_ne_true, (h.resort hout.perm ho).mark ho, fun _ => hself _,
          hmark fun c hc => hc⟩
    · rw [if_neg hsize]
      refine .inl ⟨_, rfl, h.mark ?_, fun _ => hself s, hmark fun c hc => hc⟩
      exact ordOn_of_le s.ptr (by omega)
  · rw [if_neg hm]
    exact .inl ⟨_, rfl, h.mark (h.sorted _ (by omega) hm), fun _ => hself s, hmark fun c hc => hc⟩

/-- **Step 1.** -/
theorem sortSmalls_spec (h : MainInv block n done s) (hss : ss < 256) :
    (∃ s', forReturn 256 (sortSmall block n ss) s = .ok (.inl s') ∧ MainInv block n done s' ∧
      ∀ b : Nat, b < 256 → b ≠ ss → s'.Marked (ss * 256 + b)) ∨
    ∃ r, forReturn 256 (sortSmall block n ss) s = .ok (.inr r) ∧ r.budget.slt 0 = true := by
  refine forReturn_spec (fun j t => MainInv block n done t ∧
    ∀ b : Nat, b < j → b ≠ ss → t.Marked (ss * 256 + b)) (fun r : MainState => r.budget.slt 0 = true)
    ⟨h, fun b hb => absurd hb (Nat.not_lt_zero b)⟩ 256 ?_
  rintro j t hj ⟨ht, hm⟩
  refine (sortSmall_spec hn hmax hb ht hss hj).imp_left ?_
  rintro ⟨t', he, ht', hj', hkeep⟩
  refine ⟨t', he, ht', fun b hb hne => ?_⟩
  rcases Nat.lt_succ_iff_lt_or_eq.mp hb with hlt | rfl
  · exact hkeep _ (hm b hlt hne)
  · exact hj' hne

end Steps

end Qbz2
