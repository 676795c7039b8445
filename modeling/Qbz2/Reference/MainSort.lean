/-
  File:      Qbz2/Reference/MainSort.lean
  Subject:   `mainSort` sorts the rotations of a block, unless the budget is used up, and no assertion
             fires; so does `BZ2_blockSort` of the reference implementation, always.

  * `scanBig_spec`, `closeBig_spec` -- steps 2 and 3 keep the invariant; `sortBig_spec` -- a round;
  * `sortBigs_spec`, **`mainSort_spec`** -- the main loop, and the whole sort;
  * **`refBlockSort_sorts`**.
-/
import Qbz2.BlockSort.Fallback
import Qbz2.Reference.BigBucket
import Qbz2.Reference.Quadrants

namespace Qbz2

open Loop Segment Rotation Counting

variable {block : Cells Byte} {n : Nat} {ss : Nat} {done : Nat → Prop} {s : MainState}

/-! ## 1. Step 2 -/

/-- The marks of the small buckets `[a, ss]`. -/
theorem markColumn_spec (h : MainInv block n done s)
    (ho : ∀ a : Nat, a < 256 → SmallOrd block n (a * 256 + ss) s.ptr) :
    ∀ t, t = forUpto 256 (fun j (s : MainState) => s.mark (j * 256 + ss)) s →
      MainInv block n done t ∧ t.ptr = s.ptr ∧ t.bigDone = s.bigDone ∧ (∀ c, s.Marked c → t.Marked c) ∧
        ∀ a : Nat, a < 256 → t.Marked (a * 256 + ss) := by
  rintro t rfl
  refine forUpto_inv (fun j (t : MainState) => MainInv block n done t ∧ t.ptr = s.ptr ∧
    t.bigDone = s.bigDone ∧ (∀ c, s.Marked c → t.Marked c) ∧
      ∀ a : Nat, a < j → t.Marked (a * 256 + ss)) ?_ 256 ?_
  · exact ⟨h, rfl, rfl, fun c hc => hc, fun a ha => absurd ha (Nat.not_lt_zero a)⟩
  · rintro j t hj ⟨ht, hp, hd, hk, hm⟩
    have hc : (j : Int) * 256 + (ss : Int) = ((j * 256 + ss : Nat) : Int) := by push_cast; rfl
    rw [hc]
    refine ⟨ht.mark (by rw [hp]; exact ho j hj), hp, hd,
      fun c hc => (t.marked_mark _ _).mpr (.inr (hk c hc)), fun a ha => (t.marked_mark _ _).mpr ?_⟩
    rcases Nat.lt_succ_iff_lt_or_eq.mp ha with hlt | rfl
    · exact .inr (hm a hlt)
    · exact .inl rfl

/-- **Step 2.** -/
theorem scanBig_spec (hn : 0 < n) (h : MainInv block n done s) (hss : ss < 256)
    (hfresh : s.bigDone ss = false)
    (hm : ∀ b : Nat, b < 256 → b ≠ ss → s.Marked (ss * 256 + b)) :
    ∃ t, scanBig block n ss s = .ok t ∧ MainInv block n done t ∧ t.bigDone = s.bigDone ∧
      ∀ b : Nat, b < 256 → t.Marked (ss * 256 + b) := by
  have ho : ∀ b, b < 256 → b ≠ ss → SmallOrd block n (ss * 256 + b) s.ptr := fun b hb hne =>
    h.sorted _ (by omega) (hm b hb hne)
  have hstart : ∀ c : Nat, c < 256 →
      (Cells.ofFn fun j => s.start (j * 256 + ss)) c = edge block n 1 (c * 256 + ss) := by
    intro c hc
    have := h.tab (c * 256 + ss) (by omega)
    push_cast at this
    unfold edge
    rw [if_pos (by decide), Cells.get_ofFn, this]
  have hend : ∀ c : Nat, c < 256 →
      (Cells.ofFn fun j => s.start (j * 256 + ss + 1) - 1) c = edge block n (-1) (c * 256 + ss) := by
    intro c hc
    have := h.tab (c * 256 + ss + 1) (by omega)
    push_cast at this
    unfold edge
    rw [if_neg (by decide), Cells.get_ofFn, this]
  have hlow : s.start ((ss : Int) * 256) = rowStart block n ss 1 := by
    have := h.tab (ss * 256) (by omega)
    push_cast at this
    unfold rowStart
    rw [if_pos (by decide), this]
  have hhigh : s.start (((ss : Int) + 1) * 256) - 1 = rowStart block n ss (-1) := by
    have := h.tab ((ss + 1) * 256) (by omega)
    push_cast at this
    unfold rowStart
    rw [if_neg (by decide), this]
  have hSU := scanSetup_row (.inl rfl) hss h.small ho hfresh hlow hstart fun b p _ _ _ => rfl
  obtain ⟨up, hup, U, hU, hUend⟩ := scanBucket_spec hSU
  have hSD : ScanSetup block n ss (-1) s.bigDone up.ptr _ _ _ := scanSetup_row (.inr rfl) hss h.small ho hfresh hhigh hend
    fun b p hb hne hp => hU.kept (.inl rfl) hp fun a _ _ => by omega
  obtain ⟨down, hdown, D, hD, hDend⟩ := scanBucket_spec hSD
  have hscan : Scanned block n ss s.bigDone s.ptr down.ptr ∧
      (up.copy ss - 1 = down.copy ss ∨ up.copy ss = 0 ∧ down.copy ss = (n : Int) - 1) := by
    by_cases hall : ∀ y : Int, 0 ≤ y → y < n → sym block y = ss
    · exact (scanned_of_all hU hD hss hfresh h.small hn hall).imp_right .inr
    · push Not at hall
      obtain ⟨y, hy0, hy1, hy⟩ := hall
      exact (scanned_of_other hU hD hss hfresh (fun x => hSU.initial.complete hU.fine hUend)
        (fun x => hSD.initial.complete hD.fine hDend) hy0 hy1 hy).imp_right .inl
  obtain ⟨hS, hassert⟩ := hscan
  obtain ⟨ht, -, hbig, hkeep, hcol⟩ := markColumn_spec (hS.inv h)
    (fun a ha => hS.column h hss ha) _ rfl
  refine ⟨_, ?_, ht, hbig, fun b hb => ?_⟩
  · unfold scanBig
    simp only [bind, Except.bind, hup, hdown, assertH, hassert, decide_true, if_true]
  · by_cases hne : b = ss
    · rw [hne]
      exact hcol ss hss
    · exact hkeep _ (hm b hb hne)

/-! ## 2. Step 3 -/

/-- A big bucket in order. -/
theorem MainInv.inOrder (h : MainInv block n done s) (hss : ss < 256)
    (hm : ∀ b : Nat, b < 256 → s.Marked (ss * 256 + b)) :
    InOrder block n s.ptr (startOfPair block n (ss * 256))
      (startOfPair block n ((ss + 1) * 256) - startOfPair block n (ss * 256)) ss := by
  have hin : ∀ k : Nat, k < startOfPair block n ((ss + 1) * 256) - startOfPair block n (ss * 256) →
      ∃ b, b < 256 ∧ InBucket block n (ss * 256 + b) (startOfPair block n (ss * 256) + k) := by
    intro k hk
    obtain ⟨c, h1, h2, hc⟩ := bucket_between block n (ss * 256) ((ss + 1) * 256)
      (p := startOfPair block n (ss * 256) + k) (by omega) (by omega)
    refine ⟨c - ss * 256, by omega, ?_⟩
    rwa [show ss * 256 + (c - ss * 256) = c by omega]
  refine ⟨fun k hk => ?_, fun x h0 h1 hs => ?_, fun k l hk hl e => ?_, fun k l hkl hl => ?_⟩
  · obtain ⟨b, hb, hp⟩ := hin k hk
    obtain ⟨h0, h1, hc⟩ := h.small.cell _ _ hp
    have hlt := sym_lt block ((s.ptr (startOfPair block n (ss * 256) + k) + 1) % n)
    unfold pairAt at hc
    exact ⟨h0, h1, by omega⟩
  · obtain ⟨p, hp, e⟩ := h.small.hits h0 h1
    have hlt := sym_lt block ((x + 1) % n)
    unfold pairAt at hp
    rw [hs] at hp
    have k1 := startOfPair_mono block n
      (show ss * 256 ≤ ss * 256 + sym block ((x + 1) % n) by omega)
    have k2 := startOfPair_mono block n
      (show ss * 256 + sym block ((x + 1) % n) + 1 ≤ (ss + 1) * 256 by omega)
    obtain ⟨h1, h2⟩ := hp
    refine ⟨(p - startOfPair block n (ss * 256)).toNat, by omega, ?_⟩
    rw [← e]
    congr 1
    omega
  · obtain ⟨b, -, hp⟩ := hin k hk
    obtain ⟨b', -, hq⟩ := hin l hl
    have := h.small.injOn _ _ hp.range.1 (by have := hp.range.2; omega) hq.range.1
      (by have := hq.range.2; omega) e
    omega
  · obtain ⟨b, hb, hp⟩ := hin k (by omega)
    obtain ⟨b', hb', hq⟩ := hin l hl
    exact h.small.ord hp hq (by omega) (h.sorted _ (by omega) (hm b hb))

/-- **Step 3.** -/
theorem closeBig_spec (hn : bzNOvershoot < n) (hmax : n < 2 ^ 21) (h : MainInv block n done s)
    (hss : ss < 256) (hm : ∀ b : Nat, b < 256 → s.Marked (ss * 256 + b)) (last : Bool) :
    ∃ t, closeBig n ss last s = .ok t ∧ MainInv block n (fun a => done a ∨ a = ss) t := by
  have hdone : ∀ q, Quadrants block n q → MainInv block n (fun a => done a ∨ a = ss)
      { s with bigDone := s.bigDone.set ss true, quadrant := q } := by
    intro q hq
    refine ⟨h.tab, h.small, h.sorted, fun a ha => ?_, fun a ha hd b hb => ?_, hq⟩
    · dsimp only
      rw [Cells.get_set]
      by_cases he : a = ss
      · rw [if_pos (by rw [he])]
        exact ⟨fun _ => .inr he, fun _ => rfl⟩
      · rw [if_neg (by omega), h.big a ha]
        exact ⟨.inl, fun hd => hd.resolve_right he⟩
    · rcases hd with hd | rfl
      · exact h.rows a ha hd b hb
      · exact hm b hb
  unfold closeBig
  cases last with
  | true => exact ⟨_, rfl, hdone s.quadrant h.quad⟩
  | false =>
    have h1 := h.tab (ss * 256) (by omega)
    have h2 := h.tab ((ss + 1) * 256) (by omega)
    push_cast at h1 h2
    have hle := startOfPair_le block n ((ss + 1) * 256)
    obtain ⟨q, hr, hq⟩ := updateQuadrants_spec (by omega) h.quad (h.inOrder hss hm) (by omega)
    refine ⟨_, ?_, hdone q hq⟩
    rw [if_neg Bool.false_ne_true]
    have e : (s.start (((ss : Int) + 1) * 256) - s.start ((ss : Int) * 256)).toNat =
        startOfPair block n ((ss + 1) * 256) - startOfPair block n (ss * 256) := by
      rw [h1, h2]
      omega
    have e' : s.start ((ss : Int) * 256) = startOfPair block n (ss * 256) := h1
    unfold MainState.start at e e' ⊢
    dsimp only
    rw [e, e', hr]
    rfl

/-! ## 3. `mainSort` -/

/-- **One round** of the main loop. -/
theorem sortBig_spec (hn : bzNOvershoot < n) (hmax : n < 2 ^ 21) (hb : Overshot block n)
    (h : MainInv block n done s) (hss : ss < 256) (hnew : ¬ done ss) {order : Cells Int} {i : Nat}
    (hi : order i = ss) :
    (∃ t, sortBig block n order i s = .ok (.inl t) ∧ MainInv block n (fun a => done a ∨ a = ss) t) ∨
    ∃ r, sortBig block n order i s = .ok (.inr r) ∧ r.budget.slt 0 = true := by
  unfold sortBig
  dsimp only
  rw [hi]
  rcases sortSmalls_spec hn hmax hb h hss with ⟨t, ht, hT, hm⟩ | ⟨r, hr, hslt⟩
  · have hfresh : t.bigDone ss = false := by
      cases hd : t.bigDone ss with
      | false => rfl
      | true => exact absurd ((hT.big ss hss).mp hd) hnew
    obtain ⟨u, hu, hU, -, hrow⟩ := scanBig_spec (by omega) hT hss hfresh hm
    obtain ⟨v, hv, hV⟩ := closeBig_spec hn hmax hU hss hrow (decide (255 ≤ i))
    refine .inl ⟨v, ?_, hV⟩
    rw [ht]
    simp only [bind, Except.bind, assertH, hfresh, Bool.not_false, if_true, hu, hv]
  · refine .inr ⟨r, ?_, hslt⟩
    rw [hr]
    rfl

/-- **All big buckets done**: the block is sorted. -/
theorem MainInv.rotSort (h : MainInv block n done s) (hall : ∀ a : Nat, a < 256 → done a) :
    RotSort (sym block) n s.ptr := by
  refine ⟨h.small.injOn, fun p h0 h1 => ?_, fun p q hl hpq hh => ?_⟩
  · obtain ⟨c, -, hc⟩ := exists_inBucket block n h0 (show p < n by omega)
    obtain ⟨k0, k1, -⟩ := h.small.cell c p hc
    omega
  · obtain ⟨c, hc, hp⟩ := exists_inBucket block n hl (show p < n by omega)
    obtain ⟨c', -, hq⟩ := exists_inBucket block n (show 0 ≤ q by omega)
      (show q < n by omega)
    refine h.small.ord hp hq hpq (h.sorted c hc ?_)
    have hm := h.rows (c / 256) (by omega) (hall _ (by omega)) (c % 256) (Nat.mod_lt _ (by omega))
    rwa [Nat.div_add_mod' c 256] at hm

/-- **Before the main loop.** -/
theorem mainInv_start (hmax : n < 2 ^ 21) {ftab : Cells Word32} {ptr : Cells Int}
    {quadrant : Cells (BitVec 16)}
    (htab : ∀ c : Nat, c ≤ 65536 → (ftab c).toNat = below (pairAt block n) n c)
    (hptr : ∀ x : Nat, x < n → ptr (place (pairAt block n) n x) = x) (hq : Quadrants block n quadrant)
    (budget : Word32) : MainInv block n (fun _ => False) ⟨ptr, quadrant, ftab, .ofFn fun _ => false, budget⟩ := by
  have hlt : ∀ c : Nat, c ≤ 65536 → (ftab c).toNat < 2 ^ 21 := by
    intro c hc
    rw [htab c hc]
    exact (below_le _ _).trans_lt hmax
  refine ⟨fun c hc => ?_, buckets_of_place hptr, fun c hc hm => ?_, fun a ha => ?_,
    fun a _ hd => hd.elim, hq⟩
  · unfold MainState.start
    dsimp only
    rw [and_clear_of_lt (hlt c hc), htab c hc]
    rfl
  · exact absurd (and_set_of_lt (hlt c (by omega))) hm
  · exact ⟨fun h => Bool.noConfusion h, fun h => h.elim⟩

/-- Blocks that agree have the same rotations. -/
theorem pre_agree {α : Type*} {T T' : Int → α} (hn : 0 < n)
    (h : ∀ x : Int, 0 ≤ x → x < n → T x = T' x) :
    ∀ (k : Nat) (x : Int), pre T n k x = pre T' n k x := by
  intro k
  induction k with
  | zero => exact fun x => rfl
  | succ k ih =>
    intro x
    rw [pre, pre, ih, h _ (Int.emod_nonneg _ (by omega)) (Int.emod_lt_of_pos _ (by omega))]

theorem sym_agree {block block' : Cells Byte} (h : ∀ x : Int, 0 ≤ x → x < n → block' x = block x) :
    ∀ x : Int, 0 ≤ x → x < n → sym block' x = sym block x := by
  intro x h0 h1
  unfold sym
  rw [h x h0 h1]

theorem rotSort_agree {block block' : Cells Byte} (hn : 0 < n)
    (h : ∀ x : Int, 0 ≤ x → x < n → block' x = block x) {f : Cells Int}
    (hR : RotSort (sym block') n f) : RotSort (sym block) n f := by
  refine ⟨hR.inj, hR.range, fun p q hl hpq hh => ?_⟩
  have := hR.ord p q hl hpq hh
  rwa [pre_agree hn (sym_agree h), pre_agree hn (sym_agree h)] at this

theorem pairAt_agree {block block' : Cells Byte} (hn : 0 < n)
    (h : ∀ x : Int, 0 ≤ x → x < n → block' x = block x) {x : Int} (h0 : 0 ≤ x) (h1 : x < n) :
    pairAt block' n x = pairAt block n x := by
  obtain ⟨s0, s1⟩ := succ_range (n := n) (x := x) hn
  unfold pairAt
  rw [sym_agree h x h0 h1, sym_agree h _ s0 s1]

theorem MainInv.congr {done' : Nat → Prop} (h : MainInv block n done s) (e : ∀ a, done a ↔ done' a) :
    MainInv block n done' s :=
  ⟨h.tab, h.small, h.sorted, fun a ha => (h.big a ha).trans (e a),
    fun a ha hd => h.rows a ha ((e a).mpr hd), h.quad⟩

/-- **The main loop** comes to every big bucket. -/
theorem sortBigs_spec (hn : bzNOvershoot < n) (hmax : n < 2 ^ 21) (hb : Overshot block n)
    {order : Cells Int} (hperm : PermOn 0 255 (Cells.ofFn fun i => i) order)
    (h : MainInv block n (fun _ => False) s) :
    (∃ t, forReturn 256 (sortBig block n order) s = .ok (.inl t) ∧ RotSort (sym block) n t.ptr) ∨
    ∃ r, forReturn 256 (sortBig block n order) s = .ok (.inr r) ∧ r.budget.slt 0 = true := by
  have hinj : InjOn 0 255 order := hperm.injOn fun i j _ _ _ _ e => e
  have hrange : ∀ i : Int, 0 ≤ i → i ≤ 255 → 0 ≤ order i ∧ order i ≤ 255 :=
    hperm.forall (P := fun v => 0 ≤ v ∧ v ≤ 255) fun i h0 h1 => ⟨h0, h1⟩
  refine (forReturn_spec (fun i t => MainInv block n (fun a => ∃ k : Nat, k < i ∧ order k = a) t)
    (fun r : MainState => r.budget.slt 0 = true) ?_ 256 ?_).imp_left ?_
  · exact h.congr fun a => ⟨False.elim, fun ⟨k, hk, _⟩ => absurd hk (Nat.not_lt_zero k)⟩
  · intro i t hi ht
    obtain ⟨h0, h1⟩ := hrange i (by omega) (by omega)
    have hss : order i = ((order i).toNat : Int) := (Int.toNat_of_nonneg h0).symm
    have hnew : ¬ ∃ k : Nat, k < i ∧ order k = ((order i).toNat : Int) := by
      rintro ⟨k, hk, e⟩
      have := hinj k i (by omega) (by omega) (by omega) (by omega) (e.trans hss.symm)
      omega
    refine (sortBig_spec hn hmax hb ht (by omega) hnew hss).imp_left ?_
    rintro ⟨u, hu, hU⟩
    refine ⟨u, hu, hU.congr fun a => ⟨?_, ?_⟩⟩
    · rintro (⟨k, hk, e⟩ | rfl)
      · exact ⟨k, by omega, e⟩
      · exact ⟨i, by omega, hss⟩
    · rintro ⟨k, hk, e⟩
      rcases Nat.lt_succ_iff_lt_or_eq.mp hk with hlt | rfl
      · exact .inl ⟨k, hlt, e⟩
      · exact .inr (by omega)
  · rintro ⟨t, ht, hT⟩
    refine ⟨t, ht, hT.rotSort fun a ha => ?_⟩
    obtain ⟨k, k0, k1, e⟩ := hperm.hits (v := (a : Int)) ⟨a, by omega, by omega, rfl⟩
    exact ⟨k.toNat, by omega, by rw [Int.toNat_of_nonneg k0, e]⟩

/-- **`mainSort` sorts the rotations** unless it runs out of budget, and no assertion fires. -/
theorem mainSort_spec (hn : bzNOvershoot < n) (hmax : n < 2 ^ 21) (ptr : Cells Int)
    (block : Cells Byte) (quadrant : Cells (BitVec 16)) (ftab : Cells Word32) (budget : Word32) :
    ∃ p b f g, mainSort ptr block quadrant ftab n budget = .ok (p, b, f, g) ∧
      (∀ x : Int, 0 ≤ x → x < n → b x = block x) ∧
      (g.slt 0 = false → RotSort (sym block) n p) := by
  have hpos : 0 < n := by omega
  obtain ⟨hcnt, hzero⟩ := countPairs_spec block hpos hmax ftab quadrant
  obtain ⟨hblock, hover, hquad⟩ := overshoot_spec block n hn hzero
  have hagree : ∀ x : Int, 0 ≤ x → x < n →
      (overshoot block n (countPairs block n ftab quadrant).quadrant).1 x = block x :=
    fun x _ h1 => hblock x h1
  have hsum : ∀ c : Nat, c ≤ 65536 → ((sumPairs (countPairs block n ftab quadrant).ftab) c).toNat =
      below (pairAt (overshoot block n (countPairs block n ftab quadrant).quadrant).1 n) n (c + 1) :=
    fun c hc => sumPairs_spec hmax (fun c hc => by
      rw [hcnt c hc]
      exact holding_congr (fun x hx => (pairAt_agree hpos hagree (by omega) (by omega)).symm) c) hc
  obtain ⟨htab, hptr⟩ := placePairs_spec _ hsum ptr
  unfold mainSort
  dsimp only
  rcases sortBigs_spec hn hmax hover (runningOrder_perm _)
    (mainInv_start hmax htab hptr hquad budget) with ⟨t, ht, hT⟩ | ⟨r, hr, hslt⟩
  · refine ⟨t.ptr, _, t.ftab, t.budget, ?_, hagree, fun _ => rotSort_agree hpos hagree hT⟩
    rw [ht]
    rfl
  · refine ⟨r.ptr, _, r.ftab, r.budget, ?_, hagree, fun hf => absurd hslt (by rw [hf]; decide)⟩
    rw [hr]
    rfl

/-! ## 4. `BZ2_blockSort` -/

/-- `t` is `s` with its block sorted, and the row of the block itself found. -/
structure SortState.Sorted (s t : SortState) : Prop where
  nblock : t.nblock = s.nblock
  sort : RotSort (sym s.block) s.nblock t.ptr
  origPtr : 0 ≤ t.origPtr ∧ t.origPtr < s.nblock ∧ t.ptr t.origPtr = 0
  block : ∀ x, 0 ≤ x → x < s.nblock → t.block x = s.block x

/-- The last part of `BZ2_blockSort`, after a sort. -/
theorem SortState.sorted_found {s : SortState} (h1 : 1 ≤ s.nblock) {p : Cells Int} {b : Cells Byte}
    (f : Cells Word32) (hR : RotSort (sym s.block) s.nblock p)
    (hb : ∀ x, 0 ≤ x → x < s.nblock → b x = s.block x) :
    ∃ t, (assertH (decide (findRow p s.nblock.toNat 0 ≠ -1)) 1003).bind (fun _ =>
        Except.ok { s with ptr := p, block := b, ftab := f, origPtr := findRow p s.nblock.toNat 0 }) =
          .ok t ∧ s.Sorted t := by
  obtain ⟨k0, k1, hk⟩ := findRow_of_rotSort h1 hR
  have hne : findRow p s.nblock.toNat 0 ≠ -1 := by omega
  refine ⟨{ s with ptr := p, block := b, ftab := f, origPtr := findRow p s.nblock.toNat 0 }, ?_, rfl,
    hR, ⟨k0, by dsimp only; omega, hk⟩, hb⟩
  simp only [assertH, hne, Except.bind, ne_eq, not_false_eq_true, decide_true, if_true]

/-- **The reference's `BZ2_blockSort` is a sort of the rotations**, for every work factor: no
    assertion fires, and it finds the row of the block itself. -/
theorem refBlockSort_sorts (wfact : Int) (quadrant : Cells (BitVec 16)) (s : SortState)
    (h1 : 1 ≤ s.nblock) (hmax : s.nblock < 2 ^ 21) :
    ∃ t, refBlockSort wfact quadrant s = .ok t ∧ s.Sorted t := by
  unfold refBlockSort
  by_cases hsmall : s.nblock < 10000
  · obtain ⟨f, e, b, hf, hR, he⟩ := fallbackSort_spec s.ptr s.block s.ftab h1 (by omega)
    rw [if_pos hsmall, hf]
    exact SortState.sorted_found h1 b hR he
  · have hn : ((s.nblock.toNat : Nat) : Int) = s.nblock := Int.toNat_of_nonneg (by omega)
    rw [if_neg hsmall]
    dsimp only
    obtain ⟨p, b, f, g, hm, hb, hR⟩ := mainSort_spec (n := s.nblock.toNat)
      (show bzNOvershoot < s.nblock.toNat by unfold bzNOvershoot; omega) (by omega) s.ptr s.block
      quadrant s.ftab _
    rw [hn] at hb hR
    rw [hm]
    simp only [bind, Except.bind]
    cases hg : g.slt 0 with
    | false =>
      rw [if_neg Bool.false_ne_true]
      exact SortState.sorted_found h1 f (hR hg) hb
    | true =>
      -- the budget is used up: the fallback sort starts anew, on the block with its overshoot
      obtain ⟨f', e', b', hf, hR', he⟩ := fallbackSort_spec p b f h1 (by omega)
      rw [if_pos rfl, hf]
      have hall : RotSort (sym s.block) (s.nblock.toNat : Nat) f' :=
        rotSort_agree (by omega) (fun x h0 hx => hb x h0 (by omega)) (by rw [hn]; exact hR')
      rw [hn] at hall
      exact SortState.sorted_found h1 b' hall fun x h0 hx => (he x h0 hx).trans (hb x h0 hx)

theorem refBlockSort_sorts_main :
    10000 ≤ (⟨.ofFn fun _ => 0, .ofFn fun i => BitVec.ofInt 8 i, .ofFn fun _ => 0, 20000, 0⟩ :
      SortState).nblock ∧
    ∃ t, refBlockSort 30 (.ofFn fun _ => 0)
        ⟨.ofFn fun _ => 0, .ofFn fun i => BitVec.ofInt 8 i, .ofFn fun _ => 0, 20000, 0⟩ = .ok t ∧
      SortState.Sorted
        ⟨.ofFn fun _ => 0, .ofFn fun i => BitVec.ofInt 8 i, .ofFn fun _ => 0, 20000, 0⟩ t :=
  ⟨by decide, refBlockSort_sorts 30 _ _ (by decide) (by decide)⟩

end Qbz2
