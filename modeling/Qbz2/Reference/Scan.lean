/-
  File:      Qbz2/Reference/Scan.lean
  Subject:   A scan of a big bucket: the rotations before those of the big bucket, in order, go to
             small buckets, in order.

  * `before n x` -- the rotation before; `Leads ss R x` -- a rotation that starts with `ss`, once or
    more, and goes on with a byte with `R`; `leads_le`, `leads_or` -- those that go on with less come
    before those that go on with more, and there are no others;
  * `Fine`, `placed` -- what a scan has read, and what it has put in a small bucket: `Fine.queue`,
    since a scan reads what it has put into `[ss, ss]` itself;
  * `ScanSetup`, `InScan` -- the hypotheses and the invariant of a scan, up or down;
    **`scanBucket_spec`**.
-/
import Qbz2.Reference.PairSort

namespace Qbz2

open Loop Segment Rotation Counting

variable {block : Cells Byte} {n : Nat} {ss : Nat} {dir : Int}

/-! ## 1. The rotation before -/

/-- `k = x - 1; if (k < 0) k += nblock`. -/
def before (n : Nat) (x : Int) : Int := if x - 1 < 0 then x - 1 + n else x - 1

theorem before_range {x : Int} (h0 : 0 ≤ x) (h1 : x < n) : 0 ≤ before n x ∧ before n x < n := by
  unfold before
  split <;> omega

theorem before_succ {x : Int} (h0 : 0 ≤ x) (h1 : x < n) : (before n x + 1) % n = x := by
  unfold before
  split
  · obtain rfl : x = 0 := by omega
    rw [show (0 - 1 + (n : Int) + 1) = n by omega, Int.emod_self]
  · rw [show x - 1 + 1 = x by omega, Int.emod_eq_of_lt h0 h1]

theorem before_of_succ {x : Int} (h0 : 0 ≤ x) (h1 : x < n) : before n ((x + 1) % n) = x := by
  unfold before
  by_cases hx : x + 1 = n
  · rw [hx, Int.emod_self, if_pos (by omega)]
    omega
  · rw [Int.emod_eq_of_lt (by omega) (by omega), if_neg (by omega)]
    omega

theorem succ_range {x : Int} (hn : 0 < n) : 0 ≤ (x + 1) % n ∧ (x + 1) % n < n :=
  ⟨Int.emod_nonneg _ (by omega), Int.emod_lt_of_pos _ (by omega)⟩

theorem pairAt_before {x : Int} (h0 : 0 ≤ x) (h1 : x < n) :
    pairAt block n (before n x) = sym block (before n x) * 256 + sym block x := by
  unfold pairAt
  rw [before_succ h0 h1]

/-- **The same first byte**, and what follows in order. -/
theorem rot_cons_le {x y : Int} (hx0 : 0 ≤ x) (hx1 : x < n) (hy0 : 0 ≤ y) (hy1 : y < n)
    (he : sym block x = sym block y)
    (h : rot (sym block) n ((x + 1) % n) ≤ rot (sym block) n ((y + 1) % n)) :
    rot (sym block) n x ≤ rot (sym block) n y := by
  have hone : pre (sym block) n 1 x = pre (sym block) n 1 y := by
    rw [pre, pre, pre, pre, Int.emod_eq_of_lt hx0 hx1, Int.emod_eq_of_lt hy0 hy1, he]
  refine rot_le_of_agree hone ?_
  rwa [rot_congr (Int.emod_emod (x + 1) n), rot_congr (Int.emod_emod (y + 1) n)] at h

/-- Pairs that differ. -/
theorem rot_le_of_pair {x y : Int} (hx0 : 0 ≤ x) (hx1 : x < n) (hy0 : 0 ≤ y) (hy1 : y < n)
    (h : pairAt block n x < pairAt block n y) : rot (sym block) n x ≤ rot (sym block) n y := by
  have h1 := sym_lt block ((x + 1) % n)
  have h2 := sym_lt block ((y + 1) % n)
  unfold pairAt at h
  rcases Nat.lt_or_ge (sym block x) (sym block y) with hlt | hge
  · refine rot_le_of_lt (by omega) ?_
    rwa [Int.emod_eq_of_lt hx0 hx1, Int.emod_eq_of_lt hy0 hy1]
  · refine rot_cons_le hx0 hx1 hy0 hy1 (by omega) (rot_le_of_lt (by omega) ?_)
    rw [Int.emod_emod, Int.emod_emod]
    omega

/-! ## 2. Rotations that start with one byte -/

/-- A rotation that starts with `ss`, once or more, and goes on with a byte with `R`. -/
inductive Leads (block : Cells Byte) (n ss : Nat) (R : Nat → Prop) : Int → Prop where
  | base {x : Int} (h0 : 0 ≤ x) (h1 : x < n) (hs : sym block x = ss)
      (hr : R (sym block ((x + 1) % n))) : Leads block n ss R x
  | step {x : Int} (h0 : 0 ≤ x) (h1 : x < n) (hs : sym block x = ss)
      (h : Leads block n ss R ((x + 1) % n)) : Leads block n ss R x

theorem Leads.start {R : Nat → Prop} {x : Int} (h : Leads block n ss R x) :
    0 ≤ x ∧ x < n ∧ sym block x = ss := by
  cases h with
  | base h0 h1 hs _ => exact ⟨h0, h1, hs⟩
  | step h0 h1 hs _ => exact ⟨h0, h1, hs⟩

/-- **Less before more.** -/
theorem leads_le {x y : Int} (hx : Leads block n ss (· < ss) x) (hy : Leads block n ss (ss < ·) y) :
    rot (sym block) n x ≤ rot (sym block) n y := by
  induction hx generalizing y with
  | @base x h0 h1 hs hr =>
    obtain ⟨k0, k1, ks⟩ := hy.start
    refine rot_cons_le h0 h1 k0 k1 (hs.trans ks.symm) (rot_le_of_lt (by omega) ?_)
    rw [Int.emod_emod, Int.emod_emod]
    cases hy with
    | base _ _ _ hr' => exact Nat.lt_trans hr hr'
    | step _ _ _ h' =>
      rw [h'.start.2.2]
      exact hr
  | @step x h0 h1 hs h ih =>
    obtain ⟨k0, k1, ks⟩ := hy.start
    refine rot_cons_le h0 h1 k0 k1 (hs.trans ks.symm) ?_
    cases hy with
    | base _ _ _ hr' =>
      refine rot_le_of_lt (by omega) ?_
      rw [Int.emod_emod, Int.emod_emod, h.start.2.2]
      exact hr'
    | step _ _ _ h' => exact ih h'

/-- Not both. -/
theorem leads_not_both {x : Int} (hx : Leads block n ss (· < ss) x) :
    ¬ Leads block n ss (ss < ·) x := by
  induction hx with
  | @base x h0 h1 hs hr =>
    intro hy
    cases hy with
    | base _ _ _ hr' => exact absurd (Nat.lt_trans hr hr') (Nat.lt_irrefl _)
    | step _ _ _ h' => exact absurd (h'.start.2.2 ▸ hr) (Nat.lt_irrefl _)
  | @step x h0 h1 hs h ih =>
    intro hy
    cases hy with
    | base _ _ _ hr' => exact absurd (h.start.2.2 ▸ hr') (Nat.lt_irrefl _)
    | step _ _ _ h' => exact ih h'

/-- **No others**, unless all bytes are the same. -/
theorem leads_or {y : Int} (hy0 : 0 ≤ y) (hy1 : y < n) (hy : sym block y ≠ ss) {x : Int}
    (hx0 : 0 ≤ x) (hx1 : x < n) (hx : sym block x = ss) :
    Leads block n ss (· < ss) x ∨ Leads block n ss (ss < ·) x := by
  have hgo : ∀ (k : Nat) (x : Int), 0 ≤ x → x < n → sym block x = ss → (x + k) % n = y →
      Leads block n ss (· < ss) x ∨ Leads block n ss (ss < ·) x := by
    intro k
    induction k with
    | zero =>
      intro x h0 h1 hs he
      rw [Nat.cast_zero, Int.add_zero, Int.emod_eq_of_lt h0 h1] at he
      exact absurd (he ▸ hs) hy
    | succ k ih =>
      intro x h0 h1 hs he
      obtain ⟨s0, s1⟩ := succ_range (n := n) (x := x) (by omega)
      rcases Nat.lt_trichotomy (sym block ((x + 1) % n)) ss with hlt | heq | hgt
      · exact .inl (.base h0 h1 hs hlt)
      · have he' : ((x + 1) % n + k) % n = y := by
          rw [Int.emod_add_emod, ← he, Nat.cast_succ]
          congr 1
          omega
        exact (ih _ s0 s1 heq he').imp (.step h0 h1 hs) (.step h0 h1 hs)
      · exact .inr (.base h0 h1 hs hgt)
  refine hgo ((y - x) % n).toNat x hx0 hx1 hx ?_
  rw [Int.toNat_of_nonneg (Int.emod_nonneg _ (by omega)), Int.add_emod_emod,
    show x + (y - x) = y by omega, Int.emod_eq_of_lt hy0 hy1]

/-! ## 3. What a scan reads -/

/-- The bytes on the side a scan comes from. -/
def Side (dir : Int) (ss c : Nat) : Prop := 0 < dir * ((ss : Int) - c)

/-- In the order of a scan. -/
def Goes (block : Cells Byte) (n : Nat) (dir x y : Int) : Prop :=
  if 0 < dir then rot (sym block) n x ≤ rot (sym block) n y
  else rot (sym block) n y ≤ rot (sym block) n x

/-- The rotations before those of `L`, of the ones that start with `c`. -/
def placed (block : Cells Byte) (n c : Nat) (L : List Int) : List Int :=
  (L.filter fun x => sym block (before n x) = c).map (before n)

theorem placed_append (c : Nat) (L : List Int) (x : Int) :
    placed block n c (L ++ [x]) =
      placed block n c L ++ if sym block (before n x) = c then [before n x] else [] := by
  unfold placed
  rw [List.filter_append, List.map_append]
  by_cases h : sym block (before n x) = c
  · simp [h]
  · simp [h]

/-- **What has been read**: each rotation once, in order, and all from the scan's side. -/
structure Fine (block : Cells Byte) (n ss : Nat) (dir : Int) (L : List Int) : Prop where
  nodup : L.Nodup
  ord : L.Pairwise (Goes block n dir)
  leads : ∀ x ∈ L, Leads block n ss (Side dir ss) x

theorem Fine.sublist {L M : List Int} (h : Fine block n ss dir M) (hs : L.Sublist M) :
    Fine block n ss dir L :=
  ⟨h.nodup.sublist hs, h.ord.sublist hs, fun x hx => h.leads x (hs.subset hx)⟩

theorem mem_placed {c : Nat} {L : List Int} (hL : Fine block n ss dir L) {x : Int} :
    x ∈ placed block n c L ↔
      0 ≤ x ∧ x < n ∧ pairAt block n x = c * 256 + ss ∧ (x + 1) % n ∈ L := by
  unfold placed
  rw [List.mem_map]
  constructor
  · rintro ⟨y, hy, rfl⟩
    obtain ⟨hyL, hyc⟩ := List.mem_filter.mp hy
    obtain ⟨y0, y1, ys⟩ := (hL.leads y hyL).start
    obtain ⟨b0, b1⟩ := before_range y0 y1
    rw [decide_eq_true_eq] at hyc
    rw [pairAt_before y0 y1, before_succ y0 y1, hyc, ys]
    exact ⟨b0, b1, rfl, hyL⟩
  · rintro ⟨h0, h1, hp, hm⟩
    refine ⟨(x + 1) % n, List.mem_filter.mpr ⟨hm, ?_⟩, before_of_succ h0 h1⟩
    have hs := (hL.leads _ hm).start.2.2
    have hlt := sym_lt block ((x + 1) % n)
    rw [before_of_succ h0 h1, decide_eq_true_eq]
    unfold pairAt at hp
    omega

theorem Fine.placed_nodup {L : List Int} (hL : Fine block n ss dir L) (c : Nat) :
    (placed block n c L).Nodup := by
  refine List.Nodup.map_on (fun x hx y hy e => ?_) (hL.nodup.filter _)
  obtain ⟨x0, x1, -⟩ := (hL.leads x (List.mem_of_mem_filter hx)).start
  obtain ⟨y0, y1, -⟩ := (hL.leads y (List.mem_of_mem_filter hy)).start
  rw [← before_succ x0 x1, ← before_succ y0 y1, e]

/-- The rotations before are in order too. -/
theorem Fine.placed_ord {L : List Int} (hL : Fine block n ss dir L) (c : Nat) :
    (placed block n c L).Pairwise (Goes block n dir) := by
  unfold placed
  rw [List.pairwise_map]
  refine List.Pairwise.imp_of_mem (fun {x y} hx hy hxy => ?_) (hL.ord.filter _)
  obtain ⟨hxL, hxc⟩ := List.mem_filter.mp hx
  obtain ⟨hyL, hyc⟩ := List.mem_filter.mp hy
  rw [decide_eq_true_eq] at hxc hyc
  obtain ⟨x0, x1, -⟩ := (hL.leads x hxL).start
  obtain ⟨y0, y1, -⟩ := (hL.leads y hyL).start
  obtain ⟨bx0, bx1⟩ := before_range x0 x1
  obtain ⟨by0, by1⟩ := before_range y0 y1
  unfold Goes at hxy ⊢
  split at hxy
  · rw [if_pos ‹_›]
    refine rot_cons_le bx0 bx1 by0 by1 (hxc.trans hyc.symm) ?_
    rwa [before_succ x0 x1, before_succ y0 y1]
  · rw [if_neg ‹_›]
    refine rot_cons_le by0 by1 bx0 bx1 (hyc.trans hxc.symm) ?_
    rwa [before_succ x0 x1, before_succ y0 y1]

/-- The cells a scan starts with: the small buckets `[ss, b]` on its side. -/
structure Initial (block : Cells Byte) (n ss : Nat) (dir : Int) (I : List Int) : Prop where
  nodup : I.Nodup
  ord : I.Pairwise (Goes block n dir)
  cell : ∀ x, x ∈ I ↔ 0 ≤ x ∧ x < n ∧ sym block x = ss ∧ Side dir ss (sym block ((x + 1) % n))

theorem not_side_self (dir : Int) (ss : Nat) : ¬ Side dir ss ss := by
  unfold Side
  rw [Int.sub_self, Int.mul_zero]
  exact Int.lt_irrefl 0

/-- **A scan reads what it has put** into `[ss, ss]`. -/
theorem Fine.queue (hdir : dir = 1 ∨ dir = -1) {I L : List Int} (hI : Initial block n ss dir I)
    (hL : Fine block n ss dir L) : Fine block n ss dir (I ++ placed block n ss L) := by
  have hpl : ∀ y ∈ placed block n ss L, 0 ≤ y ∧ y < n ∧ sym block y = ss ∧
      sym block ((y + 1) % n) = ss ∧ (y + 1) % n ∈ L := by
    intro y hy
    obtain ⟨h0, h1, hp, hm⟩ := (mem_placed hL).mp hy
    have hs := (hL.leads _ hm).start.2.2
    unfold pairAt at hp
    exact ⟨h0, h1, by omega, hs, hm⟩
  refine ⟨?_, ?_, fun x hx => ?_⟩
  · refine List.nodup_append.mpr ⟨hI.nodup, hL.placed_nodup ss, fun x hx y hy e => ?_⟩
    obtain ⟨-, -, -, hside⟩ := (hI.cell x).mp hx
    rw [e, (hpl y hy).2.2.2.1] at hside
    exact not_side_self dir ss hside
  · refine List.pairwise_append.mpr ⟨hI.ord, hL.placed_ord ss, fun x hx y hy => ?_⟩
    obtain ⟨x0, x1, xs, hside⟩ := (hI.cell x).mp hx
    obtain ⟨y0, y1, ys, ys', -⟩ := hpl y hy
    unfold Goes
    unfold Side at hside
    rcases hdir with rfl | rfl
    · rw [if_pos (by decide)]
      refine rot_le_of_pair x0 x1 y0 y1 ?_
      unfold pairAt
      omega
    · rw [if_neg (by decide)]
      refine rot_le_of_pair y0 y1 x0 x1 ?_
      unfold pairAt
      omega
  · rcases List.mem_append.mp hx with hx | hx
    · obtain ⟨h0, h1, hs, hside⟩ := (hI.cell x).mp hx
      exact .base h0 h1 hs hside
    · obtain ⟨h0, h1, hs, -, hm⟩ := hpl x hx
      exact .step h0 h1 hs (hL.leads _ hm)

/-- **A scan that has come to its end** has read all on its side. -/
theorem Initial.complete {I L : List Int} (hI : Initial block n ss dir I) (hL : Fine block n ss dir L)
    (hend : L = I ++ placed block n ss L) {x : Int} (hx : Leads block n ss (Side dir ss) x) : x ∈ L := by
  induction hx with
  | @base x h0 h1 hs hr =>
    rw [hend]
    exact List.mem_append_left _ ((hI.cell x).mpr ⟨h0, h1, hs, hr⟩)
  | @step x h0 h1 hs h ih =>
    rw [hend]
    refine List.mem_append_right _ ((mem_placed hL).mpr ⟨h0, h1, ?_, ih⟩)
    unfold pairAt
    rw [hs, h.start.2.2]

/-! ## 4. The scan -/

/-- A small bucket has room for different rotations with its pair. -/
theorem length_le_bucket {c : Nat} {l : List Int} (hnd : l.Nodup)
    (hmem : ∀ x ∈ l, 0 ≤ x ∧ x < n ∧ pairAt block n x = c) :
    startOfPair block n c + l.length ≤ startOfPair block n (c + 1) := by
  have hcard : l.length ≤ holding (pairAt block n) n c := by
    unfold holding
    rw [Nat.count_eq_card_filter_range, ← List.toFinset_card_of_nodup hnd]
    refine Finset.card_le_card_of_injOn Int.toNat (fun x hx => ?_) fun x hx y hy e => ?_
    · obtain ⟨h0, h1, hc⟩ := hmem x (List.mem_toFinset.mp hx)
      rw [Finset.coe_filter, Set.mem_ofPred_eq, Finset.mem_range, Int.toNat_of_nonneg h0]
      exact ⟨by omega, hc⟩
    · obtain ⟨h0, -, -⟩ := hmem x (List.mem_toFinset.mp hx)
      obtain ⟨k0, -, -⟩ := hmem y (List.mem_toFinset.mp hy)
      omega
  unfold startOfPair
  rw [below_succ]
  omega

/-- All of them fill it. -/
theorem length_eq_bucket {c : Nat} {l : List Int} (hnd : l.Nodup)
    (hmem : ∀ x, x ∈ l ↔ 0 ≤ x ∧ x < n ∧ pairAt block n x = c) :
    startOfPair block n c + l.length = startOfPair block n (c + 1) := by
  have hle := length_le_bucket hnd fun x hx => (hmem x).mp hx
  have hcard : holding (pairAt block n) n c ≤ l.length := by
    unfold holding
    rw [Nat.count_eq_card_filter_range, ← List.toFinset_card_of_nodup hnd]
    refine Finset.card_le_card_of_injOn (fun k : Nat => (k : Int)) (fun k hk => ?_) fun x _ y _ e => ?_
    · rw [Finset.coe_filter, Set.mem_ofPred_eq, Finset.mem_range] at hk
      exact List.mem_toFinset.mpr ((hmem k).mpr ⟨by omega, by omega, hk.2⟩)
    · exact Int.ofNat_inj.mp e
  unfold startOfPair at hle ⊢
  rw [below_succ] at hle ⊢
  omega

/-- Where a scan starts to fill a small bucket: its first cell, or its last. -/
def edge (block : Cells Byte) (n : Nat) (dir : Int) (c : Nat) : Int :=
  if 0 < dir then startOfPair block n c else startOfPair block n (c + 1) - 1

/-- **What a scan of the big bucket `ss` starts with.** -/
structure ScanSetup (block : Cells Byte) (n ss : Nat) (dir : Int) (bigDone : Cells Bool)
    (p0 c0 : Cells Int) (j0 : Int) (I : List Int) : Prop where
  unit : dir = 1 ∨ dir = -1
  ss_lt : ss < 256
  fresh : bigDone ss = false
  copy : ∀ c : Nat, c < 256 → c0 c = edge block n dir (c * 256 + ss)
  initial : Initial block n ss dir I
  read : ∀ (k : Nat) (h : k < I.length), p0 (j0 + dir * k) = I[k]
  last : edge block n dir (ss * 256 + ss) = j0 + dir * I.length
  inside : ∀ k : Nat, k < I.length → ∃ b, b < 256 ∧ b ≠ ss ∧ InBucket block n (ss * 256 + b) (j0 + dir * k)

/-- **The invariant of a scan** that has read `L`. -/
structure InScan (block : Cells Byte) (n ss : Nat) (dir : Int) (bigDone : Cells Bool)
    (p0 : Cells Int) (j0 : Int) (I L : List Int) (s : BucketScan) : Prop where
  fine : Fine block n ss dir L
  queue : L <+: I ++ placed block n ss L
  j : s.j = j0 + dir * L.length
  copy : ∀ c : Nat, c < 256 → bigDone c = false →
    s.copy c = edge block n dir (c * 256 + ss) + dir * (placed block n c L).length
  cells : ∀ c : Nat, c < 256 → bigDone c = false → ∀ (k : Nat) (h : k < (placed block n c L).length),
    s.ptr (edge block n dir (c * 256 + ss) + dir * k) = (placed block n c L)[k]
  frame : ∀ p, (∀ c : Nat, c < 256 → bigDone c = false → ∀ k < (placed block n c L).length,
    p ≠ edge block n dir (c * 256 + ss) + dir * k) → s.ptr p = p0 p

section Scan

variable {bigDone : Cells Bool} {p0 c0 : Cells Int} {j0 : Int} {I L : List Int} {s : BucketScan}

/-- What is put stays in its small bucket. -/
theorem Fine.inBucket (hdir : dir = 1 ∨ dir = -1) (hL : Fine block n ss dir L) {c k : Nat}
    (hk : k < (placed block n c L).length) :
    InBucket block n (c * 256 + ss) (edge block n dir (c * 256 + ss) + dir * k) := by
  have hle := length_le_bucket (hL.placed_nodup c) fun x hx =>
    ⟨((mem_placed hL).mp hx).1, ((mem_placed hL).mp hx).2.1, ((mem_placed hL).mp hx).2.2.1⟩
  unfold InBucket edge
  rcases hdir with rfl | rfl
  · rw [if_pos (by decide)]
    omega
  · rw [if_neg (by decide)]
    omega

/-- The next cell is the next of the queue. -/
theorem InScan.next (hS : ScanSetup block n ss dir bigDone p0 c0 j0 I)
    (h : InScan block n ss dir bigDone p0 j0 I L s) (hlt : L.length < (I ++ placed block n ss L).length) :
    s.ptr s.j = (I ++ placed block n ss L)[L.length] := by
  rw [h.j]
  by_cases hI : L.length < I.length
  · rw [List.getElem_append_left hI, ← hS.read _ hI]
    obtain ⟨b, hb256, hb, hin⟩ := hS.inside _ hI
    refine h.frame _ fun c _ _ k hk e => hb ?_
    have hin' := h.fine.inBucket hS.unit hk
    rw [← e] at hin'
    have := hin.unique hin'
    have := hS.ss_lt
    omega
  · have hk : L.length - I.length < (placed block n ss L).length := by
      rw [List.length_append] at hlt
      omega
    rw [List.getElem_append_right (by omega), ← h.cells ss hS.ss_lt hS.fresh _ hk, hS.last]
    congr 1
    rcases hS.unit with rfl | rfl <;> omega

/-- What has been read, with one more. -/
theorem InScan.more (hS : ScanSetup block n ss dir bigDone p0 c0 j0 I)
    (h : InScan block n ss dir bigDone p0 j0 I L s) (hlt : L.length < (I ++ placed block n ss L).length) :
    Fine block n ss dir (L ++ [(I ++ placed block n ss L)[L.length]]) ∧
      L ++ [(I ++ placed block n ss L)[L.length]] <+:
        I ++ placed block n ss (L ++ [(I ++ placed block n ss L)[L.length]]) := by
  have hpre : L ++ [(I ++ placed block n ss L)[L.length]] <+: I ++ placed block n ss L := by
    have htake : L = (I ++ placed block n ss L).take L.length := List.prefix_iff_eq_take.mp h.queue
    have hsucc : (I ++ placed block n ss L).take (L.length + 1) =
        (I ++ placed block n ss L).take L.length ++ [(I ++ placed block n ss L)[L.length]] := by
      rw [List.take_add_one, List.getElem?_eq_getElem hlt]
      rfl
    rw [← htake] at hsucc
    rw [← hsucc]
    exact List.take_prefix _ _
  refine ⟨(h.fine.queue hS.unit hS.initial).sublist hpre.sublist, hpre.trans ?_⟩
  rw [placed_append, ← List.append_assoc]
  exact List.prefix_append _ _

theorem length_placed_concat (x : Int) :
    (placed block n (sym block (before n x)) (L ++ [x])).length =
      (placed block n (sym block (before n x)) L).length + 1 := by
  rw [placed_append, if_pos rfl, List.length_append, List.length_singleton]

/-- A rotation whose small bucket belongs to a big one that is done is read, and nothing is put. -/
theorem InScan.skip (h : InScan block n ss dir bigDone p0 j0 I L s) {x : Int}
    (hfine : Fine block n ss dir (L ++ [x])) (hqueue : L ++ [x] <+: I ++ placed block n ss (L ++ [x]))
    (hj : s.j + dir = j0 + dir * ((L ++ [x]).length : Int))
    (hdone : bigDone (sym block (before n x) : Nat) = true) :
    InScan block n ss dir bigDone p0 j0 I (L ++ [x]) { s with j := s.j + dir } := by
  have hpl : ∀ c : Nat, bigDone c = false → placed block n c (L ++ [x]) = placed block n c L := by
    intro c hcd
    rw [placed_append, if_neg (fun e => by rw [← e, hdone] at hcd; cases hcd), List.append_nil]
  refine ⟨hfine, hqueue, hj, fun c hc hcd => ?_, fun c hc hcd => ?_, fun p hp => ?_⟩
  · rw [hpl c hcd]
    exact h.copy c hc hcd
  · rw [hpl c hcd]
    exact h.cells c hc hcd
  · refine h.frame p fun c hc hcd => ?_
    rw [← hpl c hcd]
    exact hp c hc hcd

/-- The next cell of a small bucket is none of those filled before, in this bucket or another. -/
theorem InScan.apart (hS : ScanSetup block n ss dir bigDone p0 c0 j0 I)
    (h : InScan block n ss dir bigDone p0 j0 I L s) {x : Int}
    (hfine : Fine block n ss dir (L ++ [x])) (hdone : bigDone (sym block (before n x) : Nat) = false)
    {c k : Nat} (hk : k < (placed block n c L).length) :
    edge block n dir (c * 256 + ss) + dir * k ≠ s.copy (sym block (before n x) : Nat) := by
  have hcp := h.copy _ (sym_lt block (before n x)) hdone
  intro e
  have h1 := hfine.inBucket hS.unit (c := c) (k := k) (by
    rw [placed_append, List.length_append]
    omega)
  have h2 := hfine.inBucket hS.unit (c := sym block (before n x))
    (k := (placed block n (sym block (before n x)) L).length) (by
      rw [length_placed_concat]
      omega)
  rw [e, hcp] at h1
  obtain rfl : c = sym block (before n x) := by
    have := h1.unique h2
    have := hS.ss_lt
    omega
  rw [hcp] at e
  rcases hS.unit with rfl | rfl <;> omega

/-- Any other goes into the next cell of its small bucket. -/
theorem InScan.put (hS : ScanSetup block n ss dir bigDone p0 c0 j0 I)
    (h : InScan block n ss dir bigDone p0 j0 I L s) {x : Int}
    (hfine : Fine block n ss dir (L ++ [x])) (hqueue : L ++ [x] <+: I ++ placed block n ss (L ++ [x]))
    (hj : s.j + dir = j0 + dir * ((L ++ [x]).length : Int))
    (hdone : bigDone (sym block (before n x) : Nat) = false) :
    InScan block n ss dir bigDone p0 j0 I (L ++ [x])
      ⟨s.ptr.set (s.copy (sym block (before n x) : Nat)) (before n x),
        s.copy.set (sym block (before n x) : Nat) (s.copy (sym block (before n x) : Nat) + dir),
        s.j + dir⟩ := by
  have hc256 := sym_lt block (before n x)
  have hcp := h.copy _ hc256 hdone
  refine ⟨hfine, hqueue, hj, fun c hc hcd => ?_, fun c hc hcd k hk => ?_, fun p hp => ?_⟩
  · dsimp only
    rw [Cells.get_set]
    by_cases he : c = sym block (before n x)
    · subst he
      rw [if_pos rfl, hcp, length_placed_concat, Nat.cast_add, Int.mul_add]
      omega
    · rw [if_neg (by omega), placed_append, if_neg (Ne.symm he), List.append_nil]
      exact h.copy c hc hcd
  · dsimp only
    by_cases hkl : k < (placed block n c L).length
    · rw [Cells.get_set_of_ne _ (h.apart hS hfine hdone hkl), h.cells c hc hcd k hkl]
      simp only [placed_append, List.getElem_append_left hkl]
    · have he : sym block (before n x) = c := by
        by_contra hne
        rw [placed_append, if_neg hne, List.append_nil] at hk
        exact hkl hk
      subst he
      have hkeq : k = (placed block n (sym block (before n x)) L).length := by
        rw [length_placed_concat] at hk
        omega
      subst hkeq
      rw [← hcp, Cells.get_set_self]
      simp only [placed_append, if_pos, List.getElem_append_right (Nat.le_refl _), Nat.sub_self,
        List.getElem_cons_zero]
  · dsimp only
    have hne : p ≠ s.copy (sym block (before n x) : Nat) := by
      rw [hcp]
      refine hp _ hc256 hdone _ ?_
      rw [length_placed_concat]
      omega
    rw [Cells.get_set_of_ne _ hne]
    refine h.frame p fun c hc hcd k hk => hp c hc hcd k ?_
    rw [placed_append, List.length_append]
    omega

/-- **One round of a scan.** -/
theorem bucketScanStep_spec (hS : ScanSetup block n ss dir bigDone p0 c0 j0 I)
    (h : InScan block n ss dir bigDone p0 j0 I L s) :
    (∃ s' x, bucketScanStep block n bigDone ss dir s = .ok (.inl s') ∧
      InScan block n ss dir bigDone p0 j0 I (L ++ [x]) s') ∨
    (bucketScanStep block n bigDone ss dir s = .ok (.inr s) ∧ L = I ++ placed block n ss L) := by
  have hcopy := h.copy ss hS.ss_lt hS.fresh
  have hj := h.j
  have hend := hS.last
  have hle := h.queue.length_le
  unfold bucketScanStep
  by_cases hg : 0 < dir * (s.copy ss - s.j)
  · left
    rw [if_pos hg]
    have hlt : L.length < (I ++ placed block n ss L).length := by
      rw [List.length_append]
      rcases hS.unit with rfl | rfl <;> omega
    have hx := h.next hS hlt
    obtain ⟨hfine, hqueue⟩ := h.more hS hlt
    generalize (I ++ placed block n ss L)[L.length] = x at hx hfine hqueue
    have hk : (if s.ptr s.j - 1 < 0 then s.ptr s.j - 1 + (n : Int) else s.ptr s.j - 1) =
        before n x := by rw [hx]; rfl
    have hjn : s.j + dir = j0 + dir * ((L ++ [x]).length : Int) := by
      rw [hj, List.length_append, List.length_singleton, Nat.cast_add, Int.mul_add]
      omega
    have hc : ((block (before n x)).toNat : Int) = (sym block (before n x) : Nat) := rfl
    dsimp only
    rw [hk, hc]
    cases hdone : bigDone (sym block (before n x) : Nat) with
    | true => exact ⟨_, x, rfl, h.skip hfine hqueue hjn hdone⟩
    | false => exact ⟨_, x, rfl, h.put hS hfine hqueue hjn hdone⟩
  · right
    rw [if_neg hg]
    refine ⟨rfl, h.queue.eq_of_length ?_⟩
    rw [List.length_append] at hle ⊢
    rcases hS.unit with rfl | rfl <;> omega

/-- What has been read is no more than the block. -/
theorem Fine.length_le (hL : Fine block n ss dir L) : L.length ≤ n := by
  rw [← List.toFinset_card_of_nodup hL.nodup]
  calc L.toFinset.card ≤ (Finset.range n).card := by
        refine Finset.card_le_card_of_injOn Int.toNat (fun x hx => ?_) fun x hx y hy e => ?_
        · obtain ⟨h0, h1, -⟩ := (hL.leads x (List.mem_toFinset.mp hx)).start
          rw [Finset.coe_range, Set.mem_Iio]
          omega
        · obtain ⟨h0, -, -⟩ := (hL.leads x (List.mem_toFinset.mp hx)).start
          obtain ⟨k0, -, -⟩ := (hL.leads y (List.mem_toFinset.mp hy)).start
          omega
    _ = n := Finset.card_range n

/-- **A scan** comes to its end. -/
theorem scanBucket_spec (hS : ScanSetup block n ss dir bigDone p0 c0 j0 I) :
    ∃ s, scanBucket block n bigDone ss dir p0 c0 j0 = .ok s ∧
      ∃ L, InScan block n ss dir bigDone p0 j0 I L s ∧ L = I ++ placed block n ss L := by
  refine iter_spec (fun s => ∃ L, InScan block n ss dir bigDone p0 j0 I L s)
    (fun s => ∃ L, InScan block n ss dir bigDone p0 j0 I L s ∧ L = I ++ placed block n ss L)
    (fun s => (n - dir * (s.j - j0)).toNat) ?_ _ _ ?_ ?_
  · rintro s ⟨L, hL⟩
    rcases bucketScanStep_spec hS hL with ⟨s', x, hs', hL'⟩ | ⟨hs, he⟩
    · refine .inl ⟨s', hs', ⟨_, hL'⟩, ?_⟩
      have h1 := hL.j
      have h2 := hL'.j
      have h3 := hL'.fine.length_le
      rw [List.length_append, List.length_singleton] at h2 h3
      rcases hS.unit with rfl | rfl <;> omega
    · exact .inr ⟨s, hs, L, hL, he⟩
  · refine ⟨[], ⟨List.nodup_nil, List.Pairwise.nil, by simp⟩, List.nil_prefix, by simp,
      fun c hc hcd => ?_, fun c hc hcd k hk => ?_, fun p _ => rfl⟩
    · dsimp only
      rw [hS.copy c hc]
      simp [placed]
    · simp [placed] at hk
  · dsimp only
    rw [Int.sub_self, Int.mul_zero]
    omega

end Scan

end Qbz2
