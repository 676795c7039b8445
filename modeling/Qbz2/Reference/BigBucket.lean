/-
  File:      Qbz2/Reference/BigBucket.lean
  Subject:   The two scans of a big bucket, one after the other: what they start with, and what they
             leave of the small buckets `[a, ss]`.

  * `rowStart`, `rowCells`, `initial_row` -- the cells of the big bucket on the side of a scan, in order;
  * `bucket_of_list` -- a small bucket, given by the list of its cells;
  * `placed_both` -- the scans meet in every small bucket, and no rotation comes in twice;
  * `Scanned` -- what they leave: **`scanned_of_other`**, and `scanned_of_all` for a block of one byte.
-/
import Qbz2.Reference.SmallBuckets

namespace Qbz2

open Loop Segment Rotation Counting

variable {block : Cells Byte} {n : Nat} {ss : Nat} {done : Nat → Prop} {s : MainState}

/-! ## 1. What the scans start with -/

/-- Cells between the starts of two small buckets. -/
theorem bucket_between (block : Cells Byte) (n lo hi : Nat) {p : Int}
    (hl : (startOfPair block n lo : Int) ≤ p)
    (hh : p < startOfPair block n hi) : ∃ c, lo ≤ c ∧ c < hi ∧ InBucket block n c p := by
  have hle := startOfPair_le block n hi
  obtain ⟨c, -, hc⟩ := exists_inBucket block n (p := p) (by omega) (by omega)
  refine ⟨c, ?_, ?_, hc⟩
  · by_contra hlt
    have := startOfPair_mono block n (show c + 1 ≤ lo by omega)
    have := hc.2
    omega
  · by_contra hge
    have := startOfPair_mono block n (show hi ≤ c by omega)
    have := hc.1
    omega

/-- Where a scan of the big bucket begins. -/
def rowStart (block : Cells Byte) (n ss : Nat) (dir : Int) : Int :=
  if 0 < dir then startOfPair block n (ss * 256) else startOfPair block n ((ss + 1) * 256) - 1

/-- How many cells there are on its side of `[ss, ss]`. -/
def rowLength (block : Cells Byte) (n ss : Nat) (dir : Int) : Nat :=
  if 0 < dir then startOfPair block n (ss * 256 + ss) - startOfPair block n (ss * 256)
  else startOfPair block n ((ss + 1) * 256) - startOfPair block n (ss * 256 + ss + 1)

/-- These cells, in the order of the scan. -/
def rowCells (block : Cells Byte) (n ss : Nat) (dir : Int) (ptr : Cells Int) : List Int :=
  (List.range (rowLength block n ss dir)).map fun k : Nat => ptr (rowStart block n ss dir + dir * k)

section Row

variable {dir : Int} {ptr : Cells Int}

/-- They are those of the small buckets on its side. -/
theorem row_inside (block : Cells Byte) (n : Nat) (hdir : dir = 1 ∨ dir = -1) (hss : ss < 256) {k : Nat}
    (hk : k < rowLength block n ss dir) : ∃ b, b < 256 ∧ b ≠ ss ∧ Side dir ss b ∧
      InBucket block n (ss * 256 + b) (rowStart block n ss dir + dir * k) := by
  unfold rowLength at hk
  unfold rowStart Side
  rcases hdir with rfl | rfl
  · rw [if_pos (by decide)] at hk ⊢
    obtain ⟨c, h1, h2, hc⟩ := bucket_between block n (ss * 256) (ss * 256 + ss)
      (p := startOfPair block n (ss * 256) + 1 * k) (by omega) (by omega)
    refine ⟨c - ss * 256, by omega, by omega, by omega, ?_⟩
    rwa [show ss * 256 + (c - ss * 256) = c by omega]
  · rw [if_neg (by decide)] at hk ⊢
    obtain ⟨c, h1, h2, hc⟩ := bucket_between block n (ss * 256 + ss + 1) ((ss + 1) * 256)
      (p := startOfPair block n ((ss + 1) * 256) - 1 + -1 * k) (by omega)
      (by omega)
    refine ⟨c - ss * 256, by omega, by omega, by omega, ?_⟩
    rwa [show ss * 256 + (c - ss * 256) = c by omega]

/-- And all of these. -/
theorem row_covers (hdir : dir = 1 ∨ dir = -1) {b : Nat} (hb : b < 256)
    (hside : Side dir ss b) {p : Int} (hp : InBucket block n (ss * 256 + b) p) :
    ∃ k, k < rowLength block n ss dir ∧ p = rowStart block n ss dir + dir * (k : Nat) := by
  obtain ⟨h1, h2⟩ := hp
  unfold rowLength rowStart
  unfold Side at hside
  rcases hdir with rfl | rfl
  · have k1 := startOfPair_mono block n (show ss * 256 ≤ ss * 256 + b by omega)
    have k2 := startOfPair_mono block n
      (show ss * 256 + b + 1 ≤ ss * 256 + ss by omega)
    rw [if_pos (by decide), if_pos (by decide)]
    exact ⟨(p - startOfPair block n (ss * 256)).toNat, by omega, by omega⟩
  · have k1 := startOfPair_mono block n
      (show ss * 256 + ss + 1 ≤ ss * 256 + b by omega)
    have k2 := startOfPair_mono block n
      (show ss * 256 + b + 1 ≤ (ss + 1) * 256 by omega)
    rw [if_neg (by decide), if_neg (by decide)]
    exact ⟨(startOfPair block n ((ss + 1) * 256) - 1 - p).toNat, by omega, by omega⟩

/-- **The cells a scan starts with** are in order. -/
theorem initial_row (hdir : dir = 1 ∨ dir = -1) (hss : ss < 256) (hB : Buckets block n ptr)
    (ho : ∀ b, b < 256 → b ≠ ss → SmallOrd block n (ss * 256 + b) ptr) :
    Initial block n ss dir (rowCells block n ss dir ptr) := by
  refine ⟨?_, ?_, fun x => ?_⟩
  · refine List.Nodup.map_on (fun k hk l hl e => ?_) List.nodup_range
    obtain ⟨b, -, -, -, hin⟩ := row_inside block n hdir hss (List.mem_range.mp hk)
    obtain ⟨b', -, -, -, hin'⟩ := row_inside block n hdir hss (List.mem_range.mp hl)
    have := hB.injOn _ _ hin.range.1 (by have := hin.range.2; omega) hin'.range.1
      (by have := hin'.range.2; omega) e
    rcases hdir with rfl | rfl <;> omega
  · unfold rowCells
    rw [List.pairwise_map]
    refine List.Pairwise.imp_of_mem (fun {k l} hk hl hkl => ?_) List.pairwise_lt_range
    obtain ⟨b, h1, h2, -, hin⟩ := row_inside block n hdir hss (List.mem_range.mp hk)
    obtain ⟨b', h1', h2', -, hin'⟩ :=
      row_inside block n hdir hss (List.mem_range.mp hl)
    unfold Goes
    rcases hdir with rfl | rfl
    · rw [if_pos (by decide)]
      exact hB.ord hin hin' (by omega) (ho b h1 h2)
    · rw [if_neg (by decide)]
      exact hB.ord hin' hin (by omega) (ho b' h1' h2')
  · unfold rowCells
    rw [List.mem_map]
    constructor
    · rintro ⟨k, hk, rfl⟩
      obtain ⟨b, h1, -, hside, hin⟩ := row_inside block n hdir hss
        (List.mem_range.mp hk)
      obtain ⟨x0, x1, hx⟩ := hB.cell _ _ hin
      have hlt := sym_lt block ((ptr (rowStart block n ss dir + dir * k) + 1) % n)
      unfold pairAt at hx
      refine ⟨x0, x1, by omega, ?_⟩
      rwa [show sym block ((ptr (rowStart block n ss dir + dir * k) + 1) % n) = b by omega]
    · rintro ⟨x0, x1, hs, hside⟩
      obtain ⟨p, hp, e⟩ := hB.hits x0 x1
      unfold pairAt at hp
      rw [hs] at hp
      obtain ⟨k, hk, rfl⟩ := row_covers hdir (sym_lt block _) hside hp
      exact ⟨k, List.mem_range.mpr hk, e⟩

/-- **A scan of the big bucket**, on an array that has kept the row. -/
theorem scanSetup_row (hdir : dir = 1 ∨ dir = -1) (hss : ss < 256) (hB : Buckets block n ptr)
    (ho : ∀ b, b < 256 → b ≠ ss → SmallOrd block n (ss * 256 + b) ptr) {bigDone : Cells Bool}
    (hfresh : bigDone ss = false) {p0 c0 : Cells Int} {j0 : Int} (hj : j0 = rowStart block n ss dir)
    (hcopy : ∀ c : Nat, c < 256 → c0 c = edge block n dir (c * 256 + ss))
    (hkeep : ∀ b p, b < 256 → b ≠ ss → InBucket block n (ss * 256 + b) p → p0 p = ptr p) :
    ScanSetup block n ss dir bigDone p0 c0 j0 (rowCells block n ss dir ptr) := by
  subst hj
  have hlen : (rowCells block n ss dir ptr).length = rowLength block n ss dir := by
    simp [rowCells]
  refine ⟨hdir, hss, hfresh, hcopy, initial_row hdir hss hB ho, fun k hk => ?_, ?_, fun k hk => ?_⟩
  · rw [hlen] at hk
    obtain ⟨b, h1, h2, -, hin⟩ := row_inside block n hdir hss hk
    rw [hkeep b _ h1 h2 hin]
    simp [rowCells]
  · rw [hlen]
    unfold edge rowStart rowLength
    have k1 := startOfPair_mono block n (show ss * 256 ≤ ss * 256 + ss by omega)
    have k2 := startOfPair_mono block n
      (show ss * 256 + ss + 1 ≤ (ss + 1) * 256 by omega)
    rcases hdir with rfl | rfl
    · rw [if_pos (by decide), if_pos (by decide), if_pos (by decide)]
      omega
    · rw [if_neg (by decide), if_neg (by decide), if_neg (by decide)]
      omega
  · rw [hlen] at hk
    obtain ⟨b, h1, h2, -, hin⟩ := row_inside block n hdir hss hk
    exact ⟨b, h1, h2, hin⟩

end Row

/-! ## 2. Where they meet -/

theorem Leads.mono {R R' : Nat → Prop} (hR : ∀ c, R c → R' c) {x : Int} (h : Leads block n ss R x) :
    Leads block n ss R' x := by
  induction h with
  | base h0 h1 hs hr => exact .base h0 h1 hs (hR _ hr)
  | step h0 h1 hs _ ih => exact .step h0 h1 hs ih

theorem side_up (c : Nat) : Side 1 ss c ↔ c < ss := by
  unfold Side
  omega

theorem side_down (c : Nat) : Side (-1) ss c ↔ ss < c := by
  unfold Side
  omega

/-- A small bucket, given by the list of its cells. -/
theorem bucket_of_list {ptr : Cells Int} {c : Nat} {M : List Int} (hnd : M.Nodup)
    (hmem : ∀ x, x ∈ M ↔ 0 ≤ x ∧ x < n ∧ pairAt block n x = c)
    (hord : M.Pairwise fun x y => rot (sym block) n x ≤ rot (sym block) n y)
    (hget : ∀ (k : Nat) (h : k < M.length), ptr (startOfPair block n c + k) = M[k]) :
    (∀ p, InBucket block n c p → 0 ≤ ptr p ∧ ptr p < n ∧ pairAt block n (ptr p) = c) ∧
      (∀ p q, InBucket block n c p → InBucket block n c q → ptr p = ptr q → p = q) ∧
      SmallOrd block n c ptr := by
  have hlen := length_eq_bucket hnd hmem
  have hcell : ∀ p, InBucket block n c p → ∃ (k : Nat) (h : k < M.length),
      p = startOfPair block n c + k ∧ ptr p = M[k] := by
    intro p hp
    obtain ⟨h1, h2⟩ := hp
    have hk : (p - startOfPair block n c).toNat < M.length := by omega
    refine ⟨(p - startOfPair block n c).toNat, hk, by omega, ?_⟩
    rw [← hget _ hk]
    congr 1
    omega
  refine ⟨fun p hp => ?_, fun p q hp hq e => ?_, fun p q hl hpq hh => ?_⟩
  · obtain ⟨k, hk, -, e⟩ := hcell p hp
    rw [e]
    exact (hmem _).mp (List.getElem_mem hk)
  · obtain ⟨k, hk, hpk, ek⟩ := hcell p hp
    obtain ⟨l, hl, hql, el⟩ := hcell q hq
    rw [ek, el] at e
    have := (List.Nodup.getElem_inj_iff hnd).mp e
    omega
  · obtain ⟨k, hk, hpk, ek⟩ := hcell p ⟨hl, by omega⟩
    obtain ⟨l, hl', hql, el⟩ := hcell q ⟨by omega, by omega⟩
    rw [ek, el]
    rcases Nat.lt_or_ge k l with hkl | hkl
    · exact List.pairwise_iff_getElem.mp hord k l hk hl' hkl
    · obtain rfl : k = l := by omega
      exact le_refl _

section Both

variable {U D : List Int} (hU : Fine block n ss 1 U) (hD : Fine block n ss (-1) D)

include hU hD

theorem placed_disjoint (c : Nat) : ∀ x ∈ placed block n c U, ∀ y ∈ placed block n c D, x ≠ y := by
  rintro x hx y hy rfl
  have h1 := hU.leads _ ((mem_placed hU).mp hx).2.2.2
  have h2 := hD.leads _ ((mem_placed hD).mp hy).2.2.2
  exact leads_not_both (h1.mono fun c => (side_up c).mp) (h2.mono fun c => (side_down c).mp)

/-- **Both scans fill a small bucket**, in order. -/
theorem placed_both (hUc : ∀ x, Leads block n ss (Side 1 ss) x → x ∈ U)
    (hDc : ∀ x, Leads block n ss (Side (-1) ss) x → x ∈ D) {y : Int} (hy0 : 0 ≤ y) (hy1 : y < n)
    (hy : sym block y ≠ ss) (hss : ss < 256) (c : Nat) :
    (placed block n c U ++ (placed block n c D).reverse).Nodup ∧
      (∀ x, x ∈ placed block n c U ++ (placed block n c D).reverse ↔
        0 ≤ x ∧ x < n ∧ pairAt block n x = c * 256 + ss) ∧
      (placed block n c U ++ (placed block n c D).reverse).Pairwise fun x y =>
        rot (sym block) n x ≤ rot (sym block) n y := by
  refine ⟨?_, fun x => ?_, ?_⟩
  · refine List.nodup_append.mpr ⟨hU.placed_nodup c, List.nodup_reverse.mpr (hD.placed_nodup c), ?_⟩
    exact fun x hx y hy => placed_disjoint hU hD c x hx y (List.mem_reverse.mp hy)
  · rw [List.mem_append, List.mem_reverse, mem_placed hU, mem_placed hD]
    constructor
    · rintro (⟨h0, h1, hp, -⟩ | ⟨h0, h1, hp, -⟩)
      · exact ⟨h0, h1, hp⟩
      · exact ⟨h0, h1, hp⟩
    · rintro ⟨h0, h1, hp⟩
      obtain ⟨s0, s1⟩ := succ_range (n := n) (x := x) (by omega)
      have hs : sym block ((x + 1) % n) = ss := by
        have h1 := sym_lt block ((x + 1) % n)
        unfold pairAt at hp
        omega
      rcases leads_or hy0 hy1 hy s0 s1 hs with hl | hl
      · exact .inl ⟨h0, h1, hp, hUc _ (hl.mono fun c => (side_up c).mpr)⟩
      · exact .inr ⟨h0, h1, hp, hDc _ (hl.mono fun c => (side_down c).mpr)⟩
  · refine List.pairwise_append.mpr ⟨?_, List.pairwise_reverse.mpr ?_, fun x hx y hy => ?_⟩
    · exact (hU.placed_ord c).imp fun h => by
        unfold Goes at h
        rwa [if_pos (by decide)] at h
    · exact (hD.placed_ord c).imp fun h => by
        unfold Goes at h
        rwa [if_neg (by decide)] at h
    · obtain ⟨x0, x1, hxp, hxm⟩ := (mem_placed hU).mp hx
      obtain ⟨y0, y1, hyp, hym⟩ := (mem_placed hD).mp (List.mem_reverse.mp hy)
      have hxs := (hU.leads _ hxm).start.2.2
      have hys := (hD.leads _ hym).start.2.2
      unfold pairAt at hxp hyp
      exact rot_cons_le x0 x1 y0 y1 (by omega)
        (leads_le ((hU.leads _ hxm).mono fun c => (side_up c).mp)
          ((hD.leads _ hym).mono fun c => (side_down c).mp))

end Both

/-- Where all bytes are the same no rotation leads anywhere. -/
theorem not_leads {R : Nat → Prop} (hR : ¬ R ss) (hall : ∀ y : Int, 0 ≤ y → y < n → sym block y = ss)
    {x : Int} : ¬ Leads block n ss R x := by
  intro h
  induction h with
  | @base x h0 h1 hs hr =>
    obtain ⟨s0, s1⟩ := succ_range (n := n) (x := x) (by omega)
    exact hR (hall _ s0 s1 ▸ hr)
  | step _ _ _ _ ih => exact ih

/-- And all rotations are the same. -/
theorem rot_of_all (hn : 0 < n) (hall : ∀ y : Int, 0 ≤ y → y < n → sym block y = ss) (x y : Int) :
    rot (sym block) n x = rot (sym block) n y := by
  have hrep : ∀ (h : Nat) (x : Int), pre (sym block) n h x = List.replicate h ss := by
    intro h
    induction h with
    | zero => exact fun x => rfl
    | succ h ih =>
      intro x
      rw [pre, ih, hall _ (Int.emod_nonneg _ (by omega)) (Int.emod_lt_of_pos _ (by omega)),
        List.replicate_succ]
  exact (hrep _ x).trans (hrep _ y).symm

/-! ## 3. What they leave -/

/-- **What the two scans leave** of the cells: the small buckets `[a, ss]` of the big buckets that are
    not done are filled, in order, and the others are as they were. -/
structure Scanned (block : Cells Byte) (n ss : Nat) (bigDone : Cells Bool) (ptr ptr' : Cells Int) :
    Prop where
  kept : ∀ c p, InBucket block n c p → (∀ a : Nat, a < 256 → bigDone a = false → c ≠ a * 256 + ss) →
    ptr' p = ptr p
  cell : ∀ a : Nat, a < 256 → bigDone a = false → ∀ p, InBucket block n (a * 256 + ss) p →
    0 ≤ ptr' p ∧ ptr' p < n ∧ pairAt block n (ptr' p) = a * 256 + ss
  inj : ∀ a : Nat, a < 256 → bigDone a = false → ∀ p q, InBucket block n (a * 256 + ss) p →
    InBucket block n (a * 256 + ss) q → ptr' p = ptr' q → p = q
  ord : ∀ a : Nat, a < 256 → bigDone a = false → SmallOrd block n (a * 256 + ss) ptr'

/-- Whether a small bucket is one of those the scans fill. -/
theorem filled_or (bigDone : Cells Bool) (ss c : Nat) :
    (∃ a : Nat, a < 256 ∧ bigDone a = false ∧ c = a * 256 + ss) ∨
      ∀ a : Nat, a < 256 → bigDone a = false → c ≠ a * 256 + ss := by
  by_cases h : ∃ a : Nat, a < 256 ∧ bigDone a = false ∧ c = a * 256 + ss
  · exact .inl h
  · exact .inr fun a ha hd hc => h ⟨a, ha, hd, hc⟩

/-- The invariant is kept. -/
theorem Scanned.inv {ptr : Cells Int} (hS : Scanned block n ss s.bigDone s.ptr ptr)
    (h : MainInv block n done s) : MainInv block n done { s with ptr := ptr } := by
  refine ⟨h.tab, ⟨fun c p hp => ?_, fun c p q hp hq e => ?_⟩, fun c hc hm => ?_, h.big, h.rows, h.quad⟩
  · rcases filled_or s.bigDone ss c with ⟨a, ha, hd, rfl⟩ | hno
    · exact hS.cell a ha hd p hp
    · dsimp only
      rw [hS.kept c p hp hno]
      exact h.small.cell c p hp
  · rcases filled_or s.bigDone ss c with ⟨a, ha, hd, rfl⟩ | hno
    · exact hS.inj a ha hd p q hp hq e
    · dsimp only at e
      rw [hS.kept c p hp hno, hS.kept c q hq hno] at e
      exact h.small.inj c p q hp hq e
  · rcases filled_or s.bigDone ss c with ⟨a, ha, hd, rfl⟩ | hno
    · exact hS.ord a ha hd
    · intro p q hl hpq hh
      dsimp only
      rw [hS.kept c p ⟨hl, by omega⟩ hno, hS.kept c q ⟨by omega, by omega⟩ hno]
      exact h.sorted c hc hm p q hl hpq hh

/-- And all small buckets `[a, ss]` are in order. -/
theorem Scanned.column {ptr : Cells Int} (hS : Scanned block n ss s.bigDone s.ptr ptr)
    (h : MainInv block n done s) (hss : ss < 256) {a : Nat} (ha : a < 256) :
    SmallOrd block n (a * 256 + ss) ptr := by
  cases hd : s.bigDone a with
  | false => exact hS.ord a ha hd
  | true =>
    exact (hS.inv h).sorted _ (by omega) (h.rows a ha ((h.big a ha).mp hd) ss hss)

section Ends

variable {bigDone : Cells Bool} {p0 : Cells Int} {I J U D : List Int} {i0 j0 : Int}
  {up down : BucketScan}

/-- What a scan does not reach. -/
theorem InScan.kept {dir : Int} (hdir : dir = 1 ∨ dir = -1)
    (hU : InScan block n ss dir bigDone p0 i0 I U up) {c : Nat} {p : Int} (hp : InBucket block n c p)
    (hno : ∀ a : Nat, a < 256 → bigDone a = false → c ≠ a * 256 + ss) : up.ptr p = p0 p := by
  refine hU.frame p fun a ha hd k hk e => ?_
  have hin := hU.fine.inBucket hdir hk
  rw [← e] at hin
  exact hno a ha hd (hp.unique hin)

variable (hU : InScan block n ss 1 bigDone p0 i0 I U up)
  (hD : InScan block n ss (-1) bigDone up.ptr j0 J D down)

include hU hD

/-- The two scans of a small bucket meet. -/
theorem scans_get {c : Nat} (hc : c < 256) (hd : bigDone c = false)
    (hlen : startOfPair block n (c * 256 + ss) +
      ((placed block n c U).length + (placed block n c D).length) = startOfPair block n (c * 256 + ss + 1))
    (k : Nat) (hk : k < (placed block n c U ++ (placed block n c D).reverse).length) :
    down.ptr (startOfPair block n (c * 256 + ss) + k) =
      (placed block n c U ++ (placed block n c D).reverse)[k] := by
  have hk' := hk
  rw [List.length_append, List.length_reverse] at hk'
  by_cases hku : k < (placed block n c U).length
  · rw [List.getElem_append_left hku, ← hU.cells c hc hd k hku]
    have e1 : edge block n 1 (c * 256 + ss) + 1 * (k : Int) = startOfPair block n (c * 256 + ss) + k := by
      unfold edge
      rw [if_pos (by decide), Int.one_mul]
    rw [e1]
    refine hD.frame _ fun a ha hda l hl e => ?_
    have hin := hD.fine.inBucket (.inr rfl) hl
    rw [← e] at hin
    have hin' : InBucket block n (c * 256 + ss) (startOfPair block n (c * 256 + ss) + k) :=
      ⟨by omega, by omega⟩
    have hac := hin.unique hin'
    obtain rfl : a = c := by omega
    unfold edge at e
    rw [if_neg (by decide)] at e
    omega
  · have hkd : (placed block n c D).length - 1 - (k - (placed block n c U).length) <
        (placed block n c D).length := by omega
    rw [List.getElem_append_right (by omega), List.getElem_reverse, ← hD.cells c hc hd _ hkd]
    congr 1
    unfold edge
    rw [if_neg (by decide)]
    omega

variable (hss : ss < 256) (hfresh : bigDone ss = false) (hB : Buckets block n p0) (hn : 0 < n)
  (hUc : ∀ x, Leads block n ss (Side 1 ss) x → x ∈ U)
  (hDc : ∀ x, Leads block n ss (Side (-1) ss) x → x ∈ D)

include hss hfresh hUc hDc

/-- **The scans**, when the block has a byte other than `ss`. -/
theorem scanned_of_other {y : Int} (hy0 : 0 ≤ y) (hy1 : y < n) (hy : sym block y ≠ ss) :
    Scanned block n ss bigDone p0 down.ptr ∧ up.copy ss - 1 = down.copy ss := by
  have hboth := placed_both hU.fine hD.fine hUc hDc hy0 hy1 hy hss
  have hlen : ∀ c : Nat, startOfPair block n (c * 256 + ss) +
      ((placed block n c U).length + (placed block n c D).length) =
        startOfPair block n (c * 256 + ss + 1) := by
    intro c
    have := length_eq_bucket (hboth c).1 (hboth c).2.1
    rwa [List.length_append, List.length_reverse] at this
  have hfill := fun (c : Nat) (hc : c < 256) (hd : bigDone c = false) =>
    bucket_of_list (hboth c).1 (hboth c).2.1 (hboth c).2.2 (scans_get hU hD hc hd (hlen c))
  refine ⟨⟨fun c p hp hno => ?_, fun a ha hd => (hfill a ha hd).1, fun a ha hd => (hfill a ha hd).2.1,
    fun a ha hd => (hfill a ha hd).2.2⟩, ?_⟩
  · rw [hD.kept (.inr rfl) hp hno, hU.kept (.inl rfl) hp hno]
  · have := hlen ss
    rw [hU.copy ss hss hfresh, hD.copy ss hss hfresh]
    unfold edge
    rw [if_pos (by decide), if_neg (by decide)]
    omega

omit hss hfresh hUc hDc

include hss hfresh hB hn

/-- **The scans** of a block of one byte: there is nothing to read. -/
theorem scanned_of_all (hall : ∀ y : Int, 0 ≤ y → y < n → sym block y = ss) :
    Scanned block n ss bigDone p0 down.ptr ∧ up.copy ss = 0 ∧ down.copy ss = (n : Int) - 1 := by
  obtain rfl : U = [] := List.eq_nil_iff_forall_not_mem.mpr fun x hx =>
    not_leads (not_side_self _ _) hall (hU.fine.leads x hx)
  obtain rfl : D = [] := List.eq_nil_iff_forall_not_mem.mpr fun x hx =>
    not_leads (not_side_self _ _) hall (hD.fine.leads x hx)
  have hkeep : ∀ p, down.ptr p = p0 p := by
    intro p
    rw [hD.frame p fun c _ _ k hk => absurd hk (by simp [placed]),
      hU.frame p fun c _ _ k hk => absurd hk (by simp [placed])]
  have hpair : ∀ c p, InBucket block n c p → c = ss * 256 + ss := by
    intro c p hp
    obtain ⟨h0, h1, hc⟩ := hB.cell c p hp
    obtain ⟨s0, s1⟩ := succ_range (n := n) (x := p0 p) hn
    unfold pairAt at hc
    rw [hall _ h0 h1, hall _ s0 s1] at hc
    exact hc.symm
  refine ⟨⟨fun c p _ _ => hkeep p, fun a _ _ p hp => ?_, fun a _ _ p q hp hq e => ?_,
    fun a _ _ p q _ _ _ => le_of_eq (rot_of_all hn hall _ _)⟩, ?_, ?_⟩
  · rw [hkeep]
    exact hB.cell _ p hp
  · rw [hkeep, hkeep] at e
    exact hB.inj _ p q hp hq e
  · obtain ⟨c, -, hc⟩ := exists_inBucket block n (p := 0) (by omega) (by omega)
    have h1 := hc.1
    rw [hpair c 0 hc] at h1
    rw [hU.copy ss hss hfresh]
    unfold edge
    rw [if_pos (by decide)]
    simp [placed]
    omega
  · obtain ⟨c, -, hc⟩ := exists_inBucket block n (p := n - 1) (by omega) (by omega)
    have h2 := hc.2
    rw [hpair c _ hc] at h2
    have := startOfPair_le block n (ss * 256 + ss + 1)
    rw [hD.copy ss hss hfresh]
    unfold edge
    rw [if_neg (by decide)]
    simp [placed]
    omega

end Ends

end Qbz2
