/-
  File:      Qbz2/BlockSort/Agree.lean
  Subject:   Whether `sais_bwt` and `fallbackSort` give the same transform.

  * `SuffixArray text sa` -- what `libsais` documents of its answer;
  * `suffix_lt_iff` -- suffixes of the doubled block compare as rotations, and where rotations are
    equal the one that starts later comes first;
  * `saisBwt_rotSort`, `saisBwt_ties` -- the filtered suffix array lists the rotations in order,
    equal ones by falling start, so rotation 0 comes last of its equals;
  * `findRow_eq_saisBwt_iff` -- the rows of rotation 0 agree when `fallbackSort`, too, leaves it
    last of its equals;
  * **`sorters_agree`** -- the last columns agree on every block, and the rows of rotation 0 on
    every block that repeats no shorter word or is `Undisturbed`; **`sorters_differ`** -- on
    other repetitions they need not.
-/
import Qbz2.BlockSort.Sais
import Qbz2.BlockSort.Ties

namespace Qbz2

open Loop Segment Rotation

/-! ## 1. Suffixes of the doubled block -/

/-- The suffix at `p`, as numbers: bytes compare unsigned. -/
def suffix (text : List Byte) (p : Int) : List Nat := (text.drop p.toNat).map BitVec.toNat

/-- `sa` lists the suffixes of the text in order. -/
structure SuffixArray (text : List Byte) (sa : Cells Int) : Prop where
  range : ∀ i : Nat, i < text.length → 0 ≤ sa i ∧ sa i < text.length
  ord : ∀ j : Nat, j < text.length → ∀ i : Nat, i < j →
    suffix text (sa i) < suffix text (sa j)

section Suffixes

variable {block : Cells Byte} {n : Int}

theorem map_toNat_bytesAt (mem : Cells Byte) (m : Nat) (a : Int) (h0 : 0 ≤ a) (h1 : a + m ≤ n) :
    (bytesAt mem a m).map BitVec.toNat = pre (sym mem) n m a := by
  induction m generalizing a with
  | zero => rfl
  | succ m ih =>
    rw [bytesAt_succ, List.map_cons, pre, ih (a + 1) (by omega) (by omega),
      Int.emod_eq_of_lt h0 (by omega)]
    rfl

theorem length_doubled (block : Cells Byte) (n : Int) :
    (doubled block n).length = 2 * n.toNat := by
  unfold doubled
  rw [List.length_append, length_bytesAt]
  omega

/-- A suffix that starts in the first copy reads the rotation to the end of the second copy. -/
theorem suffix_doubled {p : Int} (h0 : 0 ≤ p) (h1 : p < n) :
    suffix (doubled block n) p =
      pre (sym block) n n.toNat p ++ pre (sym block) n (n - p).toNat (p + n.toNat) := by
  have e : (n.toNat : Nat) = p.toNat + (n - p).toNat := by omega
  have ep : (0 : Int) + p.toNat = p := by omega
  have hd : (bytesAt block.get 0 n.toNat).drop p.toNat = bytesAt block.get p (n - p).toNat := by
    rw [e, bytesAt_add, List.drop_left' (length_bytesAt ..), ep]
  have hfull : (bytesAt block.get 0 n.toNat).map BitVec.toNat = pre (sym block) n n.toNat n := by
    rw [map_toNat_bytesAt (n := n) block n.toNat 0 (Int.le_refl 0) (by omega)]
    exact pre_congr _ _ _ (by simp)
  unfold suffix doubled
  rw [List.drop_append_of_le_length (by rw [length_bytesAt]; omega), List.map_append, hd, hfull,
    map_toNat_bytesAt (n := n) block (n - p).toNat p h0 (by omega), ← pre_add]
  have e1 : n.toNat + (n - p).toNat = (n - p).toNat + n.toNat := by omega
  have e2 : p + (((n - p).toNat : Nat) : Int) = n := by omega
  rw [e1, pre_add, e2]

/-- Rotations that are equal, read for different lengths: the shorter word comes first. -/
theorem pre_lt_of_length {s : Int → Nat} {x y : Int} (hn : 0 < n)
    (he : pre s n n.toNat x = pre s n n.toNat y) {a b : Nat} :
    pre s n a x < pre s n b y ↔ a < b := by
  have heq : ∀ c, pre s n c x = pre s n c y := fun c => pre_eq_of_period hn he c
  have hlt : ∀ {a b : Nat}, a < b → pre s n a y < pre s n b y := by
    intro a b hab
    obtain ⟨d, rfl⟩ := Nat.exists_eq_add_of_lt hab
    have e : a + d + 1 = a + (d + 1) := by omega
    have hnil : pre s n a y = pre s n a y ++ [] := by rw [List.append_nil]
    rw [e, pre_add, hnil, List.append_assoc, List.nil_append, append_lt_append_iff rfl]
    exact .inr ⟨rfl, List.Lex.nil⟩
  rw [heq]
  constructor
  · intro h
    by_contra hab
    rcases Nat.lt_or_eq_of_le (Nat.le_of_not_lt hab) with hba | hba
    · exact absurd (hlt hba) (not_lt_of_gt h)
    · rw [hba] at h
      exact lt_irrefl _ h
  · exact hlt

/-- **Suffixes of the doubled block** compare as rotations; of equal rotations the one that starts
    later comes first. -/
theorem suffix_lt_iff {p q : Int} (hp0 : 0 ≤ p) (hp1 : p < n) (hq0 : 0 ≤ q) (hq1 : q < n) :
    suffix (doubled block n) p < suffix (doubled block n) q ↔
      pre (sym block) n n.toNat p < pre (sym block) n n.toNat q ∨
        pre (sym block) n n.toNat p = pre (sym block) n n.toNat q ∧ q < p := by
  rw [suffix_doubled hp0 hp1, suffix_doubled hq0 hq1, append_lt_append_iff (by simp)]
  refine or_congr Iff.rfl (and_congr_right fun he => ?_)
  have hmod : ∀ x : Int, (x + n.toNat) % n = x % n := by
    intro x
    have e : (n.toNat : Int) = n := by omega
    rw [e, Int.add_emod_right]
  have he' : pre (sym block) n n.toNat (p + n.toNat) = pre (sym block) n n.toNat (q + n.toNat) := by
    rw [pre_congr _ _ _ (hmod p), pre_congr _ _ _ (hmod q), he]
  rw [pre_lt_of_length (by omega) he']
  omega

end Suffixes

/-! ## 2. The filtered suffix array -/

section Filtered

variable {block : Cells Byte} {n : Int} {sa : Cells Int}

theorem SuffixArray.injOn {text : List Byte} (h : SuffixArray text sa) :
    InjOn 0 (text.length - 1) sa := by
  intro i j hi0 hi1 hj0 hj1 e
  have hlt : ∀ i j : Int, 0 ≤ i → j ≤ text.length - 1 → sa i = sa j → ¬ i < j := by
    intro i j hi0 hj1 e hij
    have hord := h.ord j.toNat (by omega) i.toNat (by omega)
    rw [Int.toNat_of_nonneg hi0, Int.toNat_of_nonneg (show 0 ≤ j by omega), e] at hord
    exact lt_irrefl _ hord
  have h1 := hlt i j hi0 hj1 e
  have h2 := hlt j i hj0 hi1 e.symm
  omega

/-- **The entries kept** are the cells of the block, each once, in suffix order. -/
theorem rows_spec (hn : 1 ≤ n) (h : SuffixArray (doubled block n) sa) :
    (rows sa n).length = n.toNat ∧ (∀ v, v ∈ rows sa n ↔ 0 ≤ v ∧ v ≤ n - 1) ∧
      (rows sa n).Nodup ∧
      (rows sa n).Pairwise fun p q => suffix (doubled block n) p < suffix (doubled block n) q := by
  have hlen := length_doubled block n
  have hmem : ∀ v, v ∈ rows sa n ↔ 0 ≤ v ∧ v ≤ n - 1 := by
    intro v
    unfold rows kept
    rw [List.mem_filter, List.mem_map, decide_eq_true_eq]
    constructor
    · rintro ⟨⟨i, hi, rfl⟩, hlt⟩
      rw [List.mem_range] at hi
      have := h.range i (by omega)
      exact ⟨this.1, by omega⟩
    · rintro ⟨h0, h1⟩
      obtain ⟨i, hi0, hi1, e⟩ := hits_of_injOn h.injOn
        (fun i hi0 hi1 => by
          have := h.range i.toNat (by omega)
          rw [Int.toNat_of_nonneg hi0] at this
          omega) h0 (show v ≤ ((doubled block n).length : Int) - 1 by omega)
      refine ⟨⟨i.toNat, List.mem_range.mpr (by omega), ?_⟩, by omega⟩
      rw [Int.toNat_of_nonneg hi0, e]
  have hpw : (rows sa n).Pairwise
      fun p q => suffix (doubled block n) p < suffix (doubled block n) q := by
    unfold rows kept
    refine List.Pairwise.filter _ (List.pairwise_map.mpr ?_)
    refine List.Pairwise.imp_of_mem (fun {i j} _ hj hij => ?_) List.pairwise_lt_range
    rw [List.mem_range] at hj
    exact h.ord j (by omega) i hij
  have hnd : (rows sa n).Nodup := by
    refine List.Pairwise.imp (fun {p q} hlt => ?_) hpw
    rintro rfl
    exact lt_irrefl _ hlt
  refine ⟨?_, hmem, hnd, hpw⟩
  have hperm := perm_cells_of_nodup hnd hmem
  rw [hperm.length_eq, List.length_map, List.length_range]

/-- The array that holds the entries kept lists the rotations in order, equal ones by falling
    start. -/
theorem filtered_spec (hn : 1 ≤ n) (h : SuffixArray (doubled block n) sa) {t : Filter}
    (hF : Filled (rows sa n) t) :
    RotSort (sym block) n t.ptr ∧
      ∀ i j, 0 ≤ i → i < j → j ≤ n - 1 →
        pre (sym block) n n.toNat (t.ptr i) = pre (sym block) n n.toNat (t.ptr j) →
        t.ptr j < t.ptr i := by
  obtain ⟨hlen, hmem, hnd, hpw⟩ := rows_spec hn h
  have hget : ∀ i : Int, 0 ≤ i → i ≤ n - 1 → ∃ hi : i.toNat < (rows sa n).length,
      t.ptr i = (rows sa n)[i.toNat] := by
    intro i h0 h1
    refine ⟨by omega, ?_⟩
    have := hF.ptr i.toNat (by omega)
    rwa [Int.toNat_of_nonneg h0] at this
  have hrange : ∀ i, 0 ≤ i → i ≤ n - 1 → 0 ≤ t.ptr i ∧ t.ptr i ≤ n - 1 := by
    intro i h0 h1
    obtain ⟨hi, e⟩ := hget i h0 h1
    rw [e]
    exact (hmem _).mp (List.getElem_mem hi)
  have hsuf : ∀ i j, 0 ≤ i → i < j → j ≤ n - 1 →
      suffix (doubled block n) (t.ptr i) < suffix (doubled block n) (t.ptr j) := by
    intro i j h0 hij h1
    obtain ⟨hi, ei⟩ := hget i h0 (by omega)
    obtain ⟨hj, ej⟩ := hget j (by omega) h1
    rw [ei, ej]
    exact List.pairwise_iff_getElem.mp hpw _ _ hi hj (by omega)
  have hcmp : ∀ i j, 0 ≤ i → i < j → j ≤ n - 1 →
      pre (sym block) n n.toNat (t.ptr i) < pre (sym block) n n.toNat (t.ptr j) ∨
        pre (sym block) n n.toNat (t.ptr i) = pre (sym block) n n.toNat (t.ptr j) ∧
          t.ptr j < t.ptr i := by
    intro i j h0 hij h1
    have hi := hrange i h0 (by omega)
    have hj := hrange j (by omega) h1
    exact (suffix_lt_iff hi.1 (by omega) hj.1 (by omega)).mp (hsuf i j h0 hij h1)
  refine ⟨⟨?_, hrange, fun i j h0 hij h1 => ?_⟩, fun i j h0 hij h1 he => ?_⟩
  · intro i j hi0 hi1 hj0 hj1 e
    by_contra hne
    rcases lt_or_gt_of_ne hne with hij | hij
    · exact lt_irrefl _ (by have := hsuf i j hi0 hij hj1; rwa [e] at this)
    · exact lt_irrefl _ (by have := hsuf j i hj0 hij hi1; rwa [e] at this)
  · by_cases e : i = j
    · exact le_of_eq (by rw [e])
    · rcases hcmp i j h0 (by omega) h1 with hlt | ⟨heq, _⟩
      · exact hlt.le
      · exact heq.le
  · rcases hcmp i j h0 hij h1 with hlt | ⟨_, hgt⟩
    · exact absurd he (ne_of_lt hlt)
    · exact hgt

end Filtered

/-! ## 3. The two sorters -/

/-- Nothing failed and `libsais` answered with the suffix array. -/
structure SaisEnv.Answers (env : SaisEnv) (block : Cells Byte) (n : Int) : Prop where
  mallocDoubled : env.mallocDoubled = true
  mallocSA : env.mallocSA = true
  ret : (env.libsais (doubled block n)).1 = 0
  sorted : SuffixArray (doubled block n) (env.libsais (doubled block n)).2

theorem SaisEnv.Answers.not_fails {env : SaisEnv} {block : Cells Byte} {n : Int}
    (h : env.Answers block n) : ¬ env.Fails block n := by
  rintro (h1 | h1 | h1)
  · rw [h.mallocDoubled] at h1
    cases h1
  · rw [h.mallocSA] at h1
    cases h1
  · exact h1 h.ret

/-- The byte before a row's rotation, as `generateMTFValues` reads it: row `i` of the last
    column. -/
def lastByte (block : Cells Byte) (ptr : Cells Int) (nblock i : Int) : Byte :=
  let j := ptr i - 1
  block (if j < 0 then j + nblock else j)

theorem lastByte_eq {block block' : Cells Byte} {ptr : Cells Int} {n i : Int}
    (hb : ∀ x, 0 ≤ x → x < n → block' x = block x) (h0 : 0 ≤ ptr i) (h1 : ptr i ≤ n - 1) :
    (lastByte block' ptr n i).toNat = sym block ((ptr i - 1) % n) := by
  unfold lastByte sym
  dsimp only
  by_cases hz : ptr i - 1 < 0
  · have e : (ptr i - 1) % n = ptr i - 1 + n := by
      rw [← Int.add_emod_right, Int.emod_eq_of_lt (by omega) (by omega)]
    rw [if_pos hz, hb _ (by omega) (by omega), e]
  · rw [if_neg hz, hb _ (by omega) (by omega), Int.emod_eq_of_lt (by omega) (by omega)]

section Sorters

variable {env : SaisEnv} {block : Cells Byte} {n : Int}

/-- **`sais_bwt`** lists the rotations in order, and `origPtr` is the row of rotation 0, the last
    of its equals. -/
theorem saisBwt_spec (hn : 1 ≤ n) (h : env.Answers block n) (ptr : Cells Int) (origPtr : Int) :
    RotSort (sym block) n (saisBwt env block ptr n origPtr).1 ∧
      0 ≤ (saisBwt env block ptr n origPtr).2 ∧ (saisBwt env block ptr n origPtr).2 ≤ n - 1 ∧
      (saisBwt env block ptr n origPtr).1 (saisBwt env block ptr n origPtr).2 = 0 ∧
      ∀ j, (saisBwt env block ptr n origPtr).2 < j → j ≤ n - 1 →
        pre (sym block) n n.toNat ((saisBwt env block ptr n origPtr).1 j) ≠
          pre (sym block) n n.toNat 0 := by
  obtain ⟨c, hF⟩ := saisBwt_of_not_fails h.not_fails ptr origPtr
  generalize saisBwt env block ptr n origPtr = r at hF ⊢
  obtain ⟨hR, hties⟩ := filtered_spec hn h.sorted hF
  obtain ⟨hlen, hmem, _, _⟩ := rows_spec hn h.sorted
  dsimp only at hR hties
  rcases hF.row with ⟨_, hno⟩ | ⟨h0, h1, hz⟩
  · exact absurd ((hmem 0).mpr ⟨Int.le_refl 0, by omega⟩) hno
  · dsimp only at h0 h1 hz
    refine ⟨hR, h0, by omega, hz, fun j hj hjn he => ?_⟩
    have := hties r.2 j h0 hj hjn (by rw [hz, he])
    have := (hR.range j (by omega) hjn).1
    omega

/-- Cells from the `j`-th on are not written by the filter loop. -/
theorem filter_frame (sa : Cells Int) (n : Int) (ptr : Cells Int) (m : Nat) :
    let t := forUpto m (filterStep sa n) ⟨ptr, -1, 0⟩
    0 ≤ t.j ∧ ∀ k, k < 0 ∨ t.j ≤ k → t.ptr k = ptr k := by
  refine forUpto_inv (fun _ (t : Filter) => 0 ≤ t.j ∧ ∀ k, k < 0 ∨ t.j ≤ k → t.ptr k = ptr k)
    ⟨Int.le_refl _, fun _ _ => rfl⟩ m fun i t _ ⟨h0, h⟩ => ?_
  unfold filterStep
  split
  · dsimp only
    refine ⟨by omega, fun k hk => ?_⟩
    rw [Cells.get_set_of_ne _ (by omega)]
    exact h k (by omega)
  · exact ⟨h0, h⟩

/-- **`sais_bwt` is a sort of the rotations.** When `libsais` answers with the suffix array of the
    block written twice, the filter keeps exactly `nblock` entries and writes no other cell, they
    are a permutation of the cells with the rotations in order, and `origPtr` is the row of
    rotation 0. -/
theorem saisBwt_sorts (env : SaisEnv) (block : Cells Byte) (nblock : Int) (hn : 1 ≤ nblock)
    (h : env.Answers block nblock) (ptr : Cells Int) (origPtr : Int) :
    let r := saisBwt env block ptr nblock origPtr
    (rows (env.libsais (doubled block nblock)).2 nblock).length = nblock.toNat ∧
      rowsOf nblock r.1 = rows (env.libsais (doubled block nblock)).2 nblock ∧
      (∀ k, k < 0 ∨ nblock ≤ k → r.1 k = ptr k) ∧
      (rowsOf nblock r.1).Perm ((List.range nblock.toNat).map fun i : Nat => (i : Int)) ∧
      (∀ i j, 0 ≤ i → i ≤ j → j < nblock → pre (sym block) nblock nblock.toNat (r.1 i) ≤
        pre (sym block) nblock nblock.toNat (r.1 j)) ∧
      0 ≤ r.2 ∧ r.2 < nblock ∧ r.1 r.2 = 0 := by
  obtain ⟨hR, h0, h1, hz, _⟩ := saisBwt_spec hn h ptr origPtr
  obtain ⟨hlen, _⟩ := rows_spec hn h.sorted
  have hF := filter_filled (env.libsais (doubled block nblock)).2 nblock ptr (2 * nblock).toNat
  have hframe := filter_frame (env.libsais (doubled block nblock)).2 nblock ptr (2 * nblock).toNat
  have hrun : saisBwt env block ptr nblock origPtr =
      ((forUpto (2 * nblock).toNat (filterStep (env.libsais (doubled block nblock)).2 nblock)
        ⟨ptr, -1, 0⟩).ptr,
       (forUpto (2 * nblock).toNat (filterStep (env.libsais (doubled block nblock)).2 nblock)
        ⟨ptr, -1, 0⟩).origPtr) := by
    unfold saisBwt
    simp [h.mallocDoubled, h.mallocSA, h.ret]
  rw [hrun] at hR h0 h1 hz ⊢
  generalize forUpto (2 * nblock).toNat _ _ = t at hF hframe hR h0 h1 hz ⊢
  have hj : t.j = nblock := by
    have hj' : t.j = (rows (env.libsais (doubled block nblock)).2 nblock).length := hF.j
    omega
  refine ⟨hlen, ?_, fun k hk => hframe.2 k (by omega), hR.perm_cells,
    fun i j hi hij hjn => hR.ord i j hi hij (by omega), h0, by omega, hz⟩
  refine List.ext_getElem (by rw [length_rowsOf, hlen]) fun k hk1 hk2 => ?_
  rw [getElem_rowsOf]
  exact hF.ptr k hk2

/-- When the rows of rotation 0 agree, exactly: no rotation equal to rotation 0 may lie below it
    in the order of `fallbackSort`. -/
theorem findRow_eq_saisBwt_iff (hn : 1 ≤ n) (h : env.Answers block n) {f : Cells Int}
    (hR : RotSort (sym block) n f) (ptr : Cells Int) (origPtr : Int) :
    findRow f n.toNat 0 = (saisBwt env block ptr n origPtr).2 ↔
      ∀ j, findRow f n.toNat 0 < j → j ≤ n - 1 →
        pre (sym block) n n.toNat (f j) ≠ pre (sym block) n n.toNat 0 := by
  obtain ⟨hRs, h0, h1, hz, hlast⟩ := saisBwt_spec hn h ptr origPtr
  generalize saisBwt env block ptr n origPtr = r at hRs h0 h1 hz hlast ⊢
  obtain ⟨k0, k1, kz⟩ := findRow_of_rotSort hn hR
  constructor
  · intro e j hj hjn he
    rw [e] at hj
    exact hlast j hj hjn (by rw [← hR.pre_unique hRs (by omega) hjn, he])
  · intro hno
    rcases Int.lt_trichotomy (findRow f n.toNat 0) r.2 with hlt | heq | hgt
    · have := hR.pre_unique hRs h0 h1
      rw [hz] at this
      exact absurd this (hno _ hlt h1)
    · exact heq
    · have := hR.pre_unique hRs k0 k1
      rw [kz] at this
      exact absurd this.symm (hlast _ hgt k1)

/-- **The two sorters.** On every non-empty block `fallbackSort` returns, and the last columns
    agree. If the block repeats no shorter word, or the passes of `fallbackSort` that move equal
    keys past each other never sort a bucket with rotation 0 in it, so do the rows of rotation
    0. -/
theorem sorters_agree (env : SaisEnv) (block : Cells Byte) {n : Int} (hn : 1 ≤ n)
    (hbig : n < 2 ^ 31) (h : env.Answers block n) (fmap : Cells Int) (bhtab : Cells Word32)
    (ptr : Cells Int) (origPtr : Int) :
    ∃ f e b, fallbackSort fmap block bhtab n = .ok (f, e, b) ∧
      (∀ i, 0 ≤ i → i < n →
        lastByte e f n i = lastByte block (saisBwt env block ptr n origPtr).1 n i) ∧
      (Primitive (sym block) n ∨ Undisturbed (sym block) n →
        findRow f n.toNat 0 = (saisBwt env block ptr n origPtr).2) := by
  obtain ⟨f, e, b, hf, hR, he⟩ := fallbackSort_spec fmap block bhtab hn (by omega)
  obtain ⟨hRs, -⟩ := saisBwt_spec hn h ptr origPtr
  refine ⟨f, e, b, hf, fun i hi0 hi1 => ?_, fun hcond => ?_⟩
  · have hfi := hR.range i hi0 (by omega)
    have hri := hRs.range i hi0 (by omega)
    apply BitVec.eq_of_toNat_eq
    rw [lastByte_eq he hfi.1 hfi.2, lastByte_eq (fun _ _ _ => rfl) hri.1 hri.2]
    exact hR.last_unique hRs hi0 (by omega)
  · rw [findRow_eq_saisBwt_iff hn h hR]
    obtain ⟨k0, k1, kz⟩ := findRow_of_rotSort hn hR
    intro j hj hjn heq
    rcases hcond with hp | hU
    · -- rotations are distinct, so only rotation 0 equals rotation 0
      have hrange := hR.range j (by omega) hjn
      have hzero : f j = 0 :=
        hp.eq_of_pre hrange.1 (by omega) (Int.le_refl 0) (by omega) heq
      have hrow := hR.inj _ _ k0 k1 (by omega) hjn (by rw [kz, hzero])
      omega
    · exact fallbackSort_last hn (by omega) hU hf _ j k0 hj hjn kz heq

/-- The block `ba`. -/
def twoBytes : Cells Byte := .ofFn fun i => if i = 0 then 98#8 else 97#8

/-- The suffix array of `baba`. -/
def twoBytesEnv : SaisEnv :=
  ⟨true, true, fun _ => (0, .ofFn fun i => [3, 1, 2, 0].getD i.toNat 0)⟩

/-- The block `abab`, and the suffix array of it doubled. -/
def fourBytes : Cells Byte := .ofFn fun i => if i % 2 = 0 then 97#8 else 98#8

def fourBytesEnv : SaisEnv :=
  ⟨true, true, fun _ => (0, .ofFn fun i => [6, 4, 2, 0, 7, 5, 3, 1].getD i.toNat 0)⟩

theorem sorters_agree_twoBytes :
    (∃ f e b, fallbackSort (.ofFn fun _ => 0) twoBytes (.ofFn fun _ => 0) 2 = .ok (f, e, b) ∧
      findRow f 2 0 = 1) ∧
    ∃ f e b, fallbackSort (.ofFn fun _ => 0) fourBytes (.ofFn fun _ => 0) 4 = .ok (f, e, b) ∧
      findRow f 4 0 = 1 := by
  constructor
  · obtain ⟨f, e, b, hf, _, hp⟩ := sorters_agree (n := 2) twoBytesEnv twoBytes (by decide)
      (by decide) ⟨rfl, rfl, rfl, ⟨by decide, by decide⟩⟩ (.ofFn fun _ => 0) (.ofFn fun _ => 0)
      (.ofFn fun _ => 0) 0
    refine ⟨f, e, b, hf, (hp (.inl ?_)).trans (by decide)⟩
    rintro d ⟨h1, h2, _, h3⟩
    have hd : d = 1 := by omega
    subst hd
    exact absurd (h3 0 (Int.le_refl 0) (by decide)) (by decide)
  · obtain ⟨f, e, b, hf, _, hp⟩ := sorters_agree (n := 4) fourBytesEnv fourBytes (by decide)
      (by decide) ⟨rfl, rfl, rfl, ⟨by decide +kernel, by decide +kernel⟩⟩ (.ofFn fun _ => 0)
      (.ofFn fun _ => 0) (.ofFn fun _ => 0) 0
    exact ⟨f, e, b, hf, (hp (.inr (.inl (by decide)))).trans (by decide +kernel)⟩

theorem saisBwt_sorts_twoBytes :
    rowsOf 2 (saisBwt twoBytesEnv twoBytes (.ofFn fun _ => 0) 2 0).1 = [1, 0] ∧
      (saisBwt twoBytesEnv twoBytes (.ofFn fun _ => 0) 2 0).2 < 2 := by
  obtain ⟨_, h1, _, _, _, _, h2, _⟩ := saisBwt_sorts twoBytesEnv twoBytes 2 (by decide)
    ⟨rfl, rfl, rfl, ⟨by decide, by decide⟩⟩ (.ofFn fun _ => 0) 0
  exact ⟨h1.trans (by decide), h2⟩

/-- The block `aabaaaba`: `aaba` twice. -/
def repeated : Cells Byte := .ofFn fun i => if i % 4 = 2 then 98#8 else 97#8

/-- The suffix array of `repeated`, doubled. -/
def repeatedEnv : SaisEnv :=
  ⟨true, true, fun _ => (0, .ofFn fun i =>
    [15, 11, 7, 3, 12, 8, 4, 0, 13, 9, 5, 1, 14, 10, 6, 2].getD i.toNat 0)⟩

/-- **On a repetition the rows differ**: the pass with gap 4 moves rotation 0 above its equal. -/
theorem sorters_differ :
    repeatedEnv.Answers repeated 8 ∧
    (fallbackSort (.ofFn fun _ => 0) repeated (.ofFn fun _ => 0) 8).map
      (fun r => findRow r.1 8 0) = .ok 2 ∧
    (saisBwt repeatedEnv repeated (.ofFn fun _ => 0) 8 0).2 = 3 :=
  ⟨⟨rfl, rfl, rfl, ⟨by decide +kernel, by decide +kernel⟩⟩, by decide +kernel,
    by decide +kernel⟩

end Sorters

end Qbz2
