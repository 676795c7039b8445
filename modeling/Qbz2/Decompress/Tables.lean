/-
  File:      Qbz2/Decompress/Tables.lean
  Subject:   What `BZ2_hbCreateDecodeTables` leaves in `limit`, `base` and `perm`, in terms of the
             canonical code of the lengths.

  * `Lengths` -- the lengths of a group: 3 to 258 symbols, each of length 1 to 20;
  * `permTable_spec`, `baseCounts_spec`, `limitTable_spec`, `baseAdjust_spec` -- the four loops;
  * `Tables` -- their joint result; `buildTables_tables` is the proof of it.
-/
import Qbz2.Decompress.Huffman
import Qbz2.Lib.Canonical

namespace Qbz2

open Loop (forUpto forUpto_succ forUpto_inv)
open Canonical

/-- The code lengths of a group with `n` symbols: `length` is what the array holds, `len` the
    same as natural numbers. -/
structure Lengths (n : Nat) (length : Int → Int) (len : Nat → Nat) : Prop where
  pos : 0 < n
  small : n ≤ 258
  cast : ∀ j, j < n → length j = len j
  one_le : ∀ j, j < n → 1 ≤ len j
  le_twenty : ∀ j, j < n → len j ≤ 20

/-- The shortest and the longest length. -/
structure Extremes (n : Nat) (len : Nat → Nat) (m M : Nat) : Prop where
  lower : ∀ j, j < n → m ≤ len j
  upper : ∀ j, j < n → len j ≤ M
  lower_mem : ∃ j, j < n ∧ len j = m
  upper_mem : ∃ j, j < n ∧ len j = M

section Group

variable {n m M : Nat} {length : Int → Int} {len : Nat → Nat}

theorem Extremes.le (h : Extremes n len m M) : m ≤ M := by
  obtain ⟨j, hj, hm⟩ := h.lower_mem
  have hu := h.upper j hj
  omega

theorem Extremes.one_le (h : Extremes n len m M) (hl : Lengths n length len) : 1 ≤ m := by
  obtain ⟨j, hj, hm⟩ := h.lower_mem
  have h1 := hl.one_le j hj
  omega

theorem Extremes.le_twenty (h : Extremes n len m M) (hl : Lengths n length len) : M ≤ 20 := by
  obtain ⟨j, hj, hm⟩ := h.upper_mem
  have h1 := hl.le_twenty j hj
  omega

/-! ## 1. `minLen`, `maxLen` -/

theorem lenRange_spec (hl : Lengths n length len) :
    ∃ m M : Nat, lenRange length n = ((m : Int), (M : Int)) ∧ Extremes n len m M := by
  have key : ∀ k, k ≤ n → ∃ m M : Nat,
      forUpto k (fun i (p : Int × Int) =>
        (if length i < p.1 then length i else p.1, if length i > p.2 then length i else p.2))
        (32, 0) = ((m : Int), (M : Int)) ∧ (k = 0 → m = 32 ∧ M = 0) ∧
      (∀ j, j < k → m ≤ len j ∧ len j ≤ M) ∧
      (0 < k → (∃ j, j < k ∧ len j = m) ∧ ∃ j, j < k ∧ len j = M) := by
    intro k
    induction k with
    | zero => intro _; exact ⟨32, 0, rfl, fun _ => ⟨rfl, rfl⟩, by omega, by omega⟩
    | succ k ih =>
      intro hk
      obtain ⟨m, M, he, h0, hb, hx⟩ := ih (by omega)
      have h1 := hl.one_le k (by omega)
      have h20 := hl.le_twenty k (by omega)
      have hmin : (if length k < (m : Int) then length k else (m : Int)) = (min (len k) m : Nat) := by
        rw [hl.cast k (by omega)]
        split <;> omega
      have hmax : (if length k > (M : Int) then length k else (M : Int)) = (max (len k) M : Nat) := by
        rw [hl.cast k (by omega)]
        split <;> omega
      refine ⟨min (len k) m, max (len k) M, ?_, by omega, ?_, fun _ => ⟨?_, ?_⟩⟩
      · rw [forUpto_succ, he]
        dsimp only
        rw [hmin, hmax]
      · intro j hj
        by_cases hjk : j = k
        · subst hjk
          omega
        · have := hb j (by omega)
          omega
      · by_cases hlt : len k ≤ m
        · exact ⟨k, by omega, by omega⟩
        · have hk0 : 0 < k := by
            by_contra hk0
            have := h0 (by omega)
            omega
          obtain ⟨j, hj, hjm⟩ := (hx hk0).1
          exact ⟨j, by omega, by omega⟩
      · by_cases hlt : M ≤ len k
        · exact ⟨k, by omega, by omega⟩
        · have hk0 : 0 < k := by
            by_contra hk0
            have := h0 (by omega)
            omega
          obtain ⟨j, hj, hjm⟩ := (hx hk0).2
          exact ⟨j, by omega, by omega⟩
  obtain ⟨m, M, he, _, hb, hx⟩ := key n (Nat.le_refl n)
  obtain ⟨h1, h2⟩ := hx hl.pos
  exact ⟨m, M, he, ⟨fun j hj => (hb j hj).1, fun j hj => (hb j hj).2, h1, h2⟩⟩

/-! ## 2. `perm` -/

/-- The first `q` cells of `perm` hold the symbols of rank `0..q-1`. -/
def PermUpto (n : Nat) (len : Nat → Nat) (perm : Int → Int) (q : Nat) : Prop :=
  ∀ p, p < q → ∃ s, s < n ∧ perm p = (s : Int) ∧ rank len n s = p

/-- One row: the symbols of length `L`, in order. -/
theorem permRow_spec (hl : Lengths n length len) (L : Nat) {perm : Cells Int}
    (hp : PermUpto n len perm (countLt len L n)) :
    ∃ perm' : Cells Int,
      permRow length n L (perm, (countLt len L n : Int)) = (perm', (countLt len (L + 1) n : Int)) ∧
      PermUpto n len perm' (countLt len (L + 1) n) := by
  have key : ∀ j, j ≤ n → ∃ perm' : Cells Int,
      forUpto j (fun j (s : Cells Int × Int) =>
        if length j = L then (s.1.set s.2 j, s.2 + 1) else s) (perm, (countLt len L n : Int)) =
        (perm', ((countLt len L n + countEq len L j : Nat) : Int)) ∧
      PermUpto n len perm' (countLt len L n + countEq len L j) := by
    intro j
    induction j with
    | zero => exact fun _ => ⟨perm, rfl, hp⟩
    | succ j ih =>
      intro hj
      obtain ⟨perm', he, hq⟩ := ih (by omega)
      rw [forUpto_succ, he, countEq]
      dsimp only
      by_cases hL : len j = L
      · rw [if_pos (by rw [hl.cast j hj, hL]), if_pos hL]
        refine ⟨_, rfl, fun p hpq => ?_⟩
        by_cases hlast : p = countLt len L n + countEq len L j
        · refine ⟨j, hj, ?_, ?_⟩
          · rw [hlast, Cells.get_set_self]
          · rw [rank, hL, hlast]
        · obtain ⟨s, hs, hsp, hr⟩ := hq p (by omega)
          refine ⟨s, hs, ?_, hr⟩
          rw [Cells.get_set_of_ne _ (by omega)]
          exact hsp
      · rw [if_neg (by rw [hl.cast j hj]; omega), if_neg hL]
        exact ⟨perm', rfl, hq⟩
  rw [countLt_succ]
  exact key n (Nat.le_refl n)

theorem permTable_spec (hl : Lengths n length len) (hx : Extremes n len m M) (perm : Cells Int) :
    PermUpto n len (permTable length n m M perm) n := by
  have key : ∀ k, ∃ perm' : Cells Int,
      forUpto k (fun k s => permRow length n ((m : Int) + (k : Int)) s) (perm, 0) =
        (perm', (countLt len (m + k) n : Int)) ∧
      PermUpto n len perm' (countLt len (m + k) n) := by
    intro k
    induction k with
    | zero =>
      have h0 : countLt len (m + 0) n = 0 := countLt_eq_zero hx.lower
      rw [h0]
      exact ⟨perm, rfl, fun p hp => by omega⟩
    | succ k ih =>
      obtain ⟨perm', he, hq⟩ := ih
      rw [forUpto_succ, he]
      exact permRow_spec hl (m + k) hq
  have hle := hx.le
  have hlen : (M + 1 - m : Int).toNat = M + 1 - m := by omega
  obtain ⟨perm', he, hq⟩ := key (M + 1 - m)
  have hn : countLt len (m + (M + 1 - m)) n = n :=
    countLt_eq_self fun j hj => by have := hx.upper j hj; omega
  rw [hn] at hq
  rw [permTable, hlen, he]
  exact hq

/-! ## 3. `base` and `limit` -/

theorem baseCounts_spec (hl : Lengths n length len) (base : Cells Int) {L : Nat} (hL : L < 23) :
    baseCounts length n base L = countLt len L n := by
  have counted : ∀ k, k ≤ n → ∀ x : Nat, x < 23 →
      forUpto k (fun i (b : Cells Int) => b.set (length i + 1) (b (length i + 1) + 1))
        (base.fill 0 bzMaxCodeLen 0) x = if x = 0 then 0 else (countEq len (x - 1) k : Int) := by
    intro k
    induction k with
    | zero =>
      intro _ x hx
      rw [Loop.forUpto_zero, Cells.get_fill, if_pos (by rw [bzMaxCodeLen]; omega)]
      split <;> rfl
    | succ k ih =>
      intro hk x hx
      have h1 := hl.one_le k hk
      have h20 := hl.le_twenty k hk
      have hc : length k + 1 = ((len k + 1 : Nat) : Int) := by
        rw [hl.cast k hk]
        rfl
      rw [forUpto_succ, hc, Cells.get_set, ih (by omega) _ (by omega), ih (by omega) _ hx, countEq]
      by_cases hx' : x = len k + 1
      · rw [if_pos (by omega), if_neg (by omega), if_neg (by omega), if_pos (by omega)]
        subst hx'
        omega
      · rw [if_neg (by omega)]
        by_cases hx0 : x = 0
        · rw [if_pos hx0, if_pos hx0]
        · rw [if_neg hx0, if_neg hx0, if_neg (by omega), Nat.add_zero]
  have summed : ∀ k, k ≤ 22 → ∀ x : Nat, x < 23 →
      forUpto k (fun i (b : Cells Int) => b.set (i + 1) (b (i + 1) + b i))
        (forUpto n (fun i (b : Cells Int) => b.set (length i + 1) (b (length i + 1) + 1))
          (base.fill 0 bzMaxCodeLen 0)) x =
      if x ≤ k then (countLt len x n : Int) else (countEq len (x - 1) n : Int) := by
    intro k
    induction k with
    | zero =>
      intro _ x hx
      rw [Loop.forUpto_zero, counted n (Nat.le_refl n) x hx]
      by_cases hx0 : x = 0
      · have h0 : countLt len 0 n = 0 := countLt_eq_zero fun j _ => Nat.zero_le _
        rw [if_pos hx0, if_pos (by omega), hx0, h0]
        rfl
      · rw [if_neg hx0, if_neg (by omega)]
    | succ k ih =>
      intro hk x hx
      have hc : (k : Int) + 1 = ((k + 1 : Nat) : Int) := rfl
      rw [forUpto_succ, hc, Cells.get_set, ih (by omega) x hx, ih (by omega) _ (by omega),
        ih (by omega) _ (by omega)]
      by_cases hx' : x = k + 1
      · rw [if_pos (by omega), if_neg (by omega), if_pos (Nat.le_refl k), if_pos (by omega), hx',
          countLt_succ]
        have e : k + 1 - 1 = k := by omega
        rw [e]
        omega
      · rw [if_neg (by omega)]
        by_cases hxk : x ≤ k
        · rw [if_pos hxk, if_pos (by omega)]
        · rw [if_neg hxk, if_neg (by omega)]
  rw [baseCounts, show bzMaxCodeLen - 1 = 22 from rfl, summed 22 (Nat.le_refl _) L hL,
    if_pos (by omega)]

theorem limitTable_spec (hl : Lengths n length len) (hx : Extremes n len m M) {base : Cells Int}
    (hb : ∀ L : Nat, L < 23 → base L = countLt len L n) (limit : Cells Int) {L : Nat}
    (hL : L < 23) :
    limitTable base m M limit L =
      if m ≤ L ∧ L ≤ M then (firstCode len n L : Int) + countEq len L n - 1 else 0 := by
  have hM := hx.le_twenty hl
  have hm := hx.le
  have key : ∀ k, m + k ≤ M + 1 → ∃ limit' : Cells Int,
      forUpto k (fun k s => limitStep base ((m : Int) + (k : Int)) s)
        (limit.fill 0 bzMaxCodeLen 0, 0) = (limit', (firstCode len n (m + k) : Int)) ∧
      ∀ L : Nat, L < 23 → limit' L =
        if m ≤ L ∧ L < m + k then (firstCode len n L : Int) + countEq len L n - 1 else 0 := by
    intro k
    induction k with
    | zero =>
      intro _
      have h0 : firstCode len n (m + 0) = 0 := firstCode_eq_zero hx.lower
      rw [h0]
      refine ⟨_, rfl, fun L hL => ?_⟩
      rw [Cells.get_fill, if_pos (by rw [bzMaxCodeLen]; omega), if_neg (by omega)]
    | succ k ih =>
      intro hk
      obtain ⟨limit', he, hlim⟩ := ih (by omega)
      have hc : ((m : Int) + (k : Int)) = ((m + k : Nat) : Int) := rfl
      have hc1 : ((m + k : Nat) : Int) + 1 = ((m + k + 1 : Nat) : Int) := rfl
      have hvec : (firstCode len n (m + k) : Int) + (base ((m + k + 1 : Nat) : Int) -
          base ((m + k : Nat) : Int)) = firstCode len n (m + k) + countEq len (m + k) n := by
        rw [hb _ (by omega), hb _ (by omega), countLt_succ]
        omega
      rw [forUpto_succ, he, limitStep, hc, hc1]
      dsimp only
      rw [hvec]
      have e : ((firstCode len n (m + k) : Int) + countEq len (m + k) n) * 2 =
          (firstCode len n (m + (k + 1)) : Int) := by
        rw [← Nat.add_assoc, firstCode]
        omega
      rw [e]
      refine ⟨_, rfl, fun L hL => ?_⟩
      rw [Cells.get_set, hlim L hL]
      by_cases h : L = m + k
      · rw [if_pos (by omega), if_pos (by omega), h]
      · rw [if_neg (by omega)]
        by_cases h' : m ≤ L ∧ L < m + k
        · rw [if_pos h', if_pos (by omega)]
        · rw [if_neg h', if_neg (by omega)]
  have hlen : (M + 1 - m : Int).toNat = M + 1 - m := by omega
  obtain ⟨limit', he, hlim⟩ := key (M + 1 - m) (by omega)
  rw [limitTable, hlen, he]
  dsimp only
  rw [hlim L hL]
  by_cases h : m ≤ L ∧ L ≤ M
  · rw [if_pos h, if_pos (by omega)]
  · rw [if_neg h, if_neg (by omega)]

theorem baseAdjust_spec (hl : Lengths n length len) (hx : Extremes n len m M) {base : Cells Int}
    {limit : Cells Int} (hb : ∀ L : Nat, L < 23 → base L = countLt len L n)
    (hlim : ∀ L : Nat, L < 23 → limit L =
      if m ≤ L ∧ L ≤ M then (firstCode len n L : Int) + countEq len L n - 1 else 0)
    {L : Nat} (h1 : m ≤ L) (h2 : L ≤ M) :
    baseAdjust limit m M base L = (firstCode len n L : Int) - countLt len L n := by
  have hM := hx.le_twenty hl
  have hm := hx.le
  have key : ∀ k, m + k ≤ M → ∀ L : Nat, L < 23 →
      forUpto k (fun k (b : Cells Int) =>
        b.set ((m : Int) + 1 + (k : Int))
          ((limit ((m : Int) + (k : Int)) + 1) * 2 - b ((m : Int) + 1 + (k : Int)))) base L =
      if m < L ∧ L ≤ m + k then (firstCode len n L : Int) - countLt len L n
      else (countLt len L n : Int) := by
    intro k
    induction k with
    | zero =>
      intro _ L hL
      rw [Loop.forUpto_zero, hb L hL, if_neg (by omega)]
    | succ k ih =>
      intro hk L hL
      have hc : (m : Int) + 1 + (k : Int) = ((m + k + 1 : Nat) : Int) := by omega
      have hc' : (m : Int) + (k : Int) = ((m + k : Nat) : Int) := rfl
      rw [forUpto_succ, hc, hc', Cells.get_set, ih (by omega) L hL, ih (by omega) _ (by omega),
        hlim _ (by omega), if_neg (c := m < m + k + 1 ∧ m + k + 1 ≤ m + k) (by omega),
        if_pos (c := m ≤ m + k ∧ m + k ≤ M) (by omega)]
      by_cases h : L = m + k + 1
      · rw [if_pos (by omega), if_pos (by omega), h, firstCode]
        omega
      · rw [if_neg (by omega)]
        by_cases h' : m < L ∧ L ≤ m + k
        · rw [if_pos h', if_pos (by omega)]
        · rw [if_neg h', if_neg (by omega)]
  have hlen : (M - m : Int).toNat = M - m := by omega
  rw [baseAdjust, hlen, key (M - m) (by omega) L (by omega)]
  by_cases h : m < L
  · rw [if_pos (by omega)]
  · have e : L = m := by omega
    have h0 : firstCode len n m = 0 := firstCode_eq_zero hx.lower
    have h0' : countLt len m n = 0 := countLt_eq_zero hx.lower
    rw [if_neg (by omega), e, h0, h0']
    rfl

/-! ## 4. All of it -/

/-- **What the slow path finds in the tables of a group.** -/
structure Tables (n : Nat) (len : Nat → Nat) (m M : Nat) (g : HuffTables) : Prop where
  minLen : g.minLen = m
  limit : ∀ L : Nat, m ≤ L → L ≤ M → g.limit L = (firstCode len n L : Int) + countEq len L n - 1
  limit_zero : ∀ L : Nat, M < L → L < 23 → g.limit L = 0
  base : ∀ L : Nat, m ≤ L → L ≤ M → g.base L = (firstCode len n L : Int) - countLt len L n
  perm : PermUpto n len g.perm n

theorem fastTable_slow (g : HuffTables) (minLen maxLen : Int) (length : Int → Int) (k : Nat) :
    (fastTable length minLen maxLen k g).minLen = g.minLen ∧
    (fastTable length minLen maxLen k g).limit = g.limit ∧
    (fastTable length minLen maxLen k g).base = g.base ∧
    (fastTable length minLen maxLen k g).perm = g.perm := by
  unfold fastTable
  dsimp only
  split <;> exact ⟨rfl, rfl, rfl, rfl⟩

/-- **The tables of a group are those of the canonical code of its lengths.** -/
theorem buildTables_tables (hl : Lengths n length len) (g : HuffTables) :
    ∃ m M : Nat, lenRange length n = ((m : Int), (M : Int)) ∧ Extremes n len m M ∧
      Tables n len m M (buildTables length n g) := by
  obtain ⟨m, M, he, hx⟩ := lenRange_spec hl
  refine ⟨m, M, he, hx, ?_⟩
  have hb : ∀ L : Nat, L < 23 → baseCounts length n g.base L = countLt len L n :=
    fun L hL => baseCounts_spec hl g.base hL
  have hlim : ∀ L : Nat, L < 23 → limitTable (baseCounts length n g.base) m M g.limit L =
      if m ≤ L ∧ L ≤ M then (firstCode len n L : Int) + countEq len L n - 1 else 0 :=
    fun L hL => limitTable_spec hl hx hb g.limit hL
  have hM := hx.le_twenty hl
  obtain ⟨e1, e2, e3, e4⟩ := fastTable_slow
    { hbCreateDecodeTables length m M n g with minLen := (m : Int) } m M length n
  rw [buildTables, he]
  dsimp only
  refine ⟨e1, fun L h1 h2 => ?_, fun L h1 h2 => ?_, fun L h1 h2 => ?_, ?_⟩
  · rw [e2]
    dsimp only [hbCreateDecodeTables]
    rw [hlim L (by omega), if_pos ⟨h1, h2⟩]
  · rw [e2]
    dsimp only [hbCreateDecodeTables]
    rw [hlim L h2, if_neg (by omega)]
  · rw [e3]
    exact baseAdjust_spec hl hx hb hlim h1 h2
  · rw [e4]
    exact permTable_spec hl hx g.perm

end Group

end Qbz2
