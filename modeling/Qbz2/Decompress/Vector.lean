/-
  File:      Qbz2/Decompress/Vector.lean
  Subject:   The vector the decoder builds, in both modes, whatever the block holds.

  * `Block small s n st` -- the store holds a block of the bytes `s 0 .. s (n-1)`, and their counts;
  * `makeCftab_get`, `checks_pass` -- the cumulated counts, and that no check of them fails;
  * `buildFast_get` -- normal mode: cell `p` holds byte `p` and the cell sorted to `p`;
  * `getLL_setLL`, `reverseLoop_spec`, `buildSmall_spec` -- small mode: the pointer reversal comes
    back to `origPtr`, and has turned the pointers of that cycle;
  * **`indexIntoF_bucket`** -- the search of `BZ2_indexIntoF` ends at the bucket of its index;
  * **`getByte_at`** -- in both modes the `k`-th `BZ_GET` finds the `k+1`-st cell of the same
    sequence `pos`, inside the block.
-/
import Qbz2.Decompress.Machine
import Qbz2.Lib.Counting

namespace Qbz2

open Loop Counting

variable {μ : Type} {s : Int → Nat} {n : Nat}

/-! ## 1. A block and its counts -/

/-- **A block in the store**: its bytes in `ll16` or `tt`, and how often each occurs. -/
structure Block (small : Bool) (s : Int → Nat) (n : Nat) (st : Store μ) : Prop where
  lt : ∀ x : Nat, x < n → s x < 256
  cell : ∀ x : Nat, x < n →
    if small then st.ll16 x = BitVec.ofNat 16 (s x) else st.tt x = BitVec.ofNat 32 (s x)
  counts : ∀ b : Nat, b < 256 → st.unzftab b = holding s n b

/-- The cumulated counts. -/
def Cumulated (s : Int → Nat) (n : Nat) (cftab : Cells Int) : Prop :=
  ∀ b : Nat, b ≤ 256 → cftab b = below s n b

variable {small : Bool} {st : Store μ}

theorem makeCftab_get (h : Block small s n st) : Cumulated s n st.makeCftab.cftab := by
  obtain ⟨c0, hc0⟩ : ∃ c0, c0 = forUpto 256 (fun i (c : Cells Int) => c.set (i + 1) (st.unzftab i))
    (st.cftab.set 0 0) := ⟨_, rfl⟩
  have hcopy : c0 0 = 0 ∧ ∀ b : Nat, b < 256 → c0 (b + 1 : Nat) = holding s n b := by
    rw [hc0]
    have := forUpto_inv (f := fun (i : Nat) (c : Cells Int) => c.set (i + 1) (st.unzftab i))
      (s := st.cftab.set 0 0)
      (fun i (c : Cells Int) => c 0 = 0 ∧ ∀ b : Nat, b < i → c (b + 1 : Nat) = st.unzftab b)
      ⟨Cells.get_set_self .., fun b hb => absurd hb (Nat.not_lt_zero b)⟩ 256 fun i c _ ⟨h1, h2⟩ => by
        refine ⟨by rw [Cells.get_set_of_ne _ (by omega), h1], fun b hb => ?_⟩
        rw [Cells.get_set]
        by_cases hbi : b = i
        · rw [if_pos (by omega), hbi]
        · rw [if_neg (by omega)]
          exact h2 b (by omega)
    exact ⟨this.1, fun b hb => by rw [this.2 b hb, h.counts b hb]⟩
  unfold Store.makeCftab Cumulated
  dsimp only
  rw [← hc0]
  have := forUpto_inv (f := fun (i : Nat) (c : Cells Int) => c.set (i + 1) (c (i + 1) + c i))
    (s := c0)
    (fun i (c : Cells Int) => (∀ b : Nat, b ≤ i → c b = below s n b) ∧
      ∀ b : Nat, i < b → c b = c0 b)
    ⟨fun b hb => ?_, fun _ _ => rfl⟩ 256 fun i c hi ⟨h1, h2⟩ => by
      have e : ((i : Int) + 1) = ((i + 1 : Nat) : Int) := by omega
      rw [e]
      refine ⟨fun b hb => ?_, fun b hb => ?_⟩
      · rw [Cells.get_set]
        by_cases hbi : b = i + 1
        · rw [if_pos (by omega), h2 (i + 1) (by omega), h1 i (Nat.le_refl _), hcopy.2 i hi, hbi,
            below_succ]
          omega
        · rw [if_neg (by omega)]
          exact h1 b (by omega)
      · rw [Cells.get_set, if_neg (by omega)]
        exact h2 b (by omega)
  · intro b hb
    exact this.1 b hb
  · have e : b = 0 := by omega
    subst e
    rw [below_zero]
    exact hcopy.1

/-- **No check of the counts fails.** -/
theorem checks_pass (h : Block small s n st) :
    st.unzftabBad n = false ∧ st.makeCftab.cftabBad n = false := by
  have hcum := makeCftab_get h
  constructor
  · unfold Store.unzftabBad
    rw [List.any_eq_false]
    intro b hb
    rw [List.mem_range] at hb
    have := holding_le (s := s) n b
    rw [h.counts b hb]
    simp
    omega
  · unfold Store.cftabBad
    rw [Bool.or_eq_false_iff, List.any_eq_false, List.any_eq_false]
    refine ⟨fun b hb => ?_, fun b hb => ?_⟩
    · rw [List.mem_range] at hb
      have := below_le (s := s) n b
      rw [hcum b (by omega)]
      simp
      omega
    · rw [List.mem_range] at hb
      have := below_mono (s := s) n (Nat.le_succ b)
      have e : ((b : Int) + 1) = ((b + 1 : Nat) : Int) := by omega
      rw [e, hcum b (by omega), hcum (b + 1) (by omega)]
      simp
      omega

/-! ## 2. Normal mode -/

/-- A byte below an index. -/
theorem low_byte (i b : Nat) :
    (BitVec.ofNat 32 (i * 256 + b)).setWidth 8 = BitVec.ofNat 8 b := by
  apply BitVec.eq_of_toNat_eq
  rw [BitVec.toNat_setWidth, BitVec.toNat_ofNat, BitVec.toNat_ofNat]
  omega

theorem or_index {i b : Nat} (hb : b < 256) (hi : i < 2 ^ 24) :
    (BitVec.ofNat 32 b : Word32) ||| (BitVec.ofNat 32 i <<< 8) = BitVec.ofNat 32 (i * 256 + b) := by
  apply BitVec.eq_of_toNat_eq
  have e : i * 2 ^ 8 % 2 ^ 32 = 2 ^ 8 * i := by omega
  rw [BitVec.toNat_or, BitVec.toNat_shiftLeft, BitVec.toNat_ofNat, BitVec.toNat_ofNat,
    BitVec.toNat_ofNat, Nat.mod_eq_of_lt (show b < 2 ^ 32 by omega),
    Nat.mod_eq_of_lt (show i < 2 ^ 32 by omega), Nat.shiftLeft_eq, e, Nat.or_comm,
    ← Nat.two_pow_add_eq_or_of_lt (show b < 2 ^ 8 by omega)]
  omega

theorem high_index {i b : Nat} (hb : b < 256) (hi : i < 2 ^ 24) :
    (BitVec.ofNat 32 (i * 256 + b) : Word32) >>> 8 = BitVec.ofNat 32 i := by
  apply BitVec.eq_of_toNat_eq
  rw [BitVec.toNat_ushiftRight, BitVec.toNat_ofNat, BitVec.toNat_ofNat, Nat.shiftRight_eq_div_pow]
  omega

/-- After `i` rounds of `T^(-1)`: the cells that have been sorted to a place are written there. -/
structure Linking (s : Int → Nat) (n i : Nat) (st : Store μ) : Prop where
  cell : ∀ p : Nat, p < n →
    st.tt p = BitVec.ofNat 32 ((if unplace s n p < i then unplace s n p else 0) * 256 + s p)
  tab : ∀ b : Nat, b < 256 → st.cftab b = below s n b + holding s i b

theorem Linking.step (hlt : ∀ x : Nat, x < n → s x < 256) (hn : n ≤ 2 ^ 24) {i : Nat} (hi : i < n)
    (h : Linking s n i st) : Linking s n (i + 1) (st.ttStep i) := by
  have huc : ((st.tt i).setWidth 8 : Byte) = BitVec.ofNat 8 (s i) := by
    rw [h.cell i hi, low_byte]
  have hs := hlt i hi
  have htoNat : (BitVec.ofNat 8 (s i)).toNat = s i := by
    rw [BitVec.toNat_ofNat]
    omega
  have hplace : st.cftab (s i : Nat) = (place s n i : Nat) := by
    rw [h.tab _ hs]
    unfold place
    omega
  have hpl := place_lt (s := s) hi
  unfold Store.ttStep
  dsimp only
  rw [huc, htoNat, hplace]
  constructor
  · intro p hp
    dsimp only
    rw [Cells.get_set]
    by_cases he : p = place s n i
    · rw [if_pos (by omega), he, h.cell _ hpl, unplace_place hi, if_neg (Nat.lt_irrefl i),
        if_pos (Nat.lt_succ_self i), Nat.zero_mul, Nat.zero_add, or_index (hlt _ hpl) (by omega)]
    · have hne : unplace s n p ≠ i := fun e => he (by rw [← e, place_unplace hp])
      rw [if_neg (by omega), h.cell p hp]
      by_cases hu : unplace s n p < i
      · rw [if_pos hu, if_pos (by omega)]
      · rw [if_neg hu, if_neg (by omega)]
  · intro b hb
    dsimp only
    rw [Cells.get_set, holding_succ]
    by_cases hbs : b = s i
    · rw [if_pos (by omega), if_pos hbs.symm, ← hplace, hbs, h.tab _ hs]
      omega
    · rw [if_neg (by omega), if_neg (Ne.symm hbs), h.tab b hb]
      omega

/-- `T^(-1)` after `i` rounds. -/
theorem linking_rounds (h : Block false s n st) (hcum : Cumulated s n st.cftab) (hn : n ≤ 2 ^ 24)
    {i : Nat} (hi : i ≤ n) : Linking s n i (forUpto i Store.ttStep st) := by
  have h0 : Linking s n 0 st := by
    refine ⟨fun p hp => ?_, fun b hb => ?_⟩
    · have := h.cell p hp
      rw [if_neg (by decide)] at this
      rw [if_neg (Nat.not_lt_zero _), Nat.zero_mul, Nat.zero_add]
      exact this
    · rw [hcum b (by omega)]
      simp [holding]
  exact forUpto_inv (fun i st => Linking s n i st) h0 i
    fun j t hj ht => ht.step h.lt hn (Nat.lt_of_lt_of_le hj hi)

/-- The index of the cell that round `i` of `T^(-1)` writes: `cftab[uc]`. -/
def Store.ttCell (i : Nat) (st : Store μ) : Int := st.cftab ((st.tt i).setWidth 8 : Byte).toNat

/-- **Every round of `T^(-1)` writes a cell of the block.** -/
theorem ttCell_lt (h : Block false s n st) (hcum : Cumulated s n st.cftab) (hn : n ≤ 2 ^ 24)
    {i : Nat} (hi : i < n) :
    0 ≤ Store.ttCell i (forUpto i Store.ttStep st) ∧
      Store.ttCell i (forUpto i Store.ttStep st) < n := by
  have hlink := linking_rounds h hcum hn (Nat.le_of_lt hi)
  have hs := h.lt i hi
  have hlt := place_lt (s := s) hi
  unfold place at hlt
  unfold Store.ttCell
  rw [hlink.cell i hi, low_byte, BitVec.toNat_ofNat, Nat.mod_eq_of_lt hs, hlink.tab _ hs]
  omega

/-- **Normal mode**: cell `p` holds byte `p`, and above it the cell sorted to `p`. -/
theorem buildFast_get (h : Block false s n st) (hcum : Cumulated s n st.cftab) (hn : n ≤ 2 ^ 24)
    {p : Nat} (hp : p < n) :
    (st.buildFast n).tt p = BitVec.ofNat 32 (unplace s n p * 256 + s p) := by
  have hend : Linking s n n (st.buildFast n) := linking_rounds h hcum hn (Nat.le_refl n)
  rw [hend.cell p hp, if_pos (unplace_lt hp)]

/-- `BZ_GET_FAST` inside the block. -/
theorem getFast_at (h : Block false s n st) (hcum : Cumulated s n st.cftab) (hn : n ≤ 2 ^ 24)
    {limit p : Nat} (hl : n ≤ limit) (hp : p < n) :
    (st.buildFast n).getFast limit (BitVec.ofNat 32 p) =
      some (BitVec.ofNat 8 (s p), BitVec.ofNat 32 (unplace s n p)) := by
  have htoNat : (BitVec.ofNat 32 p).toNat = p := by
    rw [BitVec.toNat_ofNat]
    omega
  have hu := unplace_lt (s := s) hp
  unfold Store.getFast
  rw [htoNat, if_neg (by omega)]
  dsimp only
  rw [buildFast_get h hcum hn hp, low_byte, high_index (h.lt p hp) (by omega)]

/-! ## 3. Small mode: 20 bits in two arrays -/

theorem keepHigh : ∀ x : Byte, (x &&& 0xf0#8).toNat = 2 ^ 4 * (x.toNat / 16) := by decide

theorem keepLow : ∀ x : Byte, (x &&& 0x0f#8).toNat = x.toNat % 16 := by decide

/-- The low half of a byte replaced. -/
theorem setLow (x : Byte) {v : Byte} (hv : v.toNat < 16) :
    ((x &&& 0xf0#8) ||| v).toNat = 2 ^ 4 * (x.toNat / 16) + v.toNat := by
  rw [BitVec.toNat_or, keepHigh, Nat.two_pow_add_eq_or_of_lt hv]

/-- The high half of a byte replaced. -/
theorem setHigh (x : Byte) {v : Byte} (hv : v.toNat < 16) :
    ((x &&& 0x0f#8) ||| (v <<< 4)).toNat = 2 ^ 4 * v.toNat + x.toNat % 16 := by
  have hshift : (v <<< 4).toNat = 2 ^ 4 * v.toNat := by
    rw [BitVec.toNat_shiftLeft, Nat.shiftLeft_eq]
    omega
  have hlow : x.toNat % 16 < 2 ^ 4 := by omega
  rw [BitVec.toNat_or, keepLow, hshift, Nat.or_comm, Nat.two_pow_add_eq_or_of_lt hlow]

theorem getLL4_setLL4 (st : Store μ) (i k : Nat) {v : Byte} (hv : v.toNat < 16) :
    (st.setLL4 i v).getLL4 k = if k = i then v.toNat else st.getLL4 k := by
  have hpow : ∀ k : Nat, 2 ^ (k * 4 % 8) = if k % 2 = 0 then 1 else 16 := by
    intro k
    rcases Nat.mod_two_eq_zero_or_one k with h | h
    · have e : k * 4 % 8 = 0 := by omega
      rw [e, if_pos h]
      rfl
    · have e : k * 4 % 8 = 4 := by omega
      rw [e, if_neg (by omega)]
      rfl
  unfold Store.getLL4 Store.setLL4
  rw [hpow]
  by_cases hi : i % 2 = 0
  · rw [if_pos hi]
    dsimp only
    rw [Cells.get_set]
    by_cases hk : k / 2 = i / 2
    · rw [if_pos (by omega), setLow _ hv, hk]
      by_cases hki : k = i
      · rw [if_pos hki, hki, if_pos hi]
        omega
      · rw [if_neg hki, if_neg (by omega)]
        omega
    · rw [if_neg (by omega), if_neg (by omega : ¬ k = i)]
  · rw [if_neg hi]
    dsimp only
    rw [Cells.get_set]
    by_cases hk : k / 2 = i / 2
    · rw [if_pos (by omega), setHigh _ hv, hk]
      by_cases hki : k = i
      · rw [if_pos hki, hki, if_neg hi]
        omega
      · rw [if_neg hki, if_pos (by omega)]
        omega
    · rw [if_neg (by omega), if_neg (by omega : ¬ k = i)]

theorem getLL4_congr {st st' : Store μ} (h : st'.ll4 = st.ll4) (k : Nat) :
    st'.getLL4 k = st.getLL4 k := by
  unfold Store.getLL4
  rw [h]

/-- **A pointer written and read back.** -/
theorem getLL_setLL (st : Store μ) (i k : Nat) {v : Nat} (hv : v < 2 ^ 20) :
    (st.setLL i v).getLL k = if k = i then v else st.getLL k := by
  have hhigh : (BitVec.ofNat 8 (v / 65536)).toNat = v / 65536 := by
    rw [BitVec.toNat_ofNat]
    omega
  have hll16 : (st.setLL i v).ll16 = st.ll16.set i (BitVec.ofNat 16 v) := by
    unfold Store.setLL Store.setLL4
    split <;> rfl
  unfold Store.getLL
  rw [hll16, Store.setLL, getLL4_setLL4 _ _ _ (by rw [hhigh]; omega), hhigh, Cells.get_set]
  by_cases hk : k = i
  · rw [if_pos (by omega), if_pos hk, if_pos hk, BitVec.toNat_ofNat, Nat.or_comm]
    have e : v / 65536 * 65536 = 2 ^ 16 * (v / 65536) := by omega
    rw [e, ← Nat.two_pow_add_eq_or_of_lt (show v % 2 ^ 16 < 2 ^ 16 by omega)]
    omega
  · rw [if_neg (by omega), if_neg hk, if_neg hk, getLL4_congr]
    rfl

theorem setLL_frame (st : Store μ) (i v : Nat) :
    (st.setLL i v).cftab = st.cftab ∧ (st.setLL i v).cftabCopy = st.cftabCopy ∧
      (st.setLL i v).unzftab = st.unzftab ∧ (st.setLL i v).mtfa = st.mtfa ∧
      (st.setLL i v).ll16 = st.ll16.set i (BitVec.ofNat 16 v) := by
  unfold Store.setLL Store.setLL4
  split <;> exact ⟨rfl, rfl, rfl, rfl, rfl⟩

/-! ## 4. Small mode: the vector -/

/-- After `i` rounds of the `T` vector. -/
structure Placing (s : Int → Nat) (n i : Nat) (st : Store μ) : Prop where
  done : ∀ x : Nat, x < i → st.getLL x = place s n x
  byte : ∀ x : Nat, i ≤ x → x < n → st.ll16 x = BitVec.ofNat 16 (s x)
  tab : ∀ b : Nat, b < 256 → st.cftabCopy b = below s n b + holding s i b

theorem Placing.step (hlt : ∀ x : Nat, x < n → s x < 256) (hn : n ≤ 2 ^ 20) {i : Nat} (hi : i < n)
    (h : Placing s n i st) : Placing s n (i + 1) (st.llStep i) := by
  have hs := hlt i hi
  have htoNat : ((st.ll16 i).setWidth 8).toNat = s i := by
    rw [h.byte i (Nat.le_refl i) hi, BitVec.toNat_setWidth, BitVec.toNat_ofNat]
    omega
  have hplace : st.cftabCopy (s i : Nat) = (place s n i : Nat) := by
    rw [h.tab _ hs]
    unfold place
    omega
  have hpl := place_lt (s := s) hi
  obtain ⟨_, hcopy, _, _, hll16⟩ := setLL_frame st i (place s n i)
  unfold Store.llStep
  dsimp only
  rw [htoNat, hplace, Int.toNat_natCast]
  refine ⟨fun x hx => ?_, fun x hx1 hx2 => ?_, fun b hb => ?_⟩
  · change (st.setLL i (place s n i)).getLL x = _
    rw [getLL_setLL _ _ _ (by omega)]
    by_cases hxi : x = i
    · rw [if_pos hxi, hxi]
    · rw [if_neg hxi]
      exact h.done x (by omega)
  · dsimp only
    rw [hll16, Cells.get_set_of_ne _ (by omega)]
    exact h.byte x (by omega) hx2
  · dsimp only
    rw [Cells.get_set, holding_succ]
    by_cases hbs : b = s i
    · rw [if_pos (by omega), if_pos hbs.symm, ← hplace, hbs, h.tab _ hs]
      omega
    · rw [if_neg (by omega), if_neg (Ne.symm hbs), h.tab b hb]
      omega

/-- The cells the walk comes by: `origPtr`, the cell sorted there, the cell sorted there, ... -/
def pos (s : Int → Nat) (n o k : Nat) : Nat := (unplace s n)^[k] o

theorem pos_lt {o : Nat} (ho : o < n) (k : Nat) : pos s n o k < n :=
  (unplace_perm s n).iterate_lt ho k

theorem pos_succ (s : Int → Nat) (n o k : Nat) : pos s n o (k + 1) = unplace s n (pos s n o k) :=
  Function.iterate_succ_apply' ..

/-- The state of the pointer reversal after `k` steps along the cycle of length `c`: the pointers
    of the cells passed are turned. -/
structure Turning (s : Int → Nat) (n o c k : Nat) (st : Store μ) : Prop where
  turned : ∀ m, m < k → st.getLL ((place s n)^[m + 1] o) = (place s n)^[m] o
  ahead : ∀ m, k < m → m ≤ c → st.getLL ((place s n)^[m] o) = (place s n)^[m + 1] o

section

variable {o c k : Nat}

/-- One more pointer turned. -/
theorem Turning.step (ho : o < n) (hn : n ≤ 2 ^ 20)
    (hinj : ∀ a b, a < c → b < c → (place s n)^[a] o = (place s n)^[b] o → a = b) (hk : k < c)
    (h : Turning s n o c k st) :
    Turning s n o c (k + 1) (st.setLL ((place s n)^[k + 1] o) ((place s n)^[k] o)) := by
  have hlt : ∀ m, (place s n)^[m] o < n := (place_perm s n).iterate_lt ho
  have hset : ∀ x, (st.setLL ((place s n)^[k + 1] o) ((place s n)^[k] o)).getLL x =
      if x = (place s n)^[k + 1] o then (place s n)^[k] o else st.getLL x := fun x =>
    getLL_setLL _ _ _ (by have := hlt k; omega)
  -- points of the cycle other than the one being turned
  have hne : ∀ m, m < c → m + 1 ≠ k + 1 → (place s n)^[m + 1] o ≠ (place s n)^[k + 1] o := by
    intro m hm hmk e
    rw [Function.iterate_succ_apply', Function.iterate_succ_apply'] at e
    have := hinj m k hm hk (place_inj (hlt m) (hlt k) e)
    omega
  refine ⟨fun m hm => ?_, fun m hm1 hm2 => ?_⟩
  · rw [hset]
    by_cases hmk : m = k
    · rw [hmk, if_pos rfl]
    · rw [if_neg (hne m (by omega) (by omega))]
      exact h.turned m (by omega)
  · obtain ⟨m, rfl⟩ : ∃ l, m = l + 1 := ⟨m - 1, by omega⟩
    rw [hset, if_neg (hne m (by omega) (by omega))]
    exact h.ahead (m + 1) (by omega) hm2

/-- The cycle goes on until it is back. -/
theorem cycle_goes_on (hc : (place s n)^[c] o = o) (hk : k < c) (hback : (place s n)^[k + 1] o ≠ o) :
    k + 1 < c := by
  by_contra hkc
  have e : k + 1 = c := by omega
  exact hback (by rw [e, hc])

/-- **The pointer reversal** comes back to `origPtr`, with every pointer of its cycle turned. -/
theorem reverseLoop_spec (ho : o < n) (hn : n ≤ 2 ^ 20) (hc : (place s n)^[c] o = o)
    (hinj : ∀ a b, a < c → b < c → (place s n)^[a] o = (place s n)^[b] o → a = b) :
    ∀ (fuel k : Nat) (st : Store μ), k < c → c - k ≤ fuel → Turning s n o c k st →
      ∃ st', Store.reverseLoop o fuel ((place s n)^[k] o) ((place s n)^[k + 1] o) st = some st' ∧
        (∀ m, m < c → st'.getLL ((place s n)^[m + 1] o) = (place s n)^[m] o) ∧
        st'.cftab = st.cftab := by
  intro fuel
  induction fuel with
  | zero => intro k st hk hf; omega
  | succ fuel ih =>
    intro k st hk hf h
    have hturn := h.step ho hn hinj hk
    obtain ⟨hframe, _⟩ := setLL_frame st ((place s n)^[k + 1] o) ((place s n)^[k] o)
    have hnext : st.getLL ((place s n)^[k + 1] o) = (place s n)^[k + 1 + 1] o :=
      h.ahead (k + 1) (by omega) (by omega)
    unfold Store.reverseLoop
    dsimp only
    by_cases hback : (place s n)^[k + 1] o = o
    · rw [if_pos hback]
      have hkc : k + 1 = c := by
        by_contra hkc
        have := hinj (k + 1) 0 (by omega) (by omega) hback
        omega
      exact ⟨_, rfl, fun m hm => hturn.turned m (by omega), hframe⟩
    · rw [if_neg hback, hnext]
      have hkc := cycle_goes_on hc hk hback
      obtain ⟨st', he, ht, hf'⟩ := ih (k + 1) _ hkc (by omega) hturn
      exact ⟨st', he, ht, hf'.trans hframe⟩

/-- Every round of the pointer reversal writes below `n`. -/
def Store.ReversesBelow (n origPtr : Nat) : Nat → Nat → Nat → Store μ → Prop
  | 0, _, _, _ => True
  | fuel + 1, i, j, st =>
    j < n ∧ (j ≠ origPtr → ReversesBelow n origPtr fuel j (st.getLL j) (st.setLL j i))

theorem reversesBelow_cycle (ho : o < n) (hn : n ≤ 2 ^ 20) (hc : (place s n)^[c] o = o)
    (hinj : ∀ a b, a < c → b < c → (place s n)^[a] o = (place s n)^[b] o → a = b) :
    ∀ (fuel k : Nat) (st : Store μ), k < c → Turning s n o c k st →
      st.ReversesBelow n o fuel ((place s n)^[k] o) ((place s n)^[k + 1] o) := by
  intro fuel
  induction fuel with
  | zero => exact fun _ _ _ _ => trivial
  | succ fuel ih =>
    intro k st hk h
    refine ⟨(place_perm s n).iterate_lt ho (k + 1), fun hback => ?_⟩
    rw [h.ahead (k + 1) (by omega) (by omega)]
    exact ih (k + 1) _ (cycle_goes_on hc hk hback) (h.step ho hn hinj hk)

end

theorem copyTable_get (a c : Cells Int) (m : Nat) {b : Nat} (hb : b < m) :
    (forUpto m (fun i (c : Cells Int) => c.set i (a i)) c) b = a b := by
  refine forUpto_inv (fun i (c : Cells Int) => ∀ b : Nat, b < i → c b = a b)
    (fun b hb => absurd hb (Nat.not_lt_zero b)) m (fun i c _ hc b hb => ?_) b hb
  rw [Cells.get_set]
  by_cases hbi : b = i
  · rw [if_pos (by omega), hbi]
  · rw [if_neg (by omega)]
    exact hc b (by omega)

/-- The `T` vector of the small mode, before its pointers are turned. -/
def Store.tVector (st : Store μ) (nblock : Nat) : Store μ :=
  forUpto nblock Store.llStep
    { st with cftabCopy := forUpto 257 (fun i c => c.set i (st.cftab i)) st.cftabCopy }

theorem buildSmall_eq (st : Store μ) (nblock origPtr : Nat) :
    st.buildSmall nblock origPtr =
      Store.reverseLoop origPtr nblock origPtr ((st.tVector nblock).getLL origPtr)
        (st.tVector nblock) := rfl

theorem tVector_get (h : Block true s n st) (hcum : Cumulated s n st.cftab) (hn : n ≤ 2 ^ 20) :
    Placing s n n (st.tVector n) ∧ (st.tVector n).cftab = st.cftab := by
  obtain ⟨st0, hst0⟩ : ∃ st0 : Store μ, st0 =
    { st with cftabCopy := forUpto 257 (fun i c => c.set i (st.cftab i)) st.cftabCopy } := ⟨_, rfl⟩
  have hcopy : ∀ b : Nat, b < 257 → st0.cftabCopy b = st.cftab b := by
    rw [hst0]
    exact fun b hb => copyTable_get st.cftab st.cftabCopy 257 hb
  have hP0 : Placing s n 0 st0 := by
    refine ⟨fun x hx => absurd hx (Nat.not_lt_zero x), fun x _ hx => ?_, fun b hb => ?_⟩
    · have := h.cell x hx
      rw [if_pos rfl] at this
      rw [hst0]
      exact this
    · rw [hcopy b (by omega), hcum b (by omega)]
      simp [holding]
  have hcf0 : st0.cftab = st.cftab := by rw [hst0]
  unfold Store.tVector
  rw [← hst0]
  exact forUpto_inv (fun i (t : Store μ) => Placing s n i t ∧ t.cftab = st.cftab) ⟨hP0, hcf0⟩ n
    fun i t hi ⟨ht, hc⟩ => ⟨ht.step h.lt hn hi, (setLL_frame _ _ _).1.trans hc⟩

/-- The pointers of the `T` vector, along the cycle of `origPtr`. -/
theorem tVector_cycle (h : Block true s n st) (hcum : Cumulated s n st.cftab) (hn : n ≤ 2 ^ 20)
    {o : Nat} (ho : o < n) (m : Nat) :
    (st.tVector n).getLL ((place s n)^[m] o) = (place s n)^[m + 1] o := by
  rw [(tVector_get h hcum hn).1.done _ ((place_perm s n).iterate_lt ho m),
    Function.iterate_succ_apply']

/-- **Every round of the pointer reversal writes a cell of the block.** -/
theorem reversesBelow (h : Block true s n st) (hcum : Cumulated s n st.cftab) (hn : n ≤ 2 ^ 20)
    {o : Nat} (ho : o < n) :
    (st.tVector n).ReversesBelow n o n o ((st.tVector n).getLL o) := by
  have hT := tVector_cycle h hcum hn ho
  obtain ⟨c, hc0, hcn, hc, hinj⟩ := (place_perm s n).exists_period ho
  have e := hT 0
  rw [Function.iterate_zero_apply] at e
  rw [e]
  exact reversesBelow_cycle ho hn hc hinj n 0 _ hc0
    ⟨fun m hm => absurd hm (Nat.not_lt_zero m), fun m _ _ => hT m⟩

/-- **Small mode**: the vector is built, and along the cycle of `origPtr` it leads from each cell
    to the one sorted there. -/
theorem buildSmall_spec (h : Block true s n st) (hcum : Cumulated s n st.cftab) (hn : n ≤ 2 ^ 20)
    {o : Nat} (ho : o < n) :
    ∃ st', st.buildSmall n o = some st' ∧ Cumulated s n st'.cftab ∧
      ∀ k, st'.getLL (pos s n o k) = pos s n o (k + 1) := by
  have hT := tVector_cycle h hcum hn ho
  have hlt : ∀ m, (place s n)^[m] o < n := (place_perm s n).iterate_lt ho
  obtain ⟨c, hc0, hcn, hc, hinj⟩ := (place_perm s n).exists_period ho
  obtain ⟨st', he, hturned, hcf'⟩ := reverseLoop_spec ho hn hc hinj n 0 _ hc0 (by omega)
    ⟨fun m hm => absurd hm (Nat.not_lt_zero m), fun m _ _ => hT m⟩
  refine ⟨st', ?_, ?_, ?_⟩
  · have e := hT 0
    rw [Function.iterate_zero_apply] at e
    rw [buildSmall_eq, e]
    exact he
  · rw [hcf', (tVector_get h hcum hn).2]
    exact hcum
  · -- every cell the walk comes by is a cell of the cycle that was turned
    have hcycle : ∀ k, ∃ m, m < c ∧ pos s n o k = (place s n)^[m + 1] o := by
      intro k
      induction k with
      | zero => exact ⟨c - 1, by omega, by rw [show c - 1 + 1 = c by omega, hc]; rfl⟩
      | succ k ih =>
        obtain ⟨m, hm, e⟩ := ih
        rw [pos_succ, e, Function.iterate_succ_apply', unplace_place (hlt m)]
        cases m with
        | zero => exact ⟨c - 1, by omega, by rw [show c - 1 + 1 = c by omega, hc]; rfl⟩
        | succ m => exact ⟨m, by omega, rfl⟩
    intro k
    obtain ⟨m, hm, e⟩ := hcycle k
    rw [pos_succ, e, hturned m hm, Function.iterate_succ_apply', unplace_place (hlt m)]

/-! ## 5. The bucket of an index -/

/-- The loop of `BZ2_indexIntoF` from the bounds `nb` and `na`; `none` where it goes on after `fuel`
    rounds. -/
def indexRounds (indx : Int) (cftab : Cells Int) : Nat → Nat → Nat → Option Nat
  | 0, _, _ => none
  | fuel + 1, nb, na =>
    let mid := (nb + na) / 2
    let (nb, na) := if indx ≥ cftab mid then (mid, na) else (nb, mid)
    if na - nb = 1 then some nb else indexRounds indx cftab fuel nb na

/-- Where the loop ends, the bounded one ends with the same. -/
theorem indexLoop_of_rounds {indx : Int} {cftab : Cells Int} : ∀ {fuel nb na b : Nat},
    indexRounds indx cftab fuel nb na = some b → Store.indexLoop indx cftab fuel nb na = b := by
  intro fuel
  induction fuel with
  | zero => intro nb na b h; cases h
  | succ fuel ih =>
    intro nb na b h
    unfold indexRounds at h
    unfold Store.indexLoop
    dsimp only at h ⊢
    generalize (if indx ≥ cftab ((nb + na) / 2 : Nat) then ((nb + na) / 2, na)
      else (nb, (nb + na) / 2)) = p at h ⊢
    split at h
    · rename_i hone
      rw [if_pos hone]
      exact Option.some.inj h
    · rename_i hone
      rw [if_neg hone]
      exact ih h

/-- **The halving**: bounds `2^k` apart with the index between them have closed in on its bucket
    after `k` rounds, whatever the table. -/
theorem indexRounds_spec (indx : Int) (cftab : Cells Int) : ∀ (k nb na fuel : Nat),
    na = nb + 2 ^ (k + 1) → cftab nb ≤ indx → indx < cftab na → k < fuel →
    ∃ b, indexRounds indx cftab fuel nb na = some b ∧ nb ≤ b ∧ b < na ∧ cftab b ≤ indx ∧
      indx < cftab (b + 1 : Nat) := by
  intro k
  induction k with
  | zero =>
    intro nb na fuel hna h1 h2 hfuel
    cases fuel with
    | zero => omega
    | succ fuel =>
      have hmid : (nb + na) / 2 = nb + 1 := by omega
      unfold indexRounds
      dsimp only
      rw [hmid]
      by_cases hge : indx ≥ cftab (nb + 1 : Nat)
      · have e : na = nb + 1 + 1 := by omega
        rw [if_pos hge, if_pos (by omega)]
        exact ⟨nb + 1, rfl, by omega, by omega, hge, by rw [← e]; exact h2⟩
      · rw [if_neg hge, if_pos (by omega)]
        exact ⟨nb, rfl, Nat.le_refl _, by omega, h1, by omega⟩
  | succ k ih =>
    intro nb na fuel hna h1 h2 hfuel
    cases fuel with
    | zero => omega
    | succ fuel =>
      have hpow : 2 ^ (k + 1 + 1) = 2 ^ (k + 1) + 2 ^ (k + 1) := by rw [Nat.pow_succ _ (k + 1)]; omega
      have htwo : 2 ≤ 2 ^ (k + 1) := by
        have := Nat.two_pow_pos k
        rw [Nat.pow_succ]
        omega
      have hmid : (nb + na) / 2 = nb + 2 ^ (k + 1) := by omega
      unfold indexRounds
      dsimp only
      rw [hmid]
      by_cases hge : indx ≥ cftab (nb + 2 ^ (k + 1) : Nat)
      · obtain ⟨b, he, hb1, hb2, hb⟩ := ih (nb + 2 ^ (k + 1)) na fuel (by omega) hge h2 (by omega)
        rw [if_pos hge, if_neg (by omega)]
        exact ⟨b, he, by omega, hb2, hb⟩
      · obtain ⟨b, he, hb1, hb2, hb⟩ := ih nb (nb + 2 ^ (k + 1)) fuel rfl h1 (by omega) (by omega)
        rw [if_neg hge, if_neg (by omega)]
        exact ⟨b, he, hb1, by omega, hb⟩

/-- Along a table that does not decrease. -/
theorem cftab_mono {cftab : Cells Int} (h : ∀ b : Nat, b < 256 → cftab b ≤ cftab (b + 1 : Nat))
    {a b : Nat} (hab : a ≤ b) (hb : b ≤ 256) : cftab a ≤ cftab b := by
  induction b with
  | zero => rw [Nat.le_zero.mp hab]
  | succ b ih =>
    by_cases e : a = b + 1
    · rw [e]
    · exact Int.le_trans (ih (by omega) (by omega)) (h b (by omega))

/-- **`BZ2_indexIntoF`** ends after eight rounds with the one byte whose bucket the index lies in,
    however many buckets are empty. -/
theorem indexIntoF_bucket (cftab : Cells Int) (indx : Int) (h0 : cftab (0 : Nat) = 0)
    (hmono : ∀ b : Nat, b < 256 → cftab b ≤ cftab (b + 1 : Nat)) (hlo : 0 ≤ indx)
    (hhi : indx < cftab (256 : Nat)) :
    ∃ nb, (∀ fuel, 8 ≤ fuel → indexRounds indx cftab fuel 0 256 = some nb) ∧
      Store.indexIntoF indx cftab = nb ∧ nb < 256 ∧
      cftab nb ≤ indx ∧ indx < cftab (nb + 1 : Nat) ∧
      ∀ b : Nat, b < 256 → cftab b ≤ indx → indx < cftab (b + 1 : Nat) → b = nb := by
  have hstart : cftab (0 : Nat) ≤ indx := by rw [h0]; exact hlo
  -- two buckets with the index in them are one
  have hone : ∀ a b : Nat, a < 256 → b < 256 → cftab a ≤ indx → indx < cftab (a + 1 : Nat) →
      cftab b ≤ indx → indx < cftab (b + 1 : Nat) → a ≤ b := by
    intro a b ha hb ha1 ha2 hb1 hb2
    by_contra hlt
    have := cftab_mono hmono (show b + 1 ≤ a by omega) (by omega)
    omega
  obtain ⟨nb, he, _, hlt, h1, h2⟩ :=
    indexRounds_spec indx cftab 7 0 256 8 rfl hstart hhi (by decide)
  refine ⟨nb, fun fuel hfuel => ?_, indexLoop_of_rounds he, hlt, h1, h2, fun b hb hb1 hb2 => ?_⟩
  · obtain ⟨nb', he', _, hlt', h1', h2'⟩ :=
      indexRounds_spec indx cftab 7 0 256 fuel rfl hstart hhi (by omega)
    rw [he']
    exact congrArg some (Nat.le_antisymm (hone nb' nb hlt' hlt h1' h2' h1 h2)
      (hone nb nb' hlt hlt' h1 h2 h1' h2'))
  · exact Nat.le_antisymm (hone b nb hb hlt hb1 hb2 h1 h2) (hone nb b hlt hb h1 h2 hb1 hb2)

/-- Two full buckets, 97 and 98, and the empty ones around them. -/
theorem indexIntoF_bucket_two :
    ∃ nb, (∀ fuel, 8 ≤ fuel →
        indexRounds 1 (.ofFn fun i => if i ≤ 97 then 0 else if i = 98 then 1 else 2) fuel 0 256 =
          some nb) ∧
      nb < 256 := by
  obtain ⟨nb, h, _, hlt, _⟩ := indexIntoF_bucket
    (.ofFn fun i => if i ≤ 97 then 0 else if i = 98 then 1 else 2) 1 rfl
    (fun b _ => by
      show (if (b : Int) ≤ 97 then (0 : Int) else if (b : Int) = 98 then 1 else 2) ≤
        if ((b + 1 : Nat) : Int) ≤ 97 then (0 : Int) else if ((b + 1 : Nat) : Int) = 98 then 1 else 2
      split_ifs <;> omega)
    (by decide) (by decide)
  exact ⟨nb, h, hlt⟩

/-- In a block, that bucket's byte is the one sorted to the index. -/
theorem indexIntoF_eq {cftab : Cells Int} (hlt : ∀ x : Nat, x < n → s x < 256)
    (hcum : Cumulated s n cftab) {p : Nat} (hp : p < n) :
    Store.indexIntoF p cftab = s (unplace s n p) := by
  have h0 : cftab (0 : Nat) ≤ (p : Int) := by
    rw [hcum 0 (by omega), below_zero]
    omega
  have h256 : (p : Int) < cftab (256 : Nat) := by
    rw [hcum 256 (Nat.le_refl _), below_eq_self hlt]
    omega
  obtain ⟨b, he, _, hb, h1, h2⟩ := indexRounds_spec p cftab 7 0 256 8 rfl h0 h256 (by decide)
  rw [hcum b (by omega)] at h1
  rw [hcum (b + 1) (by omega)] at h2
  rw [Store.indexIntoF, indexLoop_of_rounds he, symbol_unplace (s := s) (b := b) hp (by omega) (by omega)]

/-! ## 6. One walk in both modes -/

/-- How far ahead of the small mode the position of the normal mode is. -/
def lead (small : Bool) : Nat := if small then 0 else 1

/-- The index of the vector the `k`-th `BZ_GET` is at. -/
def posAt (s : Int → Nat) (n : Nat) (small : Bool) (o k : Nat) : Word32 :=
  BitVec.ofNat 32 (pos s n o (k + lead small))

/-- **The vector is built, and the `k`-th `BZ_GET` finds the same byte in both modes**: the cell it
    is at lies in the block, so it never returns early. -/
theorem buildVector_walk {c : Core μ} {s : Int → Nat}
    (h : Block small s c.p.nblock c.store) (hcum : Cumulated s c.p.nblock c.store.cftab)
    (hn : c.p.nblock ≤ 2 ^ 20) (hl : c.p.nblock ≤ c.limit) (ho : c.p.origPtr < c.p.nblock) :
    ∃ c' : Core μ, c.buildVector small = some c' ∧ c'.p = c.p ∧
      c'.calculatedCombinedCRC = c.calculatedCombinedCRC ∧
      c'.out = { c.out with tPos := posAt s c.p.nblock small c.p.origPtr 0, nblockUsed := 0 } ∧
      ∀ k, (c'.env small).next (posAt s c.p.nblock small c.p.origPtr k) =
        some (BitVec.ofNat 8 (s (pos s c.p.nblock c.p.origPtr (k + 1))),
          posAt s c.p.nblock small c.p.origPtr (k + 1)) := by
  cases small with
  | true =>
    obtain ⟨st', he, hcum', hll⟩ := buildSmall_spec h hcum hn ho
    refine ⟨{ c with
      store := st'
      out := { c.out with tPos := posAt s c.p.nblock true c.p.origPtr 0, nblockUsed := 0 } },
      ?_, rfl, rfl, rfl, fun k => ?_⟩
    · unfold Core.buildVector
      rw [if_pos rfl, he, Option.map_some]
      rfl
    · have hk := pos_lt (s := s) ho k
      have htoNat : (BitVec.ofNat 32 (pos s c.p.nblock c.p.origPtr k)).toNat =
          pos s c.p.nblock c.p.origPtr k := by
        rw [BitVec.toNat_ofNat]
        omega
      change st'.getByte true c.limit _ = _
      unfold Store.getByte posAt lead
      rw [if_pos rfl, if_pos rfl, Nat.add_zero, Nat.add_zero, Store.getSmall, htoNat,
        if_neg (by omega), indexIntoF_eq h.lt hcum' hk, hll, pos_succ]
  | false =>
    refine ⟨{ c with
      store := c.store.buildFast c.p.nblock
      out := { c.out with tPos := posAt s c.p.nblock false c.p.origPtr 0, nblockUsed := 0 } },
      ?_, rfl, rfl, rfl, fun k => ?_⟩
    · have hu := unplace_lt (s := s) ho
      unfold Core.buildVector
      rw [if_neg (by decide)]
      dsimp only
      rw [buildFast_get h hcum (by omega) ho, high_index (h.lt _ ho) (by omega)]
      rfl
    · have hk := pos_lt (s := s) ho (k + 1)
      change (c.store.buildFast c.p.nblock).getByte false c.limit _ = _
      unfold Store.getByte posAt lead
      rw [if_neg (by decide), if_neg (by decide), getFast_at h hcum (by omega) hl hk, ← pos_succ]

end Qbz2
