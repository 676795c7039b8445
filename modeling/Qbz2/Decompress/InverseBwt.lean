/-
  File:      Qbz2/Decompress/InverseBwt.lean
  Subject:   The vector of a block that is a Burrows-Wheeler transform gives the block back.

  * `Core.prepared` -- a block at the end of its symbols, once its counts are cumulated;
    `endBlock_eq`: where the checks pass, the vector is built and the first byte taken;
  * `walk` -- the bytes of successive `BZ_GET`s;
  * **`inverseBwt`** -- in both modes, for every sorted list of the rotations, equal rotations in
    any order.
-/
import Qbz2.BlockSort.Agree
import Qbz2.Decompress.Vector
import Qbz2.Lib.LastColumn

namespace Qbz2

open Loop Counting Rotation

variable {μ : Type}

/-! ## 1. The end of a block -/

/-- The state after the checks: the counts cumulated, the output state reset. -/
def Core.prepared (c : Core μ) : Core μ :=
  { c with
    store := c.store.makeCftab
    out := { c.out with stateOutLen := 0, stateOutCh := 0, calculatedBlockCRC := 0xffffffff } }

@[simp] theorem prepared_p (c : Core μ) : c.prepared.p = c.p := by
  unfold Core.prepared
  dsimp only

@[simp] theorem prepared_combined (c : Core μ) :
    c.prepared.calculatedCombinedCRC = c.calculatedCombinedCRC := by
  unfold Core.prepared
  dsimp only

theorem prepared_out (c : Core μ) : c.prepared.out =
    { c.out with stateOutLen := 0, stateOutCh := 0, calculatedBlockCRC := 0xffffffff } := by
  unfold Core.prepared
  dsimp only

@[simp] theorem prepared_limit (c : Core μ) : c.prepared.limit = c.limit := by
  rw [Core.limit, Core.limit, prepared_p]

theorem makeCftab_frame (st : Store μ) :
    st.makeCftab.tt = st.tt ∧ st.makeCftab.ll16 = st.ll16 ∧
      st.makeCftab.unzftab = st.unzftab ∧ st.makeCftab.mtfa = st.mtfa := by
  unfold Store.makeCftab
  dsimp only
  exact ⟨rfl, rfl, rfl, rfl⟩

theorem Block.makeCftab {small : Bool} {s : Int → Nat} {n : Nat} {st : Store μ}
    (h : Block small s n st) : Block small s n st.makeCftab := by
  obtain ⟨h1, h2, h3, _⟩ := makeCftab_frame st
  refine ⟨h.lt, ?_, ?_⟩
  · rw [h1, h2]
    exact h.cell
  · rw [h3]
    exact h.counts

theorem Block.prepared {small : Bool} {s : Int → Nat} {n : Nat} {c : Core μ}
    (h : Block small s n c.store) : Block small s n c.prepared.store := by
  unfold Core.prepared
  exact h.makeCftab

theorem Block.cumulated {small : Bool} {s : Int → Nat} {n : Nat} {c : Core μ}
    (h : Block small s n c.store) : Cumulated s n c.prepared.store.cftab := by
  unfold Core.prepared
  exact makeCftab_get h

/-- **The end of a block** whose counts are right: the checks pass and the vector is built. -/
theorem endBlock_eq {small : Bool} {s : Int → Nat} {c : Core μ}
    (h : Block small s c.p.nblock c.store) (ho : c.p.origPtr < c.p.nblock) :
    c.endBlock small = (c.prepared.buildVector small).map fun c => (c.firstByte small, none) := by
  obtain ⟨h1, h2⟩ := checks_pass h
  unfold Core.endBlock
  dsimp only
  rw [if_neg (by omega), h1, if_neg (by decide), h2, if_neg (by decide)]
  rfl

/-! ## 2. Successive `BZ_GET`s -/

/-- The bytes of `n` successive `BZ_GET`s from `tPos`; none where one returns early. -/
def walk (next : Word32 → Option (Byte × Word32)) : Nat → Word32 → Option (List Byte)
  | 0, _ => some []
  | n + 1, tPos =>
    match next tPos with
    | none => none
    | some (b, tPos) => (walk next n tPos).map (b :: ·)

theorem walk_eq {next : Word32 → Option (Byte × Word32)} {byte : Nat → Byte} {at' : Nat → Word32}
    (h : ∀ k, next (at' k) = some (byte k, at' (k + 1))) :
    ∀ n k, walk next n (at' k) = some ((List.range' k n).map byte) := by
  intro n
  induction n with
  | zero => intro k; rfl
  | succ n ih =>
    intro k
    rw [walk, h k]
    dsimp only
    rw [ih, List.range'_succ]
    rfl

theorem bytesAt_eq_map (mem : Int → Byte) (n : Nat) (a : Nat) :
    bytesAt mem a n = (List.range' a n).map fun i : Nat => mem i := by
  induction n generalizing a with
  | zero => rfl
  | succ n ih =>
    have e : (a : Int) + 1 = ((a + 1 : Nat) : Int) := by omega
    rw [bytesAt_succ, List.range'_succ, e, ih]
    rfl

/-! ## 3. The inverse transform -/

/-- The decoder holds the last column of the sorted rotations of a block. -/
theorem lastColumn_block {small : Bool} {st : Store μ} {block block' : Cells Byte} {ptr : Cells Int}
    {n : Nat} (hsort : RotSort (sym block) n ptr)
    (hb : ∀ x : Int, 0 ≤ x → x < n → block' x = block x)
    (hcol : ∀ i : Nat, i < n →
      if small then st.ll16 i = (lastByte block' ptr n i).setWidth 16
      else st.tt i = (lastByte block' ptr n i).setWidth 32)
    (hcounts : ∀ b : Nat, b < 256 → st.unzftab b =
      holding (fun i => (lastByte block' ptr n i).toNat) n b) :
    Block small (lastColumn (sym block) n ptr) n st := by
  have hlast : ∀ i : Nat, i < n →
      (lastByte block' ptr n i).toNat = lastColumn (sym block) n ptr i := by
    intro i hi
    have hr := hsort.range i (by omega) (by omega)
    rw [lastByte_eq hb hr.1 hr.2]
    rfl
  refine ⟨fun x hx => ?_, fun x hx => ?_, fun b hb => ?_⟩
  · rw [← hlast x hx]
    exact (lastByte block' ptr n x).isLt
  · have := hcol x hx
    rw [← hlast x hx]
    simpa [BitVec.ofNat_toNat] using this
  · rw [hcounts b hb, holding_congr hlast]

/-- The `k`-th `BZ_GET` in it finds the `k`-th byte of the block. -/
theorem lastColumn_byte {block : Cells Byte} {ptr : Cells Int} {n o : Nat}
    (hsort : RotSort (sym block) n ptr) (ho : o < n) (h0 : ptr o = 0) (k : Nat) :
    BitVec.ofNat 8 (lastColumn (sym block) n ptr (pos (lastColumn (sym block) n ptr) n o (k + 1))) =
      block ((k : Int) % n) := by
  have hw := symbol_walk hsort (o := o) (by omega) h0 k
  apply BitVec.eq_of_toNat_eq
  have he : lastColumn (sym block) n ptr (pos (lastColumn (sym block) n ptr) n o (k + 1)) =
      sym block ((k : Int) % n) := by
    rw [← hw]
    rfl
  have := sym_lt block ((k : Int) % n)
  rw [he, BitVec.toNat_ofNat, Nat.mod_eq_of_lt (by omega)]
  rfl

/-- **Inverse BWT.** The decoder holds the last column of a block of `nblock` bytes, taken from any
    list of its rotations in order (equal rotations in any order) with rotation 0 in row `origPtr`,
    and the counts of these bytes. Then no check fails, the vector is built, and `nblock`
    `BZ_GET`s from `origPtr` on give the bytes of the block, in either mode. -/
theorem inverseBwt (small : Bool) (c : Core μ) (block : Cells Byte) (ptr : Cells Int)
    (h9 : c.p.blockSize100k ≤ 9) (hl : c.p.nblock ≤ c.limit)
    (hsort : RotSort (sym block) c.p.nblock ptr) (ho : c.p.origPtr < c.p.nblock)
    (h0 : ptr c.p.origPtr = 0)
    (hcol : ∀ i : Nat, i < c.p.nblock →
      if small then c.store.ll16 i = (lastByte block ptr c.p.nblock i).setWidth 16
      else c.store.tt i = (lastByte block ptr c.p.nblock i).setWidth 32)
    (hcounts : ∀ b : Nat, b < 256 → c.store.unzftab b =
      holding (fun i => (lastByte block ptr c.p.nblock i).toNat) c.p.nblock b) :
    ∃ c' : Core μ, c.endBlock small = some (c'.firstByte small, none) ∧
      walk (c'.env small).next c.p.nblock c'.out.tPos = some (bytesAt block 0 c.p.nblock) := by
  have hB := lastColumn_block hsort (fun _ _ _ => rfl) hcol hcounts
  have hbyte := lastColumn_byte hsort ho h0
  obtain ⟨s, hs⟩ : ∃ s, s = lastColumn (sym block) c.p.nblock ptr := ⟨_, rfl⟩
  rw [← hs] at hB hbyte
  have hlim : c.limit ≤ 900000 := by
    unfold Core.limit
    omega
  have hcum := hB.cumulated
  have hsmall : c.prepared.p.nblock ≤ 2 ^ 20 := by
    rw [prepared_p]
    omega
  have hroom : c.prepared.p.nblock ≤ c.prepared.limit := by
    rw [prepared_p, prepared_limit]
    exact hl
  obtain ⟨c', hbuild, _, _, hout, hwalk⟩ := buildVector_walk (c := c.prepared) hB.prepared hcum
    hsmall hroom ho
  rw [prepared_p] at hwalk hout
  have hstart : c'.out.tPos = posAt s c.p.nblock small c.p.origPtr 0 := by rw [hout]
  refine ⟨c', by rw [endBlock_eq hB ho, hbuild, Option.map_some], ?_⟩
  rw [hstart]
  rw [show (0 : Int) = ((0 : Nat) : Int) from rfl, bytesAt_eq_map]
  have hget : ∀ k, (c'.env small).next (posAt s c.p.nblock small c.p.origPtr k) =
      some (block ((k : Int) % c.p.nblock), posAt s c.p.nblock small c.p.origPtr (k + 1)) :=
    fun k => by
      rw [← hbyte k]
      exact hwalk k
  refine (walk_eq hget c.p.nblock 0).trans ?_
  · congr 1
    refine List.map_congr_left fun k hk => ?_
    have := List.mem_range'_1.mp hk
    rw [Int.emod_eq_of_lt (by omega) (by omega)]

/-- A decoder that holds `ba`, the last column of the block `ba`. -/
def twoBytesCore : Core FlatMtf where
  p := { blockSize100k := 1, nblock := 2, origPtr := 1 }
  store :=
    { mtfa := []
      unzftab := .ofFn fun b => if b = 97 ∨ b = 98 then 1 else 0
      tt := .ofFn fun i => if i = 0 then 98 else 97
      ll16 := .ofFn fun i => if i = 0 then 98 else 97 }
  out := {}
  calculatedCombinedCRC := 0

theorem inverseBwt_twoBytes :
    (∃ c' : Core FlatMtf, twoBytesCore.endBlock false = some (c'.firstByte false, none) ∧
      walk (c'.env false).next 2 c'.out.tPos = some (bytesAt twoBytes 0 2)) ∧
    (∃ c' : Core FlatMtf, twoBytesCore.endBlock true = some (c'.firstByte true, none) ∧
      walk (c'.env true).next 2 c'.out.tPos = some (bytesAt twoBytes 0 2)) := by
  obtain ⟨hR, _⟩ := saisBwt_spec (n := 2) (by decide)
    (⟨rfl, rfl, rfl, ⟨by decide, by decide⟩⟩ : twoBytesEnv.Answers twoBytes 2) (.ofFn fun _ => 0) 0
  exact ⟨inverseBwt false twoBytesCore twoBytes _ (by decide) (by decide) hR (by decide)
      (by decide) (by decide) (by decide +kernel),
    inverseBwt true twoBytesCore twoBytes _ (by decide) (by decide) hR (by decide)
      (by decide) (by decide) (by decide +kernel)⟩

end Qbz2
