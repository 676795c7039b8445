/-
  File:      Qbz2/Reference/ShellSort.lean
  Subject:   `mainSimpleSort` sorts its segment, unless it gives up.

  * `insertAt_perm` -- an insertion permutes the segment, whatever the gap and the test;
  * `Right key P gt` -- a test that tells which of two keys is not the smaller; `Vacant`,
    `insertAt_ord` -- an insertion with gap 1 and such a test goes on with the order;
  * **`mainSimpleSort_spec`** -- the segment is permuted, and in order if the budget has lasted.
-/
import Qbz2.BlockSort.SimpleSort
import Qbz2.Reference.Comparison

namespace Qbz2

open Loop Segment Rotation

/-! ## 1. An insertion permutes -/

section Insertion

variable {β : Type} {lo hi h : Int} {a : Cells Int}

/-- The loop keeps the contents, the cell `v` counted at `j`. -/
theorem insertLoop_perm (gt : Int → β → Bool × β) (v : Int) (hh : 1 ≤ h) :
    ∀ (fuel : Nat) (a : Cells Int) (j : Int) (b : β), lo + h ≤ j → j ≤ hi →
      ∀ r, insertLoop gt h lo fuel a j b = r →
        PermOn lo hi (a.set j v) (r.1.set r.2.1 v) ∧ lo ≤ r.2.1 ∧ r.2.1 ≤ hi := by
  intro fuel
  induction fuel with
  | zero =>
    rintro a j b hl hj r rfl
    exact ⟨PermOn.refl _ _ _, by dsimp only [insertLoop]; omega, hj⟩
  | succ fuel ih =>
    rintro a j b hl hj r rfl
    have hswap : PermOn lo hi (a.set j v) ((a.set j (a (j - h))).set (j - h) v) := by
      refine PermOn.swap (a := j) (b := j - h) ⟨by omega, hj⟩ ⟨by omega, by omega⟩ fun i => ?_
      have hne : ¬ j - h = j := by omega
      simp only [Cells.get_set, if_neg hne, if_true]
      split
      · rfl
      · split <;> rfl
    unfold insertLoop
    dsimp only
    cases (gt (a (j - h)) b).1 with
    | false => exact ⟨PermOn.refl _ _ _, show lo ≤ j by omega, hj⟩
    | true =>
      by_cases hend : j - h ≤ lo + h - 1
      · simp only [if_true, if_pos hend]
        exact ⟨hswap, by omega, by omega⟩
      · simp only [if_true, if_neg hend]
        obtain ⟨hp, h1, h2⟩ := ih (a.set j (a (j - h))) (j - h) (gt (a (j - h)) b).2 (by omega)
          (by omega) _ rfl
        exact ⟨hswap.trans hp, h1, h2⟩

/-- **An insertion permutes the segment.** -/
theorem insertAt_perm (gt : Int → Int → β → Bool × β) (hh : 1 ≤ h) {i : Int} (hl : lo + h ≤ i)
    (hi' : i ≤ hi) (b : β) : PermOn lo hi a (insertAt gt h lo a i b).1 := by
  unfold insertAt
  dsimp only
  obtain ⟨hp, -, -⟩ := insertLoop_perm (fun x => gt x (a i)) (a i) hh (i - lo).toNat a i b
    hl hi' _ rfl
  exact (permOn_set_self a i).trans hp

/-! ## 2. An insertion with gap 1 goes on with the order -/

variable {κ : Type*} [LinearOrder κ] {key : Int → κ} {P : Int → Prop}

/-- The test is right about the cells with `P`, whatever its own state. -/
def Right (key : Int → κ) (P : Int → Prop) (gt : Int → Int → β → Bool × β) : Prop :=
  ∀ x v b, P x → P v → if (gt x v b).1 then key v ≤ key x else key x ≤ key v

/-- The cells `lo..i` are in order apart from the vacant one at `j`, and those above it are not below
    the key of the removed cell. -/
structure Vacant (key : Int → κ) (lo i v j : Int) (a : Cells Int) : Prop where
  ge : ∀ x, j < x → x ≤ i → key v ≤ key (a x)
  ord : ∀ x y, lo ≤ x → x ≤ y → y ≤ i → x ≠ j → y ≠ j → key (a x) ≤ key (a y)

/-- The vacant cell moves down by one. -/
theorem Vacant.step {i v j : Int} (hv : Vacant key lo i v j a) (hl : lo < j) (hj : j ≤ i)
    (hc : key v ≤ key (a (j - 1))) : Vacant key lo i v (j - 1) (a.set j (a (j - 1))) := by
  refine ⟨fun x hx hxi => ?_, fun x y hx hxy hy hxj hyj => ?_⟩
  · rw [Cells.get_set]
    split
    · exact hc
    · exact hv.ge x (by omega) hxi
  · rw [Cells.get_set, Cells.get_set]
    split
    · split
      · exact le_refl _
      · exact hv.ord (j - 1) y (by omega) (by omega) hy (by omega) (by omega)
    · split
      · exact hv.ord x (j - 1) hx (by omega) (by omega) (by omega) (by omega)
      · exact hv.ord x y hx hxy hy (by omega) (by omega)

/-- **Filling the vacant cell** where the one below is not greater. -/
theorem Vacant.fill {i v j : Int} (hv : Vacant key lo i v j a) (hj : j ≤ i)
    (hc : lo < j → key (a (j - 1)) ≤ key v) : OrdOn key lo i (a.set j v) := by
  intro x y hx hxy hy
  rw [Cells.get_set, Cells.get_set]
  split
  · split
    · exact le_refl _
    · exact hv.ge y (by omega) hy
  · split
    · exact le_trans (hv.ord x (j - 1) hx (by omega) (by omega) (by omega) (by omega))
        (hc (by omega))
    · exact hv.ord x y hx hxy hy (by omega) (by omega)

theorem insertLoop_ord {gt : Int → Int → β → Bool × β} (hgt : Right key P gt) {i v : Int}
    (hPv : P v) : ∀ (fuel : Nat) (a : Cells Int) (j : Int) (b : β), lo + 1 ≤ j → j ≤ i →
      j - lo ≤ fuel → (∀ x, lo ≤ x → x < j → P (a x)) → Vacant key lo i v j a →
      ∀ r, insertLoop (fun x => gt x v) 1 lo fuel a j b = r → OrdOn key lo i (r.1.set r.2.1 v) := by
  intro fuel
  induction fuel with
  | zero => exact fun a j b hl hj hf => by omega
  | succ fuel ih =>
    rintro a j b hl hj hf hP hv r rfl
    have htell := hgt (a (j - 1)) v b (hP (j - 1) (by omega) (by omega)) hPv
    unfold insertLoop
    dsimp only
    cases hg : (gt (a (j - 1)) v b).1 with
    | false =>
      rw [hg] at htell
      exact hv.fill hj fun _ => htell
    | true =>
      rw [hg] at htell
      have hstep := hv.step (by omega) hj htell
      by_cases hend : j - 1 ≤ lo + 1 - 1
      · simp only [if_true, if_pos hend]
        exact hstep.fill (by omega) fun hlt => by omega
      · simp only [if_true, if_neg hend]
        refine ih _ (j - 1) _ (by omega) (by omega) (by omega) (fun x hx hxj => ?_) hstep _ rfl
        rw [Cells.get_set_of_ne _ (by omega)]
        exact hP x hx (by omega)

/-- **An insertion with gap 1.** -/
theorem insertAt_ord {gt : Int → Int → β → Bool × β} (hgt : Right key P gt) {i : Int}
    (hl : lo + 1 ≤ i) (hP : ∀ x, lo ≤ x → x ≤ i → P (a x)) (ha : OrdOn key lo (i - 1) a) (b : β) :
    OrdOn key lo i (insertAt gt 1 lo a i b).1 := by
  unfold insertAt
  dsimp only
  refine insertLoop_ord hgt (hP i (by omega) (Int.le_refl i)) (i - lo).toNat a i b hl (Int.le_refl i)
    (by omega) (fun x hx hxi => hP x hx (by omega)) ⟨fun x hx hxi => by omega, ?_⟩ _ rfl
  exact fun x y hx hxy hy hxi hyi => ha x y hx hxy (by omega)

end Insertion

/-! ## 3. The passes -/

section Passes

variable {block : Cells Byte} {quadrant : Cells (BitVec 16)} {n lo hi d : Int} {P : Int → Prop}
  {κ : Type*} [LinearOrder κ] {key : Int → κ}

/-- What holds in a pass with gap `h`, before the insertion at `s.i`. -/
structure InPass (key : Int → κ) (P : Int → Prop) (h lo hi : Int) (a : Cells Int) (s : SimplePass) :
    Prop where
  perm : PermOn lo hi a s.ptr
  start : lo + h ≤ s.i
  cells : ∀ x, lo ≤ x → x ≤ hi → P (s.ptr x)
  ord : h = 1 → OrdOn key lo (s.i - 1) s.ptr

/-- One of the three copies. -/
theorem copyOne_spec (hgt : Right key P (gtAt block quadrant n d)) {h : Int} (hh : 1 ≤ h)
    {a : Cells Int} {s : SimplePass} (hs : InPass key P h lo hi a s) :
    (copyOne block quadrant n h lo hi d s = none ∧ hi < s.i) ∨
    ∃ s', copyOne block quadrant n h lo hi d s = some s' ∧ InPass key P h lo hi a s' ∧
      s'.i = s.i + 1 := by
  unfold copyOne
  by_cases hend : s.i > hi
  · exact .inl ⟨if_pos hend, hend⟩
  · rw [if_neg hend]
    have hp : PermOn lo hi s.ptr
        (insertAt (gtAt block quadrant n d) h lo s.ptr s.i s.budget).1 :=
      insertAt_perm _ hh hs.start (by omega) _
    refine .inr ⟨_, rfl, ⟨hs.perm.trans hp, by have := hs.start; dsimp only; omega,
      hp.forall hs.cells, fun h1 => ?_⟩, rfl⟩
    subst h1
    dsimp only
    rw [Int.add_sub_cancel]
    exact insertAt_ord hgt hs.start (fun x hx hxi => hs.cells x hx (by omega)) (hs.ord rfl) _

/-- What a pass leaves: the segment in order if the gap is 1, or a budget below zero. -/
structure PassOut (key : Int → κ) (P : Int → Prop) (h lo hi : Int) (a : Cells Int)
    (r : SimplePass × Bool) : Prop where
  perm : PermOn lo hi a r.1.ptr
  cells : ∀ x, lo ≤ x → x ≤ hi → P (r.1.ptr x)
  ord : r.2 = false → h = 1 → OrdOn key lo hi r.1.ptr
  left : r.2 = true → r.1.budget.slt 0 = true

/-- **A pass.** -/
theorem simplePass_spec (hgt : Right key P (gtAt block quadrant n d)) {h : Int} (hh : 1 ≤ h)
    {a : Cells Int} : ∀ (fuel : Nat) (s : SimplePass), InPass key P h lo hi a s →
      hi + 1 - s.i < fuel → PassOut key P h lo hi a (simplePass block quadrant n h lo hi d fuel s) := by
  have hdone : ∀ {s : SimplePass}, InPass key P h lo hi a s → hi < s.i →
      PassOut key P h lo hi a (s, false) := fun {s} hs hlt =>
    ⟨hs.perm, hs.cells, fun _ h1 x y hx hxy hy => hs.ord h1 x y hx hxy (by omega),
      fun hf => by cases hf⟩
  intro fuel
  induction fuel with
  | zero => exact fun s hs hf => hdone hs (by omega)
  | succ fuel ih =>
    intro s hs hf
    unfold simplePass
    rcases copyOne_spec hgt hh hs with ⟨he, hlt⟩ | ⟨s₁, he, hs₁, h₁⟩
    · rw [he]
      exact hdone hs hlt
    rw [he]
    dsimp only
    rcases copyOne_spec hgt hh hs₁ with ⟨he, hlt⟩ | ⟨s₂, he, hs₂, h₂⟩
    · rw [he]
      exact hdone hs₁ hlt
    rw [he]
    dsimp only
    rcases copyOne_spec hgt hh hs₂ with ⟨he, hlt⟩ | ⟨s₃, he, hs₃, h₃⟩
    · rw [he]
      exact hdone hs₂ hlt
    rw [he]
    dsimp only
    cases hb : s₃.budget.slt 0 with
    | false =>
      rw [if_neg (by decide)]
      exact ih s₃ hs₃ (by omega)
    | true =>
      rw [if_pos rfl]
      exact ⟨hs₃.perm, hs₃.cells, fun hf => (by cases hf), fun _ => hb⟩

/-- What a sort of a segment leaves, if it has not used up the budget. -/
structure SortedOut (key : Int → κ) (lo hi : Int) (a : Cells Int) (r : Cells Int × Word32) :
    Prop where
  perm : PermOn lo hi a r.1
  ord : r.2.slt 0 = false → OrdOn key lo hi r.1

/-- **The passes**, of which the last has gap 1. -/
theorem simplePasses_spec (hgt : Right key P (gtAt block quadrant n d)) :
    ∀ (hs : List Int) (a : Cells Int) (budget : Word32), (∀ h ∈ hs, 1 ≤ h) →
      (∀ x, lo ≤ x → x ≤ hi → P (a x)) →
      SortedOut key lo hi a (simplePasses block quadrant n lo hi d (hs ++ [1]) (a, budget)) := by
  have hstart : ∀ (h : Int) (a : Cells Int) (budget : Word32),
      (∀ x, lo ≤ x → x ≤ hi → P (a x)) → InPass key P h lo hi a ⟨a, budget, lo + h⟩ :=
    fun h a budget hP => ⟨PermOn.refl _ _ _, Int.le_refl _, hP, fun h1 x y hx hxy hy => by
      dsimp only at hy
      rw [show x = y by omega]⟩
  intro hs
  induction hs with
  | nil =>
    intro a budget _ hP
    obtain ⟨hp, -, hord, hleft⟩ := simplePass_spec hgt (Int.le_refl 1) (hi - lo + 1).toNat
      ⟨a, budget, lo + 1⟩ (hstart 1 a budget hP) (by dsimp only; omega)
    rw [List.nil_append]
    unfold simplePasses
    dsimp only
    generalize simplePass block quadrant n 1 lo hi d (hi - lo + 1).toNat ⟨a, budget, lo + 1⟩ = r
      at hp hord hleft ⊢
    obtain ⟨s, left⟩ := r
    cases left with
    | false =>
      rw [if_neg Bool.false_ne_true, simplePasses]
      exact ⟨hp, fun _ => hord rfl rfl⟩
    | true =>
      rw [if_pos rfl]
      exact ⟨hp, fun hb => absurd ((hleft rfl).symm.trans hb) (by decide)⟩
  | cons h hs ih =>
    intro a budget hpos hP
    have h1 := hpos h List.mem_cons_self
    obtain ⟨hp, hcells, -, hleft⟩ := simplePass_spec hgt h1 (hi - lo + 1).toNat
      ⟨a, budget, lo + h⟩ (hstart h a budget hP) (by dsimp only; omega)
    rw [List.cons_append]
    unfold simplePasses
    dsimp only
    generalize simplePass block quadrant n h lo hi d (hi - lo + 1).toNat ⟨a, budget, lo + h⟩ = r
      at hp hcells hleft ⊢
    obtain ⟨s, left⟩ := r
    cases left with
    | false =>
      rw [if_neg Bool.false_ne_true]
      obtain ⟨hp', hord⟩ := ih s.ptr s.budget (fun h' hh => hpos h' (List.mem_cons_of_mem _ hh)) hcells
      exact ⟨hp.trans hp', hord⟩
    | true =>
      rw [if_pos rfl]
      exact ⟨hp, fun hb => absurd ((hleft rfl).symm.trans hb) (by decide)⟩

/-- The increments below the size of the segment end with 1. -/
theorem incs_takeWhile {bigN : Int} (hN : 2 ≤ bigN) :
    ∃ hs, (incs.takeWhile (· < bigN)).reverse = hs ++ [1] ∧ ∀ h ∈ hs, 1 ≤ h := by
  unfold incs
  rw [List.takeWhile_cons, if_pos (by rw [decide_eq_true_eq]; omega), List.reverse_cons]
  refine ⟨_, rfl, fun h hh => ?_⟩
  have hall : ∀ h ∈ incs, 1 ≤ h := by decide
  exact hall h (List.mem_cons_of_mem _ (List.takeWhile_subset _ (List.mem_reverse.mp hh)))

/-- A segment of fewer than two cells. -/
theorem ordOn_of_le (a : Cells Int) (h : hi ≤ lo) : OrdOn key lo hi a := by
  intro x y hx hxy hy
  rw [show x = y by omega]

/-- The cells of a segment share the first `d` symbols `w`. -/
def Shares (block : Cells Byte) (n : Int) (d : Nat) (w : List Nat) (x : Int) : Prop :=
  0 ≤ x ∧ x < n ∧ pre (sym block) n d x = w

/-- The comparison at depth `d` is right about cells that share `d` symbols. -/
theorem gtAt_right (hn : bzNOvershoot < n) (hb : Overshot block n) (hq : Quadrants block n quadrant)
    {d : Nat} (hd : d ≤ 15) (w : List Nat) :
    Right (rot (sym block) n) (Shares block n d w) (gtAt block quadrant n d) := by
  rintro x v budget ⟨hx0, hx1, hxw⟩ ⟨hv0, hv1, hvw⟩
  have htell := mainGtU_spec (x := x + d) (y := v + d) hn hb hq (by omega) (by omega) (by omega)
    (by omega) budget
  exact Tells.of_agree (m := d) (hxw.trans hvw.symm) htell

/-- **`mainSimpleSort`** permutes the segment, and sorts it unless the budget is used up. -/
theorem mainSimpleSort_spec (hn : bzNOvershoot < n) (hb : Overshot block n)
    (hq : Quadrants block n quadrant) {d : Nat} (hd : d ≤ 15) {w : List Nat} {a : Cells Int}
    (hP : ∀ x, lo ≤ x → x ≤ hi → Shares block n d w (a x)) (budget : Word32) :
    SortedOut (rot (sym block) n) lo hi a
      (mainSimpleSort block quadrant n a lo hi d budget) := by
  unfold mainSimpleSort
  dsimp only
  by_cases hsmall : hi - lo + 1 < 2
  · rw [if_pos hsmall]
    exact ⟨PermOn.refl _ _ _, fun _ => ordOn_of_le a (by omega)⟩
  · rw [if_neg hsmall]
    obtain ⟨hs, he, hpos⟩ := incs_takeWhile (show 2 ≤ hi - lo + 1 by omega)
    rw [he]
    exact simplePasses_spec (gtAt_right hn hb hq hd w) hs a budget hpos hP

end Passes

end Qbz2
