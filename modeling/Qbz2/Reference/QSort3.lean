/-
  File:      Qbz2/Reference/QSort3.lean
  Subject:   `mainQSort3` returns, never overflows its stack, and sorts its segment unless the
             budget is used up.

  * `Shares.rot_le`, `Shares.succ` -- cells that share `d` bytes compare as the next byte does, and
    share it too where it is the same;
  * `pushParts_spec`, `thirds_push` -- three parts are pushed, the largest first, so that `k`
    segments below it leave a segment at most an `N^2/3^k`-th, squared;
  * `splitParts` -- what a partition leaves: the parts are apart, in order and each a segment of
    shared bytes;
  * `MainSorting` -- the invariant of the main loop, over `Unsorted` of the fallback sort;
    `MainSorting.replace` is the step;
  * **`mainQSort3_sorts`** -- for every block, every depth and every budget.
-/
import Mathlib.Tactic.Ring
import Qbz2.BlockSort.QSort3
import Qbz2.Reference.ShellSort

namespace Qbz2

open Loop Segment Rotation

variable {block : Cells Byte} {quadrant : Cells (BitVec 16)} {n lo hi : Int} {d : Nat}

/-! ## 1. The byte at a depth -/

section Keys

variable (hn : bzNOvershoot < n) (hb : Overshot block n)

include hn hb

omit hn in
/-- The byte at the depth, around the end of the block. -/
theorem keysAt_get {w : List Nat} {x : Int} (hx : Shares block n d w x) (hd : d ≤ 15) :
    (keysAt block d) x = ((sym block ((x + d) % n) : Nat) : Int) := by
  have h34 : bzNOvershoot = 34 := rfl
  obtain ⟨hx0, hx1, -⟩ := hx
  rw [hb (x + d) (by omega) (by omega)]
  rfl

/-- **Cells that share `d` bytes** compare as the next byte does. -/
theorem Shares.rot_le {w : List Nat} {x y : Int} (hx : Shares block n d w x)
    (hy : Shares block n d w y) (hd : d ≤ 15) (hlt : (keysAt block d) x < (keysAt block d) y) :
    rot (sym block) n x ≤ rot (sym block) n y := by
  rw [keysAt_get hb hx hd, keysAt_get hb hy hd] at hlt
  exact rot_le_of_agree (hx.2.2.trans hy.2.2.symm)
    (rot_le_of_lt (by omega) (Int.ofNat_lt.mp hlt))

omit hn in
/-- Cells with the same next byte share it. -/
theorem Shares.succ {w : List Nat} {x med : Int} (hx : Shares block n d w x) (hd : d ≤ 15)
    (he : (keysAt block d) x = med) : Shares block n (d + 1) (w ++ [med.toNat]) x := by
  rw [keysAt_get hb hx hd] at he
  obtain ⟨hx0, hx1, hw⟩ := hx
  refine ⟨hx0, hx1, ?_⟩
  rw [pre_succ_last, hw, ← he]
  rfl

end Keys

/-- The median of three is one of them. -/
theorem mmed3_mem (a b c : Int) : mmed3 a b c = a ∨ mmed3 a b c = b ∨ mmed3 a b c = c := by
  unfold mmed3
  by_cases hab : a > b
  · rw [if_pos hab]
    dsimp only
    split <;> try split
    all_goals omega
  · rw [if_neg hab]
    dsimp only
    split <;> try split
    all_goals omega

/-! ## 2. The three parts -/

/-- The ends of a segment. -/
def MainSegment.ends (s : MainSegment) : Int × Int := (s.lo, s.hi)

theorem largerFirst_spec (a b : MainSegment) :
    [(largerFirst a b).1, (largerFirst a b).2].Perm [a, b] ∧
      (largerFirst a b).2.size ≤ (largerFirst a b).1.size ∧
      (largerFirst a b).2.size ≤ a.size ∧ a.size ≤ (largerFirst a b).1.size ∧
      (largerFirst a b).2.size ≤ b.size := by
  unfold largerFirst
  split
  · exact ⟨List.Perm.swap a b [], by dsimp only; omega, by dsimp only; omega, by dsimp only; omega,
      by dsimp only; omega⟩
  · exact ⟨List.Perm.refl _, by dsimp only; omega, by dsimp only; omega, by dsimp only; omega,
      by dsimp only; omega⟩

/-- **The parts are pushed** with the largest below. -/
theorem pushParts_spec (a b c : MainSegment) (stack : List MainSegment) :
    ∃ x y z, pushParts a b c stack = [z, y, x] ++ stack ∧ [z, y, x].Perm [a, b, c] ∧
      z.size ≤ y.size ∧ y.size ≤ x.size := by
  unfold pushParts
  obtain ⟨hp, h1, h2, h3, h4⟩ := largerFirst_spec a b
  generalize largerFirst a b = p at hp h1 h2 h3 h4 ⊢
  obtain ⟨p0, p1⟩ := p
  dsimp only at hp h1 h2 h3 h4 ⊢
  obtain ⟨hq, k1, k2, k3, k4⟩ := largerFirst_spec p1 c
  generalize largerFirst p1 c = q at hq k1 k2 k3 k4 ⊢
  obtain ⟨q1, q2⟩ := q
  dsimp only at hq k1 k2 k3 k4 ⊢
  obtain ⟨hr, l1, l2, l3, l4⟩ := largerFirst_spec p0 q1
  unfold largerFirst at hr l1 l2 l3 l4 ⊢
  have hperm : [p0, q1, q2].Perm [a, b, c] :=
    calc [p0, q1, q2].Perm [p0, p1, c] := hq.cons p0
      _ |>.Perm ([a, b] ++ [c]) := hp.append_right [c]
  by_cases hlt : p0.size < q1.size
  · rw [if_pos hlt]
    refine ⟨q1, p0, q2, rfl, ?_, by omega, by omega⟩
    exact ((List.reverse_perm [q1, p0, q2]).trans (List.Perm.swap p0 q1 [q2])).trans hperm
  · rw [if_neg hlt]
    exact ⟨p0, q1, q2, rfl, (List.reverse_perm [p0, q1, q2]).trans hperm, by omega, by omega⟩

/-- Every segment of the stack, squared, is at most a `3^k`-th of the whole, squared, with `k`
    segments below it. -/
def Thirds (N : Nat) : List MainSegment → Prop
  | [] => True
  | s :: rest => segSize s.ends ^ 2 * 3 ^ rest.length ≤ N ^ 2 ∧ Thirds N rest

/-- **Three parts pushed**: the least is at most a third of the whole, the next at most half. -/
theorem thirds_push {N : Nat} {s x y z : MainSegment} {rest : List MainSegment}
    (h : Thirds N (s :: rest)) (hzy : segSize z.ends ≤ segSize y.ends)
    (hyx : segSize y.ends ≤ segSize x.ends)
    (hsum : segSize x.ends + segSize y.ends + segSize z.ends ≤ segSize s.ends) :
    Thirds N ([z, y, x] ++ rest) := by
  obtain ⟨h1, h2⟩ := h
  have hle : ∀ m : Nat, m ≤ segSize s.ends → m ^ 2 * 3 ^ rest.length ≤ N ^ 2 := fun m hm =>
    Nat.le_trans (Nat.mul_le_mul_right _ (Nat.pow_le_pow_left hm 2)) h1
  refine ⟨?_, ?_, hle _ (by omega), h2⟩
  · calc segSize z.ends ^ 2 * 3 ^ (y :: x :: rest).length
        = (3 * segSize z.ends) ^ 2 * 3 ^ rest.length := by
          rw [List.length_cons, List.length_cons]
          ring
      _ ≤ N ^ 2 := hle _ (by omega)
  · calc segSize y.ends ^ 2 * 3 ^ (x :: rest).length
        = 3 * (segSize y.ends ^ 2 * 3 ^ rest.length) := by
          rw [List.length_cons]
          ring
      _ ≤ 4 * (segSize y.ends ^ 2 * 3 ^ rest.length) := Nat.mul_le_mul_right _ (by decide)
      _ = (2 * segSize y.ends) ^ 2 * 3 ^ rest.length := by ring
      _ ≤ N ^ 2 := hle _ (by omega)

theorem segSize_mono {a b : MainSegment} (h : a.size ≤ b.size) :
    segSize a.ends ≤ segSize b.ends := by
  unfold MainSegment.size at h
  unfold segSize MainSegment.ends
  dsimp only
  omega

/-- Rounds to come: equal bytes take a segment to the next depth, a split takes its middle part. -/
def MainSegment.todo (s : MainSegment) : Nat := 3 * (segSize s.ends * (17 - s.d)) + 1

/-- The loop's measure. -/
def mainTodo (stack : List MainSegment) : Nat := (stack.map MainSegment.todo).sum

theorem mainTodo_cons (s : MainSegment) (rest : List MainSegment) :
    mainTodo (s :: rest) = s.todo + mainTodo rest := List.sum_cons

theorem todo_deepen (h : lo ≤ hi) (hd : d ≤ 14) :
    (⟨lo, hi, d + 1⟩ : MainSegment).todo < (⟨lo, hi, d⟩ : MainSegment).todo := by
  unfold MainSegment.todo
  dsimp only [MainSegment.ends]
  have hpos : 0 < segSize (lo, hi) := by
    unfold segSize
    dsimp only
    omega
  rw [show 17 - d = 17 - (d + 1) + 1 by omega, Nat.mul_succ]
  omega

/-! ## 3. The parts of a split segment -/

/-- The smaller, the greater and the equal part. -/
def splitParts (lo hi a b : Int) (d : Nat) : List MainSegment :=
  [⟨lo, a, d⟩, ⟨b, hi, d⟩, ⟨a + 1, b - 1, d + 1⟩]

theorem mem_splitParts {a b : Int} {t : MainSegment} (ht : t ∈ splitParts lo hi a b d) :
    t = ⟨lo, a, d⟩ ∨ t = ⟨b, hi, d⟩ ∨ t = ⟨a + 1, b - 1, d + 1⟩ := by
  simpa [splitParts] using ht

section Parts

variable {med a b : Int} {f0 f : Cells Int} (hsp : Split (keysAt block d) med lo hi a b f0 f)

include hsp

theorem Split.pos : 0 < segSize (lo, hi) := by
  have h1 := hsp.le_n
  have h2 := hsp.n_lt
  have h3 := hsp.m_le
  unfold segSize
  dsimp only
  omega

theorem Split.inside {t : MainSegment} (ht : t ∈ splitParts lo hi a b d) : lo ≤ t.lo ∧ t.hi ≤ hi := by
  have h1 := hsp.le_n
  have h2 := hsp.n_lt
  have h3 := hsp.m_le
  rcases mem_splitParts ht with rfl | rfl | rfl <;> dsimp only <;> omega

theorem Split.apart : ((splitParts lo hi a b d).map MainSegment.ends).Pairwise Apart := by
  have h2 := hsp.n_lt
  simp only [splitParts, List.map_cons, List.map_nil, List.pairwise_cons, List.mem_cons,
    List.not_mem_nil, or_false, MainSegment.ends, Apart]
  refine ⟨?_, ?_, fun t ht => absurd ht id, List.Pairwise.nil⟩
  · rintro t (rfl | rfl) <;> dsimp only <;> omega
  · rintro t rfl
    dsimp only
    omega

/-- The parts have all the cells. -/
theorem Split.sizes :
    ((splitParts lo hi a b d).map fun t => segSize t.ends).sum = segSize (lo, hi) := by
  have h1 := hsp.le_n
  have h2 := hsp.n_lt
  have h3 := hsp.m_le
  simp only [splitParts, List.map_cons, List.map_nil, List.sum_cons, List.sum_nil]
  unfold MainSegment.ends segSize
  dsimp only
  omega

/-- The parts take fewer rounds: the equal part, which is not empty, is a byte further on. -/
theorem Split.todo (hd : d ≤ 14) :
    ((splitParts lo hi a b d).map MainSegment.todo).sum < (⟨lo, hi, d⟩ : MainSegment).todo := by
  have hsum := hsp.sizes
  have hpos : 0 < segSize (a + 1, b - 1) := by
    have h2 := hsp.n_lt
    unfold segSize
    dsimp only
    omega
  simp only [splitParts, List.map_cons, List.map_nil, List.sum_cons, List.sum_nil] at hsum ⊢
  unfold MainSegment.todo
  dsimp only [MainSegment.ends] at hsum ⊢
  rw [Nat.add_zero] at hsum
  rw [← hsum, show 17 - d = 17 - (d + 1) + 1 by omega, Nat.mul_succ, Nat.mul_succ, Nat.mul_succ,
    Nat.add_mul, Nat.add_mul]
  omega

variable {w : List Nat} (hw : ∀ x, lo ≤ x → x ≤ hi → Shares block n d w (f x))

include hw

/-- **Cells of different parts** are in order. -/
theorem Split.ord (hn : bzNOvershoot < n) (hb : Overshot block n) (hd : d ≤ 15) {i j : Int}
    (hl : lo ≤ i) (hij : i ≤ j) (hh : j ≤ hi)
    (hno : ∀ t ∈ splitParts lo hi a b d, ¬ (t.lo ≤ i ∧ j ≤ t.hi)) :
    rot (sym block) n (f i) ≤ rot (sym block) n (f j) := by
  have h1 := hno ⟨lo, a, d⟩ (by simp [splitParts])
  have h2 := hno ⟨b, hi, d⟩ (by simp [splitParts])
  have h3 := hno ⟨a + 1, b - 1, d + 1⟩ (by simp [splitParts])
  dsimp only at h1 h2 h3
  refine (hw i hl (by omega)).rot_le hn hb (hw j (by omega) hh) hd ?_
  by_cases hia : i ≤ a
  · by_cases hj : j < b
    · rw [hsp.eq j (by omega) hj]
      exact hsp.lt i hl hia
    · exact (hsp.lt i hl hia).trans (hsp.gt j (by omega) hh)
  · rw [hsp.eq i (by omega) (by omega)]
    exact hsp.gt j (by omega) hh

/-- **The cells of a part** share as many bytes as its depth says. -/
theorem Split.shares (hb : Overshot block n) (hd : d ≤ 14) {t : MainSegment}
    (ht : t ∈ splitParts lo hi a b d) :
    t.d ≤ 15 ∧ ∃ w, ∀ x, t.lo ≤ x → x ≤ t.hi → Shares block n t.d w (f x) := by
  have h1 := hsp.le_n
  have h2 := hsp.n_lt
  have h3 := hsp.m_le
  have hd15 : d ≤ 15 := by omega
  rcases mem_splitParts ht with rfl | rfl | rfl
  · exact ⟨hd15, w, fun x hxl hxh => hw x hxl (by dsimp only at hxh; omega)⟩
  · exact ⟨hd15, w, fun x hxl hxh => hw x (by dsimp only at hxl; omega) hxh⟩
  · refine ⟨by dsimp only; omega, w ++ [med.toNat], fun x hxl hxh => ?_⟩
    dsimp only at hxl hxh
    exact (hw x (by omega) (by omega)).succ hb hd15 (hsp.eq x (by omega) (by omega))

end Parts

/-! ## 4. The main loop -/

/-- **The invariant of the main loop.** -/
structure MainSorting (block : Cells Byte) (n loSt hiSt : Int) (f0 : Cells Int) (q : MainQSort) :
    Prop where
  unsorted : Unsorted (rot (sym block) n) loSt hiSt f0 q.ptr (q.stack.map MainSegment.ends)
  shares : ∀ s ∈ q.stack, s.d ≤ 15 ∧
    ∃ w, ∀ x, s.lo ≤ x → x ≤ s.hi → Shares block n s.d w (q.ptr x)
  thirds : Thirds (segSize (loSt, hiSt)) q.stack
  depth : q.stack.length ≤ 1 ∨ 3 ^ (q.stack.length - 3) ≤ segSize (loSt, hiSt) ^ 2

section Main

variable {loSt hiSt : Int} {f0 : Cells Int}

/-- **The step**: the top segment is permuted and replaced by segments inside it. -/
theorem MainSorting.replace {q : MainQSort} {s : MainSegment} {rest : List MainSegment}
    (h : MainSorting block n loSt hiSt f0 q) (hq : q.stack = s :: rest) (q' : MainQSort)
    (new : List MainSegment) (hq' : q'.stack = new ++ rest)
    (hperm : PermOn s.lo s.hi q.ptr q'.ptr) (hrange : ∀ t ∈ new, s.lo ≤ t.lo ∧ t.hi ≤ s.hi)
    (hapart : (new.map MainSegment.ends).Pairwise Apart)
    (hord : ∀ i j, s.lo ≤ i → i ≤ j → j ≤ s.hi → (∀ t ∈ new, ¬ (t.lo ≤ i ∧ j ≤ t.hi)) →
      rot (sym block) n (q'.ptr i) ≤ rot (sym block) n (q'.ptr j))
    (hshares : ∀ t ∈ new, t.d ≤ 15 ∧
      ∃ w, ∀ x, t.lo ≤ x → x ≤ t.hi → Shares block n t.d w (q'.ptr x))
    (hthirds : Thirds (segSize (loSt, hiSt)) (new ++ rest))
    (hdepth : (new ++ rest).length ≤ 1 ∨
      3 ^ ((new ++ rest).length - 3) ≤ segSize (loSt, hiSt) ^ 2) :
    MainSorting block n loSt hiSt f0 q' := by
  obtain ⟨hpend, hsh, -, -⟩ := h
  rw [hq] at hpend hsh
  rw [List.map_cons] at hpend
  have hp' : Unsorted (rot (sym block) n) loSt hiSt f0 q'.ptr
      (new.map MainSegment.ends ++ rest.map MainSegment.ends) := by
    refine hpend.replace hperm (fun t ht => ?_) hapart
      (fun i j hl hij hh hno => hord i j hl hij hh fun t ht => hno _ (List.mem_map_of_mem ht))
    obtain ⟨u, hu, rfl⟩ := List.mem_map.mp ht
    exact hrange u hu
  rw [← List.map_append, ← hq'] at hp'
  refine ⟨hp', ?_, by rw [hq']; exact hthirds, by rw [hq']; exact hdepth⟩
  rw [hq']
  intro t ht
  rcases List.mem_append.mp ht with ht | ht
  · exact hshares t ht
  · -- a segment below is apart from the top one, and its cells have not changed
    obtain ⟨hd, w, hw⟩ := hsh t (List.mem_cons_of_mem _ ht)
    have hap := (List.pairwise_cons.mp hpend.apart).1 _ (List.mem_map_of_mem ht)
    unfold Apart MainSegment.ends at hap
    dsimp only at hap
    refine ⟨hd, w, fun x hxl hxh => ?_⟩
    rw [hperm.outside (by omega)]
    exact hw x hxl hxh

/-- The stack stays below its limit. -/
theorem MainSorting.length_lt {q : MainQSort} (h : MainSorting block n loSt hiSt f0 q)
    (hN : segSize (loSt, hiSt) ≤ 2 ^ 32) : q.stack.length < 98 := by
  rcases h.depth with h1 | h2
  · omega
  · by_contra hlen
    have h95 : 3 ^ 95 ≤ 3 ^ (q.stack.length - 3) := Nat.pow_le_pow_right (by decide) (by omega)
    have hsq : segSize (loSt, hiSt) ^ 2 ≤ (2 ^ 32) ^ 2 := Nat.pow_le_pow_left hN 2
    have : (2 ^ 32) ^ 2 < 3 ^ 95 := by decide
    omega

/-- With fewer segments the stack is no deeper. -/
theorem depth_tail {N : Nat} {s : MainSegment} {rest : List MainSegment}
    (h : (s :: rest).length ≤ 1 ∨ 3 ^ ((s :: rest).length - 3) ≤ N) :
    rest.length ≤ 1 ∨ 3 ^ (rest.length - 3) ≤ N := by
  rw [List.length_cons] at h
  rcases h with h | h
  · exact .inl (by omega)
  · exact .inr (Nat.le_trans (Nat.pow_le_pow_right (by decide) (by omega)) h)

/-- A segment that has been sorted is dropped. -/
theorem MainSorting.drop {q : MainQSort} {s : MainSegment} {rest : List MainSegment}
    (h : MainSorting block n loSt hiSt f0 q) (hq : q.stack = s :: rest) {r : Cells Int × Word32}
    (hr : SortedOut (rot (sym block) n) s.lo s.hi q.ptr r) (hb : r.2.slt 0 = false) :
    MainSorting block n loSt hiSt f0 ⟨r.1, r.2, rest⟩ := by
  have ht := h.thirds
  have hd := h.depth
  rw [hq] at ht hd
  exact h.replace hq _ [] rfl hr.perm (by simp) List.Pairwise.nil
    (fun i j hl hij hh _ => hr.ord hb i j hl hij hh) (by simp) ht.2 (depth_tail hd)

/-- **A segment of equal bytes** is pushed again, a byte further on. -/
theorem MainSorting.deepen (hb : Overshot block n) {q : MainQSort}
    {rest : List MainSegment} (h : MainSorting block n loSt hiSt f0 q)
    (hq : q.stack = ⟨lo, hi, d⟩ :: rest) (hd : d ≤ 14) {f : Cells Int} (hp : PermOn lo hi q.ptr f)
    {med : Int} (hall : ∀ x, lo ≤ x → x ≤ hi → (keysAt block d) (f x) = med) :
    MainSorting block n loSt hiSt f0 { q with ptr := f, stack := ⟨lo, hi, d + 1⟩ :: rest } := by
  have ht := h.thirds
  have hdep := h.depth
  obtain ⟨-, w, hw⟩ := h.shares ⟨lo, hi, d⟩ (by rw [hq]; exact List.mem_cons_self)
  rw [hq] at ht hdep
  have hd15 : d ≤ 15 := by omega
  refine h.replace hq _ [⟨lo, hi, d + 1⟩] rfl hp ?_ (List.pairwise_singleton _ _) ?_ ?_ ht hdep
  · intro t ht
    rw [List.mem_singleton.mp ht]
    exact ⟨Int.le_refl _, Int.le_refl _⟩
  · exact fun i j hl _ hh hno => absurd ⟨hl, hh⟩ (hno _ (List.mem_singleton_self _))
  · intro t ht
    rw [List.mem_singleton.mp ht]
    exact ⟨by dsimp only; omega, w ++ [med.toNat], fun x hxl hxh =>
      (hp.forall hw x hxl hxh).succ hb hd15 (hall x hxl hxh)⟩

/-- **A segment of different bytes** is split into three. -/
theorem MainSorting.split (hn : bzNOvershoot < n) (hb : Overshot block n) {q : MainQSort}
    {rest : List MainSegment} (h : MainSorting block n loSt hiSt f0 q)
    (hq : q.stack = ⟨lo, hi, d⟩ :: rest) (hd : d ≤ 14) {f : Cells Int} {med a b : Int}
    (hsp : Split (keysAt block d) med lo hi a b q.ptr f) {stack : List MainSegment}
    (hst : stack = pushParts ⟨lo, a, d⟩ ⟨b, hi, d⟩ ⟨a + 1, b - 1, d + 1⟩ rest) :
    MainSorting block n loSt hiSt f0 { q with ptr := f, stack := stack } ∧
      mainTodo stack < mainTodo q.stack := by
  obtain ⟨-, w, hw⟩ := h.shares ⟨lo, hi, d⟩ (by rw [hq]; exact List.mem_cons_self)
  have hw' := hsp.perm.forall hw
  obtain ⟨x, y, z, he, hperm, hzy, hyx⟩ :=
    pushParts_spec ⟨lo, a, d⟩ ⟨b, hi, d⟩ ⟨a + 1, b - 1, d + 1⟩ rest
  rw [he] at hst
  subst hst
  have ht := h.thirds
  rw [hq] at ht
  refine ⟨h.replace hq _ [z, y, x] rfl hsp.perm (fun t ht => hsp.inside (hperm.mem_iff.mp ht)) ?_
    (fun i j hl hij hh hno => hsp.ord hw' hn hb (by omega) hl hij hh fun t ht =>
      hno t (hperm.mem_iff.mpr ht))
    (fun t ht => hsp.shares hw' hb hd (hperm.mem_iff.mp ht)) ?_ ?_, ?_⟩
  · refine ((hperm.map MainSegment.ends).pairwise_iff fun {s t} h => ?_).mpr hsp.apart
    unfold Apart at h ⊢
    omega
  · have hsum := (hperm.map fun t => segSize t.ends).sum_eq.trans hsp.sizes
    simp only [List.map_cons, List.map_nil, List.sum_cons, List.sum_nil] at hsum
    refine thirds_push ht (segSize_mono hzy) (segSize_mono hyx) ?_
    dsimp only [MainSegment.ends] at hsum ⊢
    omega
  · exact .inr (Nat.le_trans (Nat.le_mul_of_pos_left _ (Nat.pow_pos hsp.pos)) ht.1)
  · have htodo := (Nat.le_of_eq (hperm.map MainSegment.todo).sum_eq).trans_lt (hsp.todo hd)
    unfold mainTodo
    rw [hq, List.map_append, List.sum_append, List.map_cons, List.sum_cons]
    exact Nat.add_lt_add_right htodo _

/-- **One round of the main loop.** -/
theorem mainQsortStep_spec (hn : bzNOvershoot < n) (hb : Overshot block n)
    (hqd : Quadrants block n quadrant) (hN : segSize (loSt, hiSt) ≤ 2 ^ 32) {q : MainQSort}
    (h : MainSorting block n loSt hiSt f0 q) :
    (∃ q', mainQsortStep block quadrant n q = .ok (.inl q') ∧
      MainSorting block n loSt hiSt f0 q' ∧ mainTodo q'.stack < mainTodo q.stack) ∨
    ∃ r, mainQsortStep block quadrant n q = .ok (.inr r) ∧
      SortedOut (rot (sym block) n) loSt hiSt f0 r := by
  have hlen := h.length_lt hN
  obtain ⟨ptr, budget, stack⟩ := q
  dsimp only at hlen
  unfold mainQsortStep
  cases stack with
  | nil =>
    exact .inr ⟨_, rfl, h.unsorted.perm, fun _ i j hl hij hh => h.unsorted.ord i j hl hij hh (by simp)⟩
  | cons s rest =>
    obtain ⟨lo, hi, d⟩ := s
    obtain ⟨hd, w, hw⟩ := h.shares _ List.mem_cons_self
    dsimp only at hd hw
    dsimp only
    simp only [assertH, hlen, decide_true, if_true]
    by_cases hshort : hi - lo < 20 ∨ d > 14
    · have hsort := mainSimpleSort_spec hn hb hqd hd hw budget
      simp only [bind, Except.bind, if_pos hshort]
      generalize mainSimpleSort block quadrant n ptr lo hi d budget = r at hsort ⊢
      obtain ⟨ptr', budget'⟩ := r
      dsimp only
      have hrange := h.unsorted.range (lo, hi) List.mem_cons_self
      cases hbud : budget'.slt 0 with
      | true =>
        refine .inr ⟨_, if_pos rfl, h.unsorted.perm.trans (hsort.perm.mono hrange.1 hrange.2), ?_⟩
        exact fun hf => absurd (hbud.symm.trans hf) (by decide)
      | false =>
        refine .inl ⟨_, if_neg Bool.false_ne_true, h.drop rfl hsort hbud, ?_⟩
        dsimp only
        rw [mainTodo_cons]
        unfold MainSegment.todo
        omega
    · left
      have hmed : ∃ x, lo ≤ x ∧ x ≤ hi ∧ (keysAt block d) (ptr x) =
          mmed3 ((keysAt block d) (ptr lo)) ((keysAt block d) (ptr hi))
            ((keysAt block d) (ptr ((lo + hi) / 2))) := by
        rcases mmed3_mem ((keysAt block d) (ptr lo)) ((keysAt block d) (ptr hi))
          ((keysAt block d) (ptr ((lo + hi) / 2))) with e | e | e
        · exact ⟨lo, by omega, by omega, e.symm⟩
        · exact ⟨hi, by omega, by omega, e.symm⟩
        · exact ⟨(lo + hi) / 2, by omega, by omega, e.symm⟩
      obtain ⟨p, hiter, hz, hx⟩ := partition_spec (keysAt block d) ptr
        (mmed3 ((keysAt block d) (ptr lo)) ((keysAt block d) (ptr hi))
          ((keysAt block d) (ptr ((lo + hi) / 2)))) (show lo ≤ hi by omega)
      refine ⟨mainSplit ⟨ptr, budget, rest⟩ lo hi d p, ?_, ?_⟩
      · rw [if_neg hshort]
        simp only [bind, Except.bind]
        rw [hiter]
      · unfold mainSplit
        by_cases hall : p.gtHi < p.ltLo
        · rw [if_pos hall]
          refine ⟨h.deepen hb rfl (by omega) hz.perm (hz.all_equal hall), ?_⟩
          rw [mainTodo_cons, mainTodo_cons]
          exact Nat.add_lt_add_right (todo_deepen (by omega) (by omega)) _
        · rw [if_neg hall]
          exact h.split hn hb rfl (by omega) (hz.split hx hmed hall rfl rfl) rfl

/-- **The main loop** comes to its end. -/
theorem mainQsortLoop_spec (hn : bzNOvershoot < n) (hb : Overshot block n)
    (hq : Quadrants block n quadrant) (hN : segSize (lo, hi) ≤ 2 ^ 32) {ptr : Cells Int}
    {st : MainQSort} (h : MainSorting block n lo hi ptr st) {fuel : Nat} (hf : mainTodo st.stack < fuel) :
    ∃ r, iter Halt.diverge (mainQsortStep block quadrant n) fuel st = .ok r ∧
      SortedOut (rot (sym block) n) lo hi ptr r :=
  iter_spec (MainSorting block n lo hi ptr) (SortedOut (rot (sym block) n) lo hi ptr)
    (fun q => mainTodo q.stack) (fun _ h => mainQsortStep_spec hn hb hq hN h) fuel st h hf

/-- What it starts with. -/
theorem mainSorting_start {ptr : Cells Int} (hle : lo ≤ hi) (hd : d ≤ 15) {w : List Nat}
    (hw : ∀ x, lo ≤ x → x ≤ hi → Shares block n d w (ptr x)) (budget : Word32) :
    MainSorting block n lo hi ptr ⟨ptr, budget, [⟨lo, hi, d⟩]⟩ ∧
      mainTodo [⟨lo, hi, d⟩] < (51 * (hi - lo + 1) + 3).toNat := by
  refine ⟨⟨unsorted_start ptr, ?_, ?_, .inl (Nat.le_refl 1)⟩, ?_⟩
  · intro s hs
    rw [List.mem_singleton.mp hs]
    exact ⟨hd, w, hw⟩
  · exact ⟨Nat.le_of_eq (Nat.mul_one _), trivial⟩
  · have h17 : segSize (lo, hi) * (17 - d) ≤ segSize (lo, hi) * 17 :=
      Nat.mul_le_mul_left _ (Nat.sub_le _ _)
    have hs : (segSize (lo, hi) : Int) = hi - lo + 1 := by
      unfold segSize
      dsimp only
      omega
    rw [mainTodo_cons]
    unfold MainSegment.todo MainSegment.ends mainTodo
    rw [List.map_nil, List.sum_nil]
    dsimp only
    omega

/-- **`mainQSort3` sorts**, of a segment whose rotations share the first `d` bytes: every call
    returns, with the segment permuted and, if the budget has lasted, its rotations in order. Within
    a block of at most 2391484 bytes this is what the code does; see `incs`. -/
theorem mainQSort3_sorts (hn : bzNOvershoot < n) (hb : Overshot block n)
    (hq : Quadrants block n quadrant) {ptr : Cells Int} (hlo : -2 ^ 31 ≤ lo) (hle : lo ≤ hi)
    (hhi : hi < 2 ^ 31) (hd : d ≤ 15) {w : List Nat}
    (hw : ∀ x, lo ≤ x → x ≤ hi → Shares block n d w (ptr x)) (budget : Word32) :
    ∃ r, mainQSort3 block quadrant n ptr lo hi d budget = .ok r ∧
      SortedOut (rot (sym block) n) lo hi ptr r := by
  have hN : segSize (lo, hi) ≤ 2 ^ 32 := by
    unfold segSize
    dsimp only
    omega
  obtain ⟨hstart, hfuel⟩ := mainSorting_start hle hd hw budget
  exact mainQsortLoop_spec hn hb hq hN hstart hfuel

/-- Twenty-four zeros with ones between them, but for the first, a two; behind it its start. -/
def zerosBlock : Cells Byte :=
  .ofFn fun i => if i % 2 = 0 then 0 else if i % 48 = 1 then 2 else 1

/-- The quadrants of the ones, whose rotations are the greater the further on they start. -/
def onesQuadrant : Cells (BitVec 16) :=
  .ofFn fun i => if i % 2 = 0 ∨ i % 48 = 1 then 0 else BitVec.ofNat 16 (i % 48).toNat

theorem onesQuadrant_ord : Quadrants zerosBlock 48 onesQuadrant := by
  refine ⟨fun i _ _ => ?_, fun x y hx0 hx1 hy0 hy1 => ?_⟩
  · unfold onesQuadrant
    simp only [Cells.get_ofFn, Int.add_emod_left]
    rw [show (48 + i) % 2 = i % 2 by omega]
  · have hord : ∀ x < 48, ∀ y < 48, sym zerosBlock (x : Nat) = sym zerosBlock (y : Nat) →
        (onesQuadrant (x : Nat)).toNat < (onesQuadrant (y : Nat)).toNat →
        rot (sym zerosBlock) 48 (x : Nat) ≤ rot (sym zerosBlock) 48 (y : Nat) := by
      decide +kernel
    obtain ⟨x, rfl⟩ := Int.eq_ofNat_of_zero_le hx0
    obtain ⟨y, rfl⟩ := Int.eq_ofNat_of_zero_le hy0
    exact hord x (by omega) y (by omega)

/-- The bucket of the zeros, of depth 1, within the budget. -/
theorem mainQSort3_sorts_zeros : ∃ f budget,
    mainQSort3 zerosBlock onesQuadrant 48 (.ofFn fun i => 14 * i % 48) 0 23 1 1000 =
      .ok (f, budget) ∧
    budget.slt 0 = false ∧ PermOn 0 23 (fun i => 14 * i % 48) f ∧
    OrdOn (rot (sym zerosBlock) 48) 0 23 f := by
  have hover : Overshot zerosBlock 48 := by
    intro i _ _
    simp only [sym, zerosBlock, Cells.get_ofFn, Int.emod_emod]
    rw [show i % 48 % 2 = i % 2 by omega]
  have hzeros : ∀ i, 0 ≤ i → i ≤ 23 →
      Shares zerosBlock 48 1 [0] ((.ofFn fun i => 14 * i % 48 : Cells Int) i) := by
    intro i _ _
    refine ⟨by simp only [Cells.get_ofFn]; omega, by simp only [Cells.get_ofFn]; omega, ?_⟩
    simp only [pre, sym, zerosBlock, Cells.get_ofFn]
    rw [if_pos (by omega)]
    rfl
  have heval : (mainQSort3 zerosBlock onesQuadrant 48 (.ofFn fun i => 14 * i % 48) 0 23 1
      1000).toOption.map (fun r => r.2.slt 0) = some false := by
    decide +kernel
  obtain ⟨⟨f, budget⟩, hr, hs⟩ := mainQSort3_sorts (by decide) hover onesQuadrant_ord (by decide)
    (by decide) (by decide) (by decide) hzeros 1000
  rw [hr] at heval
  have hb : budget.slt 0 = false := Option.some.inj heval
  exact ⟨f, budget, hr, hb, hs.perm, hs.ord hb⟩

end Main

end Qbz2
