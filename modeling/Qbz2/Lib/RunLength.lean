/-
  File:      Qbz2/Lib/RunLength.lean
  Subject:   Runs with a count: after four equal symbols comes a symbol that says how many more.

  * `RunState`, `next`, `emits` -- the decoder of such a list, a symbol at a time;
  * `expandFrom`, `runAfter` -- what it gives for a list, and the state after it;
  * `pair` -- a run as it is written; `expandFrom_pair` -- it is read back where the decoder is
    not in the middle of a run of the same symbol;
  * `frontRun` -- the run at the front of a list, as a reader takes it that looks one symbol ahead.
-/
import Mathlib.Data.List.Basic

namespace RunLength

/-- How many equal symbols there were last, and which. -/
structure RunState (α : Type*) where
  len : Nat
  ch : α

variable {α : Type*} [DecidableEq α]

/-- After four equal symbols the next is a count, and the decoder starts anew. -/
def RunState.next (st : RunState α) (x : α) : RunState α :=
  if st.len = 4 then { st with len := 0 }
  else if st.len ≠ 0 ∧ x = st.ch then { st with len := st.len + 1 }
  else ⟨1, x⟩

/-- What a symbol stands for. -/
def RunState.emits (count : α → Nat) (st : RunState α) (x : α) : List α :=
  if st.len = 4 then List.replicate (count x) st.ch else [x]

/-- What a list stands for. -/
def expandFrom (count : α → Nat) : RunState α → List α → List α
  | _, [] => []
  | st, x :: xs => st.emits count x ++ expandFrom count (st.next x) xs

/-- The state after a list. -/
def runAfter (st : RunState α) (xs : List α) : RunState α := xs.foldl RunState.next st

theorem expandFrom_append (count : α → Nat) (st : RunState α) (xs ys : List α) :
    expandFrom count st (xs ++ ys) = expandFrom count st xs ++
      expandFrom count (runAfter st xs) ys := by
  induction xs generalizing st with
  | nil => rfl
  | cons x xs ih =>
    rw [List.cons_append, expandFrom, expandFrom, ih, List.append_assoc]
    rfl

theorem runAfter_append (st : RunState α) (xs ys : List α) :
    runAfter st (xs ++ ys) = runAfter (runAfter st xs) ys := by
  unfold runAfter
  rw [List.foldl_append]

/-- A run goes on. -/
theorem expandFrom_replicate (count : α → Nat) (ch : α) : ∀ (k n : Nat), n ≠ 0 → n + k ≤ 4 →
    expandFrom count ⟨n, ch⟩ (List.replicate k ch) = List.replicate k ch ∧
      runAfter ⟨n, ch⟩ (List.replicate k ch) = ⟨n + k, ch⟩ := by
  intro k
  induction k with
  | zero => intro n _ _; exact ⟨rfl, rfl⟩
  | succ k ih =>
    intro n hn hk
    have hnext : RunState.next ⟨n, ch⟩ ch = ⟨n + 1, ch⟩ := by
      unfold RunState.next
      rw [if_neg (by dsimp only; omega), if_pos ⟨hn, rfl⟩]
    have hemits : RunState.emits count ⟨n, ch⟩ ch = [ch] := by
      unfold RunState.emits
      rw [if_neg (by dsimp only; omega)]
    obtain ⟨h1, h2⟩ := ih (n + 1) (by omega) (by omega)
    rw [List.replicate_succ, expandFrom, hemits, hnext, h1]
    refine ⟨rfl, ?_⟩
    have hcons : runAfter ⟨n, ch⟩ (ch :: List.replicate k ch) =
        runAfter (RunState.next ⟨n, ch⟩ ch) (List.replicate k ch) := rfl
    rw [hcons, hnext, h2]
    congr 1
    omega

/-- The decoder is not in the middle of a run of `ch`, nor before a count. -/
def RunState.Ready (st : RunState α) (ch : α) : Prop := st.len = 0 ∨ st.len < 4 ∧ st.ch ≠ ch

/-- The start of a run. -/
theorem expandFrom_run (count : α → Nat) {st : RunState α} {ch : α} (h : st.Ready ch) {k : Nat}
    (h1 : 1 ≤ k) (h4 : k ≤ 4) :
    expandFrom count st (List.replicate k ch) = List.replicate k ch ∧
      runAfter st (List.replicate k ch) = ⟨k, ch⟩ := by
  obtain ⟨j, rfl⟩ : ∃ j, k = j + 1 := ⟨k - 1, by omega⟩
  have hlen : st.len ≠ 4 := by
    rcases h with h | ⟨h, _⟩ <;> omega
  have hnext : st.next ch = ⟨1, ch⟩ := by
    unfold RunState.next
    rw [if_neg hlen, if_neg]
    rintro ⟨h0, he⟩
    rcases h with h | ⟨_, h⟩
    · exact h0 h
    · exact h he.symm
  have hemits : st.emits count ch = [ch] := by
    unfold RunState.emits
    rw [if_neg hlen]
  obtain ⟨h2, h3⟩ := expandFrom_replicate count ch j 1 (by decide) (by omega)
  rw [List.replicate_succ, expandFrom, hemits, hnext, h2]
  refine ⟨rfl, ?_⟩
  have hcons : runAfter st (ch :: List.replicate j ch) =
      runAfter (st.next ch) (List.replicate j ch) := rfl
  rw [hcons, hnext, h3]
  congr 1
  omega

/-- A run as it is written. -/
def pair (code : Nat → α) (ch : α) (len : Nat) : List α :=
  if len < 4 then List.replicate len ch else List.replicate 4 ch ++ [code (len - 4)]

/-- **A run is read back**, and leaves the decoder in it only where it is shorter than four. -/
theorem expandFrom_pair {count : α → Nat} {code : Nat → α} {st : RunState α} {ch : α}
    (h : st.Ready ch) {len : Nat} (h1 : 1 ≤ len)
    (hcode : 4 ≤ len → count (code (len - 4)) = len - 4) :
    expandFrom count st (pair code ch len) = List.replicate len ch ∧
      runAfter st (pair code ch len) = ⟨if len < 4 then len else 0, ch⟩ := by
  unfold pair
  by_cases h4 : len < 4
  · rw [if_pos h4, if_pos h4]
    exact expandFrom_run count h h1 (by omega)
  · rw [if_neg h4, if_neg h4]
    obtain ⟨h2, h3⟩ := expandFrom_run count h (show 1 ≤ 4 by decide) (Nat.le_refl 4)
    refine ⟨?_, ?_⟩
    · rw [expandFrom_append, h2, h3, expandFrom, expandFrom, List.append_nil]
      unfold RunState.emits
      rw [if_pos rfl, hcode (by omega), ← List.replicate_add]
      congr 1
      omega
    · rw [runAfter_append, h3]
      rfl

/-- Where no run goes on it does not matter which came before. -/
theorem expandFrom_ready (count : α → Nat) {st : RunState α} {x : α} (h : st.Ready x) (a : α)
    (xs : List α) :
    expandFrom count st (x :: xs) = expandFrom count ⟨0, a⟩ (x :: xs) ∧
      runAfter st (x :: xs) = runAfter ⟨0, a⟩ (x :: xs) := by
  obtain ⟨h1, h2⟩ := expandFrom_run count h (Nat.le_refl 1) (by decide)
  have hnone : (⟨0, a⟩ : RunState α).Ready x := .inl rfl
  obtain ⟨k1, k2⟩ := expandFrom_run count hnone
    (Nat.le_refl 1) (by decide)
  have hcons : x :: xs = List.replicate 1 x ++ xs := rfl
  rw [hcons, expandFrom_append, expandFrom_append, runAfter_append, runAfter_append, h1, h2, k1, k2]
  exact ⟨rfl, rfl⟩

/-- The run a list goes on with, `n` symbols `x` having been read: its length, and what follows
    it. -/
def frontRun (count : α → Nat) (x : α) : Nat → List α → Nat × List α
  | n, [] => (n, [])
  | n, y :: ys =>
    if n = 4 then (4 + count y, ys)
    else if y = x then frontRun count x (n + 1) ys
    else (n, y :: ys)

/-- **A list is its first run and the rest**, unless it ends where a count is missing. -/
theorem expandFrom_frontRun (count : α → Nat) (x a : α) : ∀ (ys : List α) (n : Nat), 1 ≤ n → n ≤ 4 →
    (runAfter ⟨n, x⟩ ys).len ≠ 4 →
    List.replicate n x ++ expandFrom count ⟨n, x⟩ ys =
        List.replicate (frontRun count x n ys).1 x ++
          expandFrom count ⟨0, a⟩ (frontRun count x n ys).2 ∧
      (runAfter ⟨0, a⟩ (frontRun count x n ys).2).len ≠ 4 ∧
      (frontRun count x n ys).2 <:+ ys := by
  intro ys
  induction ys with
  | nil => exact fun n _ _ _ => ⟨rfl, show (0 : Nat) ≠ 4 by decide, List.suffix_refl _⟩
  | cons y ys ih =>
    intro n h1 h4 hend
    unfold frontRun
    by_cases h : n = 4
    · subst h
      rw [if_pos rfl]
      have hnext : RunState.next ⟨4, x⟩ y = ⟨0, x⟩ := rfl
      have hemits : RunState.emits count ⟨4, x⟩ y = List.replicate (count y) x := rfl
      have hafter : runAfter ⟨4, x⟩ (y :: ys) = runAfter ⟨0, x⟩ ys := rfl
      rw [hafter] at hend
      have hany : expandFrom count ⟨0, x⟩ ys = expandFrom count ⟨0, a⟩ ys ∧
          (runAfter ⟨0, x⟩ ys).len = (runAfter ⟨0, a⟩ ys).len := by
        cases ys with
        | nil => exact ⟨rfl, rfl⟩
        | cons z zs =>
          obtain ⟨e1, e2⟩ := expandFrom_ready count (.inl rfl : RunState.Ready ⟨0, x⟩ z) a zs
          exact ⟨e1, congrArg RunState.len e2⟩
      refine ⟨?_, hany.2 ▸ hend, List.suffix_cons y ys⟩
      rw [expandFrom, hnext, hemits, hany.1, List.replicate_add, List.append_assoc]
    · rw [if_neg h]
      by_cases hy : y = x
      · subst hy
        rw [if_pos rfl]
        have hnext : RunState.next ⟨n, y⟩ y = ⟨n + 1, y⟩ := by
          unfold RunState.next
          rw [if_neg h, if_pos ⟨by dsimp only; omega, rfl⟩]
        have hemits : RunState.emits count ⟨n, y⟩ y = [y] := if_neg h
        have hafter : runAfter ⟨n, y⟩ (y :: ys) = runAfter ⟨n + 1, y⟩ ys := by
          show runAfter (RunState.next ⟨n, y⟩ y) ys = _
          rw [hnext]
        rw [hafter] at hend
        obtain ⟨e1, e2, e3⟩ := ih (n + 1) (by omega) (by omega) hend
        refine ⟨?_, e2, e3.trans (List.suffix_cons y ys)⟩
        rw [← e1, expandFrom, hnext, hemits, List.replicate_succ', List.append_assoc]
      · rw [if_neg hy]
        have hready : RunState.Ready ⟨n, x⟩ y := .inr ⟨by dsimp only; omega, fun e => hy e.symm⟩
        obtain ⟨e1, e2⟩ := expandFrom_ready count hready a ys
        exact ⟨by rw [e1], e2 ▸ hend, List.suffix_refl _⟩

end RunLength
