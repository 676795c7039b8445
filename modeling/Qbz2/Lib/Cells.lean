/-
  File:      Qbz2/Lib/Cells.lean
  Subject:   Arrays of an imperative program, whose cells hold something before they are written.

  * `Cells α` -- what the cells held at first, and the writes since; `a i` reads, `a.set i v`
    writes one cell, `a.fill i n v` the `n` cells from `i` on (a `memset`, or a loop that stores
    one value). The log of writes, and not a function alone, lets a run be evaluated;
  * `get_set`, `get_set_self`, `get_set_of_ne`, `get_set_get`, `get_fill` -- reading after writing.
-/
import Mathlib.Logic.Function.Basic

/-- A write: one cell, or a stretch of cells that all receive one value. -/
inductive Write (α : Type*) where
  | cell (i : Int) (v : α)
  | range (i : Int) (n : Nat) (v : α)

/-- An array: the first content of every cell, and the writes since, newest first. -/
structure Cells (α : Type*) where
  init : Int → α
  log : List (Write α)

namespace Cells

variable {α : Type*}

/-- The value last written at `i`, if any. -/
def lastWrite (i : Int) : List (Write α) → Option α
  | [] => none
  | .cell k v :: log => if i = k then some v else lastWrite i log
  | .range k n v :: log => if k ≤ i ∧ i < k + n then some v else lastWrite i log

/-- `a[i]`. -/
def get (a : Cells α) (i : Int) : α :=
  match lastWrite i a.log with
  | some v => v
  | none => a.init i

instance : CoeFun (Cells α) fun _ => Int → α := ⟨Cells.get⟩

/-- An array nobody has written to. -/
def ofFn (f : Int → α) : Cells α := ⟨f, []⟩

/-- `a[i] = v`. -/
def set (a : Cells α) (i : Int) (v : α) : Cells α := { a with log := .cell i v :: a.log }

/-- `for (k = 0; k < n; k++) a[i + k] = v`. -/
def fill (a : Cells α) (i : Int) (n : Nat) (v : α) : Cells α :=
  { a with log := .range i n v :: a.log }

@[simp] theorem get_ofFn (f : Int → α) (i : Int) : (ofFn f) i = f i := rfl

theorem get_set (a : Cells α) (i : Int) (v : α) (k : Int) :
    (a.set i v) k = if k = i then v else a k := by
  by_cases h : k = i <;> simp [get, set, lastWrite, h]

@[simp] theorem get_set_self (a : Cells α) (i : Int) (v : α) : (a.set i v) i = v := by
  simp [get_set]

theorem get_set_of_ne {a : Cells α} {i k : Int} (v : α) (h : k ≠ i) : (a.set i v) k = a k := by
  simp [get_set, h]

/-- Writing what is there changes nothing. -/
theorem get_set_get (a : Cells α) (i : Int) : (a.set i (a i)).get = a.get := by
  funext k
  rw [get_set]
  by_cases h : k = i
  · rw [if_pos h, h]
  · rw [if_neg h]

theorem get_fill (a : Cells α) (i : Int) (n : Nat) (v : α) (k : Int) :
    (a.fill i n v) k = if i ≤ k ∧ k < i + n then v else a k := by
  by_cases h : i ≤ k ∧ k < i + n <;> simp [get, fill, lastWrite, h]

end Cells
