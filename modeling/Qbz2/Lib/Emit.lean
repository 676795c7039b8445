/-
  File:      Qbz2/Lib/Emit.lean
  Subject:   Machines that take events, give output, and may fail.

  * `Emits` -- a state with some output, or an error; `give` puts output before it, `andThen` goes
    on from the state, the outputs one after the other;
  * `replay` -- a machine over a list of events; `replay_append`.
-/
import Mathlib.Data.List.Basic

namespace Emit

/-- A state reached, with the output given on the way, or an error. -/
abbrev Emits (ε α σ : Type*) := Except ε (σ × List α)

variable {ε α σ τ υ ι : Type*}

/-- The output `d` first. -/
def give (d : List α) (x : Emits ε α σ) : Emits ε α σ :=
  match x with
  | .error e => .error e
  | .ok (s, o) => .ok (s, d ++ o)

/-- One after the other. -/
def andThen (x : Emits ε α σ) (f : σ → Emits ε α τ) : Emits ε α τ :=
  match x with
  | .error e => .error e
  | .ok (s, o) => give o (f s)

theorem give_nil (x : Emits ε α σ) : give [] x = x := by
  cases x with
  | error => rfl
  | ok r => rfl

theorem give_append (d d' : List α) (x : Emits ε α σ) : give (d ++ d') x = give d (give d' x) := by
  cases x with
  | error => rfl
  | ok r =>
    show Except.ok (r.1, (d ++ d') ++ r.2) = Except.ok (r.1, d ++ (d' ++ r.2))
    rw [List.append_assoc]

@[simp] theorem andThen_ok_nil (s : σ) (f : σ → Emits ε α τ) :
    andThen (.ok (s, [])) f = f s := give_nil (f s)

theorem andThen_give (d : List α) (x : Emits ε α σ) (f : σ → Emits ε α τ) :
    andThen (give d x) f = give d (andThen x f) := by
  cases x with
  | error => rfl
  | ok r => exact give_append d r.2 (f r.1)

theorem andThen_assoc (x : Emits ε α σ) (f : σ → Emits ε α τ) (g : τ → Emits ε α υ) :
    andThen (andThen x f) g = andThen x fun s => andThen (f s) g := by
  cases x with
  | error => rfl
  | ok r => exact andThen_give r.2 (f r.1) g

/-- Going on without doing anything. -/
theorem andThen_pure (x : Emits ε α σ) : (andThen x fun s => .ok (s, [])) = x := by
  cases x with
  | error => rfl
  | ok r =>
    show Except.ok (r.1, r.2 ++ []) = Except.ok r
    rw [List.append_nil]

/-- A machine over a list of events. -/
def replay (step : ι → σ → Emits ε α σ) : List ι → σ → Emits ε α σ
  | [], s => .ok (s, [])
  | e :: es, s => andThen (step e s) (replay step es)

theorem replay_append (step : ι → σ → Emits ε α σ) (es fs : List ι) (s : σ) :
    replay step (es ++ fs) s = andThen (replay step es s) (replay step fs) := by
  induction es generalizing s with
  | nil => exact (andThen_ok_nil s _).symm
  | cons e es ih =>
    show andThen (step e s) (replay step (es ++ fs)) = andThen (andThen (step e s) (replay step es)) _
    rw [andThen_assoc]
    congr 1
    funext s
    exact ih s

theorem replay_singleton (step : ι → σ → Emits ε α σ) (e : ι) : replay step [e] = step e := by
  funext s
  exact andThen_pure (step e s)

end Emit
