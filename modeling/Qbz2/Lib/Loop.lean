/-
  File:      Qbz2/Lib/Loop.lean
  Subject:   Loops of an imperative program as functions, and their induction rules.

  * `forUpto n f s` -- `for (i = 0; i < n; i++) s = f i s`, with `forUpto_inv`; `forTry` when the
    body may fail, with `forTry_spec`;
  * `countdown f n s` -- the loop that counts down; `fourByFour`, the same with four rounds in its
    body; `forReturn` -- a counted loop whose body may return from the function;
  * `iter step fuel s` -- `while (true)` whose body continues with a new state or leaves with a
    result, and may itself fail; running out of fuel is the failure `stuck`. `iter_spec` shows
    that an invariant and a measure make the loop leave with a good result, whatever the fuel
    above the measure; `iter_inv` is the partial rule, for a loop that may fail;
  * `Visits step s t` -- the loop started at `s` comes by `t`, for what is to hold during it.
-/
import Mathlib.Logic.Function.Basic

namespace Loop

variable {σ ρ ε : Type*}

/-- `for (i = 0; i < n; i++) s = f i s`. -/
def forUpto : Nat → (Nat → σ → σ) → σ → σ
  | 0, _, s => s
  | n + 1, f, s => f n (forUpto n f s)

@[simp] theorem forUpto_zero (f : Nat → σ → σ) (s : σ) : forUpto 0 f s = s := rfl

theorem forUpto_succ (n : Nat) (f : Nat → σ → σ) (s : σ) :
    forUpto (n + 1) f s = f n (forUpto n f s) := rfl

/-- **The rule of a counted loop.** -/
theorem forUpto_inv {f : Nat → σ → σ} {s : σ} (P : Nat → σ → Prop) (h0 : P 0 s) (n : Nat)
    (hs : ∀ i t, i < n → P i t → P (i + 1) (f i t)) : P n (forUpto n f s) := by
  induction n with
  | zero => exact h0
  | succ n ih =>
    exact hs n _ (Nat.lt_succ_self n) (ih fun i t hi hP => hs i t (Nat.lt_succ_of_lt hi) hP)

/-- The rule of two counted loops side by side. -/
theorem forUpto_rel {τ : Type*} {f : Nat → σ → σ} {g : Nat → τ → τ} {s : σ} {t : τ}
    (R : Nat → σ → τ → Prop) (h0 : R 0 s t) (n : Nat)
    (hs : ∀ i a b, i < n → R i a b → R (i + 1) (f i a) (g i b)) :
    R n (forUpto n f s) (forUpto n g t) := by
  induction n with
  | zero => exact h0
  | succ n ih =>
    exact hs n _ _ (Nat.lt_succ_self n) (ih fun i a b hi hR => hs i a b (Nat.lt_succ_of_lt hi) hR)

/-- `for (i = n - 1; i >= 0; i--) s = f i s`. -/
def countdown (f : Nat → σ → σ) : Nat → σ → σ
  | 0, s => s
  | n + 1, s => countdown f n (f n s)

/-- The rule of a loop that counts down. -/
theorem countdown_inv {f : Nat → σ → σ} (P : Nat → σ → Prop) {n : Nat} {s : σ} (hn : P n s)
    (hs : ∀ i t, i < n → P (i + 1) t → P i (f i t)) : P 0 (countdown f n s) := by
  induction n generalizing s with
  | zero => exact hn
  | succ n ih => exact ih (hs n s (Nat.lt_succ_self n) hn) fun i t hi => hs i t (Nat.lt_succ_of_lt hi)

/-- The same loop with four rounds in its body, and the last rounds one by one. -/
def fourByFour (f : Nat → σ → σ) : Nat → σ → σ
  | n + 4, s => fourByFour f n (f n (f (n + 1) (f (n + 2) (f (n + 3) s))))
  | 3, s => countdown f 3 s
  | 2, s => countdown f 2 s
  | 1, s => countdown f 1 s
  | 0, s => s

theorem fourByFour_eq (f : Nat → σ → σ) (n : Nat) (s : σ) : fourByFour f n s = countdown f n s := by
  fun_induction fourByFour f n s with
  | case1 n s ih => exact ih
  | case2 => rfl
  | case3 => rfl
  | case4 => rfl
  | case5 => rfl

/-- `for (i = 0; i < n; i++)`, whose body goes on with a new state or returns from the function, and
    may fail. -/
def forReturn : Nat → (Nat → σ → Except ε (σ ⊕ ρ)) → σ → Except ε (σ ⊕ ρ)
  | 0, _, s => .ok (.inl s)
  | n + 1, f, s =>
    match forReturn n f s with
    | .error e => .error e
    | .ok (.inr r) => .ok (.inr r)
    | .ok (.inl s) => f n s

/-- **The rule of a counted loop that may return**: under its invariant it does not fail. -/
theorem forReturn_spec {f : Nat → σ → Except ε (σ ⊕ ρ)} {s : σ} (P : Nat → σ → Prop) (Q : ρ → Prop)
    (h0 : P 0 s) (n : Nat) (hs : ∀ i t, i < n → P i t →
      (∃ t', f i t = .ok (.inl t') ∧ P (i + 1) t') ∨ ∃ r, f i t = .ok (.inr r) ∧ Q r) :
    (∃ t, forReturn n f s = .ok (.inl t) ∧ P n t) ∨ ∃ r, forReturn n f s = .ok (.inr r) ∧ Q r := by
  induction n with
  | zero => exact .inl ⟨s, rfl, h0⟩
  | succ n ih =>
    rcases ih fun i t hi hP => hs i t (Nat.lt_succ_of_lt hi) hP with ⟨t, ht, hP⟩ | ⟨r, hr, hQ⟩
    · rcases hs n t (Nat.lt_succ_self n) hP with ⟨t', ht', hP'⟩ | ⟨r, hr, hQ⟩
      · exact .inl ⟨t', by rw [forReturn, ht]; exact ht', hP'⟩
      · exact .inr ⟨r, by rw [forReturn, ht]; exact hr, hQ⟩
    · exact .inr ⟨r, by rw [forReturn, hr], hQ⟩

/-- `for (i = 0; i < n; i++) s = f i s`, the body failing or not. -/
def forTry : Nat → (Nat → σ → Except ε σ) → σ → Except ε σ
  | 0, _, s => .ok s
  | n + 1, f, s =>
    match forTry n f s with
    | .error e => .error e
    | .ok s => f n s

/-- **The rule of a counted loop whose body may fail**: under its invariant it does not. -/
theorem forTry_spec {f : Nat → σ → Except ε σ} {s : σ} (P : Nat → σ → Prop) (h0 : P 0 s) (n : Nat)
    (hs : ∀ i t, i < n → P i t → ∃ t', f i t = .ok t' ∧ P (i + 1) t') :
    ∃ t, forTry n f s = .ok t ∧ P n t := by
  induction n with
  | zero => exact ⟨s, rfl, h0⟩
  | succ n ih =>
    obtain ⟨t, ht, hP⟩ := ih fun i t hi hP => hs i t (Nat.lt_succ_of_lt hi) hP
    obtain ⟨t', ht', hP'⟩ := hs n t (Nat.lt_succ_self n) hP
    exact ⟨t', by rw [forTry, ht]; exact ht', hP'⟩

/-- `while (true)`, at most `fuel` rounds. -/
def iter (stuck : ε) (step : σ → Except ε (σ ⊕ ρ)) : Nat → σ → Except ε ρ
  | 0, _ => .error stuck
  | fuel + 1, s =>
    match step s with
    | .error e => .error e
    | .ok (.inl s') => iter stuck step fuel s'
    | .ok (.inr r) => .ok r

section Rules

variable {stuck : ε} {step : σ → Except ε (σ ⊕ ρ)}

/-- **The total rule**: the invariant is kept and the measure falls until the loop leaves. -/
theorem iter_spec (P : σ → Prop) (Q : ρ → Prop) (m : σ → Nat)
    (hstep : ∀ s, P s → (∃ s', step s = .ok (.inl s') ∧ P s' ∧ m s' < m s) ∨
      ∃ r, step s = .ok (.inr r) ∧ Q r) :
    ∀ (fuel : Nat) (s : σ), P s → m s < fuel → ∃ r, iter stuck step fuel s = .ok r ∧ Q r := by
  intro fuel
  induction fuel with
  | zero => intro s _ h; exact absurd h (Nat.not_lt_zero _)
  | succ fuel ih =>
    intro s hP hm
    rcases hstep s hP with ⟨s', he, hP', hlt⟩ | ⟨r, he, hQ⟩
    · obtain ⟨r, hr, hQ⟩ := ih s' hP' (by omega)
      exact ⟨r, by rw [iter, he]; exact hr, hQ⟩
    · exact ⟨r, by rw [iter, he], hQ⟩

/-- **The partial rule**: whenever the loop leaves, it leaves with a good result. -/
theorem iter_inv (P : σ → Prop) (Q : ρ → Prop)
    (hin : ∀ s s', P s → step s = .ok (.inl s') → P s')
    (hout : ∀ s r, P s → step s = .ok (.inr r) → Q r) :
    ∀ (fuel : Nat) (s : σ) (r : ρ), P s → iter stuck step fuel s = .ok r → Q r := by
  intro fuel
  induction fuel with
  | zero => intro s r _ h; cases h
  | succ fuel ih =>
    intro s r hP h
    unfold iter at h
    split at h
    · cases h
    · rename_i s' he
      exact ih s' r (hin s s' hP he) h
    · rename_i r' he
      cases h
      exact hout s r hP he

/-- The loop started at `s` comes by `t`. -/
inductive Visits (step : σ → Except ε (σ ⊕ ρ)) (s : σ) : σ → Prop
  | start : Visits step s s
  | next {t u : σ} : Visits step s t → step t = .ok (.inl u) → Visits step s u

/-- What the body keeps holds wherever the loop comes by. -/
theorem Visits.inv {P : σ → Prop} {s t : σ} (h : Visits step s t) (h0 : P s)
    (hin : ∀ s s', P s → step s = .ok (.inl s') → P s') : P t := by
  induction h with
  | start => exact h0
  | next _ he ih => exact hin _ _ ih he

end Rules

end Loop
