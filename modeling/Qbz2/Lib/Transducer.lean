/-
  File:      Qbz2/Lib/Transducer.lean
  Subject:   Machines that read a tape and emit an output, and how they depend on the tape being
             there all at once.

  * `Node σ α β ρ` -- what a state does next: read `n` symbols, emit one, move on, or halt;
  * `Steps M s t w s' t'` -- from `s` with tape `t` the machine reaches `s'` with tape `t'`,
    having emitted `w`;
  * `Steps.extend` -- tape that is not there yet changes nothing about the steps made without it;
  * `Steps.confluent` -- of two runs from one state, one continues the other;
  * `Steps.unique` -- two runs that cannot go on are the same run;
  * `Beside` -- two states of machines that simulate each other, the one perhaps some silent steps
    ahead; `Beside.run`: they stay so;
  * `NodePays` -- a machine whose silent steps and whose output are paid for by what it reads;
    `Steps.paid`: its output is bounded; `exists_stuck`: it comes to an end on every tape.
-/
import Mathlib.Logic.Basic
import Mathlib.Data.List.Basic

namespace Transducer

variable {σ α β ρ : Type*}

/-- What a state does next. -/
inductive Node (σ α β ρ : Type*) where
  | read (n : Nat) (k : List α → σ)
  | emit (b : β) (s : σ)
  | move (s : σ)
  | halt (r : ρ)

/-- A machine: what each state does next. -/
abbrev Machine (σ α β ρ : Type*) := σ → Node σ α β ρ

/-- Steps of a machine. -/
inductive Steps (M : Machine σ α β ρ) : σ → List α → List β → σ → List α → Prop
  | refl (s : σ) (t : List α) : Steps M s t [] s t
  | read {s s' : σ} {t t' : List α} {w : List β} {n : Nat} {k : List α → σ}
      (h : M s = .read n k) (hn : n ≤ t.length) (hs : Steps M (k (t.take n)) (t.drop n) w s' t') :
      Steps M s t w s' t'
  | emit {s s₁ s' : σ} {t t' : List α} {w : List β} {b : β}
      (h : M s = .emit b s₁) (hs : Steps M s₁ t w s' t') : Steps M s t (b :: w) s' t'
  | move {s s₁ s' : σ} {t t' : List α} {w : List β}
      (h : M s = .move s₁) (hs : Steps M s₁ t w s' t') : Steps M s t w s' t'

/-- No step is possible: halted, or starved of tape. -/
inductive Stuck (M : Machine σ α β ρ) (s : σ) (t : List α) : Prop
  | halted {r : ρ} (h : M s = .halt r) : Stuck M s t
  | starved {n : Nat} {k : List α → σ} (h : M s = .read n k) (hn : t.length < n) : Stuck M s t

namespace Steps

variable {M : Machine σ α β ρ} {s s₁ s₂ : σ} {t t₁ t₂ : List α} {w w₁ w₂ : List β}

theorem trans (h₁ : Steps M s t w₁ s₁ t₁) (h₂ : Steps M s₁ t₁ w₂ s₂ t₂) :
    Steps M s t (w₁ ++ w₂) s₂ t₂ := by
  induction h₁ with
  | refl => exact h₂
  | read h hn _ ih => exact .read h hn (ih h₂)
  | emit h _ ih => exact .emit h (ih h₂)
  | move h _ ih => exact .move h (ih h₂)

/-- The tape left over is what was not read. -/
theorem suffix (h : Steps M s t w s₁ t₁) : ∃ c, t = c ++ t₁ := by
  induction h with
  | refl => exact ⟨[], rfl⟩
  | @read _ _ t _ _ n _ _ _ _ ih =>
    obtain ⟨c, hc⟩ := ih
    exact ⟨t.take n ++ c, by rw [List.append_assoc, ← hc, List.take_append_drop]⟩
  | emit _ _ ih => exact ih
  | move _ _ ih => exact ih

theorem length_le (h : Steps M s t w s₁ t₁) : t₁.length ≤ t.length := by
  obtain ⟨c, hc⟩ := h.suffix
  rw [hc, List.length_append]
  exact Nat.le_add_left _ _

/-- **More tape does not change the steps already made.** -/
theorem extend (h : Steps M s t w s₁ t₁) (u : List α) : Steps M s (t ++ u) w s₁ (t₁ ++ u) := by
  induction h with
  | refl => exact .refl _ _
  | @read s s' t t' w n k h hn _ ih =>
    refine .read h (by rw [List.length_append]; omega) ?_
    rw [List.take_append_of_le_length hn, List.drop_append_of_le_length hn]
    exact ih
  | emit h _ ih => exact .emit h ih
  | move h _ ih => exact .move h ih

/-- A run cannot leave a stuck state. -/
theorem of_stuck (h : Steps M s t w s₁ t₁) (hs : Stuck M s t) : w = [] ∧ s₁ = s ∧ t₁ = t := by
  cases h with
  | refl => exact ⟨rfl, rfl, rfl⟩
  | read h hn _ =>
    cases hs with
    | halted h' => rw [h] at h'; cases h'
    | starved h' hn' =>
      rw [h] at h'
      cases h'
      omega
  | emit h _ =>
    cases hs with
    | halted h' => rw [h] at h'; cases h'
    | starved h' hn' => rw [h] at h'; cases h'
  | move h _ =>
    cases hs with
    | halted h' => rw [h] at h'; cases h'
    | starved h' hn' => rw [h] at h'; cases h'

/-- **Of two runs from one state, one continues the other.** -/
theorem confluent (h₁ : Steps M s t w₁ s₁ t₁) (h₂ : Steps M s t w₂ s₂ t₂) :
    (∃ w, Steps M s₁ t₁ w s₂ t₂ ∧ w₂ = w₁ ++ w) ∨ ∃ w, Steps M s₂ t₂ w s₁ t₁ ∧ w₁ = w₂ ++ w := by
  induction h₁ generalizing w₂ with
  | refl => exact Or.inl ⟨w₂, h₂, rfl⟩
  | read h hn hs ih =>
    cases h₂ with
    | refl => exact Or.inr ⟨_, .read h hn hs, rfl⟩
    | read h' hn' hs' =>
      rw [h] at h'
      cases h'
      exact ih hs'
    | emit h' _ => rw [h] at h'; cases h'
    | move h' _ => rw [h] at h'; cases h'
  | emit h hs ih =>
    cases h₂ with
    | refl => exact Or.inr ⟨_, .emit h hs, rfl⟩
    | read h' _ _ => rw [h] at h'; cases h'
    | emit h' hs' =>
      rw [h] at h'
      cases h'
      rcases ih hs' with ⟨w, hw, rfl⟩ | ⟨w, hw, rfl⟩
      · exact Or.inl ⟨w, hw, rfl⟩
      · exact Or.inr ⟨w, hw, rfl⟩
    | move h' _ => rw [h] at h'; cases h'
  | move h hs ih =>
    cases h₂ with
    | refl => exact Or.inr ⟨_, .move h hs, rfl⟩
    | read h' _ _ => rw [h] at h'; cases h'
    | emit h' _ => rw [h] at h'; cases h'
    | move h' hs' =>
      rw [h] at h'
      cases h'
      exact ih hs'

/-- **A run leads on to where another cannot go on.** -/
theorem to_stuck (h₁ : Steps M s t w₁ s₁ t₁) (h₂ : Steps M s t w₂ s₂ t₂) (k : Stuck M s₂ t₂) :
    ∃ w, Steps M s₁ t₁ w s₂ t₂ ∧ w₂ = w₁ ++ w := by
  rcases h₁.confluent h₂ with h | ⟨w, h, rfl⟩
  · exact h
  · obtain ⟨rfl, rfl, rfl⟩ := h.of_stuck k
    exact ⟨[], .refl _ _, by rw [List.append_nil, List.append_nil]⟩

/-- **Two runs that cannot go on are the same.** -/
theorem unique (h₁ : Steps M s t w₁ s₁ t₁) (k₁ : Stuck M s₁ t₁) (h₂ : Steps M s t w₂ s₂ t₂)
    (k₂ : Stuck M s₂ t₂) : w₁ = w₂ ∧ s₁ = s₂ ∧ t₁ = t₂ := by
  obtain ⟨w, h, rfl⟩ := h₁.to_stuck h₂ k₂
  obtain ⟨rfl, rfl, rfl⟩ := h.of_stuck k₁
  exact ⟨(List.append_nil _).symm, rfl, rfl⟩

end Steps

/-- A machine simulates another when related states do the same and stay related. -/
def NodeRel {σ' : Type*} (R : σ → σ' → Prop) : Node σ α β ρ → Node σ' α β ρ → Prop
  | .read n k, .read n' k' => n = n' ∧ ∀ x : List α, x.length = n → R (k x) (k' x)
  | .emit b s, .emit b' s' => b = b' ∧ R s s'
  | .move s, .move s' => R s s'
  | .halt r, .halt r' => r = r'
  | _, _ => False

/-- Where a state can do nothing, a related one cannot, for the same reason. -/
theorem NodeRel.stuck {σ' : Type*} {M : Machine σ α β ρ} {M' : Machine σ' α β ρ}
    {R : σ → σ' → Prop} {s : σ} {s' : σ'} {t : List α} (h : NodeRel R (M s) (M' s'))
    (k : Stuck M s t) : Stuck M' s' t := by
  cases k with
  | @halted r hM =>
    rw [hM] at h
    cases hM' : M' s' with
    | halt r' => exact .halted hM'
    | _ => rw [hM'] at h; exact h.elim
  | starved hM hn =>
    rw [hM] at h
    cases hM' : M' s' with
    | read n' k' =>
      rw [hM'] at h
      obtain ⟨rfl, -⟩ := h
      exact .starved hM' hn
    | _ => rw [hM'] at h; exact h.elim

/-- **Related states make the same runs.** -/
theorem Steps.simulate {σ' : Type*} {M : Machine σ α β ρ} {M' : Machine σ' α β ρ}
    {R : σ → σ' → Prop} (hR : ∀ s s', R s s' → NodeRel R (M s) (M' s')) {s s₁ : σ} {s' : σ'}
    {t t₁ : List α} {w : List β} (h : Steps M s t w s₁ t₁) (hs : R s s') :
    ∃ s₁', Steps M' s' t w s₁' t₁ ∧ R s₁ s₁' := by
  induction h generalizing s' with
  | refl => exact ⟨s', .refl _ _, hs⟩
  | @read s _ t _ _ n k h hn _ ih =>
    have hn' := hR s s' hs
    rw [h] at hn'
    cases hM : M' s' with
    | read n' k' =>
      rw [hM] at hn'
      obtain ⟨rfl, hk⟩ := hn'
      obtain ⟨s₁', h₁, hr⟩ := ih (hk _ (List.length_take_of_le hn))
      exact ⟨s₁', .read hM hn h₁, hr⟩
    | _ => rw [hM] at hn'; exact hn'.elim
  | @emit s _ _ _ _ _ b h _ ih =>
    have hn' := hR s s' hs
    rw [h] at hn'
    cases hM : M' s' with
    | emit b' s₂ =>
      rw [hM] at hn'
      obtain ⟨rfl, hk⟩ := hn'
      obtain ⟨s₁', h₁, hr⟩ := ih hk
      exact ⟨s₁', .emit hM h₁, hr⟩
    | _ => rw [hM] at hn'; exact hn'.elim
  | @move s _ _ _ _ _ h _ ih =>
    have hn' := hR s s' hs
    rw [h] at hn'
    cases hM : M' s' with
    | move s₂ =>
      rw [hM] at hn'
      obtain ⟨s₁', h₁, hr⟩ := ih hn'
      exact ⟨s₁', .move hM h₁, hr⟩
    | _ => rw [hM] at hn'; exact hn'.elim

/-- **What every step keeps, a run keeps.** -/
theorem Steps.invariant {M : Machine σ α β ρ} {R : σ → σ → Prop}
    (hR : ∀ s, R s s → NodeRel R (M s) (M s)) {s s₁ : σ} {t t₁ : List α} {w : List β}
    (h : Steps M s t w s₁ t₁) (hs : R s s) : R s₁ s₁ := by
  induction h with
  | refl => exact hs
  | read h hn _ ih =>
    have hn' := hR _ hs
    rw [h] at hn'
    exact ih (hn'.2 _ (List.length_take_of_le hn))
  | emit h _ ih =>
    have hn' := hR _ hs
    rw [h] at hn'
    exact ih hn'.2
  | move h _ ih =>
    have hn' := hR _ hs
    rw [h] at hn'
    exact ih hn'

theorem NodeRel.symm {σ' : Type*} {R : σ → σ' → Prop} {n : Node σ α β ρ} {n' : Node σ' α β ρ}
    (h : NodeRel R n n') : NodeRel (fun s' s => R s s') n' n := by
  cases n <;> cases n' <;> first | exact h.elim | skip
  · exact ⟨h.1.symm, fun x hx => h.2 x (hx.trans h.1.symm)⟩
  · exact ⟨h.1.symm, h.2⟩
  · exact h
  · exact Eq.symm h

/-- Two states with a common future, before which nothing is read or emitted. -/
def Beside {σ' : Type*} (R : σ → σ' → Prop) (M : Machine σ α β ρ) (M' : Machine σ' α β ρ)
    (t : List α) (s : σ) (s' : σ') : Prop :=
  ∃ a a', Steps M s t [] a t ∧ Steps M' s' t [] a' t ∧ R a a'

section

variable {σ' : Type*} {M : Machine σ α β ρ} {M' : Machine σ' α β ρ} {R : σ → σ' → Prop}
  {s b : σ} {s' b' : σ'} {t : List α} {w w' : List β}

/-- Of two runs from states beside each other, one continues the other. -/
theorem Beside.confluent (hR : ∀ s s', R s s' → NodeRel R (M s) (M' s'))
    (h : Beside R M M' t s s') (hs : Steps M s t w b t) (hs' : Steps M' s' t w' b' t) :
    (∃ v e, w' = w ++ v ∧ Steps M b t v e t ∧ Beside R M M' t e b') ∨
    ∃ v e', w = w' ++ v ∧ Steps M' b' t v e' t ∧ Beside R M M' t b e' := by
  obtain ⟨a, a', ha, ha', hr⟩ := h
  have hR' : ∀ s' s, R s s' → NodeRel (fun s' s => R s s') (M' s') (M s) :=
    fun s' s h => (hR s s' h).symm
  rcases ha.confluent hs with ⟨v, hv, rfl⟩ | ⟨v, hv, hnil⟩
  · obtain ⟨e', he', hre⟩ := hv.simulate hR hr
    rcases ha'.confluent hs' with ⟨v', hv', rfl⟩ | ⟨v', hv', hnil'⟩
    · rcases he'.confluent hv' with ⟨u, hu, rfl⟩ | ⟨u, hu, rfl⟩
      · obtain ⟨e, he, hre'⟩ := hu.simulate hR' hre
        exact .inl ⟨u, e, rfl, he, e, b', .refl _ _, .refl _ _, hre'⟩
      · exact .inr ⟨u, e', rfl, hu, b, e', .refl _ _, .refl _ _, hre⟩
    · obtain ⟨rfl, rfl⟩ := List.append_eq_nil_iff.mp hnil'.symm
      exact .inr ⟨_, e', rfl, hv'.trans he', b, e', .refl _ _, .refl _ _, hre⟩
  · obtain ⟨rfl, rfl⟩ := List.append_eq_nil_iff.mp hnil.symm
    rcases ha'.confluent hs' with ⟨v', hv', rfl⟩ | ⟨v', hv', hnil'⟩
    · obtain ⟨e, he, hre⟩ := hv'.simulate hR' hr
      exact .inl ⟨_, e, rfl, hv.trans he, e, b', .refl _ _, .refl _ _, hre⟩
    · obtain ⟨rfl, rfl⟩ := List.append_eq_nil_iff.mp hnil'.symm
      exact .inl ⟨[], b, rfl, .refl _ _, a, a', hv, hv', hr⟩

/-- **Two runs that emit as much emit the same**, and leave the machines beside each other; so do
    two of which the one that emits less cannot go on. -/
theorem Beside.run (hR : ∀ s s', R s s' → NodeRel R (M s) (M' s')) (h : Beside R M M' t s s')
    (hs : Steps M s t w b t) (hs' : Steps M' s' t w' b' t)
    (hk : w.length < w'.length → Stuck M b t) (hk' : w'.length < w.length → Stuck M' b' t) :
    w' = w ∧ Beside R M M' t b b' := by
  rcases h.confluent hR hs hs' with ⟨v, e, rfl, hv, hb⟩ | ⟨v, e', rfl, hv, hb⟩
  · have hnil : v = [] := by
      by_contra hne
      have hpos := List.length_pos_iff.mpr hne
      exact hne (hv.of_stuck (hk (by rw [List.length_append]; omega))).1
    subst hnil
    obtain ⟨a, a', ha, ha', hr⟩ := hb
    exact ⟨List.append_nil w, a, a', hv.trans ha, ha', hr⟩
  · have hnil : v = [] := by
      by_contra hne
      have hpos := List.length_pos_iff.mpr hne
      exact hne (hv.of_stuck (hk' (by rw [List.length_append]; omega))).1
    subst hnil
    obtain ⟨a, a', ha, ha', hr⟩ := hb
    exact ⟨(List.append_nil w').symm, a, a', ha, hv.trans ha', hr⟩

end

/-- What a state may do that has `φ s` to spend: a read earns at most `K` for every symbol, every
    other step spends some of it. -/
def NodePays (P : σ → Prop) (φ : σ → Nat) (K : Nat) (s : σ) : Node σ α β ρ → Prop
  | .read n k => 0 < n ∧ ∀ x : List α, x.length = n → P (k x) ∧ φ (k x) ≤ φ s + K * n
  | .emit _ s' => P s' ∧ φ s' < φ s
  | .move s' => P s' ∧ φ s' < φ s
  | .halt _ => True

section

variable {M : Machine σ α β ρ} {P : σ → Prop} {φ : σ → Nat} {K : Nat} {s s' : σ} {t t' : List α}
  {w : List β}

/-- **A run emits no more than it has earned.** -/
theorem Steps.paid (hM : ∀ s, P s → NodePays P φ K s (M s)) (h : Steps M s t w s' t') (hs : P s) :
    P s' ∧ w.length + φ s' + K * t'.length ≤ φ s + K * t.length := by
  induction h with
  | refl => exact ⟨hs, by simp⟩
  | @read s s' t t' w n k h hn _ ih =>
    have hp := hM s hs
    rw [h] at hp
    obtain ⟨hP, hφ⟩ := hp.2 _ (List.length_take_of_le hn)
    obtain ⟨hP', hle⟩ := ih hP
    have hlen : K * n + K * (t.drop n).length = K * t.length := by
      rw [← Nat.mul_add, List.length_drop, Nat.add_sub_cancel' hn]
    exact ⟨hP', by omega⟩
  | @emit s _ _ _ _ _ _ h _ ih =>
    have hp := hM s hs
    rw [h] at hp
    obtain ⟨hP', hle⟩ := ih hp.1
    have hlt := hp.2
    exact ⟨hP', by rw [List.length_cons]; omega⟩
  | @move s _ _ _ _ _ h _ ih =>
    have hp := hM s hs
    rw [h] at hp
    obtain ⟨hP', hle⟩ := ih hp.1
    have hlt := hp.2
    exact ⟨hP', by omega⟩

/-- **Such a machine comes to an end on every tape.** -/
theorem exists_stuck (hM : ∀ s, P s → NodePays P φ K s (M s)) (hs : P s) (t : List α) :
    ∃ w s' t', Steps M s t w s' t' ∧ Stuck M s' t' := by
  -- what there is left to spend or to read
  suffices h : ∀ (m : Nat) (s : σ) (t : List α), P s → φ s + (K + 1) * t.length < m →
      ∃ w s' t', Steps M s t w s' t' ∧ Stuck M s' t' from h _ s t hs (Nat.lt_succ_self _)
  intro m
  induction m with
  | zero => exact fun _ _ _ h => absurd h (Nat.not_lt_zero _)
  | succ m ih =>
    intro s t hs hm
    have hp := hM s hs
    cases hn : M s with
    | read n k =>
      rw [hn] at hp
      obtain ⟨hpos, hk⟩ := hp
      by_cases hlt : t.length < n
      · exact ⟨[], s, t, .refl _ _, .starved hn hlt⟩
      · have hle : n ≤ t.length := Nat.le_of_not_lt hlt
        obtain ⟨hP, hφ⟩ := hk _ (List.length_take_of_le hle)
        have hlen : (K + 1) * n + (K + 1) * (t.drop n).length = (K + 1) * t.length := by
          rw [← Nat.mul_add, List.length_drop, Nat.add_sub_cancel' hle]
        have hone : (K + 1) * n = K * n + n := Nat.succ_mul K n
        obtain ⟨w, s', t', h, hstuck⟩ := ih (k (t.take n)) (t.drop n) hP (by omega)
        exact ⟨w, s', t', .read hn hle h, hstuck⟩
    | emit b s₁ =>
      rw [hn] at hp
      have hlt := hp.2
      obtain ⟨w, s', t', h, hstuck⟩ := ih s₁ t hp.1 (by omega)
      exact ⟨b :: w, s', t', .emit hn h, hstuck⟩
    | move s₁ =>
      rw [hn] at hp
      have hlt := hp.2
      obtain ⟨w, s', t', h, hstuck⟩ := ih s₁ t hp.1 (by omega)
      exact ⟨w, s', t', .move hn h, hstuck⟩
    | halt r => exact ⟨[], s, t, .refl _ _, .halted hn⟩

end

end Transducer
