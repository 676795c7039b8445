/-
  File:      Qbz2/Lib/Segment.lean
  Subject:   Permuting a segment of an array, and being in order on one.

  * `PermOn lo hi f g` -- `g` is `f` with the cells `lo..hi` permuted; `PermOn.swap` is one
    exchange, `PermOn.src` and `PermOn.outside` say where a cell of `g` comes from;
  * `OrdOn key lo hi f` -- the keys of the cells `lo..hi` do not decrease;
  * `InjOn lo hi f`, `Hits lo hi f` -- a permutation keeps both.
-/
import Mathlib.Logic.Equiv.Basic
import Mathlib.Order.Basic

namespace Segment

variable {α κ : Type*} {lo hi lo' hi' : Int} {f g h : Int → α}

/-- `g` is `f` with the cells of `lo..hi` permuted. -/
def PermOn (lo hi : Int) (f g : Int → α) : Prop :=
  ∃ σ : Equiv.Perm Int, (∀ i, i < lo ∨ hi < i → σ i = i) ∧ ∀ i, g i = f (σ i)

theorem PermOn.refl (lo hi : Int) (f : Int → α) : PermOn lo hi f f :=
  ⟨Equiv.refl Int, fun _ _ => rfl, fun _ => rfl⟩

theorem PermOn.trans (h₁ : PermOn lo hi f g) (h₂ : PermOn lo hi g h) : PermOn lo hi f h := by
  obtain ⟨σ, hσ, hg⟩ := h₁
  obtain ⟨τ, hτ, hh⟩ := h₂
  refine ⟨τ.trans σ, fun i hi => ?_, fun i => ?_⟩
  · rw [Equiv.trans_apply, hτ i hi, hσ i hi]
  · rw [hh, hg, Equiv.trans_apply]

theorem PermOn.mono (h : PermOn lo hi f g) (hl : lo' ≤ lo) (hh : hi ≤ hi') :
    PermOn lo' hi' f g := by
  obtain ⟨σ, hσ, hg⟩ := h
  exact ⟨σ, fun i hi => hσ i (by omega), hg⟩

theorem PermOn.symm (h : PermOn lo hi f g) : PermOn lo hi g f := by
  obtain ⟨σ, hσ, hg⟩ := h
  refine ⟨σ.symm, fun i hi => ?_, fun i => ?_⟩
  · rw [Equiv.symm_apply_eq, hσ i hi]
  · rw [hg, Equiv.apply_symm_apply]

/-- **One exchange.** -/
theorem PermOn.swap {a b : Int} (ha : lo ≤ a ∧ a ≤ hi) (hb : lo ≤ b ∧ b ≤ hi)
    (hg : ∀ i, g i = if i = b then f a else if i = a then f b else f i) : PermOn lo hi f g := by
  refine ⟨Equiv.swap b a, fun i hi => ?_, fun i => ?_⟩
  · exact Equiv.swap_apply_of_ne_of_ne (by omega) (by omega)
  · rw [hg, Equiv.swap_apply_def]
    split
    · rfl
    · split <;> rfl

/-- Outside the segment nothing changes. -/
theorem PermOn.outside (h : PermOn lo hi f g) {i : Int} (hi : i < lo ∨ hi < i) : g i = f i := by
  obtain ⟨σ, hσ, hg⟩ := h
  rw [hg, hσ i hi]

/-- Inside the segment a cell's content comes from inside. -/
theorem PermOn.src (h : PermOn lo hi f g) {i : Int} (hl : lo ≤ i) (hh : i ≤ hi) :
    ∃ k, lo ≤ k ∧ k ≤ hi ∧ g i = f k := by
  obtain ⟨σ, hσ, hg⟩ := h
  by_cases hk : σ i < lo ∨ hi < σ i
  · have e : σ i = i := σ.injective (hσ _ hk)
    omega
  · exact ⟨σ i, by omega, by omega, hg i⟩

/-- A property of every cell of the segment survives. -/
theorem PermOn.forall (h : PermOn lo hi f g) {P : α → Prop}
    (hP : ∀ i, lo ≤ i → i ≤ hi → P (f i)) : ∀ i, lo ≤ i → i ≤ hi → P (g i) := by
  intro i hl hh
  obtain ⟨k, hkl, hkh, e⟩ := h.src hl hh
  rw [e]
  exact hP k hkl hkh

/-- The cells of the segment are distinct. -/
def InjOn (lo hi : Int) (f : Int → α) : Prop :=
  ∀ i j, lo ≤ i → i ≤ hi → lo ≤ j → j ≤ hi → f i = f j → i = j

theorem PermOn.injOn (h : PermOn lo hi f g) (hf : InjOn lo hi f) : InjOn lo hi g := by
  obtain ⟨σ, hσ, hg⟩ := h
  have hin : ∀ i, lo ≤ i → i ≤ hi → lo ≤ σ i ∧ σ i ≤ hi := by
    intro i hl hh
    by_cases hk : σ i < lo ∨ hi < σ i
    · have e : σ i = i := σ.injective (hσ _ hk)
      omega
    · omega
  intro i j hil hih hjl hjh e
  rw [hg, hg] at e
  obtain ⟨h1, h2⟩ := hin i hil hih
  obtain ⟨h3, h4⟩ := hin j hjl hjh
  exact σ.injective (hf _ _ h1 h2 h3 h4 e)

/-- The content `v` is somewhere in the segment. -/
def Hits (lo hi : Int) (f : Int → α) (v : α) : Prop := ∃ i, lo ≤ i ∧ i ≤ hi ∧ f i = v

theorem PermOn.hits (h : PermOn lo hi f g) {v : α} (hv : Hits lo hi f v) : Hits lo hi g v := by
  obtain ⟨i, hl, hh, e⟩ := hv
  obtain ⟨k, hkl, hkh, e'⟩ := h.symm.src hl hh
  exact ⟨k, hkl, hkh, by rw [← e', e]⟩

/-- The keys of the cells `lo..hi` do not decrease. -/
def OrdOn [LE κ] (key : α → κ) (lo hi : Int) (f : Int → α) : Prop :=
  ∀ i j, lo ≤ i → i ≤ j → j ≤ hi → key (f i) ≤ key (f j)

/-- Cells in order one by one are in order. -/
theorem ordOn_of_adjacent [Preorder κ] {key : α → κ}
    (hadj : ∀ i, lo < i → i ≤ hi → key (f (i - 1)) ≤ key (f i)) : OrdOn key lo hi f := by
  have step : ∀ (d : Nat) (i : Int), lo ≤ i → i + d ≤ hi → key (f i) ≤ key (f (i + d)) := by
    intro d
    induction d with
    | zero =>
      intro i _ _
      have e : i + ((0 : Nat) : Int) = i := by omega
      rw [e]
    | succ d ih =>
      intro i hl hh
      have h1 := ih i hl (by omega)
      have h2 := hadj (i + ((d + 1 : Nat) : Int)) (by omega) hh
      have e : i + ((d + 1 : Nat) : Int) - 1 = i + d := by omega
      rw [e] at h2
      exact le_trans h1 h2
  intro i j hl hij hh
  have := step (j - i).toNat i hl (by omega)
  have e : i + (((j - i).toNat : Nat) : Int) = j := by omega
  rwa [e] at this

end Segment
