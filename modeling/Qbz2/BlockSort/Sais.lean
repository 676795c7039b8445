/-
  File:      Qbz2/BlockSort/Sais.lean
  Subject:   What `sais_bwt` leaves in `ptr` and `origPtr`, and when a failed sort reaches
             `AssertH(1003)`.

  * `rows sa nblock` -- the entries of the suffix array below `nblock`, in order;
  * `saisBwt_ptr`, `saisBwt_origPtr` -- after a success `ptr` holds these rows and `origPtr` is
    the row of rotation 0;
  * **`failure_halts_iff`** -- both failure exits return before `*origPtr = -1`, so the assertion
    tests the value the previous block left: a failure is noticed exactly when that value was
    `-1` already.
-/
import Qbz2.BlockSort.Model

namespace Qbz2

open Loop

/-- One of the `malloc` calls failed, or `libsais` reported a failure. -/
def SaisEnv.Fails (env : SaisEnv) (block : Cells Byte) (nblock : Int) : Prop :=
  env.mallocDoubled = false ∨ env.mallocSA = false ∨ (env.libsais (doubled block nblock)).1 ≠ 0

instance (env : SaisEnv) (block : Cells Byte) (nblock : Int) :
    Decidable (env.Fails block nblock) :=
  inferInstanceAs (Decidable (_ ∨ _ ∨ _))

/-! ## 1. The filter loop -/

/-- The entries kept from the first `m` cells of the suffix array. -/
def kept (sa : Cells Int) (nblock : Int) (m : Nat) : List Int :=
  ((List.range m).map fun (i : Nat) => sa i).filter fun v => decide (v < nblock)

/-- All the entries kept. -/
def rows (sa : Cells Int) (nblock : Int) : List Int := kept sa nblock (2 * nblock).toNat

theorem kept_succ (sa : Cells Int) (nblock : Int) (m : Nat) :
    kept sa nblock (m + 1) = kept sa nblock m ++ if sa m < nblock then [sa m] else [] := by
  unfold kept
  rw [List.range_succ, List.map_append, List.filter_append]
  by_cases h : sa m < nblock <;> simp [h]

/-- The state of the filter loop after the rows `l` were kept. -/
structure Filled (l : List Int) (s : Filter) : Prop where
  j : s.j = l.length
  ptr : ∀ (k : Nat) (h : k < l.length), s.ptr k = l[k]
  row : s.origPtr = -1 ∧ 0 ∉ l ∨ 0 ≤ s.origPtr ∧ s.origPtr < l.length ∧ s.ptr s.origPtr = 0

theorem Filled.step {sa : Cells Int} {nblock : Int} {m : Nat} {s : Filter}
    (h : Filled (kept sa nblock m) s) :
    Filled (kept sa nblock (m + 1)) (filterStep sa nblock m s) := by
  rw [kept_succ]
  unfold filterStep
  by_cases hm : sa m < nblock
  · simp only [hm, if_true]
    have hj := h.j
    refine ⟨by simp [hj], fun k hk => ?_, ?_⟩
    · rw [List.length_append, List.length_singleton] at hk
      by_cases hk' : k < (kept sa nblock m).length
      · rw [List.getElem_append_left hk', Cells.get_set_of_ne _ (by omega)]
        exact h.ptr k hk'
      · have e : k = (kept sa nblock m).length := by omega
        subst e
        rw [hj]
        simp
    · by_cases h0 : sa m = 0
      · right
        simp only [h0, if_true, List.length_append, List.length_singleton]
        exact ⟨by omega, by omega, by simp⟩
      · simp only [h0, if_false, List.mem_append, List.mem_singleton, List.length_append,
          List.length_singleton]
        rcases h.row with ⟨ho, hz⟩ | ⟨ho, hlt, hz⟩
        · exact .inl ⟨ho, by rintro (hh | hh); exacts [hz hh, h0 hh.symm]⟩
        · exact .inr ⟨ho, by omega, by rw [Cells.get_set_of_ne _ (by omega)]; exact hz⟩
  · simp only [hm, if_false, List.append_nil]
    exact h

/-- **The filter loop** keeps exactly the entries below `nblock`, in order. -/
theorem filter_filled (sa : Cells Int) (nblock : Int) (ptr : Cells Int) (m : Nat) :
    Filled (kept sa nblock m) (forUpto m (filterStep sa nblock) ⟨ptr, -1, 0⟩) := by
  refine forUpto_inv (fun i s => Filled (kept sa nblock i) s) ?_ m fun i s _ h => h.step
  exact ⟨rfl, fun k hk => by simp [kept] at hk, .inl ⟨rfl, by simp [kept]⟩⟩

/-! ## 2. `sais_bwt` -/

section Sais

variable {env : SaisEnv} {block : Cells Byte} {nblock : Int}

/-- A failure leaves both outputs as they were. -/
theorem saisBwt_of_fails (h : env.Fails block nblock) (ptr : Cells Int) (origPtr : Int) :
    saisBwt env block ptr nblock origPtr = (ptr, origPtr) := by
  unfold saisBwt
  rcases h with h | h | h
  · simp [h]
  · simp [h]
  · by_cases hm : (!env.mallocDoubled || !env.mallocSA) = true
    · simp [hm]
    · simp [hm, h]

/-- **After a success** `ptr` holds the rows, and `origPtr` is a row of rotation 0, or `-1` if
    there is none. -/
theorem saisBwt_of_not_fails (h : ¬ env.Fails block nblock) (ptr : Cells Int) (origPtr : Int) :
    ∃ j, Filled (rows (env.libsais (doubled block nblock)).2 nblock)
      ⟨(saisBwt env block ptr nblock origPtr).1, (saisBwt env block ptr nblock origPtr).2, j⟩ := by
  unfold SaisEnv.Fails at h
  rw [not_or, not_or, Bool.not_eq_false, Bool.not_eq_false, not_not] at h
  obtain ⟨h1, h2, h3⟩ := h
  have hf := filter_filled (env.libsais (doubled block nblock)).2 nblock ptr (2 * nblock).toNat
  unfold saisBwt
  simp only [h1, h2, h3, Bool.not_true, Bool.or_self, Bool.false_eq_true, if_false, ne_eq,
    not_true_eq_false]
  exact ⟨_, hf⟩

end Sais

/-! ## 3. Failure and `AssertH(1003)` -/

/-- `s'` holds the sort of the block of `s`: nothing failed, `ptr` holds the rows of this block's
    suffix array, and `origPtr` is the row of rotation 0. -/
structure Current (env : SaisEnv) (s s' : SortState) : Prop where
  answered : ¬ env.Fails s.block s.nblock
  ptr : ∀ (k : Nat) (h : k < (rows (env.libsais (doubled s.block s.nblock)).2 s.nblock).length),
    s'.ptr k = (rows (env.libsais (doubled s.block s.nblock)).2 s.nblock)[k]
  row_nonneg : 0 ≤ s'.origPtr
  row_lt : s'.origPtr < (rows (env.libsais (doubled s.block s.nblock)).2 s.nblock).length
  row : s'.ptr s'.origPtr = 0

theorem bz2BlockSort_large (env : SaisEnv) {s : SortState} (hn : 10000 ≤ s.nblock) :
    bz2BlockSort env s =
      if (saisBwt env s.block s.ptr s.nblock s.origPtr).2 = -1 then .error (.assertH 1003)
      else .ok { s with
        ptr := (saisBwt env s.block s.ptr s.nblock s.origPtr).1
        origPtr := (saisBwt env s.block s.ptr s.nblock s.origPtr).2 } := by
  have hn' : ¬ s.nblock < 10000 := by omega
  unfold bz2BlockSort
  simp only [hn', if_false, assertH]
  by_cases h : (saisBwt env s.block s.ptr s.nblock s.origPtr).2 = -1
  · simp [h]
    rfl
  · simp [h]
    rfl

/-- **After a failure** the assertion tests the old value of `origPtr`. -/
theorem bz2BlockSort_of_fails {env : SaisEnv} {s : SortState} (hn : 10000 ≤ s.nblock)
    (hf : env.Fails s.block s.nblock) :
    bz2BlockSort env s = if s.origPtr = -1 then .error (.assertH 1003) else .ok s := by
  rw [bz2BlockSort_large env hn, saisBwt_of_fails hf]

/-- Without a failure, what is returned is the sort of this block. -/
theorem current_of_not_fails {env : SaisEnv} {s s' : SortState} (hn : 10000 ≤ s.nblock)
    (hf : ¬ env.Fails s.block s.nblock) (h : bz2BlockSort env s = .ok s') : Current env s s' := by
  rw [bz2BlockSort_large env hn] at h
  obtain ⟨j, hfill⟩ := saisBwt_of_not_fails hf s.ptr s.origPtr
  split at h
  · cases h
  · rename_i hne
    cases h
    rcases hfill.row with ⟨ho, _⟩ | ⟨ho, hlt, hz⟩
    · exact absurd ho hne
    · exact ⟨hf, hfill.ptr, ho, hlt, hz⟩

/-- **When a sort failure is not silent.** For a block of at least 10000 bytes: a failure fires
    assertion 1003, and whatever `BZ2_blockSort` returns is the sort of the current block, exactly
    when a failure finds `origPtr` at `-1` already. -/
theorem failure_halts_iff (env : SaisEnv) (s : SortState) (hn : 10000 ≤ s.nblock) :
    ((env.Fails s.block s.nblock → bz2BlockSort env s = .error (.assertH 1003)) ∧
      ∀ s', bz2BlockSort env s = .ok s' → Current env s s') ↔
    (¬ env.Fails s.block s.nblock ∨ s.origPtr = -1) := by
  constructor
  · rintro ⟨hhalt, _⟩
    by_cases hf : env.Fails s.block s.nblock
    · refine .inr (Classical.byContradiction fun ho => ?_)
      have h := hhalt hf
      rw [bz2BlockSort_of_fails hn hf, if_neg ho] at h
      cases h
    · exact .inl hf
  · intro hc
    refine ⟨fun hf => ?_, fun s' h => ?_⟩
    · rcases hc with hc | ho
      · exact absurd hf hc
      · rw [bz2BlockSort_of_fails hn hf, if_pos ho]
    · by_cases hf : env.Fails s.block s.nblock
      · rcases hc with hc | ho
        · exact absurd hf hc
        · rw [bz2BlockSort_of_fails hn hf, if_pos ho] at h
          cases h
      · exact current_of_not_fails hn hf h

/-- The second block of a stream: `origPtr` is 0 from the first, `malloc` of `SA` fails. -/
def staleEnv : SaisEnv := ⟨true, false, fun _ => (0, .ofFn fun _ => 0)⟩

/-- A block of 10000 zero bytes, with the `ptr` and `origPtr` of an earlier one. -/
def staleState : SortState := ⟨.ofFn fun i => i, .ofFn fun _ => 0, .ofFn fun _ => 0, 10000, 0⟩

theorem failure_halts_iff_stale :
    ¬ ((staleEnv.Fails staleState.block staleState.nblock →
        bz2BlockSort staleEnv staleState = .error (.assertH 1003)) ∧
      ∀ s', bz2BlockSort staleEnv staleState = .ok s' → Current staleEnv staleState s') := by
  rw [failure_halts_iff staleEnv staleState (by decide)]
  rintro (h | h)
  · exact h (.inr (.inl rfl))
  · exact absurd h (by decide)

/-- The failed sort returns to `BZ2_compressBlock` with the earlier block's `ptr` and `origPtr`. -/
theorem blockSort_silent_failure :
    10000 ≤ staleState.nblock ∧ staleEnv.Fails staleState.block staleState.nblock ∧
      bz2BlockSort staleEnv staleState = .ok staleState := by
  have hf : staleEnv.Fails staleState.block staleState.nblock := .inr (.inl rfl)
  exact ⟨by decide, hf, by rw [bz2BlockSort_of_fails (by decide) hf, if_neg (by decide)]⟩

end Qbz2
