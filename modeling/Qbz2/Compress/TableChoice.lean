/-
  File:      Qbz2/Compress/TableChoice.lean
  Subject:   The two paths of `sendMTFValues` over a group: unrolled for 50 symbols and six tables,
             general for all others.

  * `chooseTableGeneral`, `iterationGeneral`, `dataWritesGeneral` -- the loops with the general path
    only;
  * `Short len` -- no length above 20; the costs then stay below `2^16`, and a word of two costs is
    the two of them side by side (`packedCost_toNat`);
  * `iteration_short` -- a refinement keeps the lengths short, whatever it is done on;
  * **`unrolled_eq_general`**.
-/
import Qbz2.Compress.Sent

namespace Qbz2

open Loop (forUpto forTry)

/-! ## 1. The general path alone -/

/-- One group, its costs taken table by table and its symbols counted in the loop. -/
def chooseTableGeneral (nGroups : Nat) (len : List (Cells Nat)) (s : List Byte × List (Cells Nat))
    (grp : List Nat) : List Byte × List (Cells Nat) :=
  let bt := (pickTable (generalCosts nGroups len grp)).2
  (s.1 ++ [BitVec.ofInt 8 bt], s.2.set bt.toNat (countGroup grp (rowAt s.2 bt.toNat)))

/-- One refinement by the general path. -/
def iterationGeneral (nGroups alphaSize : Nat) (groups : List (List Nat)) (len : List (Cells Nat)) :
    HuffRun (List Byte × List (Cells Nat)) := do
  let (selector, rfreq) :=
    groups.foldl (chooseTableGeneral nGroups len) ([], List.replicate nGroups zeros)
  let len ← remakeLengths alphaSize rfreq 0 (len.take nGroups)
  .ok (selector, len)

/-- The refinements by the general path. -/
def iterationsGeneral (nGroups alphaSize : Nat) (groups : List (List Nat)) :
    Nat → List Byte × List (Cells Nat) → HuffRun (List Byte × List (Cells Nat))
  | 0, s => .ok s
  | n + 1, s => do
    let s ← iterationGeneral nGroups alphaSize groups s.2
    iterationsGeneral nGroups alphaSize groups n s

/-- The compressed data, every group in the general loop. -/
def dataWritesGeneral (nGroups : Nat) (len code : List (Cells Nat)) :
    List (List Nat) → List Byte → HuffRun (List (Nat × Word32) × Nat)
  | [], _ => .ok ([], 0)
  | grp :: groups, selector => do
    let sel := (selector.getD 0 0).toNat
    huffAssert (decide (sel < nGroups)) 3006
    let (writes, selCtr) ← dataWritesGeneral nGroups len code groups (selector.drop 1)
    .ok ((grp.map fun v : Nat => (rowAt len sel v, BitVec.ofNat 32 (rowAt code sel v))) ++ writes,
      selCtr + 1)

/-! ## 2. Two costs in a word -/

/-- What the symbols of a group cost in a table. -/
def costSum (row : Cells Nat) (grp : List Nat) : Nat := (grp.map fun v : Nat => row v).sum

theorem costSum_cons (row : Cells Nat) (v : Nat) (grp : List Nat) :
    costSum row (v :: grp) = row v + costSum row grp := rfl

theorem costSum_le {row : Cells Nat} {grp : List Nat} (h : ∀ v ∈ grp, row v ≤ 20) :
    costSum row grp ≤ 20 * grp.length := by
  induction grp with
  | nil => exact Nat.le_refl 0
  | cons v grp ih =>
    have h1 := h v List.mem_cons_self
    have h2 := ih fun u hu => h u (List.mem_cons_of_mem _ hu)
    rw [costSum_cons, List.length_cons]
    omega

/-- The first `m` symbols, by their indices. -/
theorem range_getD_take {grp : List Nat} {m : Nat} (h : m ≤ grp.length) :
    (List.range m).map (fun nn => grp.getD nn 0) = grp.take m := by
  refine List.ext_getElem (by rw [List.length_map, List.length_range, List.length_take]; omega)
    fun i h₁ h₂ => ?_
  rw [List.length_map, List.length_range] at h₁
  rw [List.getElem_map, List.getElem_range, List.getD_eq_getElem _ _ (by omega), List.getElem_take]

/-- Two lengths in one word. -/
theorem lenPack_eq {len : List (Cells Nat)} {v k : Nat} (hlo : rowAt len (2 * k) v ≤ 20)
    (hhi : rowAt len (2 * k + 1) v ≤ 20) :
    lenPack len v k =
      BitVec.ofNat 32 (65536 * rowAt len (2 * k + 1) v + rowAt len (2 * k) v) := by
  unfold lenPack
  generalize rowAt len (2 * k) v = lo at hlo
  generalize rowAt len (2 * k + 1) v = hi at hhi
  apply BitVec.eq_of_toNat_eq
  rw [BitVec.toNat_or, BitVec.toNat_shiftLeft, BitVec.toNat_ofNat, BitVec.toNat_ofNat,
    BitVec.toNat_ofNat, Nat.mod_eq_of_lt (by omega : hi < 2 ^ 32),
    Nat.mod_eq_of_lt (by omega : lo < 2 ^ 32), Nat.shiftLeft_eq, Nat.mul_comm hi,
    Nat.mod_eq_of_lt (by omega : 2 ^ 16 * hi < 2 ^ 32),
    Nat.mod_eq_of_lt (by omega : 65536 * hi + lo < 2 ^ 32),
    ← Nat.two_pow_add_eq_or_of_lt (by omega : lo < 2 ^ 16)]

/-- The word of two costs, over any symbols. -/
theorem packed_fold {len : List (Cells Nat)} {k : Nat} : ∀ (grp : List Nat) (c : Nat),
    (∀ v ∈ grp, rowAt len (2 * k) v ≤ 20 ∧ rowAt len (2 * k + 1) v ≤ 20) →
    grp.foldl (fun (c : Word32) v => c + lenPack len v k) (BitVec.ofNat 32 c) =
      BitVec.ofNat 32 (c + (65536 * costSum (rowAt len (2 * k + 1)) grp +
        costSum (rowAt len (2 * k)) grp)) := by
  intro grp
  induction grp with
  | nil => exact fun c _ => rfl
  | cons v grp ih =>
    intro c h
    obtain ⟨hlo, hhi⟩ := h v List.mem_cons_self
    rw [List.foldl_cons, lenPack_eq hlo hhi, ← BitVec.ofNat_add,
      ih _ fun u hu => h u (List.mem_cons_of_mem _ hu), costSum_cons, costSum_cons]
    congr 1
    omega

/-- **No carry**: after any number of symbols of a group the word holds both costs, each below
    `2^16`. -/
theorem packedCost_toNat {len : List (Cells Nat)} {grp : List Nat} (h50 : 50 = grp.length)
    {k m : Nat} (hm : m ≤ 50)
    (h : ∀ v ∈ grp, rowAt len (2 * k) v ≤ 20 ∧ rowAt len (2 * k + 1) v ≤ 20) :
    (List.range m).foldl (fun (c : Word32) nn => c + lenPack len (grp.getD nn 0) k) 0 =
      BitVec.ofNat 32 (65536 * costSum (rowAt len (2 * k + 1)) (grp.take m) +
        costSum (rowAt len (2 * k)) (grp.take m)) ∧
    costSum (rowAt len (2 * k + 1)) (grp.take m) < 65536 ∧
    costSum (rowAt len (2 * k)) (grp.take m) < 65536 := by
  have htake : ∀ v ∈ grp.take m, rowAt len (2 * k) v ≤ 20 ∧ rowAt len (2 * k + 1) v ≤ 20 :=
    fun v hv => h v (List.mem_of_mem_take hv)
  have hlen : (grp.take m).length ≤ 50 := by rw [List.length_take]; omega
  have hlo := costSum_le fun v hv => (htake v hv).1
  have hhi := costSum_le fun v hv => (htake v hv).2
  refine ⟨?_, by omega, by omega⟩
  have hfold := packed_fold (grp.take m) 0 htake
  rw [Nat.zero_add, ← range_getD_take (by omega : m ≤ grp.length), List.foldl_map] at hfold
  rw [← range_getD_take (by omega : m ≤ grp.length)]
  exact hfold

/-- The costs of the general path. -/
theorem general_fold (row : Cells Nat) : ∀ (grp : List Nat) (c : Nat),
    grp.foldl (fun (c : BitVec 16) (icv : Nat) => c + BitVec.ofNat 16 (row icv)) (BitVec.ofNat 16 c) =
      BitVec.ofNat 16 (c + costSum row grp) := by
  intro grp
  induction grp with
  | nil => exact fun c => rfl
  | cons v grp ih =>
    intro c
    rw [List.foldl_cons, ← BitVec.ofNat_add, ih, costSum_cons, Nat.add_assoc]

/-- The halves of a word of two costs. -/
theorem halves_eq {hi lo : Nat} (hhi : hi < 65536) (hlo : lo < 65536) :
    (BitVec.ofNat 32 (65536 * hi + lo) &&& 0xffff).setWidth 16 = BitVec.ofNat 16 lo ∧
    (BitVec.ofNat 32 (65536 * hi + lo) >>> 16).setWidth 16 = BitVec.ofNat 16 hi := by
  have hmask : (0xffff : Word32).toNat = 2 ^ 16 - 1 := rfl
  have hword : (BitVec.ofNat 32 (65536 * hi + lo)).toNat = 65536 * hi + lo := by
    rw [BitVec.toNat_ofNat, Nat.mod_eq_of_lt (by omega)]
  constructor
  · apply BitVec.eq_of_toNat_eq
    rw [BitVec.toNat_setWidth, BitVec.toNat_and, hword, hmask, Nat.and_two_pow_sub_one_eq_mod,
      BitVec.toNat_ofNat]
    omega
  · apply BitVec.eq_of_toNat_eq
    rw [BitVec.toNat_setWidth, BitVec.toNat_ushiftRight, hword, Nat.shiftRight_eq_div_pow,
      BitVec.toNat_ofNat]
    omega

/-- **The six costs are the same.** -/
theorem packedCosts_eq {len : List (Cells Nat)} {grp : List Nat} (h50 : 50 = grp.length)
    (h : ∀ t < 6, ∀ v ∈ grp, rowAt len t v ≤ 20) : packedCosts len grp = generalCosts 6 len grp := by
  have hpair : ∀ k, k < 3 → ∀ v ∈ grp, rowAt len (2 * k) v ≤ 20 ∧ rowAt len (2 * k + 1) v ≤ 20 :=
    fun k hk v hv => ⟨h _ (by omega) v hv, h _ (by omega) v hv⟩
  have hall : grp.take 50 = grp := List.take_of_length_le (by omega)
  have hcost : ∀ k, k < 3 →
      (((List.range 50).foldl (fun (c : Word32) nn => c + lenPack len (grp.getD nn 0) k) 0 &&&
        0xffff).setWidth 16 = BitVec.ofNat 16 (costSum (rowAt len (2 * k)) grp)) ∧
      (((List.range 50).foldl (fun (c : Word32) nn => c + lenPack len (grp.getD nn 0) k) 0 >>>
        16).setWidth 16 = BitVec.ofNat 16 (costSum (rowAt len (2 * k + 1)) grp)) := by
    intro k hk
    obtain ⟨he, hhi, hlo⟩ := packedCost_toNat h50 (Nat.le_refl 50) (hpair k hk)
    rw [hall] at he hhi hlo
    rw [he]
    exact halves_eq hhi hlo
  have hgeneral : ∀ t, grp.foldl (fun (c : BitVec 16) (icv : Nat) =>
      c + BitVec.ofNat 16 (rowAt len t icv)) 0 = BitVec.ofNat 16 (costSum (rowAt len t) grp) := by
    intro t
    have := general_fold (rowAt len t) grp 0
    rw [Nat.zero_add] at this
    exact this
  unfold packedCosts generalCosts
  dsimp only
  rw [(hcost 0 (by decide)).1, (hcost 0 (by decide)).2, (hcost 1 (by decide)).1,
    (hcost 1 (by decide)).2, (hcost 2 (by decide)).1, (hcost 2 (by decide)).2]
  simp only [hgeneral]
  rfl

/-! ## 3. The choice -/

/-- **No length above 20.** -/
def Short (len : List (Cells Nat)) : Prop := ∀ row ∈ len, ∀ v : Nat, row v ≤ 20

theorem Short.rowAt {len : List (Cells Nat)} (h : Short len) (t v : Nat) : rowAt len t v ≤ 20 := by
  unfold Qbz2.rowAt
  by_cases ht : t < len.length
  · rw [List.getD_eq_getElem _ _ ht]
    exact h _ (List.getElem_mem ht) v
  · rw [List.getD_eq_default _ _ (by omega)]
    exact Nat.zero_le 20

theorem costs_short {len : List (Cells Nat)} (h : Short len) (nGroups : Nat) (grp : List Nat) :
    costs nGroups len grp = generalCosts nGroups len grp := by
  unfold costs
  split
  · rename_i h6
    rw [h6.1]
    exact packedCosts_eq h6.2 fun t _ v _ => h.rowAt t v
  · rfl

/-- The same table is chosen, and the same symbols are counted for it. -/
theorem chooseTable_short {len : List (Cells Nat)} (h : Short len) (nGroups : Nat)
    (s : List Byte × List (Cells Nat)) (grp : List Nat) :
    chooseTable nGroups len s grp = chooseTableGeneral nGroups len s grp := by
  unfold chooseTable chooseTableGeneral
  rw [costs_short h]
  dsimp only
  split
  · rename_i h6
    rw [countGroupUnrolled_eq h6.2]
  · rfl

theorem iteration_general {len : List (Cells Nat)} (h : Short len) (nGroups alphaSize : Nat)
    (groups : List (List Nat)) :
    iteration nGroups alphaSize groups len = iterationGeneral nGroups alphaSize groups len := by
  have hchoose : chooseTable nGroups len = chooseTableGeneral nGroups len :=
    funext fun s => funext fun grp => chooseTable_short h nGroups s grp
  unfold iteration iterationGeneral
  rw [hchoose]

/-! ## 4. The lengths stay short -/

/-- What a round does to the lengths: those past the alphabet stay, and where none was too long none
    is above 17. -/
theorem codeLengths_short {parent : Cells Int} {alphaSize : Nat} {len : Cells Nat}
    {s : Cells Nat × Bool} (he : codeLengths parent alphaSize 17 len = .ok s) :
    (∀ v : Nat, alphaSize ≤ v → s.1 v = len v) ∧
      (s.2 = false → ∀ v : Nat, v < alphaSize → s.1 v ≤ 17) := by
  unfold codeLengths at he
  induction alphaSize generalizing s with
  | zero =>
    cases he
    exact ⟨fun _ _ => rfl, fun _ v hv => absurd hv (Nat.not_lt_zero v)⟩
  | succ n ih =>
    rw [forTry] at he
    split at he
    · cases he
    · rename_i t ht
      obtain ⟨h1, h2⟩ := ih ht
      unfold setLength at he
      simp only [bind, Except.bind] at he
      split at he
      · cases he
      · rename_i j hj
        cases he
        refine ⟨fun v hv => ?_, fun hlong v hv => ?_⟩
        · rw [Cells.get_set_of_ne _ (by omega)]
          exact h1 v (by omega)
        · obtain ⟨hlong, hj17⟩ := Bool.or_eq_false_iff.mp hlong
          have hj17 := of_decide_eq_false hj17
          rw [Cells.get_set]
          split
          · omega
          · exact h2 hlong v (by omega)

/-- A round goes on with the lengths past the alphabet as they were, and ends with short ones. -/
theorem roundStep_short {alphaSize : Nat} {s : Rounds} (h : ∀ v : Nat, alphaSize ≤ v → s.len v ≤ 20)
    {r : Rounds ⊕ Cells Nat} (he : roundStep alphaSize 17 s = .ok r) :
    match r with
    | .inl s' => ∀ v : Nat, alphaSize ≤ v → s'.len v ≤ 20
    | .inr len => ∀ v : Nat, len v ≤ 20 := by
  unfold roundStep at he
  simp only [bind, Except.bind] at he
  split at he
  · cases he
  split at he
  · cases he
  split at he
  · cases he
  split at he
  · cases he
  split at he
  · cases he
  rename_i t ht
  obtain ⟨h1, h2⟩ := codeLengths_short ht
  split at he
  · rename_i hlong
    cases he
    intro v
    by_cases hv : v < alphaSize
    · exact Nat.le_trans (h2 (by simpa using hlong) v hv) (by decide)
    · rw [h1 v (by omega)]
      exact h v (by omega)
  · split at he
    · cases he
    · cases he
      intro v hv
      dsimp only
      rw [h1 v hv]
      exact h v hv

/-- **New lengths are short**, whatever the frequencies. -/
theorem hbMakeCodeLengths_short {heap weight : Cells Nat} {parent : Cells Int}
    {len freq len' : Cells Nat} {alphaSize : Nat} (h : ∀ v : Nat, len v ≤ 20)
    (he : hbMakeCodeLengths heap weight parent len freq alphaSize 17 = .ok len') :
    ∀ v : Nat, len' v ≤ 20 := by
  unfold hbMakeCodeLengths firstRound at he
  simp only [bind, Except.bind] at he
  split at he
  · cases he
  rename_i s hs
  split at hs
  · cases hs
  cases hs
  exact Loop.iter_inv (fun s : Rounds => ∀ v : Nat, alphaSize ≤ v → s.len v ≤ 20)
    (fun len : Cells Nat => ∀ v : Nat, len v ≤ 20)
    (fun s s' hs he => roundStep_short hs he) (fun s r hs he => roundStep_short hs he)
    _ _ _ (fun v _ => h v) he

theorem remakeLengths_short {alphaSize : Nat} {rfreq : List (Cells Nat)} : ∀ {rows : List (Cells Nat)}
    {t : Nat} {len : List (Cells Nat)}, Short rows →
    remakeLengths alphaSize rfreq t rows = .ok len → Short len := by
  intro rows
  induction rows with
  | nil =>
    intro t len _ he
    cases he
    exact nofun
  | cons row rows ih =>
    intro t len h he
    rw [remakeLengths] at he
    simp only [bind, Except.bind] at he
    split at he
    · cases he
    rename_i row' hrow
    split at he
    · cases he
    rename_i rows' hrows
    cases he
    intro r hr
    rcases List.mem_cons.mp hr with rfl | hr
    · exact hbMakeCodeLengths_short (h row List.mem_cons_self) hrow
    · exact ih (fun r hr => h r (List.mem_cons_of_mem _ hr)) hrows r hr

/-- **A refinement keeps the lengths short.** -/
theorem iteration_short {nGroups alphaSize : Nat} {groups : List (List Nat)} {len : List (Cells Nat)}
    (h : Short len) {s : List Byte × List (Cells Nat)}
    (he : iteration nGroups alphaSize groups len = .ok s) : Short s.2 := by
  unfold iteration at he
  dsimp only at he
  simp only [bind, Except.bind] at he
  split at he
  · cases he
  rename_i len' hlen
  cases he
  exact remakeLengths_short (fun row hr => h row (List.mem_of_mem_take hr)) hlen

theorem iterations_general {nGroups alphaSize : Nat} {groups : List (List Nat)} : ∀ (n : Nat)
    (s : List Byte × List (Cells Nat)), Short s.2 →
    iterations nGroups alphaSize groups n s = iterationsGeneral nGroups alphaSize groups n s ∧
      ∀ s', iterations nGroups alphaSize groups n s = .ok s' → Short s'.2 := by
  intro n
  induction n with
  | zero =>
    intro s h
    refine ⟨rfl, fun s' he => ?_⟩
    cases he
    exact h
  | succ n ih =>
    intro s h
    rw [iterations, iterationsGeneral, ← iteration_general h]
    cases he : iteration nGroups alphaSize groups s.2 with
    | error e => exact ⟨rfl, fun s' he' => by cases he'⟩
    | ok s₁ => exact ih s₁ (iteration_short h he)

/-- The first tables cost 0 or 15. -/
theorem seedRow_short (alphaSize : Nat) (gs ge : Int) {row : Cells Nat} (h : ∀ v : Nat, row v ≤ 20)
    (v : Nat) : seedRow alphaSize gs ge row v ≤ 20 := by
  unfold seedRow
  refine Loop.forUpto_inv (fun _ (row : Cells Nat) => row v ≤ 20) (h v) alphaSize
    fun i row _ hrow => ?_
  have hlesser : bzLesserIcost ≤ 20 := by decide
  have hgreater : bzGreaterIcost ≤ 20 := by decide
  rw [Cells.get_set]
  split
  · split
    · exact hlesser
    · exact hgreater
  · exact hrow

theorem seedLoop_short (mtfFreq : Cells Int) (alphaSize nGroups : Nat) : ∀ (n : Nat) (gs remF : Int)
    (len : List (Cells Nat)), Short len → Short (seedLoop mtfFreq alphaSize nGroups n gs remF len) := by
  intro n
  induction n with
  | zero => exact fun _ _ _ h => h
  | succ n ih =>
    intro gs remF len h
    unfold seedLoop
    dsimp only
    refine ih _ _ _ fun row hr v => ?_
    rcases List.mem_or_eq_of_mem_set hr with hr | rfl
    · exact h row hr v
    · exact seedRow_short alphaSize _ _ (h.rowAt n) v

/-! ## 5. Both paths -/

theorem dataWrites_general (nGroups : Nat) (len code : List (Cells Nat)) : ∀ (groups : List (List Nat))
    (selector : List Byte),
    dataWrites nGroups len code groups selector =
      dataWritesGeneral nGroups len code groups selector := by
  intro groups
  induction groups with
  | nil => exact fun _ => rfl
  | cons grp groups ih =>
    intro selector
    rw [dataWrites, dataWritesGeneral, ih]
    simp only [groupWrites_eq]

/-- **The unrolled path is the general one.** For tables of lengths up to 20 and any 50 symbols, the
    halves of the packed words are the six costs after each symbol, with no carry between them, and
    the choice and the counts are those of the general path; through all the refinements of any
    symbols, from the first tables on, the lengths stay that short, so that every refinement is one by
    the general path; and the calls of `bsW` are the same whatever the tables. -/
theorem unrolled_eq_general :
    (∀ (len : List (Cells Nat)) (grp : List Nat), 50 = grp.length →
      (∀ t < 6, ∀ v ∈ grp, rowAt len t v ≤ 20) →
      (∀ k < 3, ∀ m ≤ 50,
        (List.range m).foldl (fun (c : Word32) nn => c + lenPack len (grp.getD nn 0) k) 0 =
          BitVec.ofNat 32 (65536 * costSum (rowAt len (2 * k + 1)) (grp.take m) +
            costSum (rowAt len (2 * k)) (grp.take m)) ∧
        costSum (rowAt len (2 * k + 1)) (grp.take m) < 65536 ∧
        costSum (rowAt len (2 * k)) (grp.take m) < 65536) ∧
      packedCosts len grp = generalCosts 6 len grp ∧
      ∀ s, chooseTable 6 len s grp = chooseTableGeneral 6 len s grp) ∧
    (∀ (mtfv : List Nat) (mtfFreq : Cells Int) (alphaSize n : Nat),
      let nGroups := nGroupsFor mtfv.length
      let groups := groupsOf mtfv.length mtfv
      let seed := seedLoop mtfFreq alphaSize nGroups nGroups 0 mtfv.length
        (List.replicate bzNGroups (.ofFn fun _ => bzGreaterIcost))
      iterations nGroups alphaSize groups n ([], seed) =
          iterationsGeneral nGroups alphaSize groups n ([], seed) ∧
        ∀ s, iterations nGroups alphaSize groups n ([], seed) = .ok s →
          (∀ t, ∀ v : Nat, rowAt s.2 t v ≤ 20) ∧
          iteration nGroups alphaSize groups s.2 = iterationGeneral nGroups alphaSize groups s.2) ∧
    ∀ (nGroups : Nat) (len code : List (Cells Nat)) (groups : List (List Nat)) (selector : List Byte),
      dataWrites nGroups len code groups selector =
        dataWritesGeneral nGroups len code groups selector := by
  refine ⟨fun len grp h50 h => ⟨fun k hk m hm => ?_, packedCosts_eq h50 h, fun s => ?_⟩, ?_,
    dataWrites_general⟩
  · exact packedCost_toNat h50 hm fun v hv => ⟨h _ (by omega) v hv, h _ (by omega) v hv⟩
  · unfold chooseTable chooseTableGeneral costs
    dsimp only
    rw [if_pos ⟨rfl, h50⟩, if_pos ⟨rfl, h50⟩, packedCosts_eq h50 h, countGroupUnrolled_eq h50]
  · intro mtfv mtfFreq alphaSize n
    dsimp only
    have hstart : Short (List.replicate bzNGroups (.ofFn fun _ => bzGreaterIcost)) := by
      intro row hr v
      rw [List.eq_of_mem_replicate hr]
      exact (by decide : bzGreaterIcost ≤ 20)
    obtain ⟨he, hshort⟩ := @iterations_general (nGroupsFor mtfv.length) alphaSize
      (groupsOf mtfv.length mtfv) n ([], _)
      (seedLoop_short mtfFreq alphaSize (nGroupsFor mtfv.length) (nGroupsFor mtfv.length) 0 mtfv.length
        _ hstart)
    exact ⟨he, fun s hs => ⟨(hshort s hs).rowAt, iteration_general (hshort s hs) _ _ _⟩⟩

/-- Six tables of lengths from 1 to 20. -/
def sixTables : List (Cells Nat) :=
  (List.range 6).map fun t : Nat => .ofFn fun v => (7 * v.toNat + 3 * t) % 20 + 1

/-- A group of 50 symbols, all different. -/
theorem unrolled_eq_general_fifty :
    packedCosts sixTables (List.range 50) = [505, 535, 505, 535, 525, 535] ∧
    ∀ s, chooseTable 6 sixTables s (List.range 50) =
      chooseTableGeneral 6 sixTables s (List.range 50) := by
  obtain ⟨-, hcosts, hchoice⟩ := unrolled_eq_general.1 sixTables (List.range 50) rfl
    (by decide +kernel)
  exact ⟨hcosts.trans (by decide), hchoice⟩

end Qbz2
