/-
  File:      Qbz2/Compress/OptimalLengths.lean
  Subject:   The lengths `BZ2_hbMakeCodeLengths` returns cost the least, for the weights of its last
             round.

  * `Cheapest W alphaSize len` -- no uniquely decodable code makes symbols of weights `W` cost less;
  * `Measured.cheapest` -- the depths of a tree of the least cost are such lengths;
  * `roundStep_best` -- so are those of every round, and it goes on only if one of them is too long;
  * **`hbMakeCodeLengths_optimal`** -- the lengths are the cheapest for the frequencies, halved as
    often as the cheapest ones had a code of more than 17 bits: never, for fewer than 6765 symbols.
-/
import Mathlib.Logic.Function.Iterate
import Qbz2.Compress.CompleteCode
import Qbz2.Lib.OptimalCode

namespace Qbz2

open Loop Heap CodeTree InformationTheory

variable {lw : Nat → Nat} {alphaSize : Nat}

/-! ## 1. The cheapest lengths -/

/-- **Lengths of the least cost** for symbols of weights `W`: a code can have them, and with no other
    code that can be read back do the symbols cost less. -/
def Cheapest (W : Nat → Nat) (alphaSize : Nat) (len : Nat → Nat) : Prop :=
  Kraft ((List.range alphaSize).map len) ∧
  ∀ code : Nat → List Bool, Set.InjOn code (Finset.range alphaSize) →
    UniquelyDecodable (code '' (Finset.range alphaSize)) →
    ∑ i ∈ Finset.range alphaSize, W i * len i ≤ ∑ i ∈ Finset.range alphaSize, W i * (code i).length

/-- The symbols of a tree, in their order. -/
theorem leaves_map {β : Type} {t : CodeTree} (hparts : t.leaves.Perm (List.range' 1 alphaSize))
    (f : Nat → β) :
    (t.depths.map fun p => f p.1).Perm ((List.range alphaSize).map fun i => f (i + 1)) := by
  have hmap := hparts.map f
  rw [leaves, List.map_map, List.range'_eq_map_range, List.map_map] at hmap
  refine hmap.trans (List.Perm.of_eq (List.map_congr_left fun i _ => ?_))
  rw [Function.comp_apply, Nat.add_comm]

/-- **The depths of a tree of the least cost** are lengths of the least cost. -/
theorem Measured.cheapest {t : CodeTree} {s : Cells Nat × Bool} {maxLen : Nat}
    (h : Measured t.depths maxLen alphaSize s) (hparts : t.leaves.Perm (List.range' 1 alphaSize))
    (hneeds : Needs ((List.range' 1 alphaSize).map lw) (t.pathLength lw)) :
    Cheapest (fun i => lw (i + 1)) alphaSize fun i => s.1 i := by
  have hdepth : ∀ p ∈ t.depths, p.2 = s.1 ((p.1 - 1 : Nat) : Int) := fun p hp => h.depth_eq hparts hp
  have hlens : (t.depths.map Prod.snd).Perm ((List.range alphaSize).map fun i : Nat => s.1 i) := by
    refine List.Perm.trans (List.Perm.of_eq (List.map_congr_left hdepth)) ?_
    exact leaves_map hparts fun k => s.1 ((k - 1 : Nat) : Int)
  have hcost : t.pathLength lw = ∑ i ∈ Finset.range alphaSize, lw (i + 1) * s.1 i := by
    have hsum : ∑ i ∈ Finset.range alphaSize, lw (i + 1) * s.1 i =
        ((List.range alphaSize).map fun i : Nat => lw (i + 1) * s.1 i).sum := rfl
    have hperm := leaves_map hparts fun k => lw k * s.1 ((k - 1 : Nat) : Int)
    rw [hsum, pathLength, weighed, cost, List.map_map]
    refine Eq.trans (congrArg List.sum (List.map_congr_left fun p hp => ?_)) hperm.sum_nat
    rw [Function.comp_apply, hdepth p hp]
  refine ⟨(kraft_depths t).perm hlens, fun code hinj hcode => ?_⟩
  have hall := hneeds ((List.range alphaSize).map fun i => (lw (i + 1), (code i).length)) (by
    rw [List.map_map, List.range'_eq_map_range, List.map_map]
    refine List.Perm.of_eq (List.map_congr_left fun i _ => ?_)
    rw [Function.comp_apply, Function.comp_apply, Nat.add_comm]) (by
    rw [List.map_map]
    exact kraft_code hinj hcode)
  rw [hcost, cost, List.map_map] at hall
  exact hall

/-! ## 2. The rounds -/

/-- Joining the two lightest trees keeps a forest on the way to the least cost. -/
theorem best_keptByJoin (ws : List Nat) : KeptByJoin lw (Best lw ws) :=
  ⟨fun h hp => h.perm hp, fun h hab hb => h.join hab hb⟩

/-- **One round**: its lengths are the cheapest for its weights, and it goes on only if one of them is
    too long, with halved weights and a smaller sum. -/
theorem roundStep_best {s : Rounds} (hleaves : LeafWeights lw alphaSize s.weight)
    (hsum : totalWeight lw alphaSize ≤ maxTotal) (h2 : 2 ≤ alphaSize)
    (hα : alphaSize ≤ bzMaxAlphaSize) :
    (∃ s', roundStep alphaSize 17 s = .ok (.inl s') ∧ LeafWeights (halved lw) alphaSize s'.weight ∧
      totalWeight (halved lw) alphaSize < totalWeight lw alphaSize ∧
      6765 ≤ totalWeight lw alphaSize ∧
      ∃ ls, Cheapest (fun i => lw (i + 1)) alphaSize ls ∧ ∃ i < alphaSize, 17 < ls i) ∨
    ∃ len : Cells Nat, roundStep alphaSize 17 s = .ok (.inr len) ∧
      Cheapest (fun i => lw (i + 1)) alphaSize fun i => len i := by
  obtain ⟨t, len, tooLong, hbest, hparts, hheight, hmeas, hshort, hlong⟩ :=
    roundStep_tree (best_keptByJoin ((List.range' 1 alphaSize).map lw)) (Best.leaves _) hleaves hsum
      h2 hα
  have hcheap := hmeas.cheapest hparts hbest.tree
  cases tooLong with
  | false => exact .inr ⟨len, hshort rfl, hcheap⟩
  | true =>
    obtain ⟨s', he, hhalf⟩ := hlong rfl
    obtain ⟨hbig, hlt⟩ := totalWeight_halved_of_long hmeas rfl hheight hleaves.pos hα
    exact .inl ⟨s', he, hhalf, hlt, hbig, _, hcheap, hmeas.long rfl⟩

theorem totalWeight_eq (W : Nat → Nat) :
    totalWeight (fun k => W (k - 1)) alphaSize = ∑ i ∈ Finset.range alphaSize, W i := by
  unfold totalWeight
  rw [List.range'_eq_map_range, List.map_map]
  change _ = ((List.range alphaSize).map W).sum
  congr 1
  refine List.map_congr_left fun i _ => ?_
  rw [Function.comp_apply, Nat.add_sub_cancel_left]

/-- What holds between two rounds: the weights have been halved `n` times, each time because the
    cheapest lengths had one above 17. -/
structure Halved (W : Nat → Nat) (alphaSize n : Nat) (s : Rounds) : Prop where
  leaves : LeafWeights (fun k => (halved^[n] W) (k - 1)) alphaSize s.weight
  sum : totalWeight (fun k => (halved^[n] W) (k - 1)) alphaSize ≤ maxTotal
  long : ∀ k < n, ∃ ls, Cheapest (halved^[k] W) alphaSize ls ∧ ∃ i < alphaSize, 17 < ls i
  big : 0 < n → 6765 ≤ ∑ i ∈ Finset.range alphaSize, W i

/-- One round more. -/
theorem Halved.round {W : Nat → Nat} {n : Nat} {s : Rounds} (h : Halved W alphaSize n s)
    (h2 : 2 ≤ alphaSize) (hα : alphaSize ≤ bzMaxAlphaSize) :
    (∃ s', roundStep alphaSize 17 s = .ok (.inl s') ∧ Halved W alphaSize (n + 1) s' ∧
      totalWeight (wholeOf s'.weight) alphaSize < totalWeight (wholeOf s.weight) alphaSize) ∨
    ∃ len : Cells Nat, roundStep alphaSize 17 s = .ok (.inr len) ∧
      Cheapest (halved^[n] W) alphaSize fun i => len i := by
  have hsame := (RoundOk.of_leafWeights h.leaves h.sum).2
  rcases roundStep_best h.leaves h.sum h2 hα with ⟨s', he, hhalf, hlt, hbig, hlong⟩ | ⟨len, he, hcheap⟩
  · have hstep : halved^[n + 1] W = halved (halved^[n] W) := Function.iterate_succ_apply' _ _ _
    have hle := Nat.le_trans (Nat.le_of_lt hlt) h.sum
    refine .inl ⟨s', he, ⟨?_, ?_, fun k hk => ?_, fun _ => ?_⟩, ?_⟩
    · rw [hstep]
      exact hhalf
    · rw [hstep]
      exact hle
    · rcases Nat.lt_succ_iff_lt_or_eq.mp hk with hk | rfl
      · exact h.long k hk
      · exact hlong
    · cases n with
      | zero =>
        rw [totalWeight_eq] at hbig
        exact hbig
      | succ n => exact h.big (Nat.succ_pos n)
    · rw [(RoundOk.of_leafWeights hhalf hle).2, hsame]
      exact hlt
  · exact .inr ⟨len, he, hcheap⟩

/-- **The lengths are the cheapest a code can have**, for 3 to 258 symbols that occur 900001
    times or less together, each taken to occur once at least: for their frequencies, halved as
    often as the cheapest lengths for them had one above 17. For fewer than 6765 occurrences they
    are not halved. -/
theorem hbMakeCodeLengths_optimal (heap weight : Cells Nat) (parent : Cells Int)
    (len freq : Cells Nat) (alphaSize : Nat) (h3 : 3 ≤ alphaSize) (hα : alphaSize ≤ 258)
    (hsum : ∑ i ∈ Finset.range alphaSize, freq i ≤ 900001) :
    ∃ (len' : Cells Nat) (n : Nat),
      hbMakeCodeLengths heap weight parent len freq alphaSize 17 = .ok len' ∧
      Cheapest (halved^[n] (occurring freq)) alphaSize (fun i => len' i) ∧
      (∀ k < n, ∃ ls, Cheapest (halved^[k] (occurring freq)) alphaSize ls ∧
        ∃ i < alphaSize, 17 < ls i) ∧
      (∑ i ∈ Finset.range alphaSize, occurring freq i < 6765 → n = 0) := by
  obtain ⟨s₀, hs₀, hleaves, htotal⟩ := firstRound_leaves heap weight parent len freq hα hsum
  have hstart : Halved (occurring freq) alphaSize 0 s₀ :=
    ⟨hleaves, htotal, fun k hk => absurd hk (Nat.not_lt_zero k), fun h => absurd h (Nat.lt_irrefl 0)⟩
  have hmeasure : totalWeight (wholeOf s₀.weight) alphaSize < 2 ^ 24 := by
    rw [(RoundOk.of_leafWeights hleaves htotal).2]
    unfold maxTotal at htotal
    omega
  obtain ⟨len', hrun, n, s, hs, hcheap⟩ := iter_spec
    (fun s => ∃ n, Halved (occurring freq) alphaSize n s)
    (fun len' : Cells Nat => ∃ n s, Halved (occurring freq) alphaSize n s ∧
      Cheapest (halved^[n] (occurring freq)) alphaSize fun i => len' i)
    (fun s => totalWeight (wholeOf s.weight) alphaSize) (fun s ⟨n, hs⟩ => by
      rcases hs.round (by omega) hα with ⟨s', he, hs', hlt⟩ | ⟨len', he, hcheap⟩
      · exact .inl ⟨s', he, ⟨n + 1, hs'⟩, hlt⟩
      · exact .inr ⟨len', he, n, s, hs, hcheap⟩) (2 ^ 24) s₀ ⟨0, hstart⟩ hmeasure
  refine ⟨len', n, ?_, hcheap, hs.long, fun hsmall => ?_⟩
  · unfold hbMakeCodeLengths
    rw [hs₀, ok_bind]
    exact hrun
  · by_contra hne
    have := hs.big (Nat.pos_of_ne_zero hne)
    omega

/-- One bit for the last of twenty symbols, and one more for each before it. -/
def unaryCode (i : Nat) : List Bool := List.replicate (19 - i) true ++ if i = 0 then [] else [false]

theorem unaryCode_prefixFree : ∀ i < 20, ∀ j < 20, unaryCode i <+: unaryCode j → i = j := by
  decide +kernel

/-- Twenty symbols with the Fibonacci numbers for frequencies: the unary code, of 19 bits for the
    first, is cheaper than any of 17 bits. -/
theorem hbMakeCodeLengths_optimal_fibonacci : ∃ (len' : Cells Nat) (n : Nat),
    hbMakeCodeLengths (.ofFn fun _ => 7) (.ofFn fun _ => 7) (.ofFn fun _ => 7) (.ofFn fun _ => 0)
      fibonacciFreq 20 17 = .ok len' ∧ 0 < n ∧
    Cheapest (halved^[n] (occurring fibonacciFreq)) 20 fun i => len' i := by
  obtain ⟨len', n, hrun, hcheap, -, -⟩ := hbMakeCodeLengths_optimal (.ofFn fun _ => 7)
    (.ofFn fun _ => 7) (.ofFn fun _ => 7) (.ofFn fun _ => 0) fibonacciFreq 20 (by decide) (by decide)
    (by decide +kernel)
  refine ⟨len', n, hrun, Nat.pos_of_ne_zero ?_, hcheap⟩
  rintro rfl
  have hinj : Set.InjOn unaryCode (Finset.range 20) := by
    intro i hi j hj he
    rw [Finset.mem_coe, Finset.mem_range] at hi hj
    exact unaryCode_prefixFree i hi j hj (he ▸ List.prefix_refl _)
  have hcode : UniquelyDecodable (unaryCode '' (Finset.range 20)) := by
    refine uniquelyDecodable_of_prefixFree ?_ ?_
    · rintro ⟨i, hi, he⟩
      rw [Finset.mem_coe, Finset.mem_range] at hi
      exact (show ∀ i < 20, unaryCode i ≠ [] by decide +kernel) i hi he
    · rintro _ ⟨i, hi, rfl⟩ _ ⟨j, hj, rfl⟩ hp
      rw [Finset.mem_coe, Finset.mem_range] at hi hj
      rw [unaryCode_prefixFree i hi j hj hp]
  have hcost : (hbMakeCodeLengths (.ofFn fun _ => 7) (.ofFn fun _ => 7) (.ofFn fun _ => 7)
      (.ofFn fun _ => 0) fibonacciFreq 20 17).map (fun len' => decide
        (∑ i ∈ Finset.range 20, occurring fibonacciFreq i * len' i ≤
          ∑ i ∈ Finset.range 20, occurring fibonacciFreq i * (unaryCode i).length)) = .ok false := by
    decide +kernel
  rw [hrun] at hcost
  exact of_decide_eq_false (Except.ok.inj hcost) (hcheap.2 unaryCode hinj hcode)

end Qbz2
