/-
  File:      Qbz2/Decompress/Drain.lean
  Subject:   `unRLE_obuf_to_output_FAST` and `.._SMALL` as steps of the machine: whatever room there
             is, the bytes that go to the caller are those the machine emits.

  * `Gives strm strm' w` -- the caller has received `w`;
  * `emit_steps` -- a part of a run, and its CRC, given out at once or byte by byte;
  * `unRleSlow_sim`, `unRleFast_sim` -- the two routines; **`unRle_sim`** -- either of them always
    returns, at a state of the machine, and leaves no room unless the block has ended.
-/
import Qbz2.Decompress.Walk

namespace Qbz2

open Transducer

/-! ## 1. Bytes given out -/

/-- The stream after `w` has been written to it. -/
structure Gives (strm strm' : BzStream) (w : List Byte) : Prop where
  mem : strm'.mem = strm.mem
  nextIn : strm'.nextIn = strm.nextIn
  availIn : strm'.availIn = strm.availIn
  nextOut : strm'.nextOut = strm.nextOut + w.length
  out : strm'.out = strm.out ++ w
  availOut : strm'.availOut + w.length = strm.availOut

theorem Gives.refl (strm : BzStream) : Gives strm strm [] :=
  ⟨rfl, rfl, rfl, (Int.add_zero _).symm, (List.append_nil _).symm, rfl⟩

theorem Gives.trans {s s' s'' : BzStream} {w w' : List Byte} (h : Gives s s' w)
    (h' : Gives s' s'' w') : Gives s s'' (w ++ w') where
  mem := h'.mem.trans h.mem
  nextIn := h'.nextIn.trans h.nextIn
  availIn := h'.availIn.trans h.availIn
  nextOut := by
    have h1 := h.nextOut
    have h2 := h'.nextOut
    rw [List.length_append]
    push_cast
    omega
  out := by rw [h'.out, h.out, List.append_assoc]
  availOut := by
    have h1 := h.availOut
    have h2 := h'.availOut
    rw [List.length_append]
    omega

theorem gives_putByte (strm : BzStream) (b : Byte) (h : 0 < strm.availOut) :
    Gives strm (strm.putByte b) [b] :=
  ⟨rfl, rfl, rfl, rfl, rfl, by unfold BzStream.putByte; simp; omega⟩

theorem gives_putBytes (strm : BzStream) (bs : List Byte) (h : bs.length ≤ strm.availOut) :
    Gives strm (strm.putBytes bs) bs :=
  ⟨rfl, rfl, rfl, rfl, rfl, by unfold BzStream.putBytes; simp; omega⟩

section

variable {μ : Type} [MtfList μ] {small : Bool} {ver : Version} {c : Core μ} {t : List Bool}

/-- The machine giving out a block. -/
def Core.giving (c : Core μ) (o : Out) : Core μ × Point := ({ c with out := o }, .output)

theorem giving_emit (o : Out) (h : 0 < o.stateOutLen) :
    Steps (bitDecoder ver small) (c.giving o) t [o.stateOutCh] (c.giving o.emit) t := by
  refine .emit ?_ (.refl _ _)
  unfold Core.giving bitDecoder
  dsimp only
  rw [if_pos h]

theorem emit_iterate (n : Nat) (o : Out) : Out.emit^[n] o =
    { o with
      calculatedBlockCRC := crcFold o.calculatedBlockCRC (List.replicate n o.stateOutCh)
      stateOutLen := o.stateOutLen - n } := by
  induction n generalizing o with
  | zero => rfl
  | succ n ih =>
    rw [Function.iterate_succ_apply, ih]
    unfold Out.emit
    dsimp only
    rw [List.replicate_succ]
    congr 1
    omega

/-- **A part of a run.** -/
theorem emit_steps (n : Nat) (o : Out) (h : n ≤ o.stateOutLen) :
    Steps (bitDecoder ver small) (c.giving o) t (List.replicate n o.stateOutCh)
      (c.giving (Out.emit^[n] o)) t := by
  induction n generalizing o with
  | zero => exact .refl _ _
  | succ n ih =>
    rw [Function.iterate_succ_apply, List.replicate_succ]
    have hrest := ih o.emit (by unfold Out.emit; dsimp only; omega)
    exact (giving_emit o (by omega)).trans hrest

/-- How a drain ends: where the machine stands, and what the caller has got. A corrupt block may
    have been given out in part only. The two routines differ where the buffer is full: byte by byte
    what comes next is not looked at, and a corrupt block not noticed (`late`); with whole runs there
    is a byte left to give out (`held`). -/
structure Drained (ver : Version) (small : Bool) (c : Core μ) (t : List Bool) (o : Out)
    (strm : BzStream) (r : Bool × Out × BzStream) (w : List Byte) (o' : Out) : Prop where
  steps : Steps (bitDecoder ver small) (c.giving o) t w (c.giving o') t
  room : w.length ≤ strm.availOut
  gives : ∃ w', w' <+: w ∧ Gives strm r.2.2 w'
  corrupt : r.1 = true → o'.stateOutLen = 0 ∧ c.p.nblock + 1 < o'.nblockUsed
  fine : r.1 = false → r.2.1 = o' ∧ Gives strm r.2.2 w ∧
    (r.2.2.availOut = 0 ∨ o'.nblockUsed = c.p.nblock + 1 ∧ o'.stateOutLen = 0)
  late : (small || c.p.blockRandomised) = true → r.1 = true → w.length < strm.availOut
  held : (small || c.p.blockRandomised) = false → r.1 = false →
    ¬(o'.nblockUsed = c.p.nblock + 1 ∧ o'.stateOutLen = 0) → 0 < o'.stateOutLen

/-! ## 2. Byte by byte -/

theorem drainSlow_sim (ver : Version) (small : Bool) (c : Core μ) (t : List Bool) :
    ∀ (n : Nat) (o : Out) (strm : BzStream), strm.availOut = n →
    ∃ (full : Bool) (o' : Out) (strm' : BzStream) (w : List Byte),
      drainSlow n o strm = (full, o', strm') ∧
      Steps (bitDecoder ver small) (c.giving o) t w (c.giving o') t ∧ Gives strm strm' w ∧
      (full = true → strm'.availOut = 0) ∧
      (full = false → o'.stateOutLen = 0 ∧ 0 < strm'.availOut ∧ o'.nblockUsed = o.nblockUsed ∧
        (0 < o.stateOutLen → strm'.availOut < strm.availOut)) := by
  intro n
  induction n with
  | zero => exact fun o strm h => ⟨true, o, strm, [], rfl, .refl _ _, Gives.refl strm, fun _ => h,
      nofun⟩
  | succ n ih =>
    intro o strm h
    unfold drainSlow
    by_cases h0 : o.stateOutLen = 0
    · rw [if_pos h0]
      exact ⟨false, o, strm, [], rfl, .refl _ _, Gives.refl strm, nofun,
        fun _ => ⟨h0, by omega, rfl, fun hp => absurd h0 (Nat.ne_of_gt hp)⟩⟩
    · rw [if_neg h0]
      have hput := gives_putByte strm o.stateOutCh (by omega)
      have hroom := hput.availOut
      rw [List.length_singleton] at hroom
      obtain ⟨full, o', strm', w, he, hs, hg, hfull, hfree⟩ :=
        ih o.emit (strm.putByte o.stateOutCh) (by omega)
      have hroom' := hg.availOut
      refine ⟨full, o', strm', o.stateOutCh :: w, he, ?_, hput.trans hg, hfull, fun hf => ?_⟩
      · exact (giving_emit o (Nat.pos_of_ne_zero h0)).trans hs
      · obtain ⟨h1, h2, h3, -⟩ := hfree hf
        exact ⟨h1, h2, h3, fun _ => by omega⟩

/-- The machine fetches what the routine fetches. -/
theorem giving_fetch {o q : Out} (h0 : o.stateOutLen = 0) (hu : o.nblockUsed ≤ c.p.nblock)
    (hq : Core.fetch small { c with out := o } = some q) :
    Steps (bitDecoder ver small) (c.giving o) t [] (c.giving q) t := by
  refine .move ?_ (.refl _ _)
  unfold Core.giving bitDecoder
  dsimp only
  rw [if_neg (by omega), if_neg (by omega), if_neg (by omega), hq]

omit [MtfList μ] in
theorem giving_sane {o : Out} (h : Sane small (c.giving o)) (h0 : o.nblockUsed ≤ c.p.nblock) :
    ∃ q : Out, Core.fetch small { c with out := o } = some q ∧ 0 < q.stateOutLen ∧
      Sane small (c.giving q) := by
  obtain ⟨q, q', hq, hq', hpos, hB⟩ := fetch_twin (c := { c with out := o }) h h0
  obtain rfl : q = q' := Option.some.inj (hq.symm.trans hq')
  exact ⟨q, hq, hpos, hB⟩

theorem unRleSlowLoop_sim (hslow : (small || c.p.blockRandomised) = true) :
    ∀ (fuel : Nat) (o : Out) (strm : BzStream), Sane small (c.giving o) → 1 ≤ fuel →
    strm.availOut + (if o.stateOutLen = 0 then 1 else 0) ≤ fuel →
    ∃ (r : Bool × Out × BzStream) (w : List Byte) (o' : Out),
      unRleSlowLoop (c.env small) fuel o strm = some r ∧ Drained ver small c t o strm r w o' := by
  have hfast : ∀ {P : Prop}, (small || c.p.blockRandomised) = false → P :=
    fun h => nomatch hslow.symm.trans h
  intro fuel
  induction fuel with
  | zero => exact fun _ _ _ h => absurd h (by decide)
  | succ fuel ih =>
    intro o strm hS _ hfuel
    obtain ⟨full, o₁, strm₁, w₁, hd, hs₁, hg₁, hfull, hfree⟩ :=
      drainSlow_sim ver small c t strm.availOut o strm rfl
    have hS₁ : Sane small (c.giving o₁) := sane_steps hs₁ hS
    have hroom := hg₁.availOut
    unfold unRleSlowLoop
    rw [hd]
    cases full with
    | true =>
      exact ⟨_, w₁, o₁, rfl, hs₁, by omega, ⟨w₁, List.prefix_refl _, hg₁⟩, nofun,
        fun _ => ⟨rfl, hg₁, Or.inl (hfull rfl)⟩, fun _ => nofun, hfast⟩
    | false =>
      obtain ⟨h0, hpos, -, hless⟩ := hfree rfl
      have hn : (c.env small).nblock = c.p.nblock := rfl
      dsimp only
      rw [hn]
      by_cases hend : o₁.nblockUsed = c.p.nblock + 1
      · rw [if_pos hend]
        exact ⟨_, w₁, o₁, rfl, hs₁, by omega, ⟨w₁, List.prefix_refl _, hg₁⟩, nofun,
          fun _ => ⟨rfl, hg₁, Or.inr ⟨hend, h0⟩⟩, fun _ => nofun, hfast⟩
      rw [if_neg hend]
      by_cases hover : o₁.nblockUsed > c.p.nblock + 1
      · rw [if_pos hover]
        exact ⟨_, w₁, o₁, rfl, hs₁, by omega, ⟨w₁, List.prefix_refl _, hg₁⟩, fun _ => ⟨h0, hover⟩,
          nofun, fun _ _ => by omega, hfast⟩
      rw [if_neg hover]
      -- the next run
      obtain ⟨q, hq, hqpos, hSq⟩ := giving_sane hS₁ (by omega)
      have hfetch := @giving_fetch μ _ small ver c t _ _ h0 (by omega) hq
      have hslowq : fetchSlow (c.env small) o₁ = (false, q) :=
        fetchSlow_of_fetch (c := { c with out := o₁ }) hslow hq
      rw [hslowq]
      dsimp only
      have hfuel' : strm₁.availOut ≤ fuel := by
        by_cases hl : o.stateOutLen = 0
        · rw [if_pos hl] at hfuel
          omega
        · have := hless (Nat.pos_of_ne_zero hl)
          omega
      obtain ⟨r, w₂, o', he, hD⟩ := ih q strm₁ hSq (by omega) (by
        rw [if_neg (Nat.ne_of_gt hqpos)]
        exact hfuel')
      refine ⟨r, w₁ ++ w₂, o', he, ?_, ?_, ?_, hD.corrupt, fun h => ?_, fun _ h => ?_, hfast⟩
      · exact hs₁.trans (hfetch.trans hD.steps)
      · have := hD.room
        rw [List.length_append]
        omega
      · obtain ⟨w', hw', hg'⟩ := hD.gives
        exact ⟨w₁ ++ w', (List.prefix_append_right_inj w₁).mpr hw', hg₁.trans hg'⟩
      · obtain ⟨h1, h2, h3⟩ := hD.fine h
        exact ⟨h1, hg₁.trans h2, h3⟩
      · have := hD.late hslow h
        rw [List.length_append]
        omega

end

/-! ## 3. Whole runs -/

/-- `k` bytes of the run stored. -/
def Cached.gave (x : Cached) (k : Nat) : Cached :=
  ⟨Out.emit^[k] x.o, x.written ++ List.replicate k x.o.stateOutCh, x.avail - k⟩

theorem gave_fields (x : Cached) (k : Nat) :
    (x.gave k).o.stateOutLen = x.o.stateOutLen - k ∧ (x.gave k).o.stateOutCh = x.o.stateOutCh ∧
      (x.gave k).avail = x.avail - k := by
  unfold Cached.gave
  rw [emit_iterate]
  exact ⟨rfl, rfl, rfl⟩

theorem gave_add (x : Cached) (j k : Nat) : (x.gave j).gave k = x.gave (j + k) := by
  have hch := (gave_fields x j).2.1
  unfold Cached.gave at hch ⊢
  dsimp only at hch ⊢
  rw [hch, List.append_assoc, List.replicate_append_replicate, Nat.sub_sub, Nat.add_comm j k,
    Function.iterate_add_apply, Nat.add_comm k j]

theorem batch_eq [Build] (nextOut : Int) (x : Cached) (n : Nat) : x.batch nextOut n = x.gave n := by
  unfold Cached.batch Cached.gave
  dsimp only
  rw [bz2Crc32Update_eq, emit_iterate]

theorem one_eq (x : Cached) :
    ({ x.one with o := { x.one.o with stateOutLen := x.one.o.stateOutLen - 1 } } : Cached) =
      x.gave 1 := rfl

/-- **The inner loop**: as much of the run as there is room for, but its last byte. -/
theorem fastRun_spec [Build] (ver : Version) (nextOut : Int) : ∀ (fuel : Nat) (x : Cached),
    0 < x.o.stateOutLen → x.avail < fuel →
    ∃ (k : Nat) (full : Bool), fastRun ver nextOut fuel x = some (full, x.gave k) ∧
      k ≤ x.avail ∧ k < x.o.stateOutLen ∧ (full = true → k = x.avail) ∧
      (full = false → x.o.stateOutLen = k + 1 ∧ k < x.avail) := by
  intro fuel
  induction fuel with
  | zero => exact fun _ _ h => absurd h (Nat.not_lt_zero _)
  | succ fuel ih =>
    intro x hpos hfuel
    have h0 : x.gave 0 = x := by
      unfold Cached.gave
      rw [Function.iterate_zero_apply, List.replicate_zero, List.append_nil, Nat.sub_zero]
    unfold fastRun
    by_cases ha : x.avail = 0
    · rw [if_pos ha]
      exact ⟨0, true, by rw [h0], Nat.zero_le _, hpos, fun _ => ha.symm, nofun⟩
    rw [if_neg ha]
    by_cases h1 : x.o.stateOutLen = 1
    · rw [if_pos h1]
      exact ⟨0, false, by rw [h0], Nat.zero_le _, hpos, nofun, fun _ => ⟨h1, by omega⟩⟩
    rw [if_neg h1]
    -- some bytes of the run, whichever way they are stored
    have step : ∀ n, 0 < n → n ≤ x.avail → n < x.o.stateOutLen →
        ∃ (k : Nat) (full : Bool), fastRun ver nextOut fuel (x.gave n) = some (full, x.gave k) ∧
          k ≤ x.avail ∧ k < x.o.stateOutLen ∧ (full = true → k = x.avail) ∧
          (full = false → x.o.stateOutLen = k + 1 ∧ k < x.avail) := by
      intro n hn hna hnl
      obtain ⟨hl, -, hav⟩ := gave_fields x n
      obtain ⟨k, full, he, hk, hkl, hfull, hfree⟩ := ih (x.gave n) (by omega) (by omega)
      rw [gave_add] at he
      refine ⟨n + k, full, he, by omega, by omega, fun h => ?_, fun h => ?_⟩
      · have := hfull h
        omega
      · have := hfree h
        omega
    cases ver with
    | qbz2 =>
      dsimp only
      rw [batch_eq]
      by_cases hgt : x.o.stateOutLen - 1 > x.avail
      · rw [if_pos hgt]
        exact step _ (by omega) (Nat.le_refl _) (by omega)
      · rw [if_neg hgt]
        exact step _ (by omega) (by omega) (by omega)
    | reference =>
      dsimp only
      rw [one_eq]
      exact step 1 Nat.one_pos (by omega) (by omega)

/-- What the length of the last run was plays no part in fetching the next. -/
theorem fetchFast_len (e : OutEnv) (o : Out) (y : Nat) :
    fetchFast e { o with stateOutLen := y } =
      match fetchFast e o with
      | .eqOne o => .eqOne { o with stateOutLen := y }
      | r => r := by
  have hget := get_len (e := e) (o := { o with stateOutCh := o.k0 }) y
  dsimp only at hget
  unfold fetchFast
  dsimp only
  by_cases hover : o.nblockUsed > e.nblock + 1
  · rw [if_pos hover, if_pos hover]
  rw [if_neg hover, if_neg hover]
  by_cases hend : o.nblockUsed = e.nblock + 1
  · rw [if_pos hend, if_pos hend]
  rw [if_neg hend, if_neg hend, hget]
  cases Out.get e { o with stateOutCh := o.k0 } with
  | none => rfl
  | some r =>
    obtain ⟨k1, q⟩ := r
    dsimp only [Option.map_some]
    by_cases hne : k1 ≠ q.k0
    · rw [if_pos hne, if_pos hne]
    rw [if_neg hne, if_neg hne]
    by_cases hq : q.nblockUsed = e.nblock + 1
    · rw [if_pos hq, if_pos hq]
    rw [if_neg hq, if_neg hq]
    -- from here on the length is set anew
    repeat' first | rfl | split

/-- From the end of a run on. -/
def fastNext [Build] (ver : Version) (e : OutEnv) (nextOut : Int) (fuel : Nat) (x : Cached) :
    Option FastEnd :=
  match fetchFast e x.o with
  | .corrupt => some .corrupt
  | .notr o => some (.notr { x with o })
  | .eqOne o => unRleFastLoop ver e nextOut fuel true { x with o }
  | .top o => unRleFastLoop ver e nextOut fuel false { x with o }

section

variable [Build] (ver : Version) (e : OutEnv) (nextOut : Int) (fuel : Nat) (x : Cached)

theorem fastLoop_eqOne : unRleFastLoop ver e nextOut (fuel + 1) true x =
    if x.avail = 0 then some (.notr { x with o := { x.o with stateOutLen := 1 } })
    else fastNext ver e nextOut fuel x.one := by
  unfold unRleFastLoop
  by_cases h : x.avail = 0
  · simp [h]
  · simp [h]
    rfl

theorem fastLoop_noRun (h : x.o.stateOutLen = 0) :
    unRleFastLoop ver e nextOut (fuel + 1) false x = fastNext ver e nextOut fuel x := by
  unfold unRleFastLoop
  simp [h]
  rfl

theorem fastLoop_run (h : 0 < x.o.stateOutLen) :
    unRleFastLoop ver e nextOut (fuel + 1) false x =
      (fastRun ver nextOut (x.avail + 1) x).bind fun
        | (true, y) => some (.notr y)
        | (false, y) =>
          if 0 < y.o.stateOutLen ∧ y.avail = 0 then
            some (.notr { y with o := { y.o with stateOutLen := 1 } })
          else
            fastNext ver e nextOut fuel (if 0 < y.o.stateOutLen then y.one else y) := by
  conv_lhs => unfold unRleFastLoop
  rw [if_neg (by decide), if_pos h]
  cases fastRun ver nextOut (x.avail + 1) x with
  | none => rfl
  | some r =>
    obtain ⟨full, y⟩ := r
    cases full with
    | true => rfl
    | false =>
      simp only [Bool.false_or, Option.bind_some, Option.bind_eq_bind, Bool.and_eq_true,
        decide_eq_true_eq, gt_iff_lt]
      rfl

end

section

variable {μ : Type} [MtfList μ] [Build] {small : Bool} {ver : Version} {c : Core μ} {t : List Bool}

/-- The output state the machine has, the length of a single byte not being kept up to date. -/
def Cached.real (eqOne : Bool) (x : Cached) : Out :=
  if eqOne then { x.o with stateOutLen := 1 } else x.o

/-- How the fast routine ends, and the machine beside it. -/
def FastDrained (ver : Version) (small : Bool) (c : Core μ) (t : List Bool) (o : Out) (x : Cached)
    (r : FastEnd) : Prop :=
  ∃ (w : List Byte) (o' : Out), Steps (bitDecoder ver small) (c.giving o) t w (c.giving o') t ∧
    w.length ≤ x.avail ∧
    match r with
    | .corrupt => o'.stateOutLen = 0 ∧ c.p.nblock + 1 < o'.nblockUsed
    | .notr y => y.o = o' ∧ y.written = x.written ++ w ∧ y.avail + w.length = x.avail ∧
      (y.avail = 0 ∧ 0 < o'.stateOutLen ∨ o'.nblockUsed = c.p.nblock + 1 ∧ o'.stateOutLen = 0)

omit [Build] in
theorem FastDrained.after {o o₁ : Out} {x y : Cached} {r : FastEnd} {w : List Byte}
    (hs : Steps (bitDecoder ver small) (c.giving o) t w (c.giving o₁) t)
    (hw : y.written = x.written ++ w) (ha : y.avail + w.length = x.avail)
    (h : FastDrained ver small c t o₁ y r) : FastDrained ver small c t o x r := by
  obtain ⟨w', o', hs', hle, hr⟩ := h
  refine ⟨w ++ w', o', hs.trans hs', by rw [List.length_append]; omega, ?_⟩
  cases r with
  | corrupt => exact hr
  | notr z =>
    obtain ⟨h1, h2, h3, h4⟩ := hr
    refine ⟨h1, by rw [h2, hw, List.append_assoc], by rw [List.length_append]; omega, h4⟩

/-- The routine, with so much fuel, returns as the machine does. -/
def FastSim (ver : Version) (small : Bool) (c : Core μ) (t : List Bool) (nextOut : Int)
    (fuel : Nat) : Prop :=
  ∀ (eqOne : Bool) (x : Cached), Sane small (c.giving (x.real eqOne)) →
    x.avail + 1 + (if (x.real eqOne).stateOutLen = 0 then 1 else 0) ≤ fuel →
    ∃ r, unRleFastLoop ver (c.env small) nextOut fuel eqOne x = some r ∧
      FastDrained ver small c t (x.real eqOne) x r

variable {nextOut : Int} {fuel : Nat}

/-- Between two runs. -/
theorem FastSim.next (ih : FastSim ver small c t nextOut fuel)
    (hfast : (small || c.p.blockRandomised) = false) (x : Cached)
    (hS : Sane small (c.giving { x.o with stateOutLen := 0 })) (hfuel : x.avail + 1 ≤ fuel) :
    ∃ r, fastNext ver (c.env small) nextOut fuel x = some r ∧
      FastDrained ver small c t { x.o with stateOutLen := 0 } x r := by
  have hn : (c.env small).nblock = c.p.nblock := rfl
  by_cases hover : x.o.nblockUsed > c.p.nblock + 1
  · refine ⟨.corrupt, ?_, [], _, .refl _ _, Nat.zero_le _, rfl, hover⟩
    unfold fastNext fetchFast
    rw [hn, if_pos hover]
  by_cases hend : x.o.nblockUsed = c.p.nblock + 1
  · refine ⟨.notr { x with o := { x.o with stateOutLen := 0 } }, ?_, [], _, .refl _ _,
      Nat.zero_le _, rfl, (List.append_nil _).symm, rfl, Or.inr ⟨hend, rfl⟩⟩
    unfold fastNext fetchFast
    rw [hn, if_neg hover, if_pos hend]
  have hu : x.o.nblockUsed ≤ c.p.nblock := by omega
  obtain ⟨q, hq, hqpos, hSq⟩ := giving_sane hS hu
  have hfetch := @giving_fetch μ _ small ver c t { x.o with stateOutLen := 0 } _ rfl hu hq
  rw [fetch_eq, if_neg (by rw [show ({ c with out := { x.o with stateOutLen := 0 } } :
    Core μ).p = c.p from rfl, hfast]; decide)] at hq
  have hq' : fastRunOf (c.env small) { x.o with stateOutLen := 0 } = some q := hq
  unfold fastRunOf at hq'
  rw [fetchFast_len] at hq'
  unfold fastNext
  cases hf : fetchFast (c.env small) x.o with
  | corrupt =>
    rw [hf] at hq'
    cases hq'
  | notr o =>
    rw [hf] at hq'
    cases hq'
  | eqOne o =>
    rw [hf] at hq'
    obtain rfl : ({ o with stateOutLen := 1 } : Out) = q := Option.some.inj hq'
    obtain ⟨r, he, hr⟩ := ih true { x with o := o } hSq (by
      rw [show (Cached.real true { x with o := o }).stateOutLen = 1 from rfl, if_neg (by decide)]
      exact hfuel)
    exact ⟨r, he, hr.after hfetch (List.append_nil _).symm rfl⟩
  | top o =>
    rw [hf] at hq'
    obtain rfl : o = q := Option.some.inj hq'
    obtain ⟨r, he, hr⟩ := ih false { x with o := o } hSq (by
      rw [show (Cached.real false { x with o := o }).stateOutLen = o.stateOutLen from rfl,
        if_neg (Nat.ne_of_gt hqpos)]
      exact hfuel)
    exact ⟨r, he, hr.after hfetch (List.append_nil _).symm rfl⟩

/-- The last byte of a run. -/
theorem FastSim.one (ih : FastSim ver small c t nextOut fuel)
    (hfast : (small || c.p.blockRandomised) = false) {x : Cached} {o : Out}
    (ho : o = { x.o with stateOutLen := 1 }) (hS : Sane small (c.giving o)) (hpos : 0 < x.avail)
    (hfuel : x.avail ≤ fuel) :
    ∃ r, fastNext ver (c.env small) nextOut fuel x.one = some r ∧ FastDrained ver small c t o x r := by
  subst ho
  have hemit := @giving_emit μ _ small ver c t { x.o with stateOutLen := 1 } Nat.one_pos
  have hone : x.one.avail + 1 = x.avail := by
    show x.avail - 1 + 1 = x.avail
    omega
  obtain ⟨r, he, hr⟩ := ih.next hfast x.one (sane_steps hemit hS) (by omega)
  exact ⟨r, he, hr.after hemit rfl hone⟩

/-- The bytes of a run but its last, and what is done after them. -/
theorem FastSim.run (ih : FastSim ver small c t nextOut fuel)
    (hfast : (small || c.p.blockRandomised) = false) {x : Cached} (hl : 0 < x.o.stateOutLen)
    (hS : Sane small (c.giving x.o)) (hfuel : x.avail ≤ fuel) :
    ∃ r, unRleFastLoop ver (c.env small) nextOut (fuel + 1) false x = some r ∧
      FastDrained ver small c t x.o x r := by
  rw [fastLoop_run _ _ _ _ _ hl]
  obtain ⟨k, full, he, hk, hkl, hfull, hfree⟩ :=
    fastRun_spec ver nextOut (x.avail + 1) x hl (Nat.lt_succ_self _)
  obtain ⟨hgl, -, hga⟩ := gave_fields x k
  have hsteps := @emit_steps μ _ small ver c t k x.o (by omega)
  rw [he, Option.bind_some]
  cases full with
  | true =>
    have := hfull rfl
    refine ⟨_, rfl, _, _, hsteps, by rw [List.length_replicate]; exact hk, rfl, rfl, ?_, ?_⟩
    · rw [List.length_replicate]
      omega
    · exact Or.inl ⟨by omega, show 0 < (x.gave k).o.stateOutLen by omega⟩
  | false =>
    obtain ⟨h1, h2⟩ := hfree rfl
    dsimp only
    rw [if_neg (by omega), if_pos (by omega)]
    have ho : (x.gave k).o = { (x.gave k).o with stateOutLen := 1 } := by
      rw [show (1 : Nat) = (x.gave k).o.stateOutLen by omega]
    obtain ⟨r, he', hr⟩ := ih.one hfast ho (sane_steps hsteps hS) (by omega) (by omega)
    refine ⟨r, he', hr.after hsteps rfl ?_⟩
    rw [List.length_replicate]
    omega

theorem unRleFastLoop_sim (nextOut : Int) (hfast : (small || c.p.blockRandomised) = false) :
    ∀ fuel : Nat, FastSim ver small c t nextOut fuel := by
  intro fuel
  induction fuel with
  | zero => exact fun _ _ _ h => absurd h (by omega)
  | succ fuel ih =>
    intro eqOne x hS hfuel
    cases eqOne with
    | true =>
      rw [fastLoop_eqOne]
      by_cases ha : x.avail = 0
      · rw [if_pos ha]
        exact ⟨_, rfl, [], _, .refl _ _, Nat.zero_le _, rfl, (List.append_nil _).symm, rfl,
          Or.inl ⟨ha, Nat.one_pos⟩⟩
      · rw [if_neg ha]
        exact ih.one hfast rfl hS (by omega) (by omega)
    | false =>
      have hreal : x.real false = x.o := rfl
      rw [hreal] at hS hfuel ⊢
      by_cases hl : x.o.stateOutLen = 0
      · rw [fastLoop_noRun _ _ _ _ _ hl]
        have hx : ({ x.o with stateOutLen := 0 } : Out) = x.o := by rw [← hl]
        rw [if_pos hl] at hfuel
        have hnext := ih.next hfast x (by rw [hx]; exact hS) (by omega)
        rw [hx] at hnext
        exact hnext
      · exact ih.run hfast (Nat.pos_of_ne_zero hl) hS (by omega)

/-- **A drain always returns**, and what the caller has got is what the machine emits. Where it
    leaves room, the block has ended. -/
theorem unRle_sim (hS : Sane small (c, .output)) (strm : BzStream) :
    ∃ (r : Bool × Out × BzStream) (w : List Byte) (o' : Out),
      unRle ver small (c.env small) c.out strm = some r ∧ Drained ver small c t c.out strm r w o' := by
  have hrand : (c.env small).randomised = c.p.blockRandomised := rfl
  unfold unRle
  rw [hrand]
  cases hmode : small || c.p.blockRandomised with
  | true =>
    rw [if_pos rfl]
    exact unRleSlowLoop_sim hmode (strm.availOut + 1) c.out strm hS (by omega)
      (by split <;> omega)
  | false =>
    rw [if_neg (by decide)]
    obtain ⟨r, he, w, o', hs, hle, hr⟩ := unRleFastLoop_sim (t := t) strm.nextOut hmode
      (strm.availOut + 2) false ⟨c.out, [], strm.availOut⟩ hS (by
        dsimp only
        split <;> omega)
    unfold unRleFast
    rw [he]
    cases r with
    | corrupt =>
      exact ⟨_, w, o', rfl, hs, hle, ⟨[], List.nil_prefix, Gives.refl strm⟩, fun _ => hr, nofun,
        fun h => (nomatch hmode.symm.trans h), fun _ => nofun⟩
    | notr y =>
      obtain ⟨h1, h2, h3, h4⟩ := hr
      dsimp only at h2 h3
      rw [List.nil_append] at h2
      have hg := gives_putBytes strm y.written (by rw [h2]; omega)
      rw [h2] at hg
      refine ⟨_, w, o', rfl, hs, hle, ⟨w, List.prefix_refl w, ?_⟩, nofun, fun _ => ⟨h1, ?_, ?_⟩,
        fun h => (nomatch hmode.symm.trans h), fun _ _ hend => (h4.resolve_right hend).2⟩
      · rw [h2]
        exact hg
      · rw [h2]
        exact hg
      · have := hg.availOut
        dsimp only
        rw [h2]
        rcases h4 with ⟨h4, -⟩ | h4
        · exact Or.inl (by omega)
        · exact Or.inr h4

end

end Qbz2
