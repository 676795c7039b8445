/-
  File:      Qbz2/Decompress/Walk.lean
  Subject:   A block given out by two decoders side by side, in either memory mode.

  * `Walk` -- the vector stands, and the output is inside the block: every `BZ_GET` finds a byte;
  * `TwinOut`, `TwinBlock` -- both have given out as much of the same block;
  * `fetch_twin` -- both fetch the same run, byte-wise or in the order of the fast routine;
  * `endBlock_twin` -- both accept the block or both refuse it;
  * **`bitDecoder_twin`** -- step by step the two machines do the same;
  * `Sane` -- one decoder beside itself: what no input bits can break.
-/
import Qbz2.Decompress.Twin

namespace Qbz2

open Counting Transducer

/-! ## 1. Two output states -/

/-- Both have given out as much. After the last byte of the block `k0` is not looked at any more,
    and the table of random numbers only counts in a randomised block. -/
structure TwinOut (n : Nat) (randomised : Bool) (o o' : Out) : Prop where
  ch : o'.stateOutCh = o.stateOutCh
  len : o'.stateOutLen = o.stateOutLen
  used : o'.nblockUsed = o.nblockUsed
  crc : o'.calculatedBlockCRC = o.calculatedBlockCRC
  k0 : o.nblockUsed ≤ n → o'.k0 = o.k0
  rand : randomised → o'.rNToGo = o.rNToGo ∧ o'.rTPos = o.rTPos

namespace TwinOut

variable {n : Nat} {r : Bool} {o o' o'' : Out}

theorem refl (n : Nat) (r : Bool) (o : Out) : TwinOut n r o o :=
  ⟨rfl, rfl, rfl, rfl, fun _ => rfl, fun _ => ⟨rfl, rfl⟩⟩

theorem symm (h : TwinOut n r o o') : TwinOut n r o' o :=
  ⟨h.ch.symm, h.len.symm, h.used.symm, h.crc.symm,
    fun hn => (h.k0 (by rw [← h.used]; exact hn)).symm,
    fun hr => ⟨(h.rand hr).1.symm, (h.rand hr).2.symm⟩⟩

theorem trans (h : TwinOut n r o o') (h' : TwinOut n r o' o'') : TwinOut n r o o'' :=
  ⟨h'.ch.trans h.ch, h'.len.trans h.len, h'.used.trans h.used, h'.crc.trans h.crc,
    fun hn => (h'.k0 (by rw [h.used]; exact hn)).trans (h.k0 hn),
    fun hr => ⟨(h'.rand hr).1.trans (h.rand hr).1, (h'.rand hr).2.trans (h.rand hr).2⟩⟩

theorem emit (h : TwinOut n r o o') : TwinOut n r o.emit o'.emit := by
  refine ⟨h.ch, ?_, h.used, ?_, h.k0, h.rand⟩
  · show o'.stateOutLen - 1 = o.stateOutLen - 1
    rw [h.len]
  · show updateCrc o'.calculatedBlockCRC o'.stateOutCh = updateCrc o.calculatedBlockCRC o.stateOutCh
    rw [h.crc, h.ch]

end TwinOut

/-- The vector as a sequence of positions and bytes. -/
def Lane (e : OutEnv) (at' : Nat → Word32) (byte : Nat → Byte) : Prop :=
  ∀ k, e.next (at' k) = some (byte k, at' (k + 1))

/-- The output state stands on the vector. -/
def Out.On (at' : Nat → Word32) (o : Out) : Prop := o.tPos = at' o.nblockUsed

variable {n : Nat} {e e' : OutEnv} {at' at'' : Nat → Word32} {byte : Nat → Byte} {o o' : Out}

/-- A `BZ_GET` that has found byte `b` and position `t`, `r` telling whether the block is
    randomised: the byte as it is used, and the output state. -/
def Out.took (r : Bool) (b : Byte) (t : Word32) (o : Out) : Byte × Out :=
  let rNToGo :=
    if r then (if o.rNToGo = 0 then bz2RNums.getD o.rTPos 0 else o.rNToGo) - 1 else o.rNToGo
  let rTPos :=
    if r then (if o.rNToGo = 0 then (if o.rTPos + 1 = 512 then 0 else o.rTPos + 1) else o.rTPos)
    else o.rTPos
  (if r then b ^^^ (if rNToGo = 1 then 1 else 0) else b,
    { o with tPos := t, rNToGo, rTPos, nblockUsed := o.nblockUsed + 1 })

theorem get_took {b : Byte} {t : Word32} (h : e.next o.tPos = some (b, t)) :
    o.get e = some (o.took e.randomised b t) := by
  unfold Out.get Out.took
  rw [h]
  cases e.randomised with
  | false => rfl
  | true =>
    unfold Out.mask Out.updMask
    dsimp only
    by_cases h0 : o.rNToGo = 0
    · simp only [h0, if_true]
    · simp only [h0, if_true, if_false]

/-- **Both take the same byte.** -/
theorem get_twin (hw : Lane e at' byte) (hw' : Lane e' at'' byte)
    (hr : e'.randomised = e.randomised) (h : TwinOut n e.randomised o o') (ht : o.On at')
    (ht' : o'.On at'') :
    ∃ (k : Byte) (q q' : Out), o.get e = some (k, q) ∧ o'.get e' = some (k, q') ∧
      TwinOut n e.randomised q q' ∧ q.On at' ∧ q'.On at'' ∧ q.nblockUsed = o.nblockUsed + 1 ∧
      q.k0 = o.k0 ∧ q'.k0 = o'.k0 ∧ q.stateOutLen = o.stateOutLen := by
  unfold Out.On at ht ht'
  have hu := h.used
  have hg := get_took (e := e) (o := o) (by rw [ht]; exact hw o.nblockUsed)
  have hg' := get_took (e := e') (o := o') (by rw [ht', hu]; exact hw' o.nblockUsed)
  have hbyte : (o'.took e'.randomised (byte o.nblockUsed) (at'' (o.nblockUsed + 1))).1 =
      (o.took e.randomised (byte o.nblockUsed) (at' (o.nblockUsed + 1))).1 := by
    unfold Out.took
    rw [hr]
    cases hrand : e.randomised with
    | false => rfl
    | true =>
      obtain ⟨h1, h2⟩ := h.rand hrand
      dsimp only
      rw [h1, h2]
  refine ⟨_, _, (o'.took e'.randomised (byte o.nblockUsed) (at'' (o.nblockUsed + 1))).2, hg, ?_,
    ⟨h.ch, h.len, congrArg (· + 1) hu, h.crc, fun hn => ?_, fun hrand => ?_⟩, rfl, ?_, rfl, rfl, rfl,
    rfl⟩
  · exact hg'.trans (congrArg some (Prod.ext hbyte rfl))
  · refine h.k0 (Nat.le_of_succ_le hn)
  · obtain ⟨h1, h2⟩ := h.rand hrand
    unfold Out.took
    dsimp only
    rw [h1, h2, hr]
    exact ⟨rfl, rfl⟩
  · show at'' (o.nblockUsed + 1) = at'' (o'.nblockUsed + 1)
    rw [hu]

theorem get_len (x : Nat) : ({ o with stateOutLen := x } : Out).get e =
    (o.get e).map fun r => (r.1, { r.2 with stateOutLen := x }) := by
  cases h : e.next o.tPos with
  | none =>
    unfold Out.get
    dsimp only
    rw [h]
    rfl
  | some r =>
    obtain ⟨b, t⟩ := r
    rw [get_took h, get_took (o := { o with stateOutLen := x }) h]
    rfl

namespace TwinOut

variable {r : Bool}

theorem setLen (h : TwinOut n r o o') (x y : Nat) (hxy : y = x) :
    TwinOut n r { o with stateOutLen := x } { o' with stateOutLen := y } :=
  ⟨h.ch, hxy, h.used, h.crc, h.k0, h.rand⟩

theorem setK0 (h : TwinOut n r o o') (k : Byte) :
    TwinOut n r { o with k0 := k } { o' with k0 := k } :=
  ⟨h.ch, h.len, h.used, h.crc, fun _ => rfl, h.rand⟩

/-- Behind the end of the block `k0` is free. -/
theorem freeK0 (h : TwinOut n r o o') (hn : o.nblockUsed = n + 1) (k : Byte) :
    TwinOut n r { o with k0 := k } o' :=
  ⟨h.ch, h.len, h.used, h.crc, fun hle => absurd hle (by dsimp only; omega), h.rand⟩

end TwinOut

/-- The run the fast routine goes on with. -/
def fastRunOf (e : OutEnv) (o : Out) : Option Out :=
  match fetchFast e o with
  | .corrupt => none
  | .notr _ => none
  | .eqOne o => some { o with stateOutLen := 1 }
  | .top o => some o

/-- A run has been fetched by both. -/
structure Fetched (n : Nat) (r : Bool) (at' at'' : Nat → Word32) (o q q' : Out) : Prop where
  twin : TwinOut n r q q'
  on : q.On at'
  on' : q'.On at''
  low : o.nblockUsed < q.nblockUsed
  high : q.nblockUsed ≤ n + 2
  pos : 0 < q.stateOutLen

/-- **The fast routine and the byte-wise one fetch the same run.** -/
theorem fetch_fast_slow (hw : Lane e at' byte) (hw' : Lane e' at'' byte)
    (hr : e'.randomised = e.randomised) (hn : e'.nblock = e.nblock)
    (h : TwinOut e.nblock e.randomised o o') (ht : o.On at') (ht' : o'.On at'')
    (hu : o.nblockUsed ≤ e.nblock) :
    ∃ q q' : Out, fastRunOf e o = some q ∧ fetchSlow e' o' = (false, q') ∧
      Fetched e.nblock e.randomised at' at'' o q q' := by
  have hk0 := h.k0 hu
  -- the first byte, and that it differs from the next
  have h1 : TwinOut e.nblock e.randomised { o with stateOutLen := 1, stateOutCh := o.k0 }
      { o' with stateOutLen := 1, stateOutCh := o'.k0 } :=
    ⟨hk0, rfl, h.used, h.crc, h.k0, h.rand⟩
  obtain ⟨k1, q1, q1', hg1, hg1', ht1, ho1, ho1', hu1, hk1, hk1', hl1⟩ :=
    get_twin hw hw' hr h1 ht ht'
  have hfast1 := get_len (e := e) (o := { o with stateOutLen := 1, stateOutCh := o.k0 }) o.stateOutLen
  rw [hg1] at hfast1
  dsimp only at hu1 hk1 hk1' hl1
  unfold fastRunOf fetchFast fetchSlow
  rw [if_neg (by omega), if_neg (by omega)]
  dsimp only at hfast1 ⊢
  rw [hfast1, hg1', hn]
  dsimp only [Option.map_some]
  have e1 : q1'.k0 = q1.k0 := by rw [hk1', hk1, hk0]
  by_cases hne1 : k1 ≠ q1.k0
  · rw [if_pos hne1]
    by_cases hend : q1'.nblockUsed = e.nblock + 1
    · rw [if_pos hend]
      exact ⟨_, _, rfl, rfl, (ht1.setLen 1 _ (ht1.len.trans hl1)).freeK0 (ht1.used.symm.trans hend) k1,
        ho1, ho1', by dsimp only; omega, by dsimp only; omega, Nat.one_pos⟩
    · rw [if_neg hend, if_pos (show k1 ≠ q1'.k0 by rw [e1]; exact hne1)]
      exact ⟨_, _, rfl, rfl, (ht1.setLen 1 _ (ht1.len.trans hl1)).setK0 k1,
        ho1, ho1', by dsimp only; omega, by dsimp only; omega, Nat.one_pos⟩
  rw [if_neg hne1]
  by_cases hend1 : q1.nblockUsed = e.nblock + 1
  · rw [if_pos hend1, if_pos (ht1.used.trans hend1)]
    exact ⟨_, _, rfl, rfl, ht1.setLen 1 _ (ht1.len.trans hl1), ho1, ho1', by dsimp only; omega,
      by dsimp only; omega, Nat.one_pos⟩
  rw [if_neg hend1, if_neg (show ¬q1'.nblockUsed = e.nblock + 1 by rw [ht1.used]; exact hend1), if_neg (show ¬k1 ≠ q1'.k0 by rw [e1]; exact hne1)]
  -- the second byte
  obtain ⟨k2, q2, q2', hg2, hg2', ht2, ho2, ho2', hu2, hk2, hk2', hl2⟩ :=
    get_twin hw hw' hr (ht1.setLen 2 2 rfl) ho1 ho1'
  dsimp only at hu2 hk2 hk2' hl2
  have e2 : q2'.k0 = q2.k0 := by rw [hk2', hk2, e1]
  rw [hg2, hg2']
  dsimp only
  by_cases hend2 : q2.nblockUsed = e.nblock + 1
  · rw [if_pos hend2, if_pos (ht2.used.trans hend2)]
    exact ⟨_, _, rfl, rfl, ht2, ho2, ho2', by omega, by omega, by omega⟩
  rw [if_neg hend2, if_neg (show ¬q2'.nblockUsed = e.nblock + 1 by rw [ht2.used]; exact hend2)]
  by_cases hne2 : k2 ≠ q2.k0
  · rw [if_pos hne2, if_pos (show k2 ≠ q2'.k0 by rw [e2]; exact hne2)]
    exact ⟨_, _, rfl, rfl, ht2.setK0 k2, ho2, ho2', by dsimp only; omega, by dsimp only; omega,
      by dsimp only; omega⟩
  rw [if_neg hne2, if_neg (show ¬k2 ≠ q2'.k0 by rw [e2]; exact hne2)]
  -- the third
  obtain ⟨k3, q3, q3', hg3, hg3', ht3, ho3, ho3', hu3, hk3, hk3', hl3⟩ :=
    get_twin hw hw' hr (ht2.setLen 3 3 rfl) ho2 ho2'
  dsimp only at hu3 hk3 hk3' hl3
  have e3 : q3'.k0 = q3.k0 := by rw [hk3', hk3, e2]
  rw [hg3, hg3']
  dsimp only
  by_cases hend3 : q3.nblockUsed = e.nblock + 1
  · rw [if_pos hend3, if_pos (ht3.used.trans hend3)]
    exact ⟨_, _, rfl, rfl, ht3, ho3, ho3', by omega, by omega, by omega⟩
  rw [if_neg hend3, if_neg (show ¬q3'.nblockUsed = e.nblock + 1 by rw [ht3.used]; exact hend3)]
  by_cases hne3 : k3 ≠ q3.k0
  · rw [if_pos hne3, if_pos (show k3 ≠ q3'.k0 by rw [e3]; exact hne3)]
    exact ⟨_, _, rfl, rfl, ht3.setK0 k3, ho3, ho3', by dsimp only; omega, by dsimp only; omega,
      by dsimp only; omega⟩
  rw [if_neg hne3, if_neg (show ¬k3 ≠ q3'.k0 by rw [e3]; exact hne3)]
  -- the count, and the byte behind it
  obtain ⟨k4, q4, q4', hg4, hg4', ht4, ho4, ho4', hu4, _⟩ := get_twin hw hw' hr ht3 ho3 ho3'
  rw [hg4, hg4']
  dsimp only
  obtain ⟨k5, q5, q5', hg5, hg5', ht5, ho5, ho5', hu5, _, _, hl5⟩ :=
    get_twin hw hw' hr (ht4.setLen (k4.toNat + 4) (k4.toNat + 4) rfl) ho4 ho4'
  dsimp only at hu5 hl5
  rw [hg5, hg5']
  exact ⟨_, _, rfl, rfl, ht5.setK0 k5, ho5, ho5', by dsimp only; omega, by dsimp only; omega,
    by dsimp only; omega⟩

section

variable {μ μ' : Type} {small small' : Bool} {c : Core μ} {c' : Core μ'}

/-! ## 2. A block being given out -/

/-- The byte the `k`-th `BZ_GET` finds. -/
def byteAt (s : Int → Nat) (n o k : Nat) : Byte := BitVec.ofNat 8 (s (pos s n o (k + 1)))

/-- **The vector stands and the output is inside the block.** -/
structure Walk (small : Bool) (s : Int → Nat) (c : Core μ) : Prop where
  bs : BsOk c.p.blockSize100k
  orig : c.p.origPtr < c.p.nblock
  fits : c.p.nblock ≤ c.limit
  lane : Lane (c.env small) (posAt s c.p.nblock small c.p.origPtr)
    (byteAt s c.p.nblock c.p.origPtr)
  on : c.out.On (posAt s c.p.nblock small c.p.origPtr)
  low : 1 ≤ c.out.nblockUsed
  high : c.out.nblockUsed ≤ c.p.nblock + 2

/-- **Both give out the same block**, and have given out as much of it. -/
structure TwinBlock (small small' : Bool) (c : Core μ) (c' : Core μ') : Prop where
  parse : c'.p = c.p
  combined : c'.calculatedCombinedCRC = c.calculatedCombinedCRC
  out : TwinOut c.p.nblock c.p.blockRandomised c.out c'.out
  walk : ∃ s, Walk small s c ∧ Walk small' s c'

theorem fetch_eq (small : Bool) (c : Core μ) : c.fetch small =
    if small || c.p.blockRandomised then
      (match fetchSlow (c.env small) c.out with
        | (true, _) => none
        | (false, o) => some o)
    else fastRunOf (c.env small) c.out := rfl

/-- A run fetched byte by byte. -/
theorem fetchSlow_of_fetch (hslow : (small || c.p.blockRandomised) = true) {q : Out}
    (h : c.fetch small = some q) : fetchSlow (c.env small) c.out = (false, q) := by
  rw [fetch_eq, if_pos hslow] at h
  split at h
  · cases h
  · rename_i he
    rw [he, Option.some.inj h]

/-- **Both fetch the same run.** -/
theorem fetch_twin (h : TwinBlock small small' c c') (hu : c.out.nblockUsed ≤ c.p.nblock) :
    ∃ q q' : Out, c.fetch small = some q ∧ c'.fetch small' = some q' ∧ 0 < q.stateOutLen ∧
      TwinBlock small small' { c with out := q } { c' with out := q' } := by
  obtain ⟨hp, hcrc, hout, s, hw, hw'⟩ := h
  have hrand : (c'.env small').randomised = (c.env small).randomised :=
    congrArg Parse.blockRandomised hp
  have hn : (c'.env small').nblock = (c.env small).nblock := congrArg Parse.nblock hp
  have hlane' := hw'.lane
  have hon' := hw'.on
  rw [hp] at hlane' hon'
  have hu' : c'.out.nblockUsed ≤ (c'.env small').nblock := by
    rw [hn, hout.used]
    exact hu
  have hself := TwinOut.refl c.p.nblock c.p.blockRandomised c.out
  have hself' := TwinOut.refl (c'.env small').nblock (c'.env small').randomised c'.out
  obtain ⟨f, s₁, hf, hs₁, h₁⟩ := fetch_fast_slow hw.lane hw.lane rfl rfl hself hw.on hw.on hu
  obtain ⟨f₂, s₂, hf₂, hs₂, h₂⟩ := fetch_fast_slow hw.lane hlane' hrand hn hout hw.on hon' hu
  obtain ⟨f', s₃, hf', hs₃, h₃⟩ := fetch_fast_slow hlane' hlane' rfl rfl hself' hon' hon' hu'
  obtain rfl : f = f₂ := Option.some.inj (hf.symm.trans hf₂)
  obtain rfl : s₂ = s₃ := congrArg Prod.snd (hs₂.symm.trans hs₃)
  have ht₃ : TwinOut c.p.nblock c.p.blockRandomised f' s₂ := by
    have := h₃.twin
    rw [hn, hrand] at this
    exact this
  -- what either side may have fetched
  obtain ⟨q, hq, hqf, hqo⟩ : ∃ q, c.fetch small = some q ∧
      TwinOut c.p.nblock c.p.blockRandomised f q ∧ q.On (posAt s c.p.nblock small c.p.origPtr) := by
    rw [fetch_eq, hs₁, hf]
    split
    · exact ⟨s₁, rfl, h₁.twin, h₁.on'⟩
    · exact ⟨f, rfl, TwinOut.refl _ _ _, h₁.on⟩
  obtain ⟨q', hq', hqf', hqo'⟩ : ∃ q', c'.fetch small' = some q' ∧
      TwinOut c.p.nblock c.p.blockRandomised f q' ∧
      q'.On (posAt s c.p.nblock small' c.p.origPtr) := by
    rw [fetch_eq, hs₂, hf']
    split
    · exact ⟨s₂, rfl, h₂.twin, h₂.on'⟩
    · exact ⟨f', rfl, h₂.twin.trans ht₃.symm, h₃.on⟩
  have hused : q.nblockUsed = f.nblockUsed := hqf.used
  have hused' : q'.nblockUsed = f.nblockUsed := hqf'.used
  have hlow := h₁.low
  have hhigh : f.nblockUsed ≤ c.p.nblock + 2 := h₁.high
  have hlow0 := hw.low
  refine ⟨q, q', hq, hq', by rw [hqf.len]; exact h₁.pos, hp, hcrc, hqf.symm.trans hqf', s,
    ⟨hw.bs, hw.orig, hw.fits, hw.lane, hqo, by dsimp only; omega, by dsimp only; omega⟩,
    ⟨hw'.bs, hw'.orig, hw'.fits, hw'.lane, ?_, by dsimp only; omega, ?_⟩⟩
  · dsimp only
    rw [hp]
    exact hqo'
  · dsimp only
    rw [hp]
    omega

/-! ## 3. The end of the symbols -/

/-- The bytes decoded are a block in the store. -/
theorem Decoded.block {small : Bool} {done : List Byte} {st : Store μ} (h : Decoded small done st) :
    Block small (fun x => (done.getD x.toNat 0).toNat) done.length st where
  lt x _ := (done.getD x 0).isLt
  cell x hx := by
    have hc := h.cell x hx
    have e16 : BitVec.ofNat 16 (done.getD x 0).toNat = (done.getD x 0).setWidth 16 := by
      rw [← BitVec.ofNat_toNat]
    have e32 : BitVec.ofNat 32 (done.getD x 0).toNat = (done.getD x 0).setWidth 32 := by
      rw [← BitVec.ofNat_toNat]
    rw [Int.toNat_natCast, e16, e32]
    exact hc
  counts b hb := by
    have hdone : (List.range done.length).map (fun i => done.getD i 0) = done := by
      refine List.ext_getElem (by rw [List.length_map, List.length_range]) fun i h1 h2 => ?_
      rw [List.getElem_map, List.getElem_range, List.getD_eq_getElem _ _ h2]
    rw [h.counts b hb, ← count_column (fun i => done.getD i 0)
      (fun x : Int => (done.getD x.toNat 0).toNat) (fun i => by rw [Int.toNat_natCast]) hb, hdone]

/-- The output state the first byte is taken from. -/
def Core.masked (c : Core μ) : Out :=
  if c.p.blockRandomised then { c.out with rNToGo := 0, rTPos := 0 } else c.out

theorem firstByte_eq {at' : Nat → Word32} {byte : Nat → Byte}
    (hw : Lane (c.env small) at' byte) (ht : c.out.tPos = at' 0) :
    c.firstByte small =
      { c with
        out := { (c.masked.took c.p.blockRandomised (byte 0) (at' 1)).2 with
          k0 := (c.masked.took c.p.blockRandomised (byte 0) (at' 1)).1 } } := by
  have hpos : c.masked.tPos = at' 0 := by
    unfold Core.masked
    split <;> exact ht
  have hg := get_took (e := c.env small) (o := c.masked) (by rw [hpos]; exact hw 0)
  unfold Core.firstByte
  unfold Core.masked at hg ⊢
  dsimp only
  rw [hg]
  rfl

/-- What the first byte leaves is the start of a walk. -/
theorem Walk.start {s : Int → Nat} (hbs : BsOk c.p.blockSize100k) (ho : c.p.origPtr < c.p.nblock)
    (hl : c.p.nblock ≤ c.limit)
    (hw : Lane (c.env small) (posAt s c.p.nblock small c.p.origPtr)
      (byteAt s c.p.nblock c.p.origPtr))
    (ht : c.out.tPos = posAt s c.p.nblock small c.p.origPtr 0) (hu : c.out.nblockUsed = 0) :
    Walk small s (c.firstByte small) := by
  rw [firstByte_eq hw ht]
  have hmu : c.masked.nblockUsed = 0 := by
    unfold Core.masked
    split <;> exact hu
  have hused : (c.masked.took c.p.blockRandomised (byteAt s c.p.nblock c.p.origPtr 0)
      (posAt s c.p.nblock small c.p.origPtr 1)).2.nblockUsed = 1 := congrArg (· + 1) hmu
  refine ⟨hbs, ho, hl, hw, ?_, ?_, ?_⟩
  · unfold Out.On
    dsimp only
    rw [hused]
    rfl
  · dsimp only
    rw [hused]
  · dsimp only
    rw [hused]
    omega

/-- The sizes of a block in order. -/
theorem BlockOk.fits (hb : BlockOk c.p) : c.p.nblock ≤ c.limit ∧ c.limit ≤ 2 ^ 20 := by
  have hbs := hb.alpha.bs.2
  have hle := hb.le
  have hmax := hb.max
  have hlim : c.limit = 100000 * c.p.blockSize100k := rfl
  omega

/-- **The vector of a block is built**, and the first byte taken, if its cells hold `s` and `origPtr`
    lies in it. -/
theorem endBlock_vector {s : Int → Nat} (hb : BlockOk c.p) (ho : c.p.origPtr < c.p.nblock)
    (hB : Block small s c.p.nblock c.store) :
    ∃ d : Core μ, c.prepared.buildVector small = some d ∧
      c.endBlock small = some (d.firstByte small, none) ∧ d.p = c.p ∧
      d.calculatedCombinedCRC = c.calculatedCombinedCRC ∧
      d.out = { c.out with
        stateOutLen := 0
        stateOutCh := 0
        calculatedBlockCRC := 0xffffffff
        tPos := posAt s c.p.nblock small c.p.origPtr 0
        nblockUsed := 0 } ∧
      Lane (d.env small) (posAt s c.p.nblock small c.p.origPtr)
        (byteAt s c.p.nblock c.p.origPtr) := by
  obtain ⟨hfit, h20⟩ := hb.fits
  obtain ⟨d, hbuild, hdp, hdcrc, hdout, hwalk⟩ := buildVector_walk (c := c.prepared)
    hB.prepared hB.cumulated (by rw [prepared_p]; omega)
    (by rw [prepared_p, prepared_limit]; exact hfit) (by rw [prepared_p]; exact ho)
  rw [prepared_p] at hdp hdout hwalk
  rw [prepared_out] at hdout
  rw [prepared_combined] at hdcrc
  refine ⟨d, hbuild, ?_, hdp, hdcrc, hdout, hwalk⟩
  rw [endBlock_eq hB ho, hbuild]
  rfl

/-- **A block is given out** whose cells hold `s`, if `origPtr` lies in it. -/
theorem endBlock_block {s : Int → Nat} (hb : BlockOk c.p) (ho : c.p.origPtr < c.p.nblock)
    (hB : Block small s c.p.nblock c.store) :
    ∃ d : Core μ, c.endBlock small = some (d.firstByte small, none) ∧ d.p = c.p ∧
      d.calculatedCombinedCRC = c.calculatedCombinedCRC ∧
      d.out = { c.out with
        stateOutLen := 0
        stateOutCh := 0
        calculatedBlockCRC := 0xffffffff
        tPos := posAt s c.p.nblock small c.p.origPtr 0
        nblockUsed := 0 } ∧
      Lane (d.env small) (posAt s c.p.nblock small c.p.origPtr)
        (byteAt s c.p.nblock c.p.origPtr) ∧
      Walk small s (d.firstByte small) := by
  obtain ⟨d, -, he, hdp, hdcrc, hdout, hwalk⟩ := endBlock_vector hb ho hB
  refine ⟨d, he, hdp, hdcrc, hdout, hwalk, ?_⟩
  exact Walk.start (by rw [hdp]; exact hb.alpha.bs) (by rw [hdp]; exact ho)
    (by rw [Core.limit, hdp]; exact hb.fits.1) (by rw [hdp]; exact hwalk) (by rw [hdout, hdp])
    (by rw [hdout])

/-- The bytes decoded are such a block. -/
theorem endBlock_walk {done : List Byte} (hb : BlockOk c.p) (ho : c.p.origPtr < c.p.nblock)
    (hlen : done.length = c.p.nblock) (hd : Decoded small done c.store) :
    ∃ d : Core μ, c.endBlock small = some (d.firstByte small, none) ∧ d.p = c.p ∧
      d.calculatedCombinedCRC = c.calculatedCombinedCRC ∧
      d.out = { c.out with
        stateOutLen := 0
        stateOutCh := 0
        calculatedBlockCRC := 0xffffffff
        tPos := posAt (fun x => (done.getD x.toNat 0).toNat) c.p.nblock small c.p.origPtr 0
        nblockUsed := 0 } ∧
      Lane (d.env small) (posAt (fun x => (done.getD x.toNat 0).toNat) c.p.nblock small c.p.origPtr)
        (byteAt (fun x => (done.getD x.toNat 0).toNat) c.p.nblock c.p.origPtr) ∧
      Walk small (fun x => (done.getD x.toNat 0).toNat) (d.firstByte small) := by
  have hB := hd.block
  rw [hlen] at hB
  exact endBlock_block hb ho hB

/-- **Both accept the block or both refuse it.** -/
theorem endBlock_twin {R : μ → μ' → Prop} (hp : c'.p = c.p)
    (hcrc : c'.calculatedCombinedCRC = c.calculatedCombinedCRC) (hb : BlockOk c.p)
    (hs : TwinStore R small small' c.p.nblock c.store c'.store) :
    (c.p.nblock ≤ c.p.origPtr ∧ c.endBlock small = some (c, some .dataError) ∧
      c'.endBlock small' = some (c', some .dataError)) ∨
    ∃ (d : Core μ) (d' : Core μ'), c.endBlock small = some (d, none) ∧
      c'.endBlock small' = some (d', none) ∧ TwinBlock small small' d d' ∧
      d.p = c.p ∧ d.out.stateOutLen = 0 ∧ d.out.nblockUsed = 1 ∧
      d.out.calculatedBlockCRC = 0xffffffff ∧
      d.calculatedCombinedCRC = c.calculatedCombinedCRC := by
  by_cases ho : c.p.nblock ≤ c.p.origPtr
  · left
    refine ⟨ho, ?_, ?_⟩
    · unfold Core.endBlock
      rw [if_pos ho]
    · unfold Core.endBlock
      rw [if_pos (by rw [hp]; exact ho)]
  · right
    have ho' : c.p.origPtr < c.p.nblock := by omega
    obtain ⟨done, hlen, hd, hd', -⟩ := hs
    obtain ⟨d, he, hdp, hdcrc, hdout, hlane, hw⟩ := endBlock_walk hb ho' hlen hd
    obtain ⟨d', he', hdp', hdcrc', hdout', hlane', hw'⟩ := endBlock_walk (c := c')
      (by rw [hp]; exact hb) (by rw [hp]; exact ho') (by rw [hp]; exact hlen) hd'
    rw [hp] at hdp' hdout' hlane'
    have hf := firstByte_eq hlane (by rw [hdout])
    have hf' := firstByte_eq hlane' (by rw [hdout'])
    have hm : d.masked = if c.p.blockRandomised then { d.out with rNToGo := 0, rTPos := 0 }
        else d.out := by
      rw [Core.masked, hdp]
    have hm' : d'.masked = if c.p.blockRandomised then { d'.out with rNToGo := 0, rTPos := 0 }
        else d'.out := by
      rw [Core.masked, hdp']
    rw [hdp] at hf
    rw [hdp'] at hf'
    have hfields : d.masked.stateOutLen = 0 ∧ d.masked.nblockUsed = 0 ∧
        d.masked.calculatedBlockCRC = 0xffffffff := by
      rw [hm, hdout]
      split <;> exact ⟨rfl, rfl, rfl⟩
    refine ⟨_, _, he, he', ⟨?_, ?_, ?_, _, hw, hw'⟩, ?_, ?_, ?_, ?_, ?_⟩
    · rw [hf, hf']
    · rw [hf, hf']
      exact hdcrc'.trans (hcrc.trans hdcrc.symm)
    · rw [hf, hf']
      dsimp only
      cases hr : c.p.blockRandomised with
      | false =>
        rw [hr] at hm hm'
        rw [hm, hm', if_neg (by decide), if_neg (by decide), hdout, hdout']
        exact ⟨rfl, rfl, rfl, rfl, fun _ => rfl, fun h => nomatch h⟩
      | true =>
        rw [hr] at hm hm'
        rw [hm, hm', if_pos rfl, if_pos rfl, hdout, hdout']
        exact ⟨rfl, rfl, rfl, rfl, fun _ => rfl, fun _ => ⟨rfl, rfl⟩⟩
    · rw [hf]
    · rw [hf]
      exact hfields.1
    · rw [hf]
      exact congrArg (· + 1) hfields.2.1
    · rw [hf]
      exact hfields.2.2
    · rw [hf]
      exact hdcrc

theorem finishBlock_twin {c : Core μ} {c' : Core μ'} (h : TwinBlock small small' c c') :
    c'.finishBlock.2 = c.finishBlock.2 ∧
      c'.finishBlock.1.calculatedCombinedCRC = c.finishBlock.1.calculatedCombinedCRC ∧
      c'.finishBlock.1.p = c.p ∧ c.finishBlock.1.p = c.p := by
  obtain ⟨p, store, out, crc⟩ := c
  obtain ⟨p', store', out', crc'⟩ := c'
  obtain rfl : p' = p := h.parse
  obtain rfl : crc' = crc := h.combined
  have hout : out'.calculatedBlockCRC = out.calculatedBlockCRC := h.out.crc
  unfold Core.finishBlock
  dsimp only
  rw [hout]
  by_cases he : ~~~out.calculatedBlockCRC ≠ p'.storedBlockCRC
  · rw [if_pos he, if_pos he]
    exact ⟨rfl, rfl, rfl, rfl⟩
  · rw [if_neg he, if_neg he]
    exact ⟨rfl, rfl, rfl, rfl⟩

end

section

variable {μ μ' : Type} [MtfList μ] [MtfList μ'] {R : μ → μ' → Prop} {small small' : Bool}

/-! ## 4. The machines -/

/-- **Two decoders that cannot be told apart.** -/
def TwinState (R : μ → μ' → Prop) (small small' : Bool) : Core μ × Point → Core μ' × Point → Prop
  | (c, .parser ctl), (c', .parser ctl') =>
    Twin R small small' (c, ctl) (c', ctl') ∧ Ready c.p ctl
  | (c, .output), (c', .output) => TwinBlock small small' c c'
  | _, _ => False

/-- The fast routine's look at the table has no part in what the parser does. -/
theorem twin_literal {c : Core μ} {c' : Core μ'}
    (h : Twin R small small' (c, .fast) (c', .fast)) (hr : Ready c.p .fast) :
    TwinState R small small' (standing (c.absorb small (c.p.beginVal .literal)))
      (standing (c'.absorb small' (c'.p.beginVal .literal))) := by
  have hp : c'.p = c.p := h.parse nofun
  rw [hp]
  refine ⟨twin_beginVal h.combined (h.store trivial) .literal, ?_⟩
  have hsound := @sound_beginVal _ .literal hr.1 (fun _ => hr.2) fun h => nomatch h
  exact hsound.ready

/-- **Step by step, the two machines do the same.** -/
theorem bitDecoder_twin (hR : MtfSim R) (ver ver' : Version) (x : Core μ × Point)
    (x' : Core μ' × Point) (h : TwinState R small small' x x') :
    NodeRel (TwinState R small small') (bitDecoder ver small x) (bitDecoder ver' small' x') := by
  obtain ⟨c, pt⟩ := x
  obtain ⟨c', pt'⟩ := x'
  cases pt with
  | output =>
    cases pt' with
    | parser _ => exact h.elim
    | output =>
      obtain ⟨p, store, out, crc⟩ := c
      obtain ⟨p', store', out', crc'⟩ := c'
      have hB : TwinBlock small small' ⟨p, store, out, crc⟩ ⟨p', store', out', crc'⟩ := h
      obtain rfl : p' = p := hB.parse
      have hout : TwinOut p'.nblock p'.blockRandomised out out' := hB.out
      obtain ⟨s, hw, hw'⟩ := hB.walk
      unfold bitDecoder
      dsimp only
      rw [hout.len, hout.used, hout.ch]
      by_cases hlen : out.stateOutLen > 0
      · rw [if_pos hlen, if_pos hlen]
        exact ⟨rfl, rfl, hB.combined, hout.emit, s,
          ⟨hw.bs, hw.orig, hw.fits, hw.lane, hw.on, hw.low, hw.high⟩,
          ⟨hw'.bs, hw'.orig, hw'.fits, hw'.lane, hw'.on, hw'.low, hw'.high⟩⟩
      rw [if_neg hlen, if_neg hlen]
      by_cases hover : out.nblockUsed > p'.nblock + 1
      · rw [if_pos hover, if_pos hover]
        rfl
      rw [if_neg hover, if_neg hover]
      by_cases hend : out.nblockUsed = p'.nblock + 1
      · rw [if_pos hend, if_pos hend]
        obtain ⟨hok, hcrc, hfp', hfp⟩ := finishBlock_twin hB
        cases hf : Core.finishBlock (⟨p', store, out, crc⟩ : Core μ) with
        | mk d ok =>
          cases hf' : Core.finishBlock (⟨p', store', out', crc'⟩ : Core μ') with
          | mk d' ok' =>
            rw [hf, hf'] at hok hcrc
            rw [hf] at hfp
            rw [hf'] at hfp'
            obtain rfl : ok' = ok := hok
            cases ok' with
            | false => rfl
            | true =>
              refine ⟨⟨rfl, hcrc, fun _ => hfp'.trans hfp.symm, fun hb => hb.elim⟩, ?_⟩
              show BsOk d.p.blockSize100k
              rw [show d.p = p' from hfp]
              exact hw.bs
      · rw [if_neg hend, if_neg hend]
        obtain ⟨q, q', hq, hq', -, hB'⟩ := fetch_twin hB (show out.nblockUsed ≤ p'.nblock by omega)
        rw [hq, hq']
        exact hB'
  | parser ctl =>
    cases pt' with
    | output => exact h.elim
    | parser ctl' =>
      obtain ⟨ht, hr⟩ := h
      obtain rfl : ctl' = ctl := ht.ctl
      cases ctl' with
      | get l =>
        refine ⟨rfl, fun bits hbits => ?_⟩
        have ht' := resume_twin hR ver ver' ht hr (Bits.bitsVal bits)
        exact ⟨ht', (resume_sound ver hr _).ready⟩
      | fast => exact twin_literal ht hr
      | block =>
        have hp : c'.p = c.p := ht.parse nofun
        rcases endBlock_twin hp ht.combined hr (ht.store trivial) with
          ⟨-, he, he'⟩ | ⟨d, d', he, he', hB, -⟩
        · unfold bitDecoder
          dsimp only
          rw [he, he']
          rfl
        · unfold bitDecoder
          dsimp only
          rw [he, he']
          exact hB
      | ret r =>
        have hcrc : c'.calculatedCombinedCRC = c.calculatedCombinedCRC := ht.combined
        cases r with
        | streamEnd =>
          have hp : c'.p = c.p := ht.parse nofun
          unfold bitDecoder
          dsimp only
          rw [hp, hcrc]
          split <;> rfl
        | _ => rfl

/-! ## 5. One decoder -/

/-- **What no input bits can break**: the decoder beside itself. -/
def Sane (small : Bool) (x : Core μ × Point) : Prop :=
  TwinState (Eq : μ → μ → Prop) small small x x

theorem sane_steps {ver : Version} {x y : Core μ × Point} {t u : List Bool} {w : List Byte}
    (h : Steps (bitDecoder ver small) x t w y u) (hx : Sane small x) : Sane small y :=
  h.invariant (fun s hs => bitDecoder_twin mtfSim_eq ver ver s s hs) hx

end

end Qbz2
