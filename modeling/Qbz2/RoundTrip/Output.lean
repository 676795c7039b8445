/-
  File:      Qbz2/RoundTrip/Output.lean
  Subject:   A block that is given out is expanded.

  * `fetchSlow_front` -- a fetch takes the run at the front of what is left of the block;
  * `emit_run` -- the run is given out, and its bytes go into the CRC;
  * **`output_expands`** -- a block that does not end where a count is missing is given out as what
    its bytes expand to.
-/
import Qbz2.Compress.Division
import Qbz2.Decompress.Walk

namespace Qbz2

open Transducer RunLength

/-! ## 1. A fetch -/

section

variable {e : OutEnv} {at' : Nat → Word32} {byte : Nat → Byte}

/-- A byte further along the vector. -/
def Out.advance (at' : Nat → Word32) (o : Out) : Out :=
  { o with tPos := at' (o.nblockUsed + 1), nblockUsed := o.nblockUsed + 1 }

/-- A `BZ_GET` in a block that is not randomised. -/
theorem get_plain (hw : Lane e at' byte) (hr : e.randomised = false) {o : Out} (ht : o.On at') :
    o.get e = some (byte o.nblockUsed, o.advance at') := by
  have hnext := hw o.nblockUsed
  rw [← show o.tPos = at' o.nblockUsed from ht] at hnext
  rw [get_took hnext, hr]
  rfl

/-- The byte `x` has been taken, and `ys` is what is left of the block. -/
structure Facing (e : OutEnv) (at' : Nat → Word32) (byte : Nat → Byte) (x : Byte) (ys : List Byte)
    (o : Out) : Prop where
  on : o.On at'
  k0 : o.k0 = x
  bytes : ∀ i (h : i < ys.length), byte (o.nblockUsed + i) = ys[i]
  size : o.nblockUsed + ys.length = e.nblock

theorem Facing.advance {x y : Byte} {ys : List Byte} {o : Out}
    (h : Facing e at' byte x (y :: ys) o) : Facing e at' byte x ys (o.advance at') := by
  refine ⟨rfl, h.k0, fun i hi => ?_, ?_⟩
  · have := h.bytes (i + 1) (Nat.succ_lt_succ hi)
    rw [List.getElem_cons_succ] at this
    rw [← this]
    show byte (o.nblockUsed + 1 + i) = byte (o.nblockUsed + (i + 1))
    rw [Nat.add_right_comm, Nat.add_assoc]
  · have := h.size
    rw [List.length_cons] at this
    show o.nblockUsed + 1 + ys.length = e.nblock
    omega

theorem Facing.setLen {x : Byte} {ys : List Byte} {o : Out} (h : Facing e at' byte x ys o)
    (n : Nat) : Facing e at' byte x ys { o with stateOutLen := n } :=
  ⟨h.on, h.k0, h.bytes, h.size⟩

/-- A `BZ_GET` that finds a byte of the block. -/
theorem Facing.get (hw : Lane e at' byte) (hr : e.randomised = false) {x y : Byte}
    {ys : List Byte} {o : Out} (h : Facing e at' byte x (y :: ys) o) :
    o.get e = some (y, o.advance at') ∧ (o.advance at').nblockUsed ≠ e.nblock + 1 := by
  have hy := h.bytes 0 (Nat.succ_pos _)
  rw [Nat.add_zero, List.getElem_cons_zero] at hy
  have hsize := h.size
  rw [List.length_cons] at hsize
  refine ⟨by rw [get_plain hw hr h.on, hy], ?_⟩
  show o.nblockUsed + 1 ≠ e.nblock + 1
  omega

/-- A `BZ_GET` behind the last byte. -/
theorem Facing.get_end (hw : Lane e at' byte) (hr : e.randomised = false) {x : Byte} {o : Out}
    (h : Facing e at' byte x [] o) :
    o.get e = some (byte o.nblockUsed, o.advance at') ∧
      (o.advance at').nblockUsed = e.nblock + 1 := by
  have hsize := h.size
  rw [List.length_nil] at hsize
  refine ⟨get_plain hw hr h.on, ?_⟩
  show o.nblockUsed + 1 = e.nblock + 1
  omega

/-- What a fetch has done: the run given out next, and what is left of the block. -/
structure Fetch (e : OutEnv) (at' : Nat → Word32) (byte : Nat → Byte) (o : Out) (x : Byte)
    (run : Nat × List Byte) (q : Out) : Prop where
  ch : q.stateOutCh = x
  len : q.stateOutLen = run.1
  crc : q.calculatedBlockCRC = o.calculatedBlockCRC
  last : run.2 = [] → q.nblockUsed = e.nblock + 1
  more : ∀ y ys, run.2 = y :: ys → Facing e at' byte y ys q
  on : q.On at'

/-- The byte that ends a run is taken. -/
theorem Facing.take {x y : Byte} {ys : List Byte} {o : Out} (h : Facing e at' byte x (y :: ys) o)
    (k : Byte) (hk : k = y) : Facing e at' byte y ys { o.advance at' with k0 := k } := by
  subst hk
  have hf := h.advance
  exact ⟨hf.on, rfl, hf.bytes, hf.size⟩

/-- A run of `n` bytes `x` is being fetched. -/
structure Fetching (e : OutEnv) (at' : Nat → Word32) (byte : Nat → Byte) (o : Out) (x : Byte)
    (ys : List Byte) (n : Nat) (q : Out) : Prop where
  facing : Facing e at' byte x ys q
  ch : q.stateOutCh = x
  len : q.stateOutLen = n
  crc : q.calculatedBlockCRC = o.calculatedBlockCRC

section

variable {o q : Out} {x y : Byte} {ys : List Byte} {n : Nat}

/-- One more byte `x`. -/
theorem Fetching.same (h : Fetching e at' byte o x (x :: ys) n q) (m : Nat) :
    Fetching e at' byte o x ys m { q.advance at' with stateOutLen := m } :=
  ⟨h.facing.advance.setLen m, h.ch, rfl, h.crc⟩

/-- The block ends in the run. -/
theorem Fetching.ends (h : Fetching e at' byte o x [] n q) :
    Fetch e at' byte o x (frontRun BitVec.toNat x n []) (q.advance at') := by
  have hsize := h.facing.size
  rw [List.length_nil] at hsize
  refine ⟨h.ch, h.len, h.crc, fun _ => ?_, nofun, rfl⟩
  show q.nblockUsed + 1 = e.nblock + 1
  omega

/-- Another byte follows. -/
theorem Fetching.other (h : Fetching e at' byte o x (y :: ys) n q) (hn : n ≠ 4) (hy : y ≠ x) :
    Fetch e at' byte o x (frontRun BitVec.toNat x n (y :: ys))
      { q.advance at' with k0 := y } := by
  have hrun : frontRun BitVec.toNat x n (y :: ys) = (n, y :: ys) := by
    unfold frontRun
    rw [if_neg hn, if_neg hy]
  rw [hrun]
  refine ⟨h.ch, h.len, h.crc, fun hnil => absurd hnil (List.cons_ne_nil y ys),
    fun z zs hz => ?_, rfl⟩
  obtain ⟨rfl, rfl⟩ := List.cons.inj hz
  exact h.facing.take _ rfl

theorem frontRun_same (hn : n ≠ 4) :
    frontRun BitVec.toNat x n (x :: ys) = frontRun BitVec.toNat x (n + 1) ys := by
  rw [frontRun, if_neg hn, if_pos rfl]

end

/-- **A fetch takes the run at the front** of what is left of the block, unless a count is missing
    at its end. -/
theorem fetchSlow_front (hw : Lane e at' byte) (hr : e.randomised = false) {o : Out} {x : Byte}
    {ys : List Byte} (h : Facing e at' byte x ys o) (hend : (runAfter ⟨1, x⟩ ys).len ≠ 4) :
    ∃ q, fetchSlow e o = (false, q) ∧ Fetch e at' byte o x (frontRun BitVec.toNat x 1 ys) q := by
  have h₁ : Fetching e at' byte o x ys 1 { o with stateOutLen := 1, stateOutCh := o.k0 } :=
    ⟨⟨h.on, h.k0, h.bytes, h.size⟩, h.k0, rfl, rfl⟩
  unfold fetchSlow
  dsimp only
  generalize { o with stateOutLen := 1, stateOutCh := o.k0 } = o₁ at h₁ ⊢
  -- the second byte of the run
  rcases ys with - | ⟨y₁, ys⟩
  · obtain ⟨hg, hu⟩ := h₁.facing.get_end hw hr
    rw [hg]
    dsimp only
    rw [if_pos hu]
    exact ⟨_, rfl, h₁.ends⟩
  obtain ⟨hg, hu⟩ := h₁.facing.get hw hr
  rw [hg]
  dsimp only
  rw [if_neg hu]
  by_cases hy₁ : y₁ ≠ x
  · rw [if_pos (show y₁ ≠ (o₁.advance at').k0 from h₁.facing.k0 ▸ hy₁)]
    exact ⟨_, rfl, h₁.other (by decide) hy₁⟩
  obtain rfl : y₁ = x := Decidable.not_not.mp hy₁
  rw [if_neg (show ¬y₁ ≠ (o₁.advance at').k0 from h₁.facing.k0 ▸ hy₁), frontRun_same (by decide)]
  have h₂ := h₁.same 2
  generalize { o₁.advance at' with stateOutLen := 2 } = o₂ at h₂ ⊢
  -- the third
  rcases ys with - | ⟨y₂, ys⟩
  · obtain ⟨hg, hu⟩ := h₂.facing.get_end hw hr
    rw [hg]
    dsimp only
    rw [if_pos hu]
    exact ⟨_, rfl, h₂.ends⟩
  obtain ⟨hg, hu⟩ := h₂.facing.get hw hr
  rw [hg]
  dsimp only
  rw [if_neg hu]
  by_cases hy₂ : y₂ ≠ y₁
  · rw [if_pos (show y₂ ≠ (o₂.advance at').k0 from h₂.facing.k0 ▸ hy₂)]
    exact ⟨_, rfl, h₂.other (by decide) hy₂⟩
  obtain rfl : y₂ = y₁ := Decidable.not_not.mp hy₂
  rw [if_neg (show ¬y₂ ≠ (o₂.advance at').k0 from h₂.facing.k0 ▸ hy₂), frontRun_same (by decide)]
  have h₃ := h₂.same 3
  generalize { o₂.advance at' with stateOutLen := 3 } = o₃ at h₃ ⊢
  -- the fourth
  rcases ys with - | ⟨y₃, ys⟩
  · obtain ⟨hg, hu⟩ := h₃.facing.get_end hw hr
    rw [hg]
    dsimp only
    rw [if_pos hu]
    exact ⟨_, rfl, h₃.ends⟩
  obtain ⟨hg, hu⟩ := h₃.facing.get hw hr
  rw [hg]
  dsimp only
  rw [if_neg hu]
  by_cases hy₃ : y₃ ≠ y₂
  · rw [if_pos (show y₃ ≠ (o₃.advance at').k0 from h₃.facing.k0 ▸ hy₃)]
    exact ⟨_, rfl, h₃.other (by decide) hy₃⟩
  obtain rfl : y₃ = y₂ := Decidable.not_not.mp hy₃
  rw [if_neg (show ¬y₃ ≠ (o₃.advance at').k0 from h₃.facing.k0 ▸ hy₃), frontRun_same (by decide)]
  have h₄ := h₃.facing.advance
  have hch₄ : (o₃.advance at').stateOutCh = y₃ := h₃.ch
  have hcrc₄ : (o₃.advance at').calculatedBlockCRC = o.calculatedBlockCRC := h₃.crc
  generalize o₃.advance at' = o₄ at h₄ hch₄ hcrc₄ ⊢
  -- the count
  rcases ys with - | ⟨y₄, ys⟩
  · have hfour : runAfter ⟨1, y₃⟩ (List.replicate 3 y₃) = ⟨4, y₃⟩ :=
      (expandFrom_replicate BitVec.toNat y₃ 3 1 (by decide) (by decide)).2
    exact absurd (congrArg RunState.len hfour) hend
  obtain ⟨hg, hu⟩ := h₄.get hw hr
  rw [hg]
  dsimp only
  have hfront : frontRun BitVec.toNat y₃ 4 (y₄ :: ys) = (y₄.toNat + 4, ys) := by
    rw [frontRun, if_pos rfl, Nat.add_comm]
  rw [hfront]
  have h₅ := h₄.advance.setLen (y₄.toNat + 4)
  have hch₅ : ({ o₄.advance at' with stateOutLen := y₄.toNat + 4 } : Out).stateOutCh = y₃ := hch₄
  have hlen₅ : ({ o₄.advance at' with stateOutLen := y₄.toNat + 4 } : Out).stateOutLen =
      y₄.toNat + 4 := rfl
  have hcrc₅ : ({ o₄.advance at' with stateOutLen := y₄.toNat + 4 } : Out).calculatedBlockCRC =
      o.calculatedBlockCRC := hcrc₄
  generalize { o₄.advance at' with stateOutLen := y₄.toNat + 4 } = o₅ at h₅ hch₅ hlen₅ hcrc₅ ⊢
  -- the byte behind it
  rcases ys with - | ⟨y₅, ys⟩
  · obtain ⟨hg, hu⟩ := h₅.get_end hw hr
    rw [hg]
    exact ⟨_, rfl, hch₅, hlen₅, hcrc₅, fun _ => hu, nofun, rfl⟩
  · obtain ⟨hg, hu⟩ := h₅.get hw hr
    rw [hg]
    refine ⟨_, rfl, hch₅, hlen₅, hcrc₅, nofun, fun z zs hz => ?_, rfl⟩
    obtain ⟨rfl, rfl⟩ := List.cons.inj hz
    exact h₅.take _ rfl

end

section

variable {μ : Type} [MtfList μ] {ver : Version} {small : Bool} {u : List Bool}

/-! ## 2. A run -/

omit [MtfList μ] in
/-- The fast routine fetches the same. -/
theorem fetch_front {c : Core μ} {at' : Nat → Word32} {byte : Nat → Byte} {x : Byte}
    {ys : List Byte} (hw : Lane (c.env small) at' byte) (hr : c.p.blockRandomised = false)
    (h : Facing (c.env small) at' byte x ys c.out) (hend : (runAfter ⟨1, x⟩ ys).len ≠ 4) :
    ∃ q, c.fetch small = some q ∧
      Fetch (c.env small) at' byte c.out x (frontRun BitVec.toNat x 1 ys) q := by
  obtain ⟨q, hslow, hq⟩ := fetchSlow_front hw (show (c.env small).randomised = false from hr) h hend
  rw [fetch_eq, hslow, hr, Bool.or_false]
  cases hsmall : small with
  | true =>
    rw [hsmall] at hq
    exact ⟨q, rfl, hq⟩
  | false =>
    rw [hsmall] at hslow hq hw h
    have hsize : c.out.nblockUsed + ys.length = (c.env false).nblock := h.size
    obtain ⟨f, s₁, hf, hs₁, hB⟩ := fetch_fast_slow hw hw rfl rfl
      (TwinOut.refl (c.env false).nblock (c.env false).randomised c.out) h.on h.on (by omega)
    obtain rfl : q = s₁ := congrArg Prod.snd (hslow.symm.trans hs₁)
    have ht := hB.twin.symm
    refine ⟨f, hf, ht.ch.trans hq.ch, ht.len.trans hq.len, ht.crc.trans hq.crc,
      fun he => ht.used.trans (hq.last he), fun y zs he => ?_, hB.on⟩
    have hm := hq.more y zs he
    have hsz := hm.size
    refine ⟨hB.on, (ht.k0 (by omega)).trans hm.k0, fun i hi => ?_, ?_⟩
    · rw [ht.used]
      exact hm.bytes i hi
    · rw [ht.used]
      exact hsz

/-- The output after a run has been given out. -/
def Out.drained (o : Out) (bytes : List Byte) : Out :=
  { o with stateOutLen := 0, calculatedBlockCRC := crcFold o.calculatedBlockCRC bytes }

/-- **A run is given out.** -/
theorem emit_run : ∀ (n : Nat) (c : Core μ), c.out.stateOutLen = n →
    Steps (bitDecoder ver small) (c, .output) u (List.replicate n c.out.stateOutCh)
      ({ c with out := c.out.drained (List.replicate n c.out.stateOutCh) }, .output) u := by
  intro n
  induction n with
  | zero =>
    intro c h
    have hsame : c.out.drained [] = c.out := by
      unfold Out.drained
      rw [crcFold_nil, ← h]
    rw [List.replicate_zero, hsame]
    exact .refl _ _
  | succ n ih =>
    intro c h
    have hnode : bitDecoder ver small (c, .output) =
        .emit c.out.stateOutCh ({ c with out := c.out.emit }, .output) := by
      show (if c.out.stateOutLen > 0 then _ else _) = _
      rw [if_pos (by omega)]
    have hrest := ih { c with out := c.out.emit } (by
      show c.out.stateOutLen - 1 = n
      omega)
    rw [List.replicate_succ]
    exact .emit hnode hrest

/-! ## 3. The block -/

/-- What is given out of a block: all of it, and nothing else has changed. -/
structure GivenOut (c : Core μ) (bytes : List Byte) (out : Out) : Prop where
  len : out.stateOutLen = 0
  used : out.nblockUsed = c.p.nblock + 1
  crc : out.calculatedBlockCRC = crcFold c.out.calculatedBlockCRC bytes

omit [MtfList μ] in
/-- A run more. -/
theorem GivenOut.run {c : Core μ} {q out : Out} {ch : Byte} {n : Nat} {bytes : List Byte}
    (hcrc : q.calculatedBlockCRC = c.out.calculatedBlockCRC)
    (h : GivenOut { c with out := q.drained (List.replicate n ch) } bytes out) :
    GivenOut c (List.replicate n ch ++ bytes) out := by
  refine ⟨h.len, h.used, ?_⟩
  have := h.crc
  unfold Out.drained at this
  dsimp only at this
  rw [this, hcrc, crcFold_append]

/-- **What is left of a block is given out as what it expands to.** -/
theorem rest_expands {at' : Nat → Word32} {byte : Nat → Byte} : ∀ (k : Nat) (c : Core μ) (x : Byte)
    (ys : List Byte), ys.length < k → Lane (c.env small) at' byte → c.p.blockRandomised = false →
    c.out.stateOutLen = 0 → Facing (c.env small) at' byte x ys c.out →
    (runAfter ⟨1, x⟩ ys).len ≠ 4 →
    ∃ out : Out, Steps (bitDecoder ver small) (c, .output) u
        (x :: expandFrom BitVec.toNat ⟨1, x⟩ ys) ({ c with out }, .output) u ∧
      GivenOut c (x :: expandFrom BitVec.toNat ⟨1, x⟩ ys) out := by
  intro k
  induction k with
  | zero => exact fun _ _ _ h => absurd h (Nat.not_lt_zero _)
  | succ k ih =>
    intro c x ys hk hw hr hlen hf hend
    obtain ⟨q, hq, hF⟩ := fetch_front hw hr hf hend
    have hsize : c.out.nblockUsed + ys.length = c.p.nblock := hf.size
    have hnode : bitDecoder ver small (c, .output) = .move ({ c with out := q }, .output) := by
      show (if c.out.stateOutLen > 0 then _ else if c.out.nblockUsed > c.p.nblock + 1 then _
        else if c.out.nblockUsed = c.p.nblock + 1 then _ else _) = _
      rw [if_neg (by omega), if_neg (by omega), if_neg (by omega), hq]
    have hemit := @emit_run μ _ ver small u q.stateOutLen { c with out := q } rfl
    dsimp only at hemit
    rw [hF.ch, hF.len] at hemit
    obtain ⟨hexp, hend', hsuf⟩ := expandFrom_frontRun BitVec.toNat x 0 ys 1 (Nat.le_refl 1)
      (by decide) hend
    rw [List.replicate_one, List.singleton_append] at hexp
    rw [hexp]
    obtain ⟨run, hrun⟩ : ∃ run, run = frontRun BitVec.toNat x 1 ys := ⟨_, rfl⟩
    rw [← hrun] at hF hemit hend' hsuf ⊢
    obtain ⟨n, zs⟩ := run
    dsimp only at hemit hend' hsuf ⊢
    have hfirst := Steps.move hnode hemit
    rcases zs with - | ⟨y, zs⟩
    · -- the run ends the block
      refine ⟨q.drained (List.replicate n x), ?_, GivenOut.run hF.crc ⟨rfl, hF.last rfl, rfl⟩⟩
      rw [show expandFrom BitVec.toNat ⟨0, 0⟩ ([] : List Byte) = [] from rfl, List.append_nil]
      exact hfirst
    · have hshort := hsuf.length_le
      rw [List.length_cons] at hshort
      have hfy := hF.more y zs rfl
      obtain ⟨out, hs, hG⟩ := ih { c with out := q.drained (List.replicate n x) } y zs (by omega) hw
        hr rfl ⟨hfy.on, hfy.k0, hfy.bytes, hfy.size⟩ hend'
      exact ⟨out, hfirst.trans hs, GivenOut.run hF.crc hG⟩

/-- **A block is given out as what its bytes expand to**, if it does not end where a count is
    missing. -/
theorem output_expands {s : Int → Nat} {c : Core μ} {x : Byte} {ys : List Byte}
    (hw : Walk small s c) (hr : c.p.blockRandomised = false) (hlen : c.out.stateOutLen = 0)
    (hf : Facing (c.env small) (posAt s c.p.nblock small c.p.origPtr)
      (byteAt s c.p.nblock c.p.origPtr) x ys c.out)
    (hend : (runAfter ⟨0, 0⟩ (x :: ys)).len ≠ 4) :
    ∃ out : Out, Steps (bitDecoder ver small) (c, .output) u (expand (x :: ys))
        ({ c with out }, .output) u ∧ GivenOut c (expand (x :: ys)) out :=
  rest_expands (ys.length + 1) c x ys (Nat.lt_succ_self _) hw.lane hr hlen hf hend

end

end Qbz2
