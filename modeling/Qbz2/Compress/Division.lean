/-
  File:      Qbz2/Compress/Division.lean
  Subject:   The first run-length stage over the whole input: its division into blocks.

  * `InBlock.pendingRun` -- the run not yet in a block; `addPairToBlock_spec` -- what a run adds to
    the block, its CRC and `inUse`; `addCharToBlock_eq` -- a byte goes on with the run or ends it;
  * `expand` -- the decoder's rule; `Holds` -- the invariant of a block while it fills;
  * `Division` -- every way `copy_input_until_stop`, a full block and `flush_RL` can divide an
    input; **`division_expands`** -- each block stands for its part of the input;
  * `Divides` -- the divisions that runs of `BZ2_bzCompress` make (`bzCompress_division`).
-/
import Qbz2.Compress.Protocol
import Qbz2.Lib.RunLength

namespace Qbz2

open Loop (forUpto)
open RunLength

/-! ## 1. A run goes into the block -/

theorem bytesAt_congr {m m' : Int → Byte} : ∀ (n : Nat) (a : Int),
    (∀ i, a ≤ i → i < a + n → m i = m' i) → bytesAt m a n = bytesAt m' a n := by
  intro n
  induction n with
  | zero => intro a _; rfl
  | succ n ih =>
    intro a h
    rw [bytesAt_succ, bytesAt_succ, h a (Int.le_refl a) (by omega),
      ih (a + 1) (fun i h1 h2 => h i (by omega) (by omega))]

theorem crcFold_replicate (ch : Byte) (n : Nat) : ∀ crc,
    forUpto n (fun _ crc => updateCrc crc ch) crc = crcFold crc (List.replicate n ch) := by
  induction n with
  | zero => intro crc; rfl
  | succ n ih =>
    intro crc
    rw [Loop.forUpto_succ, ih, List.replicate_succ', crcFold_append]
    rfl

namespace InBlock

theorem runCrc_eq [Build] (crc : Word32) (ch : Byte) (len : Nat) :
    runCrc crc ch len = crcFold crc (List.replicate len ch) := by
  unfold runCrc
  split
  · exact bz2Crc32Update_eq _ _ _
  · exact crcFold_replicate ch len crc

theorem bytes_putBlock (s : InBlock) (c : Byte) : (s.putBlock c).bytes = s.bytes ++ [c] := by
  unfold bytes putBlock
  dsimp only
  rw [bytesAt_add]
  congr 1
  · refine bytesAt_congr _ _ fun i h1 h2 => ?_
    exact Cells.get_set_of_ne c (by omega)
  · rw [bytesAt_succ, bytesAt_zero, Int.zero_add, Cells.get_set_self]

/-- Two blocks with the same bytes, CRC and `inUse` as far as a byte reaches. -/
structure Adds (s : InBlock) (bs : List Byte) (run : List Byte) (s' : InBlock) : Prop where
  bytes : s'.bytes = s.bytes ++ bs
  crc : s'.blockCRC = crcFold s.blockCRC run
  inUse : ∀ c : Byte, s'.inUse c.toNat = true ↔ s.inUse c.toNat = true ∨ c ∈ bs

/-- The run that is not yet in a block. -/
def pendingRun (s : InBlock) : List Byte :=
  if s.stateInCh < 256 then List.replicate s.stateInLen (BitVec.ofNat 8 s.stateInCh) else []

/-- A byte, as an index of `inUse`. -/
theorem toNat_eq_iff {c : Byte} {n : Nat} (h : n < 256) : (c.toNat : Int) = n ↔ c = BitVec.ofNat 8 n := by
  constructor
  · intro he
    apply BitVec.eq_of_toNat_eq
    rw [BitVec.toNat_ofNat, Nat.mod_eq_of_lt h]
    omega
  · rintro rfl
    rw [BitVec.toNat_ofNat, Nat.mod_eq_of_lt h]

/-- **`add_pair_to_block`** writes the run the way `pair` has it. -/
theorem addPairToBlock_spec [Build] {s : InBlock} (hch : s.stateInCh < 256)
    (h1 : 1 ≤ s.stateInLen) (h255 : s.stateInLen ≤ 255) :
    Adds s (pair (BitVec.ofNat 8) (BitVec.ofNat 8 s.stateInCh) s.stateInLen)
      (List.replicate s.stateInLen (BitVec.ofNat 8 s.stateInCh)) s.addPairToBlock := by
  obtain ⟨ch, hc⟩ : ∃ ch : Byte, ch = BitVec.ofNat 8 s.stateInCh := ⟨_, rfl⟩
  have huse : ∀ c : Byte, (s.inUse.set s.stateInCh true) c.toNat = true ↔
      s.inUse c.toNat = true ∨ c = ch := by
    intro c
    rw [Cells.get_set, hc]
    by_cases h : (c.toNat : Int) = s.stateInCh
    · rw [if_pos h]
      exact iff_of_true rfl (.inr ((toNat_eq_iff hch).mp h))
    · rw [if_neg h]
      have := mt (toNat_eq_iff hch).mpr h
      constructor
      · exact .inl
      · rintro (h' | h')
        · exact h'
        · exact absurd h' this
  rw [← hc]
  unfold addPairToBlock
  dsimp only
  rw [runCrc_eq, ← hc]
  unfold pair
  rcases Nat.lt_or_ge s.stateInLen 4 with h4 | h4
  · rw [if_pos h4]
    have hcases : s.stateInLen = 1 ∨ s.stateInLen = 2 ∨ s.stateInLen = 3 := by omega
    rcases hcases with hl | hl | hl
    all_goals
      rw [hl]
      refine ⟨?_, rfl, fun c => ?_⟩
      · simp only [bytes_putBlock, List.append_assoc]
        rfl
      · exact (huse c).trans (by simp [List.replicate])
  · rw [if_neg (Nat.not_lt.mpr h4)]
    obtain ⟨k, hk⟩ : ∃ k, s.stateInLen = k + 4 := ⟨s.stateInLen - 4, by omega⟩
    have hidx : ((k + 4 : Nat) : Int) - 4 = (k : Nat) := by omega
    have hk' : k + 4 - 4 = k := by omega
    rw [hk, hk']
    refine ⟨?_, rfl, fun c => ?_⟩
    · simp only [bytes_putBlock, List.append_assoc]
      rfl
    · show ((s.inUse.set s.stateInCh true).set (((k + 4 : Nat) : Int) - 4) true) c.toNat = true ↔ _
      rw [hidx, Cells.get_set]
      by_cases h : (c.toNat : Int) = k
      · rw [if_pos h, (toNat_eq_iff (by omega)).mp h]
        simp
      · rw [if_neg h]
        have := mt (toNat_eq_iff (c := c) (show k < 256 by omega)).mpr h
        exact (huse c).trans (by simp [List.replicate, this])

/-- `ADD_CHAR_TO_BLOCK`: the byte goes on with the run, or the run goes into the block and the
    byte begins the next. -/
theorem addCharToBlock_eq [Build] {s : InBlock} (h : RunOk s) (c : Byte) :
    s.stateInCh = c.toNat ∧ s.stateInLen < 255 ∧
        s.addCharToBlock c = { s with stateInLen := s.stateInLen + 1 } ∨
      (s.stateInCh = c.toNat → s.stateInLen = 255) ∧
        s.addCharToBlock c = { (if s.stateInCh < 256 then s.addPairToBlock else s) with
          stateInCh := c.toNat
          stateInLen := 1 } := by
  have hc := c.isLt
  unfold RunOk at h
  unfold addCharToBlock
  dsimp only
  by_cases h1 : c.toNat ≠ s.stateInCh ∧ s.stateInLen = 1
  · -- a run of one goes in byte by byte
    right
    rw [if_pos h1]
    refine ⟨fun he => absurd he.symm h1.1, ?_⟩
    have hch : s.stateInCh < 256 := by omega
    rw [if_pos hch]
    unfold addPairToBlock
    dsimp only
    rw [h1.2, runCrc_eq]
    rfl
  · rw [if_neg h1]
    by_cases h2 : c.toNat ≠ s.stateInCh ∨ s.stateInLen = 255
    · right
      rw [if_pos h2]
      exact ⟨fun he => by omega, rfl⟩
    · left
      rw [if_neg h2]
      exact ⟨by omega, by omega, rfl⟩

end InBlock

/-! ## 2. The invariant of a block -/

/-- The decoder's rule: four equal bytes are followed by a count, and the run starts anew after
    it and at the start of a block. -/
def expand (bs : List Byte) : List Byte := expandFrom BitVec.toNat ⟨0, 0⟩ bs

/-- A block while it fills, with the input since the last block was closed. -/
structure Holds (b : InBlock) (input : List Byte) : Prop where
  run : RunOk b
  expands : expand b.bytes ++ b.pendingRun = input
  crc : b.blockCRC = crcFold initialiseCrc (expand b.bytes)
  inUse : ∀ c : Byte, b.inUse c.toNat = true ↔ c ∈ b.bytes
  ready : b.stateInCh < 256 → (runAfter ⟨0, 0⟩ b.bytes).Ready (BitVec.ofNat 8 b.stateInCh)
  empty : ¬ b.stateInCh < 256 → b.bytes = []

section

variable [CompressEnv]

/-- A run goes into the block. -/
theorem Holds.addPair {b : InBlock} {input : List Byte} (h : Holds b input)
    (hch : b.stateInCh < 256) :
    expand b.addPairToBlock.bytes = input ∧
      b.addPairToBlock.blockCRC = crcFold initialiseCrc input ∧
      (∀ c : Byte, b.addPairToBlock.inUse c.toNat = true ↔ c ∈ b.addPairToBlock.bytes) ∧
      runAfter ⟨0, 0⟩ b.addPairToBlock.bytes =
        ⟨if b.stateInLen < 4 then b.stateInLen else 0, BitVec.ofNat 8 b.stateInCh⟩ := by
  have hrun := h.run
  unfold RunOk at hrun
  obtain ⟨hb, hc, hu⟩ := InBlock.addPairToBlock_spec hch (by omega) (by omega)
  have hcode : 4 ≤ b.stateInLen →
      (BitVec.ofNat 8 (b.stateInLen - 4) : Byte).toNat = b.stateInLen - 4 := by
    intro _
    rw [BitVec.toNat_ofNat]
    omega
  obtain ⟨h1, h2⟩ := expandFrom_pair (h.ready hch) (show 1 ≤ b.stateInLen by omega) hcode
  have hpend : b.pendingRun = List.replicate b.stateInLen (BitVec.ofNat 8 b.stateInCh) := by
    unfold InBlock.pendingRun
    rw [if_pos hch]
  have hexp : expand b.addPairToBlock.bytes = input := by
    rw [← h.expands, hpend, hb]
    unfold expand
    rw [expandFrom_append, h1]
  refine ⟨hexp, ?_, fun c => ?_, ?_⟩
  · rw [hc, h.crc, ← crcFold_append, ← hpend, h.expands]
  · rw [hu, h.inUse, hb, List.mem_append]
  · rw [hb, runAfter_append]
    exact h2

/-- The block with no run left pending. -/
theorem Holds.settle {b : InBlock} {input : List Byte} (h : Holds b input) :
    expand (if b.stateInCh < 256 then b.addPairToBlock else b).bytes = input ∧
      (if b.stateInCh < 256 then b.addPairToBlock else b).blockCRC =
        crcFold initialiseCrc input ∧
      ∀ c : Byte, (if b.stateInCh < 256 then b.addPairToBlock else b).inUse c.toNat = true ↔
        c ∈ (if b.stateInCh < 256 then b.addPairToBlock else b).bytes := by
  by_cases hch : b.stateInCh < 256
  · rw [if_pos hch]
    obtain ⟨h1, h2, h3, _⟩ := h.addPair hch
    exact ⟨h1, h2, h3⟩
  · rw [if_neg hch]
    have hno : b.pendingRun = [] := by
      unfold InBlock.pendingRun
      rw [if_neg hch]
    have hexp := h.expands
    rw [hno, List.append_nil] at hexp
    exact ⟨hexp, by rw [h.crc, hexp], h.inUse⟩

/-- **A byte more.** -/
theorem Holds.addChar {b : InBlock} {input : List Byte} (h : Holds b input) (c : Byte) :
    Holds (b.addCharToBlock c) (input ++ [c]) := by
  have hc := c.isLt
  have hofNat : (BitVec.ofNat 8 c.toNat : Byte) = c := by
    apply BitVec.eq_of_toNat_eq
    rw [BitVec.toNat_ofNat, Nat.mod_eq_of_lt hc]
  have hrun := (addCharToBlock_run h.run c).1
  rcases InBlock.addCharToBlock_eq h.run c with ⟨hch, hlen, he⟩ | ⟨hne, he⟩
  · rw [he] at hrun ⊢
    have hlt : b.stateInCh < 256 := by omega
    refine ⟨hrun, ?_, h.crc, h.inUse, h.ready, h.empty⟩
    have hexp := h.expands
    unfold InBlock.pendingRun at hexp ⊢
    rw [if_pos hlt] at hexp
    rw [if_pos hlt]
    show expand b.bytes ++ List.replicate (b.stateInLen + 1) (BitVec.ofNat 8 b.stateInCh) = _
    rw [List.replicate_succ', ← List.append_assoc, hexp, hch, hofNat]
  · rw [he] at hrun ⊢
    obtain ⟨h1, h2, h3⟩ := h.settle
    refine ⟨hrun, ?_, ?_, h3, fun _ => ?_, fun hno => absurd hc hno⟩
    · unfold InBlock.pendingRun
      dsimp only
      rw [if_pos hc, hofNat]
      exact congrArg (· ++ [c]) h1
    · exact h2.trans (congrArg _ h1.symm)
    · show (runAfter ⟨0, 0⟩ (if b.stateInCh < 256 then b.addPairToBlock else b).bytes).Ready
        (BitVec.ofNat 8 c.toNat)
      rw [hofNat]
      by_cases hlt : b.stateInCh < 256
      · rw [if_pos hlt, (h.addPair hlt).2.2.2]
        by_cases h4 : b.stateInLen < 4
        · rw [if_pos h4]
          refine .inr ⟨h4, fun heq => ?_⟩
          have := (InBlock.toNat_eq_iff hlt).mpr heq.symm
          have := hne (by omega)
          omega
        · rw [if_neg h4]
          exact .inl rfl
      · rw [if_neg hlt]
        rw [h.empty hlt]
        exact .inl rfl

omit [CompressEnv] in
/-- A new block, whose pending run is that of the block before. -/
theorem holds_prepareNewBlock {b : InBlock} (h : RunOk b) :
    Holds b.prepareNewBlock b.pendingRun := by
  refine ⟨h, rfl, rfl, fun c => ?_, fun _ => .inl rfl, fun _ => rfl⟩
  have hc := c.isLt
  show (b.inUse.fill 0 256 false) c.toNat = true ↔ c ∈ []
  rw [Cells.get_fill, if_pos (by omega)]
  exact iff_of_false (by decide) (List.not_mem_nil)

end

/-! ## 3. Divisions -/

/-- What a closed block says of its part of the input. -/
structure Stands (b : InBlock) (piece : List Byte) : Prop where
  expands : expand b.bytes = piece
  crc : b.blockCRC = crcFold initialiseCrc piece
  inUse : ∀ c : Byte, b.inUse c.toNat = true ↔ c ∈ b.bytes

/-- The next block goes on with the run the last one left pending. -/
def SameRun (b b' : InBlock) : Prop :=
  b'.stateInCh = b.stateInCh ∧ b'.stateInLen = b.stateInLen

section

variable [CompressEnv]

/-- The ways the rounds of `copy_input_until_stop`, a full block and `flush_RL` divide an input
    into blocks: the closed blocks with the part of the input each has got, the block being
    filled, and the input that is not in a closed block. A block that is full leaves the pending
    run to the next one; a flush puts it into the block. -/
inductive Division (nblockMAX : Nat) :
    List Byte → List (InBlock × List Byte) → InBlock → List Byte → Prop
  | start (b : InBlock) : Division nblockMAX [] [] b.initRL.prepareNewBlock []
  | copy {input rest : List Byte} {parts : List (InBlock × List Byte)} {s s' : EState}
      {strm strm' : BzStream} (h : Division nblockMAX input parts s.input rest)
      (hmax : s.nblockMAX = nblockMAX) (hc : copyInputStep s strm = some (s', strm')) :
      Division nblockMAX (input ++ [strm.mem strm.nextIn]) parts s'.input
        (rest ++ [strm.mem strm.nextIn])
  | full {input rest : List Byte} {parts : List (InBlock × List Byte)} {b b' : InBlock}
      (h : Division nblockMAX input parts b rest) (hn : nblockMAX ≤ b.nblock)
      (hr : SameRun b b') :
      Division nblockMAX input (parts ++ [(b, rest.take (rest.length - b.stateInLen))])
        b'.prepareNewBlock (rest.drop (rest.length - b.stateInLen))
  | flush {input rest : List Byte} {parts : List (InBlock × List Byte)} {b b' : InBlock}
      (h : Division nblockMAX input parts b rest) (hr : SameRun b.flushRL b') :
      Division nblockMAX input (parts ++ [(b.flushRL, rest)]) b'.prepareNewBlock []

omit [CompressEnv] in
theorem SameRun.runOk {b b' : InBlock} (h : SameRun b b') (hb : RunOk b) : RunOk b' := by
  unfold RunOk at hb ⊢
  rw [h.1, h.2]
  exact hb

omit [CompressEnv] in
theorem SameRun.pendingRun {b b' : InBlock} (h : SameRun b b') : b'.pendingRun = b.pendingRun := by
  unfold InBlock.pendingRun
  rw [h.1, h.2]

omit [CompressEnv] in
theorem InBlock.length_pendingRun {b : InBlock} (h : RunOk b) :
    b.pendingRun.length = b.stateInLen := by
  unfold InBlock.pendingRun
  unfold RunOk at h
  split
  · rw [List.length_replicate]
  · rw [List.length_nil]
    omega

/-- The invariant of a division. -/
theorem Division.stands {nblockMAX : Nat} {input rest : List Byte}
    {parts : List (InBlock × List Byte)} {b : InBlock}
    (h : Division nblockMAX input parts b rest) :
    (∀ x ∈ parts, Stands x.1 x.2) ∧ (parts.map Prod.snd).flatten ++ rest = input ∧
      Holds b rest := by
  induction h with
  | start b =>
    refine ⟨fun x hx => absurd hx List.not_mem_nil, rfl, ?_⟩
    exact holds_prepareNewBlock (runOk_initRL b).1
  | @copy input rest parts s s' strm strm' h hmax hc ih =>
    obtain ⟨h1, h2, h3⟩ := ih
    obtain ⟨_, _, _, _, rfl⟩ := copyInputStep_some hc
    exact ⟨h1, by rw [← List.append_assoc, h2], h3.addChar _⟩
  | @full input rest parts b b' h hn hr ih =>
    obtain ⟨h1, h2, h3⟩ := ih
    have hexp := h3.expands
    have hlen := congrArg List.length hexp
    rw [List.length_append, InBlock.length_pendingRun h3.run] at hlen
    have hk : rest.length - b.stateInLen = (expand b.bytes).length := by omega
    have htake : rest.take (rest.length - b.stateInLen) = expand b.bytes := by
      rw [hk, ← hexp, List.take_left]
    have hdrop : rest.drop (rest.length - b.stateInLen) = b.pendingRun := by
      rw [hk, ← hexp, List.drop_left]
    rw [htake, hdrop]
    refine ⟨fun x hx => ?_, ?_, ?_⟩
    · rcases List.mem_append.mp hx with hx | hx
      · exact h1 x hx
      · rw [List.mem_singleton.mp hx]
        exact ⟨rfl, h3.crc, h3.inUse⟩
    · rw [List.map_append, List.flatten_append, ← h2, ← hexp]
      simp
    · rw [← hr.pendingRun]
      exact holds_prepareNewBlock (hr.runOk h3.run)
  | @flush input rest parts b b' h hr ih =>
    obtain ⟨h1, h2, h3⟩ := ih
    obtain ⟨k1, k2, k3⟩ := h3.settle
    have hrun := (runOk_initRL (if b.stateInCh < 256 then b.addPairToBlock else b)).1
    refine ⟨fun x hx => ?_, ?_, ?_⟩
    · rcases List.mem_append.mp hx with hx | hx
      · exact h1 x hx
      · rw [List.mem_singleton.mp hx]
        exact ⟨k1, k2, k3⟩
    · rw [List.map_append, List.flatten_append, ← h2]
      simp
    · have hno : b'.pendingRun = [] := hr.pendingRun
      rw [← hno]
      exact holds_prepareNewBlock (hr.runOk hrun)

/-- `copy_input_until_stop` as a whole. -/
theorem Copies.division {s s' : EState} {strm strm' : BzStream} {bs : List Byte}
    (h : Copies s strm bs s' strm') {input rest : List Byte} {parts : List (InBlock × List Byte)}
    (hd : Division s.nblockMAX input parts s.input rest) :
    Division s.nblockMAX (input ++ bs) parts s'.input (rest ++ bs) := by
  induction h generalizing input rest with
  | refl =>
    rw [List.append_nil, List.append_nil]
    exact hd
  | @step s s₁ s' strm strm₁ strm' bs h _ ih =>
    have hmax : s₁.nblockMAX = s.nblockMAX := by
      obtain ⟨_, _, _, _, rfl⟩ := copyInputStep_some h
      rfl
    have := ih
      (by rw [hmax]; exact hd.copy rfl h)
    rw [hmax, List.append_assoc, List.append_assoc] at this
    exact this

/-- **Every division divides the input**: each closed block expands to its part, its CRC is that
    of the part, `inUse` names its bytes; the parts and the rest make up the input, and the rest
    is what the block being filled stands for with the pending run. -/
theorem division_expands {nblockMAX : Nat} {input rest : List Byte}
    {parts : List (InBlock × List Byte)} {b : InBlock}
    (h : Division nblockMAX input parts b rest) :
    (∀ x ∈ parts, expand x.1.bytes = x.2 ∧ x.1.blockCRC = crcFold initialiseCrc x.2 ∧
      ∀ c : Byte, x.1.inUse c.toNat = true ↔ c ∈ x.1.bytes) ∧
    (parts.map Prod.snd).flatten ++ rest = input ∧ expand b.bytes ++ b.pendingRun = rest := by
  obtain ⟨hst, hcat, hb⟩ := h.stands
  exact ⟨fun x hx => ⟨(hst x hx).expands, (hst x hx).crc, (hst x hx).inUse⟩, hcat, hb.expands⟩

end

/-- Six times `a`, and `b`. -/
def runStream : BzStream :=
  { oneByteStream with mem := fun i => if i < 6 then 0x61 else 0x62, availIn := 7 }

def runBytes : List Byte := [0x61, 0x61, 0x61, 0x61, 0x61, 0x61, 0x62]

/-- The six bytes are a run: four of them and their count go into the block. -/
theorem division_expands_run : ∃ (b b' : InBlock),
    @Division plainEnv 899981 runBytes
      [(b, runBytes)] b' [] ∧
    b.bytes = [0x61, 0x61, 0x61, 0x61, 2, 0x62] ∧
    expand b.bytes = runBytes ∧
    b.blockCRC = crcFold initialiseCrc runBytes ∧
    ∀ c : Byte, b.inUse c.toNat = true ↔ c ∈ b.bytes := by
  let _ : CompressEnv := plainEnv
  obtain ⟨s, strm, hc, hbytes⟩ : ∃ (s : EState) (strm : BzStream),
      Copies (EState.init 9) runStream runBytes s strm ∧
        s.input.flushRL.bytes = [0x61, 0x61, 0x61, 0x61, 2, 0x62] := by
    refine ⟨_, _, .step rfl (.step rfl (.step rfl (.step rfl (.step rfl (.step rfl (.step rfl
      (.refl _ _))))))), ?_⟩
    decide
  have hd := Division.flush (hc.division (.start _)) ⟨rfl, rfl⟩
  have hall := (division_expands hd).1 _ (List.mem_singleton_self _)
  exact ⟨s.input.flushRL, _, hd, hbytes, hall⟩

/-! ## 4. The divisions of a run -/

section

variable [CompressEnv]

/-- The division behind a state: while a closed block is on its way out, the next is not begun
    yet. -/
def Divided (s : EState) (input : List Byte) (parts : List (InBlock × List Byte))
    (rest : List Byte) : Prop :=
  Division s.nblockMAX input parts
    (if s.state = .input then s.input else s.input.prepareNewBlock) rest

section

variable {s s' : EState} {strm strm' : BzStream} {input rest : List Byte}
  {parts : List (InBlock × List Byte)}

/-- A byte taken. -/
theorem Divided.take (hd : Divided s input parts rest) (hs : s.state = .input)
    (h : copyInputStep s strm = some (s', strm')) :
    Divided s' (input ++ bytesAt strm.mem strm.nextIn (strm.availIn - strm'.availIn)) parts
      (rest ++ [strm.mem strm.nextIn]) := by
  unfold Divided at hd ⊢
  rw [if_pos hs] at hd
  have hc := hd.copy rfl h
  obtain ⟨_, hpos, _, rfl, rfl⟩ := copyInputStep_some h
  have hone : strm.availIn - strm.skipByte.availIn = 1 := by
    unfold BzStream.skipByte
    dsimp only
    omega
  rw [hone, if_pos hs]
  exact hc

/-- The block and the pending run closed by a flush. -/
theorem Divided.flush (hd : Divided s input parts rest) (hs : s.state = .input)
    (hl : -8 < s.out.bsLive) {isLastBlock : Bool}
    (h : compressBlock { s with input := s.input.flushRL } isLastBlock = .ok s') :
    Divided { s' with state := .output } input (parts ++ [(s.input.flushRL, rest)]) [] := by
  unfold Divided at hd
  rw [if_pos hs] at hd
  obtain ⟨hc, _⟩ := compressBlock_spec (s := { s with input := s.input.flushRL }) hl h
  show Division _ input _ (if SState.output = SState.input then _ else _) _
  rw [if_neg (by decide), hc.nblockMAX]
  exact hd.flush ⟨hc.stateInCh, hc.stateInLen⟩

/-- A full block closed: the pending run stays for the next one. -/
theorem Divided.full (hd : Divided s input parts rest) (hs : s.state = .input)
    (hl : -8 < s.out.bsLive) (hn : s.nblockMAX ≤ s.input.nblock) {isLastBlock : Bool}
    (h : compressBlock s isLastBlock = .ok s') :
    Divided { s' with state := .output } input
      (parts ++ [(s.input, rest.take (rest.length - s.input.stateInLen))])
      (rest.drop (rest.length - s.input.stateInLen)) := by
  unfold Divided at hd
  rw [if_pos hs] at hd
  obtain ⟨hc, _⟩ := compressBlock_spec hl h
  show Division _ input _ (if SState.output = SState.input then _ else _) _
  rw [if_neg (by decide), hc.nblockMAX]
  exact hd.full hn ⟨hc.stateInCh, hc.stateInLen⟩

/-- The next block begun. -/
theorem Divided.begin (hd : Divided s input parts rest) (hs : s.state = .output) :
    Divided { s.prepareNewBlock with state := .input } input parts rest := by
  unfold Divided at hd ⊢
  rw [if_neg (by rw [hs]; decide)] at hd
  rw [if_pos rfl]
  exact hd

end

/-- **The moves divide the input.** -/
theorem Move.divided {s s' : EState} {strm strm' : BzStream} (h : Move s strm s' strm')
    (hi : LoopOk s strm) {input rest : List Byte} {parts : List (InBlock × List Byte)}
    (hd : Divided s input parts rest) :
    ∃ parts' rest', Divided s'
      (input ++ bytesAt strm.mem strm.nextIn (strm.availIn - strm'.availIn)) parts' rest' := by
  cases h with
  | take hs h => exact ⟨_, _, hd.take hs h⟩
  | flush hs hm he h =>
    rw [Nat.sub_self, bytesAt_zero, List.append_nil]
    exact ⟨_, _, hd.flush hs hi.live h⟩
  | close hs hn he h =>
    rw [Nat.sub_self, bytesAt_zero, List.append_nil]
    exact ⟨_, _, hd.full hs hi.live hn h⟩
  | give hs hn h =>
    obtain ⟨rfl, _, _, _, _, _, hin⟩ := h
    rw [hin, Nat.sub_self, bytesAt_zero, List.append_nil]
    exact ⟨parts, rest, hd⟩
  | begin hs hp hf =>
    rw [Nat.sub_self, bytesAt_zero, List.append_nil]
    exact ⟨_, _, hd.begin hs⟩

theorem Moves.divided {s s' : EState} {strm strm' : BzStream} (h : Moves s strm s' strm')
    (hi : LoopOk s strm) {input rest : List Byte} {parts : List (InBlock × List Byte)}
    (hd : Divided s input parts rest) :
    ∃ parts' rest', Divided s'
      (input ++ bytesAt strm.mem strm.nextIn (strm.availIn - strm'.availIn)) parts' rest' := by
  induction h generalizing input parts rest with
  | refl =>
    rw [Nat.sub_self, bytesAt_zero, List.append_nil]
    exact ⟨_, _, hd⟩
  | @step s s₁ s' strm strm₁ strm' h hs ih =>
    obtain ⟨_, _, _, hmem, hle, _, hnext⟩ := h.frame hi.live
    have hi₁ := h.loopOk hi
    obtain ⟨_, _, _, _, hle', _, _⟩ := hs.frame hi₁
    obtain ⟨parts₁, rest₁, hd₁⟩ := h.divided hi hd
    obtain ⟨parts', rest', hd'⟩ := ih hi₁ hd₁
    refine ⟨parts', rest', ?_⟩
    have hsplit : strm.availIn - strm'.availIn =
        (strm.availIn - strm₁.availIn) + (strm₁.availIn - strm'.availIn) := by omega
    have hnext' : strm₁.nextIn = strm.nextIn + (strm.availIn - strm₁.availIn : Nat) := by omega
    rw [hsplit, bytesAt_add, ← List.append_assoc]
    rw [hmem, hnext'] at hd'
    exact hd'

theorem divided_enter {s : EState} {input rest : List Byte} {parts : List (InBlock × List Byte)}
    (hd : Divided s input parts rest) (strm : BzStream) (action : Int) :
    Divided (enter s strm action) input parts rest := by
  rw [enter_eq]
  exact hd

theorem Left.divided {s s' : EState} {strm : BzStream} {progress : Bool} {r : Ret}
    (h : Left s strm progress r s') {input rest : List Byte} {parts : List (InBlock × List Byte)}
    (hd : Divided s input parts rest) : Divided s' input parts rest := by
  cases h with
  | ran => exact hd
  | more => exact hd
  | flushed _ hc _ =>
    unfold Divided at hd ⊢
    rw [if_neg (by rw [hc.1]; decide)] at hd
    rw [if_pos rfl]
    exact hd
  | ended => exact hd

/-- **The runs of `BZ2_bzCompress` divide the input** they have consumed, whatever they were
    called with. -/
theorem bzCompress_division {blockSize100k : Nat} {calls : List Call} {s : EState}
    (h : CompressRun blockSize100k calls s) (h1 : 1 ≤ blockSize100k) :
    ∃ parts rest, Divided s (calls.flatMap Call.taken) parts rest := by
  induction h with
  | init => exact ⟨[], [], Division.start _⟩
  | @call calls s s' h c hc ih =>
    obtain ⟨parts, rest, hd⟩ := ih
    rw [List.flatMap_append, List.flatMap_cons, List.flatMap_nil, List.append_nil]
    unfold Call.taken
    rcases bzCompress_cases (h.resting h1) hc with ⟨_, _, rfl, he⟩ | ⟨_, p, s₁, hx, hl⟩
    · rw [he, Nat.sub_self, bytesAt_zero, List.append_nil]
      exact ⟨parts, rest, hd⟩
    · obtain ⟨parts', rest', hd'⟩ := hx.moves.divided hx.start (divided_enter hd c.strm c.action)
      exact ⟨parts', rest', hl.divided hd'⟩

/-- At the end of the stream the last block is closed, and no run is pending. -/
theorem Resting.nothing_left {s : EState} (hr : Resting s) (hm : s.mode = .idle)
    {input rest : List Byte} {parts : List (InBlock × List Byte)} (hd : Divided s input parts rest) :
    rest = [] := by
  obtain ⟨hs, hempty, _⟩ := hr.ended hm
  obtain ⟨-, -, hrest⟩ := hd.stands
  rw [if_neg (by rw [hs]; decide)] at hrest
  obtain ⟨hch, _⟩ := (isemptyRL_iff hr.run).mp hempty
  rw [← hrest.expands]
  unfold InBlock.pendingRun
  rw [if_neg (by show ¬ s.input.stateInCh < 256; omega)]
  rfl

end

end Qbz2
