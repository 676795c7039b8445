/-
  File:      Qbz2/Compress/Room.lean
  Subject:   `zbits` lies behind the block in `arr2` and is never written past its end.

  * `bitCount_le`, `bitCount_flatMap` -- bounds on the bits of some calls of `bsW`;
  * `BlockBody.bitCount_le` -- for a block: 17 bits a symbol, 6 a selector, 33 a length;
  * `HasRoom` -- the block, `zbits` and the accumulator have room in `arr2`;
  * **`compress_room`** -- at every call of `bsW`, in every run.
-/
import Qbz2.Compress.Stream

namespace Qbz2

/-! ## 1. The bits of a block -/

theorem bitCount_le {m : Nat} {writes : List (Nat × Word32)} (h : ∀ w ∈ writes, w.1 ≤ m) :
    bitCount writes ≤ m * writes.length := by
  induction writes with
  | nil => exact Nat.zero_le _
  | cons w writes ih =>
    have h1 := h w List.mem_cons_self
    have h2 := ih fun x hx => h x (List.mem_cons_of_mem _ hx)
    rw [bitCount_cons, List.length_cons, Nat.mul_succ]
    omega

theorem bitCount_flatMap {α : Type} {m : Nat} {l : List α} {f : α → List (Nat × Word32)}
    (h : ∀ x ∈ l, bitCount (f x) ≤ m) : bitCount (l.flatMap f) ≤ m * l.length := by
  induction l with
  | nil => exact Nat.zero_le _
  | cons x l ih =>
    have h1 := h x List.mem_cons_self
    have h2 := ih fun y hy => h y (List.mem_cons_of_mem _ hy)
    rw [List.flatMap_cons, bitCount_append, List.length_cons, Nat.mul_succ]
    omega

theorem bitCount_replicate (n : Nat) (w : Nat × Word32) :
    bitCount (List.replicate n w) = n * w.1 := by
  unfold bitCount
  rw [List.map_replicate, List.sum_replicate, smul_eq_mul]

theorem writeFlag_fst (b : Bool) : (writeFlag b).1 = 1 := by cases b <;> rfl

theorem bitCount_mappingWrites (inUse : Cells Bool) : bitCount (mappingWrites inUse) ≤ 272 := by
  have hflags : ∀ f : Nat → Bool, bitCount ((List.range 16).map fun i => writeFlag (f i)) ≤ 16 := by
    intro f
    have := @bitCount_le 1 ((List.range 16).map fun i => writeFlag (f i)) fun w hw => by
      obtain ⟨i, -, rfl⟩ := List.mem_map.mp hw
      exact Nat.le_of_eq (writeFlag_fst _)
    rw [List.length_map, List.length_range] at this
    exact this
  have hrows := @bitCount_flatMap Nat 16 (List.range 16) (fun i =>
    if inUse16 inUse i then (List.range 16).map fun j : Nat => writeFlag (inUse (i * 16 + j : Nat))
    else []) fun i _ => by
      split
      · exact hflags fun j => inUse (i * 16 + j : Nat)
      · exact Nat.zero_le 16
  rw [List.length_range] at hrows
  have := hflags (inUse16 inUse)
  unfold mappingWrites
  rw [bitCount_append]
  omega

theorem bitCount_selectorWrites (nGroups : Nat) {js : List Nat} (h : ∀ j ∈ js, j < 6) :
    bitCount (selectorWrites nGroups js) ≤ 18 + 6 * js.length := by
  have hrows := @bitCount_flatMap Nat 6 js (fun j => List.replicate j (1, 1) ++ [(1, 0)])
    fun j hj => by
      have := h j hj
      rw [bitCount_append, bitCount_replicate, bitCount_cons, bitCount_nil]
      omega
  unfold selectorWrites
  rw [bitCount_cons, bitCount_cons]
  omega

theorem bitCount_rowWrites (row : Cells Nat) : ∀ n i curr : Nat, 1 ≤ curr → curr ≤ 17 →
    (∀ j : Nat, i ≤ j → j < i + n → 1 ≤ row j ∧ row j ≤ 17) →
    bitCount (rowWrites row n i curr) ≤ 33 * n := by
  intro n
  induction n with
  | zero => exact fun _ _ _ _ _ => Nat.zero_le _
  | succ n ih =>
    intro i curr h1 h17 hrow
    obtain ⟨k1, k17⟩ := hrow i (Nat.le_refl i) (by omega)
    have hrest := ih (i + 1) (row i) k1 k17 fun j hj hlt => hrow j (by omega) (by omega)
    have hdelta : bitCount (deltaWrites curr (row i)) ≤ 33 := by
      unfold deltaWrites
      rw [bitCount_append, bitCount_append, bitCount_replicate, bitCount_replicate, bitCount_cons,
        bitCount_nil]
      omega
    rw [rowWrites, bitCount_append]
    omega

theorem bitCount_lengthWrites {alphaSize : Nat} (hpos : 0 < alphaSize) {len : List (Cells Nat)}
    (hlen : ∀ row ∈ len, CompleteCode alphaSize 17 row) :
    bitCount (lengthWrites alphaSize len) ≤ (5 + 33 * alphaSize) * len.length := by
  refine bitCount_flatMap fun row hrow => ?_
  have hrange : ∀ j : Nat, j < alphaSize → 1 ≤ row j ∧ row j ≤ 17 := (hlen row hrow).range
  obtain ⟨h1, h17⟩ := hrange 0 hpos
  have := bitCount_rowWrites row alphaSize 0 (row 0) h1 h17 fun j _ hj => hrange j (by omega)
  rw [bitCount_cons]
  omega

/-- **The bits of a block.** -/
theorem BlockBody.bitCount_le {b : InBlock} {body : List (Nat × Word32)} (h : BlockBody b body)
    (hb : Sortable b) :
    bitCount body ≤ 51509 + 6 * ((b.nblock + 50) / 50) + 17 * (b.nblock + 1) := by
  rcases h with ⟨-, rfl⟩ | ⟨hpos, k, hk, rfl⟩
  · exact Nat.zero_le _
  · obtain ⟨-, hlen, -, -⟩ := hk.symbols hpos hb
    obtain ⟨hcount, hcodes⟩ := hk.codeWrites_ok hpos hb
    have hsel : k.selector.length = ((k.symbols b).length + 49) / 50 := hk.tabled.count
    have hrows : k.len.length = k.nGroups := hk.tabled.rows
    have h6 := hk.groups.2
    have halpha : BlockCode.alphaSize b ≤ 258 := by
      have := length_usedBytes_le b.inUse
      unfold BlockCode.alphaSize
      omega
    have h1 : bitCount (blockHeaderWrites (~~~b.blockCRC) k.origPtr) = 105 := rfl
    have h2 := bitCount_mappingWrites b.inUse
    have h3 := @bitCount_selectorWrites k.nGroups
      (selectorMtfs ((List.range k.nGroups).map (BitVec.ofNat 8)) k.selector) fun j hj => by
        have := selectorMtfs_lt k.selector ((List.range k.nGroups).map (BitVec.ofNat 8))
          (fun sel hs => mem_selectorStart (hk.tabled.lt sel hs)) j hj
        rw [List.length_map, List.length_range] at this
        omega
    rw [length_selectorMtfs] at h3
    have h4 : bitCount (lengthWrites (BlockCode.alphaSize b) k.len) ≤
        (5 + 33 * BlockCode.alphaSize b) * k.len.length :=
      bitCount_lengthWrites (Nat.succ_pos _) hk.tabled.complete
    have h4' : (5 + 33 * BlockCode.alphaSize b) * k.len.length ≤ (5 + 33 * 258) * 6 :=
      Nat.mul_le_mul (by omega) (by omega)
    have h5 := Qbz2.bitCount_le fun w hw => (hcodes w hw).2
    rw [hcount] at h5
    have hall : bitCount (k.writes b) = bitCount (blockHeaderWrites (~~~b.blockCRC) k.origPtr) +
        (bitCount (mappingWrites b.inUse) + bitCount (selectorWrites k.nGroups
          (selectorMtfs ((List.range k.nGroups).map (BitVec.ofNat 8)) k.selector)) +
          bitCount (lengthWrites (BlockCode.alphaSize b) k.len) + bitCount (k.codeWrites b)) := by
      unfold BlockCode.writes
      simp only [bitCount_append]
      rfl
    omega

/-! ## 2. Room in `arr2` -/

/-- The block, `zbits` behind it, and what the accumulator will still put there, have room in
    `arr2`. -/
def HasRoom (blockSize100k nblock : Nat) (w : BitWriter) : Prop :=
  nblock + w.numZ + (w.bsLive.toNat + 7) / 8 ≤ 4 * (100000 * blockSize100k + 34)

theorem total_bsWs (writes : List (Nat × Word32)) : ∀ w : BitWriter,
    (w.bsWs writes).total = w.total + bitCount writes := by
  induction writes with
  | nil => exact fun w => (Int.add_zero _).symm
  | cons x writes ih =>
    intro w
    show ((w.bsW x.1 x.2).bsWs writes).total = _
    rw [ih, BitWriter.total_bsW, bitCount_cons]
    omega

/-- `bsFinishWrite` only moves bytes. -/
theorem finishLoop_room : ∀ (fuel : Nat) (w : BitWriter),
    (BitWriter.finishLoop fuel w).numZ + ((BitWriter.finishLoop fuel w).bsLive.toNat + 7) / 8 =
      w.numZ + (w.bsLive.toNat + 7) / 8 := by
  intro fuel
  induction fuel with
  | zero => exact fun _ => rfl
  | succ fuel ih =>
    intro w
    unfold BitWriter.finishLoop
    split
    · rw [ih]
      unfold BitWriter.numZ
      dsimp only
      rw [List.length_append, List.length_singleton]
      omega
    · rfl

section

variable [CompressEnv] {blockSize100k : Nat}

omit [CompressEnv] in
/-- The first calls for a block leave room. -/
theorem hasRoom_writes (h1 : 1 ≤ blockSize100k) {b : InBlock} (hb : Sortable b)
    (hn : b.nblock ≤ 100000 * blockSize100k - 10) {w : BitWriter} (hlive : -8 < w.bsLive)
    (htotal : w.total < 64) {head body tail before : List (Nat × Word32)} (hbody : BlockBody b body)
    (hhead : bitCount head ≤ 32) (htail : bitCount tail ≤ 80)
    (hbefore : before <+: head ++ body ++ tail) : HasRoom blockSize100k b.nblock (w.bsWs before) := by
  obtain ⟨after, hsplit⟩ := hbefore
  have hcount := congrArg bitCount hsplit
  rw [bitCount_append, bitCount_append, bitCount_append] at hcount
  have hbits := hbody.bitCount_le hb
  have ht := total_bsWs before w
  have hl := BitWriter.bsLive_bsWs before w hlive
  unfold BitWriter.total at ht htotal
  unfold HasRoom
  omega

/-- **`arr2` has room**: in every run the block keeps below `100000 * blockSize100k - 10` bytes,
    also between the moves of a call; and when a block is closed, at every call of `bsW` and at
    every round of `bsFinishWrite`, the block, `zbits` and the accumulator fit in `arr2`. -/
theorem compress_room (hsais : SaisSucceeds) (h1 : 1 ≤ blockSize100k) (h9 : blockSize100k ≤ 9)
    {calls : List Call} {s : EState} (h : CompressRun blockSize100k calls s) :
    s.input.nblock ≤ 100000 * blockSize100k - 10 ∧
    ∀ (strm : BzStream) (action : Int), Accepts s strm action →
      ∀ s₁ strm₁, Moves (enter s strm action) strm s₁ strm₁ →
        s₁.input.nblock ≤ 100000 * blockSize100k - 10 ∧
        (s₁.state = .input → ∀ c, s₁.closing = some c →
          c.1.input.nblock ≤ 100000 * blockSize100k - 10 ∧
          ∃ writes, compressWrites c.1 c.2 = .ok writes ∧
            (∀ before, before <+: writes →
              HasRoom blockSize100k c.1.input.nblock (c.1.writer.bsWs before)) ∧
            ∀ rounds, HasRoom blockSize100k c.1.input.nblock
              (BitWriter.finishLoop rounds (c.1.writer.bsWs writes))) := by
  have hsized := h.sized h1
  refine ⟨?_, fun strm action ha s₁ strm₁ hm => ?_⟩
  · have := hsized.full
    have := hsized.max
    omega
  obtain ⟨hi, -⟩ := (h.resting h1).enter ha
  obtain ⟨parts, rest, writes, hd, he⟩ := h.emitted hsais h1 h9
  have hz₁ := hm.sized hi (sized_enter hsized strm action)
  have hi₁ := hm.loopOk hi
  obtain ⟨parts₁, rest₁, writes₁, _, -, hd₁, he₁⟩ := hm.emitted hsais h1 h9 hi
    (sized_enter hsized strm action) (divided_enter hd strm action)
    (emitted_enter he (h.resting h1) strm action)
  have hfull := hz₁.full
  have hmax := hz₁.max
  refine ⟨by omega, fun hs c hc => ?_⟩
  have hb := closing_sortable h9 h1 hz₁ hs hd₁ hc
  have hn : c.1.input.nblock ≤ 100000 * blockSize100k - 10 ∧ c.1.out = s₁.out := by
    unfold EState.closing at hc
    split at hc
    · cases hc
      have hfl := nblock_flushRL s₁.input
      have hfill := hz₁.filling hs
      exact ⟨by dsimp only; omega, rfl⟩
    · split at hc
      · cases hc
        exact ⟨show s₁.input.nblock ≤ _ by omega, rfl⟩
      · cases hc
  obtain ⟨s₂, body, hok, hbody, hcrc, hwrites⟩ := compressBlock_ok hsais c.2 hb
  -- less than 64 bits are left from the block before
  have hstart : -8 < c.1.writer.bsLive ∧ c.1.writer.total < 64 := by
    obtain ⟨sent, -, hmore, -⟩ := he₁.out
    obtain ⟨bits, hbits, -⟩ := hmore (not_last_of_input hs)
    have hlive := hbits.live
    have hshort := hbits.short
    have hnil : c.1.out.zbits = [] := by
      rw [hn.2]
      exact List.length_eq_zero_iff.mp (hi₁.input hs).1
    have hlive' : c.1.out.bsLive = s₁.out.bsLive := by rw [hn.2]
    have hw : c.1.writer.zbits = [] ∧
        (c.1.writer.bsLive = 0 ∨ c.1.writer.bsLive = s₁.out.bsLive) := by
      unfold EState.writer
      dsimp only
      split
      · split
        · exact ⟨rfl, .inl rfl⟩
        · exact ⟨hnil, .inl rfl⟩
      · split
        · exact ⟨rfl, .inr hlive'⟩
        · exact ⟨hnil, .inr hlive'⟩
    unfold BitWriter.total BitWriter.numZ
    rw [hw.1]
    dsimp only [List.length_nil]
    omega
  have hhead : bitCount (if c.1.blockNo = 1 then headerWrites c.1.blockSize100k else []) ≤ 32 := by
    split
    · exact Nat.le_refl 32
    · exact Nat.zero_le 32
  have htail : bitCount (if c.2 then trailerWrites s₂.combinedCRC else []) ≤ 80 := by
    split
    · exact Nat.le_refl 80
    · exact Nat.zero_le 80
  refine ⟨hn.1, _, hwrites, fun before hbefore =>
    hasRoom_writes h1 hb hn.1 hstart.1 hstart.2 hbody hhead htail hbefore, fun rounds => ?_⟩
  have hroom := hasRoom_writes h1 hb hn.1 hstart.1 hstart.2 hbody hhead htail
    (List.prefix_refl _)
  have hmoved := finishLoop_room rounds (c.1.writer.bsWs
    ((if c.1.blockNo = 1 then headerWrites c.1.blockSize100k else []) ++ body ++
      if c.2 then trailerWrites s₂.combinedCRC else []))
  unfold HasRoom at hroom ⊢
  omega

end

/-- The block of one byte, closed by the first call of a run. -/
theorem compress_room_oneByte : ∃ s₁ strm₁ c writes,
    @Moves sortingEnv (enter (EState.init 9) oneByteStream bzFinish) oneByteStream s₁ strm₁ ∧
    @EState.closing sortingEnv s₁ = some c ∧ c.1.input.nblock = 1 ∧ @compressWrites sortingEnv c.1 c.2 = .ok writes ∧
    (∀ before, before <+: writes → HasRoom 9 1 (c.1.writer.bsWs before)) ∧
    ∀ rounds, HasRoom 9 1 (BitWriter.finishLoop rounds (c.1.writer.bsWs writes)) := by
  let _ : CompressEnv := sortingEnv
  obtain ⟨⟨s₁, strm₁⟩, htake⟩ := Option.isSome_iff_exists.mp
    (show (copyInputStep (enter (EState.init 9) oneByteStream bzFinish) oneByteStream).isSome = true
      from by decide +kernel)
  have hm := (Move.take (by rfl) htake).moves
  have hs : s₁.state = .input ∧ s₁.closing.map (fun c => c.1.input.nblock) = some 1 := by
    have hval : (copyInputStep (enter (EState.init 9) oneByteStream bzFinish) oneByteStream).map
        (fun x => (x.1.state, x.1.closing.map fun c => c.1.input.nblock)) =
        some (.input, some 1) := by decide +kernel
    rw [htake] at hval
    simpa using hval
  obtain ⟨c, hc, hn⟩ := Option.map_eq_some_iff.mp hs.2
  obtain ⟨-, hmoves⟩ := compress_room sortingEnv_succeeds (by decide) (by decide)
    (.init : CompressRun 9 [] (EState.init 9))
  obtain ⟨-, hclose⟩ := hmoves oneByteStream bzFinish
    ⟨.inr (.inr rfl), fun he => by rcases he with he | he <;> cases he⟩ s₁ strm₁ hm
  obtain ⟨-, writes, hwrites, hroom, hrounds⟩ := hclose hs.1 c hc
  rw [hn] at hroom hrounds
  exact ⟨s₁, strm₁, c, writes, hm, hc, hn, hwrites, hroom, hrounds⟩

end Qbz2
