/-
  File:      Qbz2/Compress/Emission.lean
  Subject:   The calls of `bsW` in `BZ2_compressBlock`, and that it returns.

  * `headerWrites`, `blockWrites`, `trailerWrites` -- the calls, in their order;
    `compressWrites` -- those of a whole `BZ2_compressBlock`;
  * `compressBlock_out` -- the writer after `BZ2_compressBlock` is the writer before it, after
    these calls;
  * `Ready` -- what a block must be for its sort and its symbols; `BlockCode` -- what is written for
    it;
  * **`compressBlock_ok`** -- then `BZ2_compressBlock` returns, where `libsais` answers.
-/
import Qbz2.BlockSort.Agree
import Qbz2.Compress.Division
import Qbz2.Compress.MtfSymbols
import Qbz2.Compress.Sent

namespace Qbz2

/-! ## 1. The calls of `bsW` -/

/-- `bsPutUChar`. -/
def byteWrite (c : Byte) : Nat × Word32 := (8, c.setWidth 32)

/-- `bsPutUInt32`. -/
def wordWrites (u : Word32) : List (Nat × Word32) :=
  [(8, (u >>> 24) &&& 0xff), (8, (u >>> 16) &&& 0xff), (8, (u >>> 8) &&& 0xff), (8, u &&& 0xff)]

/-- The header of the stream. -/
def headerWrites (blockSize100k : Nat) : List (Nat × Word32) :=
  [byteWrite 0x42, byteWrite 0x5a, byteWrite 0x68, byteWrite (BitVec.ofNat 8 (0x30 + blockSize100k))]

/-- The header of a block. -/
def blockHeaderWrites (blockCRC : Word32) (origPtr : Int) : List (Nat × Word32) :=
  [byteWrite 0x31, byteWrite 0x41, byteWrite 0x59, byteWrite 0x26, byteWrite 0x53, byteWrite 0x59] ++
    wordWrites blockCRC ++ [(1, 0), (24, BitVec.ofInt 32 origPtr)]

/-- The trailer of the stream. -/
def trailerWrites (combinedCRC : Word32) : List (Nat × Word32) :=
  [byteWrite 0x17, byteWrite 0x72, byteWrite 0x45, byteWrite 0x38, byteWrite 0x50, byteWrite 0x90] ++
    wordWrites combinedCRC

theorem bsWs_append (w : BitWriter) (a b : List (Nat × Word32)) :
    w.bsWs (a ++ b) = (w.bsWs a).bsWs b := List.foldl_append

section

variable [CompressEnv]

/-- The calls for a block that is not empty, after its sort. -/
def blockWrites (s : EState) : HuffRun (List (Nat × Word32)) := do
  let values := generateMTFValues CompressEnv.sse2 s.input.block s.input.nblock s.input.inUse
    s.values
  let writes ← sendMTFValues values.symbols values.mtfFreq values.nInUse s.input.inUse
  .ok (blockHeaderWrites s.input.blockCRC s.origPtr ++ writes)

/-- These, where there is a block. -/
def whereWrites (s : EState) : HuffRun (List (Nat × Word32)) :=
  if s.input.nblock > 0 then blockWrites s else .ok []

/-- The calls of `BZ2_compressBlock`. -/
def compressWrites (s : EState) (isLastBlock : Bool) : HuffRun (List (Nat × Word32)) := do
  let s ← whereBlock sortBlock s
  let writes ← whereWrites s
  .ok ((if s.blockNo = 1 then headerWrites s.blockSize100k else []) ++ writes ++
    if isLastBlock then trailerWrites s.combinedCRC else [])

/-- The writer `BZ2_compressBlock` starts with. -/
def EState.writer (s : EState) : BitWriter :=
  let w := if s.input.nblock > 0 ∧ s.blockNo > 1 then { s.out with zbits := [] } else s.out
  if s.blockNo = 1 then w.initWrite else w

omit [CompressEnv] in
theorem writeHeader_out (s : EState) : (writeHeader s).out =
    (if s.blockNo = 1 then s.out.initWrite else s.out).bsWs
      (if s.blockNo = 1 then headerWrites s.blockSize100k else []) := by
  unfold writeHeader
  split <;> rfl

omit [CompressEnv] in
theorem writeTrailer_out (s : EState) :
    (writeTrailer s).out = (s.out.bsWs (trailerWrites s.combinedCRC)).finishWrite := by
  unfold writeTrailer trailerWrites
  rw [bsWs_append]
  exact congrArg BitWriter.finishWrite rfl

theorem writeBlock_out {s s' : EState} (h : writeBlock s = .ok s') :
    ∃ writes, blockWrites s = .ok writes ∧ s'.out = s.out.bsWs writes := by
  unfold writeBlock at h
  dsimp only at h
  obtain ⟨writes, hw, he⟩ := bind_ok h
  refine ⟨blockHeaderWrites s.input.blockCRC s.origPtr ++ writes, ?_, ?_⟩
  · unfold blockWrites
    dsimp only
    rw [hw]
    rfl
  · cases he
    rw [bsWs_append]
    rfl

/-- What the sort leaves to the writer. -/
theorem sortBlock_out {s s' : EState} (h : sortBlock s = .ok s') :
    s'.out = (if s.blockNo > 1 then { s.out with zbits := [] } else s.out) := by
  unfold sortBlock at h
  dsimp only at h
  obtain ⟨r, -, he⟩ := bind_ok h
  cases he
  rfl

/-- **The writer after `BZ2_compressBlock`.** -/
theorem compressBlock_out {s s' : EState} {isLastBlock : Bool}
    (h : compressBlock s isLastBlock = .ok s') :
    ∃ writes, compressWrites s isLastBlock = .ok writes ∧
      s'.out = if isLastBlock then (s.writer.bsWs writes).finishWrite else s.writer.bsWs writes := by
  unfold compressBlock at h
  obtain ⟨s₁, h₁, h⟩ := bind_ok h
  obtain ⟨s₂, h₂, h⟩ := bind_ok h
  have hs₁ : s₁.input.nblock = s.input.nblock ∧ s₁.blockNo = s.blockNo ∧
      s₁.blockSize100k = s.blockSize100k ∧ s₁.out =
        if s.input.nblock > 0 ∧ s.blockNo > 1 then { s.out with zbits := [] } else s.out := by
    unfold whereBlock at h₁
    split at h₁
    · rename_i hpos
      obtain ⟨hc, -⟩ := sortBlock_spec h₁
      refine ⟨hc.nblock, hc.blockNo, hc.blockSize100k, ?_⟩
      rw [sortBlock_out h₁]
      by_cases hno : s.blockNo > 1
      · rw [if_pos hno, if_pos ⟨hpos, hno⟩]
      · rw [if_neg hno, if_neg fun h => hno h.2]
    · rename_i hpos
      cases h₁
      exact ⟨rfl, rfl, rfl, by rw [if_neg fun h => hpos h.1]⟩
  obtain ⟨hn₁, hno₁, hsize₁, hout₁⟩ := hs₁
  -- the block itself
  obtain ⟨writes, hwrites, hout₂, hcrc₂⟩ : ∃ writes, whereWrites s₁ = .ok writes ∧
        s₂.out = (writeHeader s₁).out.bsWs writes ∧ s₂.combinedCRC = s₁.combinedCRC := by
    have hsame : (writeHeader s₁).input = s₁.input ∧ (writeHeader s₁).values = s₁.values ∧
        (writeHeader s₁).origPtr = s₁.origPtr ∧ (writeHeader s₁).combinedCRC = s₁.combinedCRC := by
      unfold writeHeader
      split <;> exact ⟨rfl, rfl, rfl, rfl⟩
    unfold whereBlock at h₂
    unfold whereWrites
    rw [hsame.1] at h₂
    split at h₂
    · rename_i hpos
      rw [if_pos hpos]
      obtain ⟨writes, hw, ho⟩ := writeBlock_out h₂
      refine ⟨writes, ?_, ho, ?_⟩
      · unfold blockWrites at hw ⊢
        rw [hsame.1, hsame.2.1, hsame.2.2.1] at hw
        exact hw
      · rw [← hsame.2.2.2]
        unfold writeBlock at h₂
        dsimp only at h₂
        obtain ⟨_, -, he⟩ := bind_ok h₂
        cases he
        rfl
    · rename_i hpos
      rw [if_neg hpos]
      cases h₂
      exact ⟨[], rfl, rfl, hsame.2.2.2⟩
  refine ⟨(if s₁.blockNo = 1 then headerWrites s₁.blockSize100k else []) ++ writes ++
    if isLastBlock then trailerWrites s₁.combinedCRC else [], ?_, ?_⟩
  · unfold compressWrites
    rw [h₁]
    show (whereWrites s₁ >>= _) = _
    rw [hwrites]
    rfl
  · have hw : s₂.out = s.writer.bsWs
        ((if s₁.blockNo = 1 then headerWrites s₁.blockSize100k else []) ++ writes) := by
      rw [hout₂, writeHeader_out, bsWs_append, EState.writer, hout₁, hno₁]
    cases isLastBlock with
    | true =>
      cases h
      rw [if_pos rfl, if_pos rfl, if_pos rfl, writeTrailer_out, hcrc₂, hw, bsWs_append _ (_ ++ _)]
    | false =>
      cases h
      rw [if_neg Bool.false_ne_true, if_neg Bool.false_ne_true, if_neg Bool.false_ne_true,
        List.append_nil, hw]

end

/-! ## 2. A block -/

/-- A block with room left in `zbits` for its code, whose `inUse` names its bytes. -/
structure Sortable (b : InBlock) : Prop where
  size : b.nblock ≤ 899990
  inUse : ∀ c : Byte, b.inUse c.toNat = true ↔ c ∈ b.bytes

theorem mem_bytesAt (mem : Int → Byte) : ∀ (n : Nat) (a x : Int), a ≤ x → x < a + n →
    mem x ∈ bytesAt mem a n := by
  intro n
  induction n with
  | zero => intro a x h0 h1; omega
  | succ n ih =>
    intro a x h0 h1
    rw [bytesAt_succ]
    by_cases h : x = a
    · subst h
      exact List.mem_cons_self
    · exact List.mem_cons_of_mem _ (ih (a + 1) x (by omega) (by omega))

/-- What is written for a block: the rotations in order, and with them the last column; the tables
    and the choice among them. -/
structure BlockCode where
  block : Cells Byte
  sse2 : Bool
  values : MtfValues Arr1
  origPtr : Int
  nGroups : Nat
  selector : List Byte
  len : List (Cells Nat)

namespace BlockCode

/-- The symbols of the last column. -/
def symbols (k : BlockCode) (b : InBlock) : List Nat :=
  (generateMTFValues k.sse2 k.block b.nblock b.inUse k.values).symbols

/-- The alphabet of the symbols. -/
def alphaSize (b : InBlock) : Nat := (usedBytes b.inUse).length + 2

/-- The calls of `bsW` for the block. -/
def writes (k : BlockCode) (b : InBlock) : List (Nat × Word32) :=
  blockHeaderWrites (~~~b.blockCRC) k.origPtr ++
    (mappingWrites b.inUse ++
      selectorWrites k.nGroups
        (selectorMtfs ((List.range k.nGroups).map (BitVec.ofNat 8)) k.selector) ++
      lengthWrites (alphaSize b) k.len ++
      symbolWrites (alphaSize b) k.len (groupsOf (k.symbols b).length (k.symbols b)) k.selector)

/-- The code belongs to the block. -/
structure Fits (k : BlockCode) (b : InBlock) : Prop where
  block : ∀ x : Int, 0 ≤ x → x < b.nblock → k.block x = b.block x
  sorted : Rotation.RotSort (sym b.block) b.nblock k.values.arrays.ptrs
  row : 0 ≤ k.origPtr ∧ k.origPtr ≤ b.nblock - 1 ∧ k.values.arrays.ptrs k.origPtr = 0
  groups : 2 ≤ k.nGroups ∧ k.nGroups ≤ 6
  tabled : Tabled k.nGroups (alphaSize b) (((k.symbols b).length + 49) / 50) (k.selector, k.len)

end BlockCode

/-- The last column of the sorted rotations holds bytes of the block. -/
theorem lastByte_inUse {b : InBlock} (h : Sortable b) {block : Cells Byte} {ptr : Cells Int}
    (hb : ∀ x : Int, 0 ≤ x → x < b.nblock → block x = b.block x)
    (hR : Rotation.RotSort (sym b.block) b.nblock ptr) {i : Nat} (hi : i < b.nblock) :
    b.inUse (lastByte block ptr b.nblock i).toNat = true := by
  obtain ⟨h0, h1⟩ := hR.range i (by omega) (by omega)
  have hmod := Int.emod_nonneg (ptr i - 1) (show (b.nblock : Int) ≠ 0 by omega)
  have hlt := Int.emod_lt_of_pos (ptr i - 1) (show (0 : Int) < b.nblock by omega)
  have hbyte : lastByte block ptr b.nblock i = b.block ((ptr i - 1) % b.nblock) :=
    BitVec.eq_of_toNat_eq (lastByte_eq hb h0 h1)
  rw [h.inUse, hbyte]
  exact mem_bytesAt _ _ _ _ hmod (by omega)

/-- The symbols of a block: at most one more than its bytes, and none past `EOB`. -/
theorem symbols_bound {b : InBlock} (hpos : 0 < b.nblock) (hb : Sortable b) {block : Cells Byte}
    {values : MtfValues Arr1} (hblock : ∀ x : Int, 0 ≤ x → x < b.nblock → block x = b.block x)
    (hR : Rotation.RotSort (sym b.block) b.nblock values.arrays.ptrs) (sse2 : Bool) :
    let r := generateMTFValues sse2 block b.nblock b.inUse values
    r.nInUse = (usedBytes b.inUse).length ∧ 1 ≤ (usedBytes b.inUse).length ∧ r.symbols ≠ [] ∧
      r.symbols.length ≤ b.nblock + 1 ∧ ∀ v ∈ r.symbols, v < BlockCode.alphaSize b := by
  intro r
  obtain ⟨last, hlast⟩ : ∃ last : Nat → Byte, last = fun i : Nat =>
      lastByte block values.arrays.ptrs b.nblock i := ⟨_, rfl⟩
  have hused : ∀ i, i < b.nblock → b.inUse (last i).toNat := by
    intro i hi
    rw [hlast]
    exact lastByte_inUse hb hblock hR hi
  have hread : ∀ i, i < b.nblock → last i = block (if MtfArrays.ptr values.arrays i - 1 < 0
      then MtfArrays.ptr values.arrays i - 1 + b.nblock
      else MtfArrays.ptr values.arrays i - 1) := by
    intro i _
    rw [hlast]
    rfl
  obtain ⟨hnIn, hsyms, -⟩ :=
    generateMTFValues_spec sse2 block b.nblock b.inUse values hread hused
  have hk1 : 1 ≤ (usedBytes b.inUse).length := by
    have := (seqOf_lt (hused 0 hpos)).2
    omega
  obtain ⟨col, hcol⟩ : ∃ col, col = seqColumn b.inUse last b.nblock := ⟨_, rfl⟩
  have hclen : col.length = b.nblock := by
    rw [hcol, seqColumn, List.length_map, List.length_range]
  have hcmem : ∀ c ∈ col, c ∈ seqList (usedBytes b.inUse).length := by
    intro c hc
    rw [hcol] at hc
    obtain ⟨i, hi, rfl⟩ := List.mem_map.mp hc
    exact mem_seqList (seqOf_lt (hused i (List.mem_range.mp hi))).2
  have hcount := ZeroRun.length_coded col (seqList (usedBytes b.inUse).length) 0
  have hle := ZeroRun.coded_le col (seqList (usedBytes b.inUse).length) 0 hcmem
    (by rw [length_seqList]; exact hk1)
  rw [← hcol] at hsyms
  have hr : r.symbols = ZeroRun.coded (seqList (usedBytes b.inUse).length) 0 col ++
    [(usedBytes b.inUse).length + 1] := hsyms
  refine ⟨hnIn, hk1, ?_, ?_, fun v hv => ?_⟩
  · rw [hr]
    exact List.append_ne_nil_of_right_ne_nil _ (List.cons_ne_nil _ _)
  · rw [hr, List.length_append, List.length_singleton]
    omega
  · unfold BlockCode.alphaSize
    rw [hr] at hv
    rcases List.mem_append.mp hv with hv | hv
    · have := hle v hv
      rw [length_seqList] at this
      omega
    · have := List.mem_singleton.mp hv
      omega

section

variable [CompressEnv]

/-- `libsais` and `malloc` do not fail for any block they are asked for. -/
def SaisSucceeds : Prop := ∀ (block : Cells Byte) (n : Int), 10000 ≤ n → n ≤ 899990 →
  CompressEnv.sais.Answers block n

/-- **`BZ2_blockSort` returns**, with the rotations in order. -/
theorem bz2BlockSort_ok (hsais : SaisSucceeds) (s : SortState) (h1 : 1 ≤ s.nblock)
    (hmax : s.nblock ≤ 899990) :
    ∃ r, bz2BlockSort CompressEnv.sais s = .ok r ∧
      Rotation.RotSort (sym s.block) s.nblock r.ptr ∧
      (∀ x, 0 ≤ x → x < s.nblock → r.block x = s.block x) ∧
      0 ≤ r.origPtr ∧ r.origPtr ≤ s.nblock - 1 ∧ r.ptr r.origPtr = 0 := by
  unfold bz2BlockSort
  by_cases hn : s.nblock < 10000
  · rw [if_pos hn]
    obtain ⟨f, e, bh, hf, hR, he⟩ := fallbackSort_spec s.ptr s.block s.ftab h1
      (Int.lt_of_le_of_lt hmax (by decide))
    obtain ⟨k0, k1, k2⟩ := findRow_of_rotSort h1 hR
    rw [hf]
    have hassert : decide (findRow f s.nblock.toNat 0 ≠ -1) = true := decide_eq_true (by omega)
    show ∃ r, (assertH (decide (findRow f s.nblock.toNat 0 ≠ -1)) 1003 >>= _) = .ok r ∧ _
    rw [hassert]
    exact ⟨_, rfl, hR, he, k0, k1, k2⟩
  · rw [if_neg hn]
    obtain ⟨hR, k0, k1, k2, -⟩ := saisBwt_spec h1 (hsais s.block s.nblock (by omega) hmax) s.ptr
      s.origPtr
    have hassert : decide ((saisBwt CompressEnv.sais s.block s.ptr s.nblock s.origPtr).2 ≠ -1) = true :=
      decide_eq_true (by omega)
    show ∃ r, (assertH (decide ((saisBwt CompressEnv.sais s.block s.ptr s.nblock s.origPtr).2 ≠ -1))
      1003 >>= _) = .ok r ∧ _
    rw [hassert]
    exact ⟨_, rfl, hR, fun _ _ _ => rfl, k0, k1, k2⟩

/-- `BZ2_compressBlock` takes in the CRC of a block. -/
def nextCombined (combinedCRC : Word32) (b : InBlock) : Word32 :=
  if b.nblock > 0 then ((combinedCRC <<< 1) ||| (combinedCRC >>> 31)) ^^^ ~~~b.blockCRC
  else combinedCRC

/-- What is written for a block, if it is not empty. -/
def BlockBody (b : InBlock) (writes : List (Nat × Word32)) : Prop :=
  b.nblock = 0 ∧ writes = [] ∨ 0 < b.nblock ∧ ∃ k : BlockCode, k.Fits b ∧ writes = k.writes b

/-- The sort of a block. -/
theorem sortBlock_ok (hsais : SaisSucceeds) {s : EState} (hpos : 0 < s.input.nblock)
    (hb : Sortable s.input) :
    ∃ s', sortBlock s = .ok s' ∧ s'.input.nblock = s.input.nblock ∧
      s'.input.inUse = s.input.inUse ∧ s'.input.blockCRC = ~~~s.input.blockCRC ∧
      s'.combinedCRC = nextCombined s.combinedCRC s.input ∧ s'.blockNo = s.blockNo ∧
      s'.blockSize100k = s.blockSize100k ∧
      (∀ x : Int, 0 ≤ x → x < s.input.nblock → s'.input.block x = s.input.block x) ∧
      Rotation.RotSort (sym s.input.block) s.input.nblock s'.values.arrays.ptrs ∧
      0 ≤ s'.origPtr ∧ s'.origPtr ≤ s.input.nblock - 1 ∧ s'.values.arrays.ptrs s'.origPtr = 0 := by
  have hsize := hb.size
  obtain ⟨r, hr, hR, hblock, k0, k1, k2⟩ := bz2BlockSort_ok hsais
    { ptr := s.ptrs, block := s.input.block, ftab := s.ftab, nblock := s.input.nblock,
      origPtr := s.origPtr } (show (1 : Int) ≤ s.input.nblock by omega)
    (show (s.input.nblock : Int) ≤ 899990 by omega)
  dsimp only at hR hblock k1
  have hptr : ∀ i, 0 ≤ i → i ≤ (s.input.nblock : Int) - 1 → (Arr1.ofPtr r.ptr).ptrs i = r.ptr i := by
    intro i h0 h1
    obtain ⟨hl, hh⟩ := hR.range i h0 h1
    exact ptr_ofPtr r.ptr hl (by omega)
  have hRp : Rotation.RotSort (sym s.input.block) s.input.nblock (Arr1.ofPtr r.ptr).ptrs := by
    refine ⟨fun i j hi0 hi1 hj0 hj1 he => ?_, fun i h0 h1 => ?_, fun i j hi0 hij hj1 => ?_⟩
    · rw [hptr i hi0 hi1, hptr j hj0 hj1] at he
      exact hR.inj i j hi0 hi1 hj0 hj1 he
    · rw [hptr i h0 h1]
      exact hR.range i h0 h1
    · rw [hptr i hi0 (by omega), hptr j (by omega) hj1]
      exact hR.ord i j hi0 hij hj1
  unfold EState.ptrs at hr
  unfold sortBlock EState.ptrs
  dsimp only
  rw [hr]
  refine ⟨_, rfl, rfl, rfl, rfl, ?_, rfl, rfl, hblock, hRp, k0, k1, ?_⟩
  · unfold nextCombined
    rw [if_pos hpos]
  · exact (hptr r.origPtr k0 k1).trans k2

/-- The symbols of a block. -/
theorem blockWrites_ok {s : EState} {b : InBlock} (hpos : 0 < b.nblock) (hb : Sortable b)
    (hn : s.input.nblock = b.nblock) (huse : s.input.inUse = b.inUse)
    (hcrc : s.input.blockCRC = ~~~b.blockCRC)
    (hblock : ∀ x : Int, 0 ≤ x → x < b.nblock → s.input.block x = b.block x)
    (hR : Rotation.RotSort (sym b.block) b.nblock s.values.arrays.ptrs)
    (hrow : 0 ≤ s.origPtr ∧ s.origPtr ≤ b.nblock - 1 ∧ s.values.arrays.ptrs s.origPtr = 0) :
    ∃ k : BlockCode, k.Fits b ∧ blockWrites s = .ok (k.writes b) ∧
      ∃ s', writeBlock s = .ok s' ∧ s'.combinedCRC = s.combinedCRC := by
  obtain ⟨values, hv⟩ : ∃ values, values = generateMTFValues CompressEnv.sse2 s.input.block
    b.nblock b.inUse s.values := ⟨_, rfl⟩
  have hbound := symbols_bound hpos hb hblock hR CompressEnv.sse2
  rw [← hv] at hbound
  obtain ⟨hnIn, hk1, hne, hlen, -⟩ := hbound
  have h256 := length_usedBytes_le b.inUse
  have hsize := hb.size
  obtain ⟨nGroups, selector, len, h2, h6, ht, hsend⟩ := sendMTFValues_spec hne (by omega)
    values.mtfFreq (show 1 ≤ values.nInUse by omega) (by omega) b.inUse
  rw [hnIn] at ht hsend
  obtain ⟨k, hk⟩ : ∃ k : BlockCode, k = ⟨s.input.block, CompressEnv.sse2, s.values, s.origPtr,
    nGroups, selector, len⟩ := ⟨_, rfl⟩
  have hksym : k.symbols b = values.symbols := by rw [hk, hv]; rfl
  refine ⟨k, ⟨?_, ?_, ?_, ?_, ?_⟩, ?_, ?_⟩
  · rw [hk]
    exact hblock
  · rw [hk]
    exact hR
  · rw [hk]
    exact hrow
  · rw [hk]
    exact ⟨h2, h6⟩
  · rw [hksym, hk]
    exact ht
  · unfold blockWrites
    dsimp only
    rw [hn, huse, ← hv, hnIn, hsend, BlockCode.writes, hksym, hk, hcrc]
    rfl
  · unfold writeBlock
    dsimp only
    rw [hn, huse, ← hv, hnIn, hsend]
    exact ⟨_, rfl, rfl⟩

/-- **`BZ2_compressBlock` returns**, and this is what it writes. -/
theorem compressBlock_ok (hsais : SaisSucceeds) {s : EState} (isLastBlock : Bool)
    (hb : Sortable s.input) :
    ∃ s' body, compressBlock s isLastBlock = .ok s' ∧ BlockBody s.input body ∧
      s'.combinedCRC = nextCombined s.combinedCRC s.input ∧
      compressWrites s isLastBlock =
        .ok ((if s.blockNo = 1 then headerWrites s.blockSize100k else []) ++ body ++
          if isLastBlock then trailerWrites s'.combinedCRC else []) := by
  by_cases hpos : 0 < s.input.nblock
  · obtain ⟨s₁, hs₁, hn, huse, hcrc, hcomb, hno, hsize, hblock, hR, hrow⟩ :=
      sortBlock_ok hsais hpos hb
    have hsame : (writeHeader s₁).input = s₁.input ∧ (writeHeader s₁).values = s₁.values ∧
        (writeHeader s₁).origPtr = s₁.origPtr ∧ (writeHeader s₁).combinedCRC = s₁.combinedCRC := by
      unfold writeHeader
      split <;> exact ⟨rfl, rfl, rfl, rfl⟩
    obtain ⟨k, hk, hw, -⟩ := blockWrites_ok hpos hb hn huse hcrc hblock hR hrow
    obtain ⟨-, -, -, s₂, hs₂, hc₂⟩ := @blockWrites_ok _ (writeHeader s₁) s.input hpos hb
      (by rw [hsame.1]; exact hn) (by rw [hsame.1]; exact huse) (by rw [hsame.1]; exact hcrc)
      (by rw [hsame.1]; exact hblock) (by rw [hsame.2.1]; exact hR)
      (by rw [hsame.2.1, hsame.2.2.1]; exact hrow)
    have hsort : whereBlock sortBlock s = .ok s₁ := (if_pos hpos).trans hs₁
    have hwrite : whereBlock writeBlock (writeHeader s₁) = .ok s₂ :=
      (if_pos (by rw [hsame.1, hn]; exact hpos)).trans hs₂
    have hbody : whereWrites s₁ = .ok (k.writes s.input) :=
      (if_pos (by rw [hn]; exact hpos)).trans hw
    have hcomb₂ : s₂.combinedCRC = nextCombined s.combinedCRC s.input :=
      (hc₂.trans hsame.2.2.2).trans hcomb
    refine ⟨if isLastBlock then writeTrailer s₂ else s₂, k.writes s.input, ?_,
      .inr ⟨hpos, k, hk, rfl⟩, ?_, ?_⟩
    · unfold compressBlock
      rw [hsort]
      show (whereBlock writeBlock (writeHeader s₁) >>= _) = _
      rw [hwrite]
      rfl
    · rw [← hcomb₂]
      split <;> rfl
    · unfold compressWrites
      rw [hsort]
      show (whereWrites s₁ >>= _) = _
      rw [hbody, hno, hsize]
      have hlast : (if isLastBlock then writeTrailer s₂ else s₂).combinedCRC = s₁.combinedCRC := by
        rw [← hcomb] at hcomb₂
        rw [← hcomb₂]
        split <;> rfl
      rw [hlast]
      rfl
  · have hsort : whereBlock sortBlock s = .ok s := if_neg hpos
    have hsame : (writeHeader s).input = s.input ∧ (writeHeader s).combinedCRC = s.combinedCRC := by
      unfold writeHeader
      split <;> exact ⟨rfl, rfl⟩
    have hwrite : whereBlock writeBlock (writeHeader s) = .ok (writeHeader s) :=
      if_neg (by rw [hsame.1]; exact hpos)
    have hbody : whereWrites s = .ok [] := if_neg hpos
    have hlast : (if isLastBlock then writeTrailer (writeHeader s) else writeHeader s).combinedCRC =
        s.combinedCRC := by
      rw [← hsame.2]
      split <;> rfl
    refine ⟨if isLastBlock then writeTrailer (writeHeader s) else writeHeader s, [], ?_,
      .inl ⟨by omega, rfl⟩, ?_, ?_⟩
    · unfold compressBlock
      rw [hsort]
      show (whereBlock writeBlock (writeHeader s) >>= _) = _
      rw [hwrite]
      rfl
    · rw [hlast, nextCombined, if_neg hpos]
    · unfold compressWrites
      rw [hsort]
      show (whereWrites s >>= _) = _
      rw [hbody, hlast]
      rfl

end

end Qbz2
