/-
  File:      Qbz2/Compress/Stream.lean
  Subject:   The compressed bit stream, and how much of it has been delivered.

  * `WriteOk` -- a call of `bsW` has 1 to 24 bits and a value that fits; all those of
    `BZ2_compressBlock` do (`BlockBody.writes_ok`);
  * `Sends` -- what a writer has sent on: the bytes, then the bits of the accumulator, are the bits
    of the calls so far; `leftOver` -- how many are in the accumulator;
  * `StreamOf` -- the calls for some blocks, with the header; `Emitted` -- the state of a
    compressor, the bytes it has delivered and the stream so far;
  * **`CompressRun.emitted`** -- in every run;
  * **`flush_leaves`** -- after a flush the accumulator is all that is not delivered.
-/
import Qbz2.Compress.BitString
import Qbz2.Compress.Returns

namespace Qbz2

open Bits

/-! ## 1. Every call fits -/

/-- The arguments of a call are in range. -/
def WriteOk (w : Nat × Word32) : Prop := (WriterOp.put w.1 w.2).Ok

theorem writeOk_byte (c : Byte) : WriteOk (byteWrite c) := by
  have := c.isLt
  refine ⟨show 1 ≤ 8 by decide, show 8 ≤ 24 by decide, ?_⟩
  show (c.setWidth 32).toNat < 2 ^ 8
  rw [BitVec.toNat_setWidth]
  omega

theorem writeOk_low (u : Word32) : WriteOk (8, u &&& 0xff) := by
  refine ⟨show 1 ≤ 8 by decide, show 8 ≤ 24 by decide, ?_⟩
  show (u &&& 0xff).toNat < 2 ^ 8
  rw [BitVec.toNat_and]
  exact Nat.lt_succ_of_le Nat.and_le_right

theorem wordWrites_ok (u : Word32) : ∀ w ∈ wordWrites u, WriteOk w := by
  intro w hw
  simp only [wordWrites, List.mem_cons, List.not_mem_nil, or_false] at hw
  rcases hw with rfl | rfl | rfl | rfl <;> exact writeOk_low _

theorem headerWrites_ok (blockSize100k : Nat) : ∀ w ∈ headerWrites blockSize100k, WriteOk w := by
  intro w hw
  simp only [headerWrites, List.mem_cons, List.not_mem_nil, or_false] at hw
  rcases hw with rfl | rfl | rfl | rfl <;> exact writeOk_byte _

theorem trailerWrites_ok (crc : Word32) : ∀ w ∈ trailerWrites crc, WriteOk w := by
  intro w hw
  rcases List.mem_append.mp hw with hw | hw
  · simp only [List.mem_cons, List.not_mem_nil, or_false] at hw
    rcases hw with rfl | rfl | rfl | rfl | rfl | rfl <;> exact writeOk_byte _
  · exact wordWrites_ok crc w hw

theorem blockHeaderWrites_ok (crc : Word32) {origPtr : Int} (h0 : 0 ≤ origPtr)
    (h1 : origPtr < 2 ^ 24) : ∀ w ∈ blockHeaderWrites crc origPtr, WriteOk w := by
  intro w hw
  simp only [blockHeaderWrites, List.mem_append, List.mem_cons, List.not_mem_nil, or_false] at hw
  rcases hw with (hw | hw) | hw | hw
  · rcases hw with rfl | rfl | rfl | rfl | rfl | rfl <;> exact writeOk_byte _
  · exact wordWrites_ok crc w hw
  · rw [hw]
    exact ⟨by decide, by decide, by decide⟩
  · rw [hw]
    refine ⟨show 1 ≤ 24 by decide, show 24 ≤ 24 by decide, ?_⟩
    show (BitVec.ofInt 32 origPtr).toNat < 2 ^ 24
    rw [BitVec.toNat_ofInt]
    omega

theorem writeFlag_ok (b : Bool) : WriteOk (writeFlag b) := by
  cases b <;> exact ⟨by decide, by decide, by decide⟩

theorem mappingWrites_ok (inUse : Cells Bool) : ∀ w ∈ mappingWrites inUse, WriteOk w := by
  intro w hw
  rcases List.mem_append.mp hw with hw | hw
  · obtain ⟨i, -, rfl⟩ := List.mem_map.mp hw
    exact writeFlag_ok _
  · obtain ⟨i, -, hw⟩ := List.mem_flatMap.mp hw
    split at hw
    · obtain ⟨j, -, rfl⟩ := List.mem_map.mp hw
      exact writeFlag_ok _
    · cases hw

theorem selectorWrites_ok {nGroups : Nat} (h6 : nGroups ≤ 6) {js : List Nat}
    (hmax : js.length < 2 ^ 15) : ∀ w ∈ selectorWrites nGroups js, WriteOk w := by
  intro w hw
  rcases List.mem_cons.mp hw with rfl | hw
  · refine ⟨show 1 ≤ 3 by decide, show 3 ≤ 24 by decide, ?_⟩
    show (BitVec.ofNat 32 nGroups).toNat < 2 ^ 3
    rw [BitVec.toNat_ofNat]
    omega
  · rcases List.mem_cons.mp hw with rfl | hw
    · refine ⟨show 1 ≤ 15 by decide, show 15 ≤ 24 by decide, ?_⟩
      show (BitVec.ofNat 32 js.length).toNat < 2 ^ 15
      rw [BitVec.toNat_ofNat]
      omega
    · obtain ⟨j, -, hw⟩ := List.mem_flatMap.mp hw
      rcases List.mem_append.mp hw with hw | hw
      · rw [List.eq_of_mem_replicate hw]
        exact ⟨by decide, by decide, by decide⟩
      · rw [List.mem_singleton.mp hw]
        exact ⟨by decide, by decide, by decide⟩

theorem rowWrites_ok (row : Cells Nat) : ∀ (n i curr : Nat), ∀ w ∈ rowWrites row n i curr, WriteOk w := by
  intro n
  induction n with
  | zero => exact fun _ _ _ hw => nomatch hw
  | succ n ih =>
    intro i curr w hw
    rcases List.mem_append.mp hw with hw | hw
    · rcases List.mem_append.mp hw with hw | hw
      · rcases List.mem_append.mp hw with hw | hw
        · rw [List.eq_of_mem_replicate hw]
          exact ⟨by decide, by decide, by decide⟩
        · rw [List.eq_of_mem_replicate hw]
          exact ⟨by decide, by decide, by decide⟩
      · rw [List.mem_singleton.mp hw]
        exact ⟨by decide, by decide, by decide⟩
    · exact ih (i + 1) _ w hw

theorem lengthWrites_ok {alphaSize : Nat} (hpos : 0 < alphaSize) {len : List (Cells Nat)}
    (hlen : ∀ row ∈ len, CompleteCode alphaSize 17 row) :
    ∀ w ∈ lengthWrites alphaSize len, WriteOk w := by
  intro w hw
  obtain ⟨row, hrow, hw⟩ := List.mem_flatMap.mp hw
  rcases List.mem_cons.mp hw with rfl | hw
  · have := (hlen row hrow).range 0 hpos
    refine ⟨show 1 ≤ 5 by decide, show 5 ≤ 24 by decide, ?_⟩
    show (BitVec.ofNat 32 (row 0)).toNat < 2 ^ 5
    rw [BitVec.toNat_ofNat]
    norm_cast at this
    omega
  · exact rowWrites_ok row _ _ _ w hw

/-- A row of the tables. -/
theorem rowAt_mem {len : List (Cells Nat)} {t : Nat} (ht : t < len.length) : rowAt len t ∈ len := by
  unfold rowAt
  rw [List.getD_eq_getElem _ _ ht]
  exact List.getElem_mem ht

/-- A code, as a call. -/
theorem codeWrite_ok {alphaSize : Nat} {row : Cells Nat} (h : CompleteCode alphaSize 17 row) {v : Nat}
    (hv : v < alphaSize) : WriteOk (row v, BitVec.ofNat 32 (rowCodes alphaSize row v)) ∧
      row v ≤ 17 := by
  obtain ⟨h1, h17⟩ := h.range v hv
  have hfit := rowCodes_fit h hv
  refine ⟨⟨h1, Nat.le_trans h17 (by decide), ?_⟩, h17⟩
  show (BitVec.ofNat 32 (rowCodes alphaSize row v)).toNat < 2 ^ row v
  rw [BitVec.toNat_ofNat]
  exact Nat.lt_of_le_of_lt (Nat.mod_le _ _) hfit

theorem symbolWrites_ok {alphaSize : Nat} {len : List (Cells Nat)}
    (hlen : ∀ row ∈ len, CompleteCode alphaSize 17 row) :
    ∀ (groups : List (List Nat)) (selector : List Byte),
    (∀ grp ∈ groups, ∀ v ∈ grp, v < alphaSize) → (∀ sel ∈ selector, sel.toNat < len.length) →
    ∀ w ∈ symbolWrites alphaSize len groups selector, WriteOk w ∧ w.1 ≤ 17 := by
  intro groups
  induction groups with
  | nil => exact fun _ _ _ _ hw => nomatch hw
  | cons grp groups ih =>
    intro selector hg hs w hw
    cases selector with
    | nil => cases hw
    | cons sel selector =>
      rcases List.mem_append.mp hw with hw | hw
      · obtain ⟨v, hv, rfl⟩ := List.mem_map.mp hw
        exact codeWrite_ok (hlen _ (rowAt_mem (hs sel List.mem_cons_self)))
          (hg grp List.mem_cons_self v hv)
      · exact ih selector (fun g hgm => hg g (List.mem_cons_of_mem _ hgm))
          (fun x hx => hs x (List.mem_cons_of_mem _ hx)) w hw

theorem length_symbolWrites (alphaSize : Nat) (len : List (Cells Nat)) :
    ∀ (groups : List (List Nat)) (selector : List Byte), groups.length ≤ selector.length →
    (symbolWrites alphaSize len groups selector).length = groups.flatten.length := by
  intro groups
  induction groups with
  | nil => exact fun selector _ => by cases selector <;> rfl
  | cons grp groups ih =>
    intro selector h
    cases selector with
    | nil => cases h
    | cons sel selector =>
      rw [symbolWrites, List.length_append, List.length_map, List.flatten_cons,
        List.length_append, ih selector (Nat.le_of_succ_le_succ h)]

/-- The symbols of a block and their groups. -/
theorem BlockCode.Fits.symbols {k : BlockCode} {b : InBlock} (h : k.Fits b) (hpos : 0 < b.nblock)
    (hb : Sortable b) : k.symbols b ≠ [] ∧ (k.symbols b).length ≤ b.nblock + 1 ∧
      (∀ v ∈ k.symbols b, v < BlockCode.alphaSize b) ∧
      ∀ grp ∈ groupsOf (k.symbols b).length (k.symbols b), ∀ v ∈ grp, v < BlockCode.alphaSize b := by
  obtain ⟨-, -, hne, hlen, hlt⟩ := symbols_bound hpos hb h.block h.sorted k.sse2
  refine ⟨hne, hlen, hlt, fun grp hg v hv => hlt v ?_⟩
  have hflat := (groupsOf_spec (k.symbols b).length (k.symbols b) (Nat.le_refl _)).1
  show v ∈ k.symbols b
  rw [← hflat]
  exact List.mem_flatten.mpr ⟨grp, hg, hv⟩

/-- The symbols in their codes. -/
def BlockCode.codeWrites (k : BlockCode) (b : InBlock) : List (Nat × Word32) :=
  symbolWrites (BlockCode.alphaSize b) k.len (groupsOf (k.symbols b).length (k.symbols b)) k.selector

/-- There is one for each symbol, of 1 to 17 bits. -/
theorem BlockCode.Fits.codeWrites_ok {k : BlockCode} {b : InBlock} (h : k.Fits b)
    (hpos : 0 < b.nblock) (hb : Sortable b) :
    (k.codeWrites b).length = (k.symbols b).length ∧
      ∀ w ∈ k.codeWrites b, WriteOk w ∧ w.1 ≤ 17 := by
  obtain ⟨-, -, -, hgrp⟩ := h.symbols hpos hb
  obtain ⟨hflat, hcount⟩ := groupsOf_spec (k.symbols b).length (k.symbols b) (Nat.le_refl _)
  have hsel : k.selector.length = ((k.symbols b).length + 49) / 50 := h.tabled.count
  constructor
  · unfold BlockCode.codeWrites
    rw [length_symbolWrites _ _ _ _ (by omega), hflat]
  · exact symbolWrites_ok h.tabled.complete _ _ hgrp
      (fun sel hs => Nat.lt_of_lt_of_le (h.tabled.lt sel hs) (Nat.le_of_eq h.tabled.rows.symm))

/-- **Every call for a block fits.** -/
theorem BlockCode.Fits.writes_ok {k : BlockCode} {b : InBlock} (h : k.Fits b) (hpos : 0 < b.nblock)
    (hb : Sortable b) : ∀ w ∈ k.writes b, WriteOk w := by
  obtain ⟨-, hlen, -, -⟩ := h.symbols hpos hb
  have hsize := hb.size
  have hcount : k.selector.length = ((k.symbols b).length + 49) / 50 := h.tabled.count
  have hrow := h.row
  intro w hw
  simp only [BlockCode.writes, List.mem_append] at hw
  rcases hw with hw | ((hw | hw) | hw) | hw
  · exact blockHeaderWrites_ok _ hrow.1 (by omega) w hw
  · exact mappingWrites_ok _ w hw
  · exact selectorWrites_ok h.groups.2 (by rw [length_selectorMtfs]; omega) w hw
  · exact lengthWrites_ok (Nat.succ_pos _) h.tabled.complete w hw
  · exact ((h.codeWrites_ok hpos hb).2 w hw).1

theorem BlockBody.writes_ok {b : InBlock} {body : List (Nat × Word32)} (h : BlockBody b body)
    (hb : Sortable b) : ∀ w ∈ body, WriteOk w := by
  rcases h with ⟨-, rfl⟩ | ⟨hpos, k, hk, rfl⟩
  · exact fun w hw => nomatch hw
  · exact hk.writes_ok hpos hb

/-! ## 2. What has been sent -/

/-- The bits of some calls. -/
def bitCount (writes : List (Nat × Word32)) : Nat := (writes.map Prod.fst).sum

@[simp] theorem bitCount_nil : bitCount [] = 0 := rfl

@[simp] theorem bitCount_cons (w : Nat × Word32) (writes : List (Nat × Word32)) :
    bitCount (w :: writes) = w.1 + bitCount writes := rfl

@[simp] theorem bitCount_append (a b : List (Nat × Word32)) :
    bitCount (a ++ b) = bitCount a + bitCount b := by
  unfold bitCount
  rw [List.map_append, List.sum_append]

theorem length_writesBits (writes : List (Nat × Word32)) :
    (writesBits writes).length = bitCount writes := by
  induction writes with
  | nil => rfl
  | cons w writes ih => rw [writesBits_cons, List.length_append, length_bitsOf, ih, bitCount_cons]

/-- `bsNEEDW` moves whole words. -/
theorem needW_zbits : ∀ (fuel : Nat) (w : BitWriter),
    ∃ moved, (BitWriter.needW fuel w).zbits = w.zbits ++ moved ∧ moved.length % 4 = 0 := by
  intro fuel
  induction fuel with
  | zero => exact fun w => ⟨[], (List.append_nil _).symm, rfl⟩
  | succ fuel ih =>
    intro w
    unfold BitWriter.needW
    split
    · obtain ⟨moved, hz, hlen⟩ := ih
        { zbits := w.zbits ++ [(w.bsBuff >>> 56).setWidth 8, (w.bsBuff >>> 48).setWidth 8,
            (w.bsBuff >>> 40).setWidth 8, (w.bsBuff >>> 32).setWidth 8]
          bsBuff := w.bsBuff <<< 32
          bsLive := w.bsLive - 32 }
      refine ⟨_, by rw [hz, List.append_assoc], ?_⟩
      rw [List.length_append]
      show (4 + moved.length) % 4 = 0
      omega
    · exact ⟨[], (List.append_nil _).symm, rfl⟩

/-- The bits the accumulator is left with after some calls: what the last call has added, and what
    was less than a word before it. -/
def leftOver (writes : List (Nat × Word32)) : Nat :=
  match writes.getLast? with
  | none => 0
  | some w => (bitCount writes - w.1) % 32 + w.1

@[simp] theorem leftOver_snoc (writes : List (Nat × Word32)) (w : Nat × Word32) :
    leftOver (writes ++ [w]) = bitCount writes % 32 + w.1 := by
  unfold leftOver
  rw [List.getLast?_concat, bitCount_append]
  dsimp only
  rw [bitCount_cons, bitCount_nil, Nat.add_zero, Nat.add_sub_cancel]

/-- The bytes `sent` before, those in `zbits` and the bits of the accumulator are those of the
    calls so far. -/
def Sends (sent : List Byte) (w : BitWriter) (writes : List (Nat × Word32)) : Prop :=
  ∃ u, w.Holds u ∧ bytesBits (sent ++ w.zbits) ++ u = writesBits writes ∧
    (sent ++ w.zbits).length % 4 = 0 ∧ u.length = leftOver writes

theorem Sends.start {w : BitWriter} (hz : w.zbits = []) : Sends [] w.initWrite [] :=
  ⟨[], BitWriter.Holds.init w, by rw [show w.initWrite.zbits = w.zbits from rfl, hz]; rfl,
    by rw [show w.initWrite.zbits = w.zbits from rfl, hz]; rfl, rfl⟩

/-- **A call is sent on.** -/
theorem Sends.put {sent : List Byte} {w : BitWriter} {writes : List (Nat × Word32)}
    (h : Sends sent w writes) {x : Nat × Word32} (hx : WriteOk x) :
    Sends sent (w.bsW x.1 x.2) (writes ++ [x]) := by
  obtain ⟨u, hu, hbits, hword, -⟩ := h
  have h24 := hx.2.1
  obtain ⟨u', hu', hadd, -⟩ := hu.bsW (show x.1 ≤ 31 by omega) hx.2.2
  obtain ⟨moved, hz, hmoved⟩ := needW_zbits w.bsLive.toNat w
  have hz' : (w.bsW x.1 x.2).zbits = w.zbits ++ moved := hz
  have hall : bytesBits (sent ++ (w.bsW x.1 x.2).zbits) ++ u' = writesBits (writes ++ [x]) := by
    rw [bytesBits_append, List.append_assoc, hadd, writesBits_append, ← hbits, bytesBits_append]
    simp only [List.append_assoc, writesBits_cons, writesBits_nil, List.append_nil]
  have hfour : (sent ++ (w.bsW x.1 x.2).zbits).length % 4 = 0 := by
    rw [hz', ← List.append_assoc, List.length_append]
    omega
  refine ⟨u', hu', hall, hfour, ?_⟩
  -- the words are gone, and the bits of the call are there
  have hlen := congrArg List.length hall
  rw [List.length_append, length_bytesBits, length_writesBits, bitCount_append, bitCount_cons,
    bitCount_nil] at hlen
  have hlive := hu'.live
  have hlt := (BitWriter.bsW_spec w x.1 x.2).2.1
  have hge : (x.1 : Int) ≤ (w.bsW x.1 x.2).bsLive := by
    obtain ⟨t, ht, -⟩ := hu.needW
    have := ht.live
    unfold BitWriter.bsW
    dsimp only
    omega
  rw [leftOver_snoc]
  omega

theorem Sends.puts {sent : List Byte} : ∀ (xs : List (Nat × Word32)) {w : BitWriter}
    {writes : List (Nat × Word32)}, Sends sent w writes → (∀ x ∈ xs, WriteOk x) →
    Sends sent (w.bsWs xs) (writes ++ xs) := by
  intro xs
  induction xs with
  | nil =>
    intro w writes h _
    rw [List.append_nil]
    exact h
  | cons x xs ih =>
    intro w writes h hxs
    have := ih (h.put (hxs x List.mem_cons_self)) fun y hy => hxs y (List.mem_cons_of_mem _ hy)
    rw [List.append_assoc] at this
    exact this

/-- The bytes in `zbits` are taken away. -/
theorem Sends.deliver {sent : List Byte} {w : BitWriter} {writes : List (Nat × Word32)}
    (h : Sends sent w writes) : Sends (sent ++ w.zbits) { w with zbits := [] } writes := by
  obtain ⟨u, hu, hbits, hword, hlen⟩ := h
  exact ⟨u, ⟨hu.live, hu.buff, hu.short⟩, by rw [List.append_nil]; exact hbits,
    by rw [List.append_nil]; exact hword, hlen⟩

/-- The end of the stream, filled up to a whole byte. -/
def SendsAll (sent : List Byte) (w : BitWriter) (writes : List (Nat × Word32)) : Prop :=
  ∃ k, k < 8 ∧ bytesBits (sent ++ w.zbits) = writesBits writes ++ List.replicate k false

theorem Sends.finish {sent : List Byte} {w : BitWriter} {writes : List (Nat × Word32)}
    (h : Sends sent w writes) : SendsAll sent w.finishWrite writes := by
  obtain ⟨u, hu, hbits, -⟩ := h
  obtain ⟨k, hk, hfin, -⟩ := hu.finishWrite
  refine ⟨k, hk, ?_⟩
  rw [bytesBits_append, hfin, ← hbits, bytesBits_append]
  simp only [List.append_assoc]

/-! ## 3. The stream of a run -/

/-- The calls for some blocks: the header of the stream with the first, then block by block. -/
inductive StreamOf (blockSize100k : Nat) : List InBlock → List (Nat × Word32) → Prop
  | empty : StreamOf blockSize100k [] []
  | block {blocks : List InBlock} {writes body : List (Nat × Word32)} {b : InBlock}
      (h : StreamOf blockSize100k blocks writes) (hs : Sortable b) (hb : BlockBody b body) :
      StreamOf blockSize100k (blocks ++ [b])
        (writes ++ ((if blocks = [] then headerWrites blockSize100k else []) ++ body))

/-- The last block of the stream has been closed. -/
def EState.Last (s : EState) : Prop := s.Closed ∧ s.mode ≠ .flushing

/-- The bytes `given` were delivered, and the blocks have been closed. -/
structure Emitted (blockSize100k : Nat) (s : EState) (given : List Byte) (blocks : List InBlock)
    (writes : List (Nat × Word32)) : Prop where
  stream : StreamOf blockSize100k blocks writes
  combined : s.combinedCRC = blocks.foldl nextCombined 0
  blockNo : s.blockNo = blocks.length + if s.state = .input then 1 else 0
  out : ∃ sent, given = sent ++ s.out.zbits.take s.stateOutPos ∧
    (¬ s.Last → Sends sent s.out writes) ∧
    (s.Last → SendsAll sent s.out (writes ++ trailerWrites s.combinedCRC))

theorem not_last_of_input {s : EState} (h : s.state = .input) : ¬ s.Last := fun hl => by
  have := hl.1.1
  rw [h] at this
  cases this

theorem not_last_of_running {s : EState} (h : s.mode = .running) : ¬ s.Last := fun hl =>
  hl.1.2.1 h

theorem headerOr_ok (blockSize100k : Nat) (blocks : List InBlock) :
    ∀ w ∈ (if blocks = [] then headerWrites blockSize100k else []), WriteOk w := by
  split
  · exact headerWrites_ok blockSize100k
  · exact fun w hw => nomatch hw

section

variable [CompressEnv] {blockSize100k : Nat}

/-- **`BZ2_compressBlock` goes on with the stream**, and ends it with the last block. -/
theorem compressBlock_emitted (hsais : SaisSucceeds) {s s' : EState} {isLastBlock : Bool}
    (hb : Sortable s.input) (h : compressBlock s isLastBlock = .ok s') {blocks : List InBlock}
    {writes : List (Nat × Word32)} (hst : StreamOf blockSize100k blocks writes)
    (hsize : s.blockSize100k = blockSize100k) (hno : s.blockNo = blocks.length + 1)
    (hcomb : s.combinedCRC = blocks.foldl nextCombined 0) (hz : s.out.zbits = [])
    {sent : List Byte} (hs : Sends sent s.out writes) :
    ∃ writes', StreamOf blockSize100k (blocks ++ [s.input]) writes' ∧
      s'.combinedCRC = (blocks ++ [s.input]).foldl nextCombined 0 ∧
      (isLastBlock = false → Sends sent s'.out writes') ∧
      (isLastBlock = true →
        SendsAll sent s'.out (writes' ++ trailerWrites s'.combinedCRC)) := by
  obtain ⟨s₁, body, hok, hbody, hcrc, hwrites⟩ := compressBlock_ok hsais isLastBlock hb
  rw [h] at hok
  cases hok
  obtain ⟨all, hall, hout⟩ := compressBlock_out h
  rw [hwrites] at hall
  have hfirst : s.blockNo = 1 ↔ blocks = [] := by
    rw [hno, ← List.length_eq_zero_iff]
    omega
  have hhead : (if s.blockNo = 1 then headerWrites s.blockSize100k else []) =
      if blocks = [] then headerWrites blockSize100k else [] := by
    rw [hsize]
    exact if_congr hfirst rfl rfl
  rw [hhead] at hall
  -- what `BZ2_compressBlock` starts with
  have hstart : Sends sent s.writer writes := by
    have hsame : (if s.input.nblock > 0 ∧ s.blockNo > 1 then { s.out with zbits := [] }
        else s.out) = s.out := by
      split
      · rw [← hz]
      · rfl
    unfold EState.writer
    dsimp only
    rw [hsame]
    by_cases h1 : s.blockNo = 1
    · rw [if_pos h1]
      have hnil := hfirst.mp h1
      cases hst with
      | empty =>
        obtain ⟨u, -, hbits, -⟩ := hs
        have hlen := congrArg List.length hbits
        rw [List.length_append, length_bytesBits, List.length_append] at hlen
        have hsent : sent = [] := List.length_eq_zero_iff.mp
          (by have : (writesBits []).length = 0 := rfl; omega)
        rw [hsent]
        exact Sends.start hz
      | block => exact absurd hnil (List.append_ne_nil_of_right_ne_nil _ (List.cons_ne_nil _ _))
    · rw [if_neg h1]
      exact hs
  have hok : ∀ w ∈ (if blocks = [] then headerWrites blockSize100k else []) ++ body,
      WriteOk w := by
    intro w hw
    rcases List.mem_append.mp hw with hw | hw
    · exact headerOr_ok blockSize100k blocks w hw
    · exact hbody.writes_ok hb w hw
  have hsends := hstart.puts _ hok
  refine ⟨_, hst.block hb hbody, ?_, fun hl => ?_, fun hl => ?_⟩
  · rw [hcrc, hcomb, List.foldl_append]
    rfl
  · subst hl
    rw [if_neg Bool.false_ne_true] at hall
    rw [if_neg Bool.false_ne_true] at hout
    cases hall
    rw [hout, List.append_nil]
    exact hsends
  · subst hl
    rw [if_pos rfl] at hall hout
    cases hall
    rw [hout, bsWs_append]
    exact (hsends.puts _ (trailerWrites_ok _)).finish

section

variable {s s' : EState} {strm strm' : BzStream} {given : List Byte} {blocks : List InBlock}
  {writes : List (Nat × Word32)}

/-- A byte taken. -/
theorem Emitted.take (he : Emitted blockSize100k s given blocks writes) (hs : s.state = .input)
    (h : copyInputStep s strm = some (s', strm')) :
    Emitted blockSize100k s' given blocks writes := by
  obtain ⟨hst, hcomb, hno, sent, hgiven, hmore, -⟩ := he
  obtain ⟨_, _, _, _, rfl⟩ := copyInputStep_some h
  exact ⟨hst, hcomb, hno, sent, hgiven, fun _ => hmore (not_last_of_input hs),
    fun hl => absurd hl (not_last_of_input hs)⟩

omit [CompressEnv] in
/-- Bytes given out. -/
theorem Emitted.give (he : Emitted blockSize100k s given blocks writes) {n : Nat}
    (h : OutFrame s strm n s' strm') :
    Emitted blockSize100k s' (given ++ (s.out.zbits.drop s.stateOutPos).take n) blocks writes := by
  obtain ⟨hst, hcomb, hno, sent, hgiven, hmore, hlast⟩ := he
  obtain ⟨rfl, _⟩ := h
  refine ⟨hst, hcomb, hno, sent, ?_, hmore, hlast⟩
  rw [hgiven, List.append_assoc, ← List.take_add]

omit [CompressEnv] in
/-- The next block begun, with all of the block before given out. -/
theorem Emitted.begin (he : Emitted blockSize100k s given blocks writes) (hs : s.state = .output)
    (hp : s.stateOutPos = s.numZ) (hf : ¬ s.Closed) :
    Emitted blockSize100k { s.prepareNewBlock with state := .input } given blocks writes := by
  obtain ⟨hst, hcomb, hno, sent, hgiven, hmore, -⟩ := he
  rw [if_neg (by rw [hs]; decide)] at hno
  rw [hp, show s.numZ = s.out.zbits.length from rfl, List.take_length] at hgiven
  refine ⟨hst, hcomb, ?_, given, (List.append_nil _).symm, fun _ => ?_,
    fun hl => absurd hl (not_last_of_input rfl)⟩
  · show s.blockNo + 1 = _ + 1
    rw [hno, Nat.add_zero]
  · rw [hgiven]
    exact (hmore fun hl => hf hl.1).deliver

/-- **A block closed**, with the trailer behind it if it is the last. -/
theorem Emitted.close (hsais : SaisSucceeds) (he : Emitted blockSize100k s given blocks writes)
    (hi : LoopOk s strm) (hs : s.state = .input) (hsize : s.blockSize100k = blockSize100k)
    {b : InBlock} (hb : Sortable b) {isLastBlock : Bool}
    (h : compressBlock { s with input := b } isLastBlock = .ok s')
    (hl : isLastBlock = true ↔ ({ s' with state := .output } : EState).Last) :
    ∃ writes', Emitted blockSize100k { s' with state := .output } given (blocks ++ [b]) writes' := by
  obtain ⟨hst, hcomb, hno, sent, hgiven, hmore, -⟩ := he
  -- before a block is closed nothing of it is in `zbits`
  have hnil : s.out.zbits = [] := List.length_eq_zero_iff.mp (hi.input hs).1
  rw [if_pos hs] at hno
  rw [hnil, List.take_nil, List.append_nil] at hgiven
  subst hgiven
  obtain ⟨hc, _⟩ := compressBlock_spec (s := { s with input := b }) hi.live h
  obtain ⟨writes', hst', hcomb', hmore', hlast'⟩ := compressBlock_emitted hsais
    (s := { s with input := b }) hb h hst hsize hno hcomb hnil (hmore (not_last_of_input hs))
  have hpos : s'.stateOutPos = 0 := hc.stateOutPos.trans (hi.input hs).2.1
  refine ⟨writes', hst', hcomb', ?_, given, ?_, fun hn => ?_, fun hlast => hlast' (hl.mpr hlast)⟩
  · show s'.blockNo = _ + if SState.output = SState.input then 1 else 0
    rw [if_neg (by decide), hc.blockNo, List.length_append]
    exact hno
  · dsimp only
    rw [hpos, List.take_zero, List.append_nil]
  · refine hmore' ?_
    cases isLastBlock with
    | false => rfl
    | true => exact absurd (hl.mp rfl) hn

/-- A flush closes the last block exactly when the stream is to be finished. -/
theorem last_of_flush (hi : LoopOk s strm) (hm : s.mode ≠ .running) (h0 : s.availInExpect = 0)
    (hc : SameControl { s with input := s.input.flushRL } s') :
    decide (s.mode = .finishing) = true ↔ ({ s' with state := .output } : EState).Last := by
  have hmode : s'.mode = s.mode := hc.mode
  have hni := hi.mode
  have hclosed : ({ s' with state := .output } : EState).Closed := by
    refine ⟨rfl, ?_, ?_⟩
    · show s'.mode ≠ .running
      rw [hmode]
      exact hm
    · rw [drained_iff]
      refine ⟨hc.availInExpect.trans h0, ?_⟩
      unfold InBlock.isemptyRL
      dsimp only
      rw [hc.stateInCh, hc.stateInLen]
      rfl
  rw [decide_eq_true_iff]
  constructor
  · intro hf
    refine ⟨hclosed, ?_⟩
    show s'.mode ≠ .flushing
    rw [hmode, hf]
    decide
  · intro hl
    have hnf : s.mode ≠ .flushing := hmode ▸ hl.2
    cases hmd : s.mode with
    | idle => exact absurd hmd hni
    | running => exact absurd hmd hm
    | flushing => exact absurd hmd hnf
    | finishing => rfl

end

/-- **A move goes on with the stream.** -/
theorem Move.emitted (hsais : SaisSucceeds) (h1 : 1 ≤ blockSize100k) (h9 : blockSize100k ≤ 9)
    {s s' : EState} {strm strm' : BzStream} (h : Move s strm s' strm') (hi : LoopOk s strm)
    (hz : Sized blockSize100k s) {input rest given : List Byte}
    {parts : List (InBlock × List Byte)} {writes : List (Nat × Word32)}
    (hd : Divided s input parts rest)
    (he : Emitted blockSize100k s given (parts.map Prod.fst) writes) :
    ∃ parts' rest' writes' chunk, strm'.out = strm.out ++ chunk ∧
      Divided s' (input ++ bytesAt strm.mem strm.nextIn (strm.availIn - strm'.availIn)) parts'
        rest' ∧
      Emitted blockSize100k s' (given ++ chunk) (parts'.map Prod.fst) writes' := by
  have hsort := fun hs : s.state = .input => @closing_sortable _ _ s h9 h1 hz hs input rest parts hd
  cases h with
  | take hs h =>
    refine ⟨parts, _, writes, [], ?_, hd.take hs h, ?_⟩
    · obtain ⟨_, _, _, rfl, _⟩ := copyInputStep_some h
      exact (List.append_nil _).symm
    · rw [List.append_nil]
      exact he.take hs h
  | @flush s₁ _ hs hm h0 h =>
    obtain ⟨hc, _⟩ := compressBlock_spec (s := { s with input := s.input.flushRL }) hi.live h
    obtain ⟨writes', he'⟩ := he.close hsais hi hs hz.size (hsort hs (if_pos ⟨hm, h0⟩)) h
      (last_of_flush hi hm h0 hc)
    rw [Nat.sub_self, bytesAt_zero, List.append_nil]
    refine ⟨_, _, writes', [], (List.append_nil _).symm, hd.flush hs hi.live h, ?_⟩
    rw [List.map_append, List.append_nil]
    exact he'
  | @close s₁ _ hs hn h0 h =>
    have hno0 : ¬ (s.mode ≠ .running ∧ s.availInExpect = 0) := by
      rintro ⟨hm, he⟩
      rcases h0 with h0 | h0
      · exact hm h0
      · omega
    obtain ⟨hc, _⟩ := compressBlock_spec hi.live h
    have hnl : ¬ ({ s₁ with state := .output } : EState).Last := by
      rintro ⟨⟨-, hm, hdr⟩, -⟩
      refine hno0 ⟨hc.mode ▸ hm, ?_⟩
      exact hc.availInExpect ▸ ((drained_iff _).mp hdr).1
    obtain ⟨writes', he'⟩ := he.close hsais hi hs hz.size
      (hsort hs ((if_neg hno0).trans (if_pos hn))) (b := s.input) h
      ⟨fun hf => (nomatch hf), fun hl => absurd hl hnl⟩
    rw [Nat.sub_self, bytesAt_zero, List.append_nil]
    refine ⟨_, _, writes', [], (List.append_nil _).symm, hd.full hs hi.live hn h, ?_⟩
    rw [List.map_append, List.append_nil]
    exact he'
  | give hs hn h =>
    have he' := he.give h
    obtain ⟨rfl, _, _, hout, _, _, hin⟩ := h
    rw [hin, Nat.sub_self, bytesAt_zero, List.append_nil]
    exact ⟨parts, rest, writes, _, hout, hd, he'⟩
  | begin hs hp hf =>
    rw [Nat.sub_self, bytesAt_zero, List.append_nil]
    refine ⟨parts, rest, writes, [], (List.append_nil _).symm, hd.begin hs, ?_⟩
    rw [List.append_nil]
    exact he.begin hs hp hf

theorem Moves.emitted (hsais : SaisSucceeds) (h1 : 1 ≤ blockSize100k) (h9 : blockSize100k ≤ 9)
    {s s' : EState} {strm strm' : BzStream} (h : Moves s strm s' strm') (hi : LoopOk s strm)
    (hz : Sized blockSize100k s) {input rest given : List Byte}
    {parts : List (InBlock × List Byte)} {writes : List (Nat × Word32)}
    (hd : Divided s input parts rest)
    (he : Emitted blockSize100k s given (parts.map Prod.fst) writes) :
    ∃ parts' rest' writes' chunk, strm'.out = strm.out ++ chunk ∧
      Divided s' (input ++ bytesAt strm.mem strm.nextIn (strm.availIn - strm'.availIn)) parts'
        rest' ∧
      Emitted blockSize100k s' (given ++ chunk) (parts'.map Prod.fst) writes' := by
  induction h generalizing input rest given parts writes with
  | refl =>
    rw [Nat.sub_self, bytesAt_zero, List.append_nil]
    exact ⟨_, _, _, [], (List.append_nil _).symm, hd, by rw [List.append_nil]; exact he⟩
  | @step s s₁ s' strm strm₁ strm' h hs ih =>
    obtain ⟨_, _, _, hmem, hle, _, hnext⟩ := h.frame hi.live
    have hi₁ := h.loopOk hi
    obtain ⟨_, _, _, _, hle', _, _⟩ := hs.frame hi₁
    obtain ⟨parts₁, rest₁, writes₁, chunk₁, ho₁, hd₁, he₁⟩ := h.emitted hsais h1 h9 hi hz hd he
    obtain ⟨parts', rest', writes', chunk', ho', hd', he'⟩ := ih hi₁ (h.sized hi hz) hd₁ he₁
    have hsplit : strm.availIn - strm'.availIn =
        (strm.availIn - strm₁.availIn) + (strm₁.availIn - strm'.availIn) := by omega
    have hnext' : strm₁.nextIn = strm.nextIn + (strm.availIn - strm₁.availIn : Nat) := by omega
    refine ⟨parts', rest', writes', chunk₁ ++ chunk', ?_, ?_, ?_⟩
    · rw [ho', ho₁, List.append_assoc]
    · rw [hsplit, bytesAt_add, ← List.append_assoc]
      rw [hmem, hnext'] at hd'
      exact hd'
    · rw [← List.append_assoc]
      exact he'

omit [CompressEnv] in
/-- A call that begins the end of the stream does not find the last block closed. -/
theorem emitted_enter {s : EState} {given : List Byte} {blocks : List InBlock}
    {writes : List (Nat × Word32)} (he : Emitted blockSize100k s given blocks writes)
    (hr : Resting s) (strm : BzStream) (action : Int) :
    Emitted blockSize100k (enter s strm action) given blocks writes := by
  have hrest := enter_eq s strm action
  by_cases hm : s.mode = .running
  · have hnl : ¬ (enter s strm action).Last := by
      rintro ⟨⟨hs, -, hdr⟩, -⟩
      rw [hrest] at hs hdr
      have h1 := ((drained_iff _).mp hdr).2
      have h2 := hr.pending hs hm
      exact Bool.false_ne_true (h2.symm.trans h1)
    obtain ⟨hst, hcomb, hno, sent, hgiven, hmore, -⟩ := he
    have hsends := hmore (not_last_of_running hm)
    generalize enter s strm action = e at hrest hnl
    rw [hrest] at hnl ⊢
    exact ⟨hst, hcomb, hno, sent, hgiven, fun _ => hsends, fun hl => absurd hl hnl⟩
  · have hsame : enter s strm action = s := if_neg hm
    rw [hsame]
    exact he

omit [CompressEnv] in
theorem Left.emitted {s s' : EState} {strm : BzStream} {progress : Bool} {r : Ret}
    (h : Left s strm progress r s') {given : List Byte} {blocks : List InBlock}
    {writes : List (Nat × Word32)} (he : Emitted blockSize100k s given blocks writes) :
    Emitted blockSize100k s' given blocks writes := by
  cases h with
  | ran => exact he
  | more => exact he
  | flushed hm hc hp =>
    obtain ⟨hst, hcomb, hno, sent, hgiven, hmore, -⟩ := he
    rw [hp, show s.numZ = s.out.zbits.length from rfl, List.take_length] at hgiven
    rw [if_neg (by rw [hc.1]; decide)] at hno
    refine ⟨hst, hcomb, ?_, given, (List.append_nil _).symm, fun _ => ?_,
      fun hl => absurd hl (not_last_of_input rfl)⟩
    · show s.blockNo + 1 = _ + 1
      rw [hno, Nat.add_zero]
    · rw [hgiven]
      exact (hmore fun hl => hl.2 hm).deliver
  | ended hm hc hp =>
    obtain ⟨hst, hcomb, hno, sent, hgiven, -, hlast⟩ := he
    have hl : s.Last := ⟨hc, by rw [hm]; decide⟩
    refine ⟨hst, hcomb, hno, sent, hgiven, fun hnl => ?_, fun _ => hlast hl⟩
    exact absurd ⟨⟨hc.1, (by decide : Mode.idle ≠ .running), hc.2.2⟩,
      (by decide : Mode.idle ≠ .flushing)⟩ hnl

omit [CompressEnv] in
theorem emitted_init : Emitted blockSize100k (EState.init blockSize100k) [] [] [] :=
  ⟨.empty, rfl, rfl, [], rfl, fun _ => Sends.start (w := ⟨[], 0, 0⟩) rfl,
    fun hl => absurd hl (not_last_of_input rfl)⟩

/-- **In every run**, the bytes delivered and the bits the compressor still has are those of the
    blocks closed so far. -/
theorem CompressRun.emitted (hsais : SaisSucceeds) (h1 : 1 ≤ blockSize100k)
    (h9 : blockSize100k ≤ 9) {calls : List Call} {s : EState}
    (h : CompressRun blockSize100k calls s) :
    ∃ parts rest writes, Divided s (calls.flatMap Call.taken) parts rest ∧
      Emitted blockSize100k s (calls.flatMap Call.given) (parts.map Prod.fst) writes := by
  induction h with
  | init => exact ⟨[], [], [], Division.start _, emitted_init⟩
  | @call calls s s' h c hc ih =>
    obtain ⟨parts, rest, writes, hd, he⟩ := ih
    have hr := h.resting h1
    rw [List.flatMap_append, List.flatMap_append, List.flatMap_cons, List.flatMap_cons,
      List.flatMap_nil, List.flatMap_nil, List.append_nil, List.append_nil]
    unfold Call.taken Call.given
    rcases bzCompress_cases hr hc with ⟨_, _, rfl, heq⟩ | ⟨_, p, s₁, hx, hl⟩
    · rw [heq, Nat.sub_self, bytesAt_zero, List.append_nil, List.drop_length, List.append_nil]
      exact ⟨parts, rest, writes, hd, he⟩
    · obtain ⟨parts', rest', writes', chunk, ho, hd', he'⟩ := hx.moves.emitted hsais h1 h9 hx.start
        (sized_enter (h.sized h1) c.strm c.action) (divided_enter hd c.strm c.action)
        (emitted_enter he hr c.strm c.action)
      rw [ho, List.drop_left]
      exact ⟨parts', rest', writes', hl.divided hd', hl.emitted he'⟩

end

/-! ## 4. Flushes -/

/-- What is left of a stream that ends with calls of at most 17 bits. -/
theorem leftOver_append (a : List (Nat × Word32)) {b : List (Nat × Word32)} (hne : b ≠ [])
    (h : ∀ w ∈ b, w.1 ≤ 17) : leftOver (a ++ b) ≤ 48 := by
  obtain ⟨front, last, rfl⟩ : ∃ front last, b = front ++ [last] :=
    ⟨b.dropLast, b.getLast hne, (List.dropLast_append_getLast hne).symm⟩
  have h17 := h last (List.mem_append_right _ (List.mem_singleton.mpr rfl))
  rw [← List.append_assoc, leftOver_snoc]
  omega

theorem StreamOf.leftOver_le {blockSize100k : Nat} {blocks : List InBlock}
    {writes : List (Nat × Word32)} (h : StreamOf blockSize100k blocks writes) :
    leftOver writes ≤ 48 := by
  induction h with
  | empty => exact Nat.zero_le 48
  | @block blocks writes body b h hs hb ih =>
    rcases hb with ⟨-, rfl⟩ | ⟨hpos, k, hk, rfl⟩
    · rw [List.append_nil]
      split
      · refine leftOver_append _ (List.cons_ne_nil _ _) fun w hw => ?_
        simp only [headerWrites, List.mem_cons, List.not_mem_nil, or_false] at hw
        rcases hw with rfl | rfl | rfl | rfl <;> exact show 8 ≤ 17 by decide
      · rw [List.append_nil]
        exact ih
    · -- the last code of the block
      obtain ⟨hlen, hok⟩ := hk.codeWrites_ok hpos hs
      have hne : k.codeWrites b ≠ [] := by
        rw [← List.length_pos_iff, hlen, List.length_pos_iff]
        exact (hk.symbols hpos hs).1
      have hend : ∃ front, k.writes b = front ++ k.codeWrites b :=
        ⟨_, (List.append_assoc _ _ _).symm⟩
      obtain ⟨front, hfront⟩ := hend
      rw [hfront, ← List.append_assoc, ← List.append_assoc]
      exact leftOver_append _ hne fun w hw => (hok w hw).2

section

variable [CompressEnv] {blockSize100k : Nat}

/-- **What a flush leaves**: in every run, when a flush is over, all input is in closed blocks, all
    of `zbits` has been delivered, and the bytes delivered with the bits of the accumulator are the
    stream so far, the header and these blocks. In the accumulator are the last code and what was
    less than a word of 32 bits before it: at most 48 bits, and less than a byte if and only if
    this number is. -/
theorem flush_leaves (hsais : SaisSucceeds) (h1 : 1 ≤ blockSize100k) (h9 : blockSize100k ≤ 9)
    {calls : List Call} {s s' : EState} (h : CompressRun blockSize100k calls s) (c : Call)
    (hc : bzCompress s c.strm c.action = .ok (c.ret, s', c.strm')) (ha : c.action = bzFlush)
    (hr : c.ret = .runOk) :
    ∃ parts writes bits, Divided s' ((calls ++ [c]).flatMap Call.taken) parts [] ∧
      StreamOf blockSize100k (parts.map Prod.fst) writes ∧ s'.out.zbits = [] ∧
      s'.out.Holds bits ∧
      bytesBits ((calls ++ [c]).flatMap Call.given) ++ bits = writesBits writes ∧
      bits.length = leftOver writes ∧ leftOver writes ≤ 48 := by
  have hrun := h.call c hc
  obtain ⟨parts, rest, writes, hd, he⟩ := hrun.emitted hsais h1 h9
  -- how the call left
  have hleft : s'.state = .input ∧ s'.out.zbits = [] ∧ expand s'.input.bytes = [] ∧
      s'.input.pendingRun = [] := by
    rcases bzCompress_cases (h.resting h1) hc with ⟨_, hneg, _⟩ | ⟨hacc, p, s₁, hx, hl⟩
    · rw [hr] at hneg
      exact absurd hneg (by decide)
    · have hmode := enter_mode hacc
      rw [← hx.mode, ha] at hmode
      have hfl : s₁.mode = .flushing := by
        rcases hmode with ⟨_, h⟩ | ⟨h, _⟩ | ⟨_, h⟩
        · cases h
        · exact h
        · cases h
      rw [hr] at hl
      generalize hret : Ret.runOk = r at hl
      cases hl with
      | ran hm => rw [hfl] at hm; cases hm
      | more _ _ _ hq =>
        rcases hq with ⟨rfl, _⟩ | ⟨rfl, _⟩ | ⟨rfl, _⟩ <;> cases hret
      | flushed hm hcl hp =>
        refine ⟨rfl, rfl, rfl, ?_⟩
        have hempty := ((drained_iff s₁).mp hcl.2.2).2
        obtain ⟨hch, -⟩ := (isemptyRL_iff hx.loopOk.run).mp hempty
        unfold InBlock.pendingRun
        exact if_neg (by show ¬ s₁.input.stateInCh < 256; omega)
      | ended => cases hret
  obtain ⟨hs, hz, hexp, hpend⟩ := hleft
  obtain ⟨-, -, hholds⟩ := hd.stands
  rw [if_pos hs] at hholds
  have hrest : rest = [] := by rw [← hholds.expands, hexp, hpend]; rfl
  obtain ⟨sent, hgiven, hmore, -⟩ := he.out
  obtain ⟨bits, hbits, hall, -, hlen⟩ := hmore (not_last_of_input hs)
  rw [hz, List.take_nil, List.append_nil] at hgiven
  rw [hz, List.append_nil, ← hgiven] at hall
  rw [hrest] at hd
  exact ⟨parts, writes, bits, hd, he.stream, hz, hbits, hall, hlen, he.stream.leftOver_le⟩

end

/-- No input, and room for output. -/
def noInput : BzStream := { oneByteStream with availIn := 0 }

/-- A flush of nothing, before anything else: the four bytes of the header stay in the
    accumulator. -/
theorem flush_leaves_header : ∃ s' strm', @CompressRun sortingEnv 9 [] (EState.init 9) ∧
    @bzCompress sortingEnv (EState.init 9) noInput bzFlush = .ok (.runOk, s', strm') ∧
    strm'.out = [] ∧ s'.out.bsLive = 32 ∧ ¬ s'.out.bsLive < 8 :=
  ⟨_, _, @CompressRun.init sortingEnv 9, rfl, rfl, by decide, by decide⟩

/-- One byte of input, and room for a stream of it. -/
def oneByteRoom : BzStream := { oneByteStream with availOut := 100 }

/-- A flush of one byte: the header and the block are 211 bits, and 19 of them stay. -/
theorem flush_leaves_oneByte : ∃ s' strm',
    @bzCompress sortingEnv (EState.init 9) oneByteRoom bzFlush = .ok (.runOk, s', strm') ∧
    strm'.out.length = 24 ∧ strm'.availIn = 0 ∧ s'.out.bsLive = 19 ∧
    ∃ parts writes bits, @Divided sortingEnv s' [0x61] parts [] ∧
      StreamOf 9 (parts.map Prod.fst) writes ∧ s'.out.zbits = [] ∧ s'.out.Holds bits ∧
      bytesBits strm'.out ++ bits = writesBits writes ∧ bits.length = leftOver writes ∧
      leftOver writes ≤ 48 := by
  let _ : CompressEnv := sortingEnv
  have heval : (bzCompress (EState.init 9) oneByteRoom bzFlush).map (fun x =>
      (x.1, x.2.2.out.length, x.2.2.availIn, x.2.1.out.bsLive)) = .ok (.runOk, 24, 0, 19) := by
    decide +kernel
  obtain ⟨⟨r, s', strm'⟩, hc, he⟩ := map_eq_ok heval
  obtain ⟨rfl, hlen, hin, hlive⟩ : r = .runOk ∧ strm'.out.length = 24 ∧ strm'.availIn = 0 ∧
      s'.out.bsLive = 19 := by simpa using he
  obtain ⟨parts, writes, bits, hd, hst, hz, hb, hall, hleft⟩ := flush_leaves sortingEnv_succeeds
    (by decide) (by decide) .init ⟨oneByteRoom, bzFlush, .runOk, strm'⟩ hc rfl rfl
  have htaken : [(⟨oneByteRoom, bzFlush, .runOk, strm'⟩ : Call)].flatMap Call.taken = [0x61] := by
    rw [List.flatMap_singleton, Call.taken]
    dsimp only
    rw [hin]
    rfl
  rw [List.nil_append, htaken] at hd
  rw [List.nil_append, List.flatMap_singleton] at hall
  exact ⟨s', strm', hc, hlen, hin, hlive, parts, writes, bits, hd, hst, hz, hb, hall, hleft⟩

end Qbz2
