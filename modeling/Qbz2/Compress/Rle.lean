/-
  File:      Qbz2/Compress/Rle.lean
  Subject:   The first run-length stage (`src/bzlib.c`): `init_RL`, `isempty_RL`,
             `add_pair_to_block`, `flush_RL`, `ADD_CHAR_TO_BLOCK`, `prepare_new_block`.

  * `InBlock` -- the pending run and the block it will go to.
-/
import Qbz2.Crc.Update
import Qbz2.Lib.Cells
import Qbz2.Lib.Loop

namespace Qbz2

open Loop (forUpto)

/-- The fields of `EState` that take in the input. `state_in_ch` is 256 where no run is pending. -/
structure InBlock where
  stateInCh : Nat
  stateInLen : Nat
  block : Cells Byte
  nblock : Nat
  inUse : Cells Bool
  blockCRC : Word32

namespace InBlock

/-- `init_RL`. -/
def initRL (s : InBlock) : InBlock := { s with stateInCh := 256, stateInLen := 0 }

/-- `isempty_RL`. -/
def isemptyRL (s : InBlock) : Bool := !decide (s.stateInCh < 256 ∧ s.stateInLen > 0)

/-- `block[nblock] = c; nblock++`. -/
def putBlock (s : InBlock) (c : Byte) : InBlock :=
  { s with block := s.block.set s.nblock c, nblock := s.nblock + 1 }

/-- The CRC of a run: in one call from eight bytes on. -/
def runCrc [Build] (crc : Word32) (ch : Byte) (len : Nat) : Word32 :=
  if len ≥ 8 then bz2Crc32Update Build.bufAddr crc (List.replicate len ch)
  else forUpto len (fun _ crc => updateCrc crc ch) crc

/-- `add_pair_to_block`. -/
def addPairToBlock [Build] (s : InBlock) : InBlock :=
  let ch : Byte := BitVec.ofNat 8 s.stateInCh
  let s := { s with
    blockCRC := runCrc s.blockCRC ch s.stateInLen
    inUse := s.inUse.set s.stateInCh true }
  match s.stateInLen with
  | 1 => s.putBlock ch
  | 2 => (s.putBlock ch).putBlock ch
  | 3 => ((s.putBlock ch).putBlock ch).putBlock ch
  | _ =>
    let s := { s with inUse := s.inUse.set ((s.stateInLen : Int) - 4) true }
    ((((s.putBlock ch).putBlock ch).putBlock ch).putBlock ch).putBlock
      (BitVec.ofNat 8 (s.stateInLen - 4))

/-- `flush_RL`. -/
def flushRL [Build] (s : InBlock) : InBlock :=
  (if s.stateInCh < 256 then s.addPairToBlock else s).initRL

/-- `ADD_CHAR_TO_BLOCK`. -/
def addCharToBlock [Build] (s : InBlock) (c : Byte) : InBlock :=
  let zchh := c.toNat
  if zchh ≠ s.stateInCh ∧ s.stateInLen = 1 then
    -- a run of one, put into the block at once
    let ch : Byte := BitVec.ofNat 8 s.stateInCh
    let s := { s with
      blockCRC := updateCrc s.blockCRC ch
      inUse := s.inUse.set s.stateInCh true }
    { s.putBlock ch with stateInCh := zchh }
  else if zchh ≠ s.stateInCh ∨ s.stateInLen = 255 then
    let s := if s.stateInCh < 256 then s.addPairToBlock else s
    { s with stateInCh := zchh, stateInLen := 1 }
  else { s with stateInLen := s.stateInLen + 1 }

/-- What `prepare_new_block` does to these fields; the pending run stays. -/
def prepareNewBlock (s : InBlock) : InBlock :=
  { s with
    nblock := 0
    blockCRC := 0xffffffff
    inUse := s.inUse.fill 0 256 false }

/-- The bytes of the block. -/
def bytes (s : InBlock) : List Byte := bytesAt s.block 0 s.nblock

end InBlock

end Qbz2
