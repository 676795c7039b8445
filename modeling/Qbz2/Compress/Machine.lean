/-
  File:      Qbz2/Compress/Machine.lean
  Subject:   `BZ2_compressBlock` (`src/compress.c`) and `BZ2_bzCompressInit`, `BZ2_bzCompress` with
             what they call (`src/bzlib.c`).

  * `EState` -- the state of the compressor;
  * `compressBlock` -- a block, with the header before the first and the trailer after the last;
  * `copyInputUntilStop`, `copyOutputUntilStop`, `handleCompress` -- the compression loop;
  * `bzCompress` -- one call of the library.

  Memory from the allocator is taken as zero; `blockNo` is not bounded. The text is the same for
  every build and for every answer of `malloc` and `libsais` inside `sais_bwt` (`CompressEnv`).
-/
import Qbz2.BlockSort.Model
import Qbz2.Compress.Rle
import Qbz2.Compress.SendMtf

namespace Qbz2

/-! ## 1. State -/

/-- What a run of the compressor finds around it: the build, and `sais_bwt`'s surroundings. -/
class CompressEnv extends Build where
  sse2 : Bool
  sais : SaisEnv

/-- `BZ_M_IDLE` .. `BZ_M_FINISHING`. -/
inductive Mode where
  | idle
  | running
  | flushing
  | finishing
  deriving DecidableEq

/-- `BZ_S_OUTPUT`, `BZ_S_INPUT`. -/
inductive SState where
  | output
  | input
  deriving DecidableEq

/-- `EState`. `blockNo`, an `Int32` in the source, is a count without a bound: it would take 2 ^ 31
    blocks to pass the end of the range. -/
structure EState where
  mode : Mode
  state : SState
  availInExpect : Nat
  input : InBlock
  values : MtfValues Arr1
  ftab : Cells Word32
  origPtr : Int
  out : BitWriter
  stateOutPos : Nat
  blockNo : Nat
  blockSize100k : Nat
  nblockMAX : Nat
  combinedCRC : Word32

namespace EState

/-- `numZ`. -/
def numZ (s : EState) : Nat := s.out.numZ

/-- `prepare_new_block`. -/
def prepareNewBlock (s : EState) : EState :=
  { s with
    input := s.input.prepareNewBlock
    out := { s.out with zbits := [] }
    stateOutPos := 0
    blockNo := s.blockNo + 1 }

/-- The entries of `ptr` in `arr1`. -/
def ptrs (s : EState) : Cells Int := .ofFn (MtfArrays.ptr s.values.arrays)

/-- The `EState` of `BZ2_bzCompressInit`. -/
def init (blockSize100k : Nat) : EState :=
  prepareNewBlock
    { mode := .running
      state := .input
      availInExpect := 0
      input := InBlock.initRL
        { stateInCh := 0
          stateInLen := 0
          block := .ofFn fun _ => 0
          nblock := 0
          inUse := .ofFn fun _ => false
          blockCRC := 0 }
      values :=
        { arrays := ⟨.ofFn fun _ => 0⟩
          unseqToSeq := .ofFn fun _ => 0
          nInUse := 0
          mtfFreq := .ofFn fun _ => 0
          nMTF := 0 }
      ftab := .ofFn fun _ => 0
      origPtr := 0
      out := ⟨[], 0, 0⟩
      stateOutPos := 0
      blockNo := 0
      blockSize100k
      nblockMAX := 100000 * blockSize100k - 19
      combinedCRC := 0 }

end EState

/-! ## 2. `BZ2_compressBlock` -/

/-- What the sorter returns with, as the compressor's result. -/
def ofSort {α : Type} : Run α → HuffRun α
  | .ok a => .ok a
  | .error (.assertH n) => .error (.assertH n)
  | .error .diverge => .error .diverge

section

variable [CompressEnv]

/-- The checks and the sort at the start of a block that is not empty. -/
def sortBlock (s : EState) : HuffRun EState := do
  let blockCRC := ~~~s.input.blockCRC
  let combinedCRC := (s.combinedCRC <<< 1) ||| (s.combinedCRC >>> 31)
  let s := { s with
    input := { s.input with blockCRC }
    combinedCRC := combinedCRC ^^^ blockCRC
    out := if s.blockNo > 1 then { s.out with zbits := [] } else s.out }
  let r ← ofSort (bz2BlockSort CompressEnv.sais
    { ptr := s.ptrs, block := s.input.block, ftab := s.ftab, nblock := s.input.nblock,
      origPtr := s.origPtr })
  .ok { s with
    values := { s.values with arrays := Arr1.ofPtr r.ptr }
    input := { s.input with block := r.block }
    ftab := r.ftab
    origPtr := r.origPtr }

/-- The stream header, before the first block. -/
def writeHeader (s : EState) : EState :=
  if s.blockNo = 1 then
    { s with
      out := (((s.out.initWrite.putUChar 0x42).putUChar 0x5a).putUChar 0x68).putUChar
        (BitVec.ofNat 8 (0x30 + s.blockSize100k)) }
  else s

/-- The header of a block, its symbols, and their codes. -/
def writeBlock (s : EState) : HuffRun EState := do
  let out := (((((s.out.putUChar 0x31).putUChar 0x41).putUChar 0x59).putUChar 0x26).putUChar
    0x53).putUChar 0x59
  let out := out.putUInt32 s.input.blockCRC
  let out := out.bsW 1 0
  let out := out.bsW 24 (BitVec.ofInt 32 s.origPtr)
  let values := generateMTFValues CompressEnv.sse2 s.input.block s.input.nblock s.input.inUse
    s.values
  let writes ← sendMTFValues values.symbols values.mtfFreq values.nInUse s.input.inUse
  .ok { s with values, out := out.bsWs writes }

/-- The stream trailer, after the last block. -/
def writeTrailer (s : EState) : EState :=
  let out := (((((s.out.putUChar 0x17).putUChar 0x72).putUChar 0x45).putUChar 0x38).putUChar
    0x50).putUChar 0x90
  { s with out := (out.putUInt32 s.combinedCRC).finishWrite }

/-- `if (s->nblock > 0) { ... }`. -/
def whereBlock (f : EState → HuffRun EState) (s : EState) : HuffRun EState :=
  if s.input.nblock > 0 then f s else .ok s

/-- `BZ2_compressBlock`. -/
def compressBlock (s : EState) (isLastBlock : Bool) : HuffRun EState := do
  let s ← whereBlock sortBlock s
  let s ← whereBlock writeBlock (writeHeader s)
  .ok (if isLastBlock then writeTrailer s else s)

/-! ## 3. The compression loop -/

/-- One round of `copy_input_until_stop`: none where it stops. -/
def copyInputStep (s : EState) (strm : BzStream) : Option (EState × BzStream) :=
  if s.input.nblock ≥ s.nblockMAX then none
  else if strm.availIn = 0 then none
  else if s.mode = .running then
    some ({ s with input := s.input.addCharToBlock (strm.mem strm.nextIn) }, strm.skipByte)
  else if s.availInExpect = 0 then none
  else
    some ({ s with
      input := s.input.addCharToBlock (strm.mem strm.nextIn)
      availInExpect := s.availInExpect - 1 }, strm.skipByte)

/-- `copy_input_until_stop`, with `progress_in`: every round takes a byte. -/
def copyInputLoop : Nat → Bool → EState → BzStream → Bool × EState × BzStream
  | 0, progress, s, strm => (progress, s, strm)
  | fuel + 1, progress, s, strm =>
    match copyInputStep s strm with
    | none => (progress, s, strm)
    | some (s, strm) => copyInputLoop fuel true s strm

/-- `copy_input_until_stop`. -/
def copyInputUntilStop (s : EState) (strm : BzStream) : Bool × EState × BzStream :=
  copyInputLoop strm.availIn false s strm

/-- `copy_output_until_stop`. -/
def copyOutputUntilStop (s : EState) (strm : BzStream) : Bool × EState × BzStream :=
  let avail : Int := (s.numZ : Int) - s.stateOutPos
  if avail ≤ 0 ∨ strm.availOut = 0 then (false, s, strm)
  else
    let n := if avail.toNat > strm.availOut then strm.availOut else avail.toNat
    (true, { s with stateOutPos := s.stateOutPos + n },
      strm.putBytes ((s.out.zbits.drop s.stateOutPos).take n))

/-- A flush or the end of the stream has got all its input into blocks. -/
def EState.drained (s : EState) : Bool := decide (s.availInExpect = 0) && s.input.isemptyRL

/-- Half a round of the loop: whether it leaves the loop, whether it made progress, and the state
    after it. -/
structure Half where
  left : Bool
  progress : Bool
  s : EState
  strm : BzStream

/-- `if (s->state == BZ_S_OUTPUT) { ... }`. -/
def outputHalf (s : EState) (strm : BzStream) : Half :=
  if s.state = .output then
    let (progress, s, strm) := copyOutputUntilStop s strm
    if s.stateOutPos < s.numZ then ⟨true, progress, s, strm⟩
    else if s.mode = .finishing ∧ s.drained then ⟨true, progress, s, strm⟩
    else
      let s := { s.prepareNewBlock with state := .input }
      ⟨decide (s.mode = .flushing ∧ s.drained), progress, s, strm⟩
  else ⟨false, false, s, strm⟩

/-- `BZ2_compressBlock`, and on to `BZ_S_OUTPUT`. -/
def closeBlock (s : EState) (isLastBlock progress : Bool) (strm : BzStream) : HuffRun Half := do
  let s ← compressBlock s isLastBlock
  .ok ⟨false, progress, { s with state := .output }, strm⟩

/-- `if (s->state == BZ_S_INPUT) { ... }`. -/
def inputHalf (s : EState) (strm : BzStream) : HuffRun Half :=
  if s.state = .input then
    let (progress, s, strm) := copyInputUntilStop s strm
    if s.mode ≠ .running ∧ s.availInExpect = 0 then
      closeBlock { s with input := s.input.flushRL } (decide (s.mode = .finishing)) progress strm
    else if s.input.nblock ≥ s.nblockMAX then closeBlock s false progress strm
    else .ok ⟨decide (strm.availIn = 0), progress, s, strm⟩
  else .ok ⟨false, false, s, strm⟩

/-- The loop of `handle_compress`, with `progress_in || progress_out`. -/
def handleLoop : Nat → Bool → EState → BzStream → HuffRun (Bool × EState × BzStream)
  | 0, _, _, _ => .error .diverge
  | fuel + 1, progress, s, strm =>
    let o := outputHalf s strm
    let progress := progress || o.progress
    if o.left then .ok (progress, o.s, o.strm)
    else do
      let i ← inputHalf o.s o.strm
      let progress := progress || i.progress
      if i.left then .ok (progress, i.s, i.strm) else handleLoop fuel progress i.s i.strm

/-- `handle_compress`. Every round but the first and the last two takes a byte. -/
def handleCompress (s : EState) (strm : BzStream) : HuffRun (Bool × EState × BzStream) :=
  handleLoop (strm.availIn + 3) false s strm

/-! ## 4. `BZ2_bzCompress` -/

/-- `isempty_RL` and the rest of the test at the end of a flush and of the stream. -/
def EState.unfinished (s : EState) : Bool :=
  decide (s.availInExpect > 0) || !s.input.isemptyRL || decide (s.stateOutPos < s.numZ)

/-- The case `BZ_M_FLUSHING`. -/
def compressFlushing (s : EState) (strm : BzStream) (action : Int) :
    HuffRun (Ret × EState × BzStream) :=
  if action ≠ bzFlush then .ok (.sequenceError, s, strm)
  else if s.availInExpect ≠ strm.availIn then .ok (.sequenceError, s, strm)
  else do
    let (_, s, strm) ← handleCompress s strm
    if s.unfinished then .ok (.flushOk, s, strm)
    else .ok (.runOk, { s with mode := .running }, strm)

/-- The case `BZ_M_FINISHING`. -/
def compressFinishing (s : EState) (strm : BzStream) (action : Int) :
    HuffRun (Ret × EState × BzStream) :=
  if action ≠ bzFinish then .ok (.sequenceError, s, strm)
  else if s.availInExpect ≠ strm.availIn then .ok (.sequenceError, s, strm)
  else do
    let (progress, s, strm) ← handleCompress s strm
    if !progress then .ok (.sequenceError, s, strm)
    else if s.unfinished then .ok (.finishOk, s, strm)
    else .ok (.streamEnd, { s with mode := .idle }, strm)

/-- `BZ2_bzCompress`, the stream being the one the state belongs to. -/
def bzCompress (s : EState) (strm : BzStream) (action : Int) : HuffRun (Ret × EState × BzStream) :=
  match s.mode with
  | .idle => .ok (.sequenceError, s, strm)
  | .running =>
    if action = bzRun then do
      let (progress, s, strm) ← handleCompress s strm
      .ok (if progress then .runOk else .paramError, s, strm)
    else if action = bzFlush then
      compressFlushing { s with availInExpect := strm.availIn, mode := .flushing } strm action
    else if action = bzFinish then
      compressFinishing { s with availInExpect := strm.availIn, mode := .finishing } strm action
    else .ok (.paramError, s, strm)
  | .flushing => compressFlushing s strm action
  | .finishing => compressFinishing s strm action

end

end Qbz2
