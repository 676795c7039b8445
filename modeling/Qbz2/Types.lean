/-
  File:      Qbz2/Types.lean
  Subject:   The public types of `include/bzlib.h`: return codes, action codes, and the
             `bz_stream` a caller hands to every call; the constants both sides share.

  * `Ret`, `bzRun`, `bzFlush`, `bzFinish` -- the codes, an action being any `int`;
  * `bzMaxAlphaSize`, ... -- the constants of `qbz2_internal.h` that both sides use;
  * `BzStream` -- the caller's record. Memory behind `next_in` is a function of the address, so
    that stepping `next_in` backwards (the decoder hands bytes back) means something; memory
    behind `next_out` is the list of bytes stored through it, oldest first;
  * `getByte`, `putByte`, ... -- the pointer and counter updates the source writes out by hand,
    with the 64-bit totals kept as two 32-bit words, carried as the source carries them.

  The fields `state`, `bzalloc`, `bzfree`, `opaque` are not data of a run: the library state is
  carried next to the stream, and allocation is taken to succeed everywhere but in `sais_bwt`.
-/
import Mathlib.Algebra.Group.Int.Defs
import Mathlib.Algebra.Group.Nat.Defs
import Mathlib.Logic.Function.Basic

namespace Qbz2

/-- `UChar`. -/
abbrev Byte := BitVec 8

/-- `UInt32`, where wrap-around or bit operations matter. -/
abbrev Word32 := BitVec 32

/-- `UInt64`. -/
abbrev Word64 := BitVec 64

/-! ## 1. Codes -/

/-- The return codes of `bzlib.h`. -/
inductive Ret where
  | ok
  | runOk
  | flushOk
  | finishOk
  | streamEnd
  | sequenceError
  | paramError
  | memError
  | dataError
  | dataErrorMagic
  | ioError
  | unexpectedEof
  | outbuffFull
  | configError
  deriving DecidableEq, Repr

/-- The number a return code stands for. -/
def Ret.code : Ret → Int
  | .ok => 0
  | .runOk => 1
  | .flushOk => 2
  | .finishOk => 3
  | .streamEnd => 4
  | .sequenceError => -1
  | .paramError => -2
  | .memError => -3
  | .dataError => -4
  | .dataErrorMagic => -5
  | .ioError => -6
  | .unexpectedEof => -7
  | .outbuffFull => -8
  | .configError => -9

/-- `BZ_RUN`. -/
def bzRun : Int := 0

/-- `BZ_FLUSH`. -/
def bzFlush : Int := 1

/-- `BZ_FINISH`. -/
def bzFinish : Int := 2

/-! ## 2. Sizes and symbols both sides share -/

/-- `BZ_MAX_ALPHA_SIZE`. -/
def bzMaxAlphaSize : Nat := 258

/-- `BZ_G_SIZE`. -/
def bzGSize : Nat := 50

/-- `BZ_MAX_SELECTORS`. -/
def bzMaxSelectors : Nat := 18002

/-- `BZ_RUNA`. -/
def bzRunA : Int := 0

/-- `BZ_RUNB`. -/
def bzRunB : Int := 1

/-! ## 3. The stream record -/

/-- `bz_stream`. `mem a` is the byte at address `a`; `out` the bytes stored through `next_out`
    so far, oldest first. -/
structure BzStream where
  mem : Int → Byte
  nextIn : Int
  availIn : Nat
  totalInLo32 : Word32
  totalInHi32 : Word32
  nextOut : Int
  out : List Byte
  availOut : Nat
  totalOutLo32 : Word32
  totalOutHi32 : Word32

/-- The `n` bytes from address `a` on. -/
def bytesAt (mem : Int → Byte) (a : Int) : Nat → List Byte
  | 0 => []
  | n + 1 => mem a :: bytesAt mem (a + 1) n

/-- The bytes the caller still offers. -/
def BzStream.input (strm : BzStream) : List Byte :=
  bytesAt strm.mem strm.nextIn strm.availIn

@[simp] theorem bytesAt_zero (mem : Int → Byte) (a : Int) : bytesAt mem a 0 = [] := rfl

@[simp] theorem bytesAt_succ (mem : Int → Byte) (a : Int) (n : Nat) :
    bytesAt mem a (n + 1) = mem a :: bytesAt mem (a + 1) n := rfl

@[simp] theorem length_bytesAt (mem : Int → Byte) (a : Int) (n : Nat) :
    (bytesAt mem a n).length = n := by
  induction n generalizing a with
  | zero => rfl
  | succ n ih => simp [ih]

theorem bytesAt_add (mem : Int → Byte) (a : Int) (m n : Nat) :
    bytesAt mem a (m + n) = bytesAt mem a m ++ bytesAt mem (a + m) n := by
  induction m generalizing a with
  | zero => simp
  | succ m ih =>
    have e : m + 1 + n = m + n + 1 := by omega
    rw [e, bytesAt_succ, bytesAt_succ, ih]
    have e' : a + 1 + (m : Int) = a + ((m + 1 : Nat) : Int) := by omega
    rw [e']
    rfl

/-! ## 4. Moving the pointers and counters -/

/-- The caller's memory behind `next_in` never moves; `next_in++; avail_in--;
    total_in_lo32++; if (total_in_lo32 == 0) total_in_hi32++`. -/
def BzStream.skipByte (strm : BzStream) : BzStream :=
  { strm with
    nextIn := strm.nextIn + 1
    availIn := strm.availIn - 1
    totalInLo32 := strm.totalInLo32 + 1
    totalInHi32 :=
      if strm.totalInLo32 + 1 = 0 then strm.totalInHi32 + 1 else strm.totalInHi32 }

/-- The 4-byte refill: `next_in += 4; avail_in -= 4`, the low word carried by comparing it with
    its old value. -/
def BzStream.skip4 (strm : BzStream) : BzStream :=
  { strm with
    nextIn := strm.nextIn + 4
    availIn := strm.availIn - 4
    totalInLo32 := strm.totalInLo32 + 4
    totalInHi32 :=
      if (strm.totalInLo32 + 4).toNat < strm.totalInLo32.toNat then strm.totalInHi32 + 1
      else strm.totalInHi32 }

/-- `n` whole bytes handed back at the end of a stream. -/
def BzStream.unread (strm : BzStream) (n : Nat) : BzStream :=
  { strm with
    nextIn := strm.nextIn - n
    availIn := strm.availIn + n
    totalInHi32 :=
      if strm.totalInLo32.toNat < (BitVec.ofNat 32 n).toNat then strm.totalInHi32 - 1
      else strm.totalInHi32
    totalInLo32 := strm.totalInLo32 - BitVec.ofNat 32 n }

/-- One byte stored through `next_out`, with the post-increment carry test. -/
def BzStream.putByte (strm : BzStream) (b : Byte) : BzStream :=
  { strm with
    nextOut := strm.nextOut + 1
    out := strm.out ++ [b]
    availOut := strm.availOut - 1
    totalOutLo32 := strm.totalOutLo32 + 1
    totalOutHi32 :=
      if strm.totalOutLo32 + 1 = 0 then strm.totalOutHi32 + 1 else strm.totalOutHi32 }

/-- Several bytes stored at once, the low word carried by comparing it with its old value. -/
def BzStream.putBytes (strm : BzStream) (bs : List Byte) : BzStream :=
  { strm with
    nextOut := strm.nextOut + bs.length
    out := strm.out ++ bs
    availOut := strm.availOut - bs.length
    totalOutLo32 := strm.totalOutLo32 + BitVec.ofNat 32 bs.length
    totalOutHi32 :=
      if (strm.totalOutLo32 + BitVec.ofNat 32 bs.length).toNat < strm.totalOutLo32.toNat then
        strm.totalOutHi32 + 1
      else strm.totalOutHi32 }

/-- The stream the one-shot functions make their one call with: the totals are zero after
    `BZ2_bzCompressInit` and `BZ2_bzDecompressInit`. -/
def BzStream.oneShot (mem : Int → Byte) (source : Int) (sourceLen : Nat) (dest : Int)
    (destLen : Nat) : BzStream :=
  { mem, nextIn := source, availIn := sourceLen, totalInLo32 := 0, totalInHi32 := 0,
    nextOut := dest, out := [], availOut := destLen, totalOutLo32 := 0, totalOutHi32 := 0 }

end Qbz2
