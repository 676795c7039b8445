/-
  File:      Qbz2/Compress/BitWriter.lean
  Subject:   The bit writer of `src/compress.c`: `bsNEEDW`, `bsW`, `bsFinishWrite`.

  `zbits` is the list of the bytes `zbits[0..numZ-1]`. `bsLive` is an `Int32` that the last flush
  may take below zero.
-/
import Qbz2.Types

namespace Qbz2

/-- `zbits` and `numZ`, `bsBuff`, `bsLive`. -/
structure BitWriter where
  zbits : List Byte
  bsBuff : Word64
  bsLive : Int

namespace BitWriter

/-- `numZ`. -/
def numZ (w : BitWriter) : Nat := w.zbits.length

/-- `BZ2_bsInitWrite`. -/
def initWrite (w : BitWriter) : BitWriter := { w with bsLive := 0, bsBuff := 0 }

/-- `bsNEEDW`: four bytes at a time while there are 32 bits. -/
def needW : Nat → BitWriter → BitWriter
  | 0, w => w
  | fuel + 1, w =>
    if w.bsLive ≥ 32 then
      needW fuel
        { zbits := w.zbits ++ [(w.bsBuff >>> 56).setWidth 8, (w.bsBuff >>> 48).setWidth 8,
            (w.bsBuff >>> 40).setWidth 8, (w.bsBuff >>> 32).setWidth 8]
          bsBuff := w.bsBuff <<< 32
          bsLive := w.bsLive - 32 }
    else w

/-- `bsW`: `n` bits of value `v`. -/
def bsW (w : BitWriter) (n : Nat) (v : Word32) : BitWriter :=
  let w := needW w.bsLive.toNat w
  { w with
    bsBuff := w.bsBuff ||| (v.setWidth 64 <<< (64 - w.bsLive - n).toNat)
    bsLive := w.bsLive + n }

/-- `bsFinishWrite`: whole bytes until nothing is left. -/
def finishLoop : Nat → BitWriter → BitWriter
  | 0, w => w
  | fuel + 1, w =>
    if w.bsLive > 0 then
      finishLoop fuel
        { zbits := w.zbits ++ [(w.bsBuff >>> 56).setWidth 8]
          bsBuff := w.bsBuff <<< 8
          bsLive := w.bsLive - 8 }
    else w

/-- `bsFinishWrite`. -/
def finishWrite (w : BitWriter) : BitWriter := finishLoop w.bsLive.toNat w

/-- Calls of `bsW`, one after the other. -/
def bsWs (w : BitWriter) (l : List (Nat × Word32)) : BitWriter :=
  l.foldl (fun w x => w.bsW x.1 x.2) w

/-- `bsPutUChar`. -/
def putUChar (w : BitWriter) (c : Byte) : BitWriter := w.bsW 8 (c.setWidth 32)

/-- `bsPutUInt32`. -/
def putUInt32 (w : BitWriter) (u : Word32) : BitWriter :=
  (((w.bsW 8 ((u >>> 24) &&& 0xff)).bsW 8 ((u >>> 16) &&& 0xff)).bsW 8
    ((u >>> 8) &&& 0xff)).bsW 8 (u &&& 0xff)

end BitWriter

end Qbz2
