/-
  Chronicle.Machine.BitReader — bits taken from bytes, as many at a time as a byte has.

  Model.
  - A number is read in pieces, each what is left of the current byte or less (`readPiece`). The pieces
    before it are shifted to the left, and the piece itself is cut out of the byte by a shift and a mask.
  - The count of unread bits is a byte, and so is the number of bits that are still wanted: every
    difference of such counts and every shift by one is guarded.
  - A reader is lazy or eager, as in `Chronicle.Wire.BitReader`, and takes bytes at the same moments.
  - Bits up to a zero are gathered in a byte, from which the first ones fall out if there are too many.

  That numbers read in pieces are numbers read bit by bit, and that no step is trapped on any bytes, is in
  `Chronicle.Proofs.Machine.BitReader`.
-/

import Chronicle.Machine.Guarded
import Chronicle.Wire.BitCalls

namespace Chronicle.Machine

def takeByte : Guarded Bytes UInt8
  | [] => .error (.trapped .bytes) []
  | b :: rest => .ok b rest

/-- The byte a reader is in, and how many of its low bits are unread. -/
structure BitReader where
  refill : Refill
  byte : UInt8 := 0
  left : UInt8 := 0

structure BitSource where
  reader : BitReader
  bytes : Bytes

namespace BitReader

def align (r : BitReader) : BitReader := { r with left := 0 }

def reset (r : BitReader) : BitReader := { r with byte := 0, left := 0 }

end BitReader

namespace BitSource

open Chronicle.BitSource (Call)

def toBits (s : BitSource) : List Bool := bitsOf s.reader.left.toNat s.reader.byte.toNat ++ s.bytes.toBits

def withLeft (s : BitSource) (left : UInt8) : BitSource := { s with reader := { s.reader with left := left } }

def setLeft (left : UInt8) : Guarded BitSource Unit := modify fun s => s.withLeft left

def onBytes {α : Type} (m : Guarded Bytes α) : Guarded BitSource α := fun s =>
  match m s.bytes with
  | .ok a bytes => .ok a { s with bytes := bytes }
  | .error h bytes => .error h { s with bytes := bytes }

def flip : Guarded BitSource Unit := do
  if (← get).reader.left ≠ 0 then return ()
  if (← get).bytes.isEmpty then Guarded.fail .underflow
  let byte ← onBytes takeByte
  modify fun s => { s with reader := { s.reader with byte := byte, left := 8 } }

/-- An eager reader takes the next byte as soon as it has no bit left. -/
def flipEagerly : Guarded BitSource Unit := do
  if (← get).reader.refill = .eager then flip

def readBit : Guarded BitSource Bool := do
  flip
  let r := (← get).reader
  let bit ← Guarded.shiftRight8 r.byte (← Guarded.minus r.left 1)
  setLeft (← Guarded.minus r.left 1)
  flipEagerly
  return bit &&& 1 == 1

def readPiece (take : UInt8) : Guarded BitSource UInt8 := do
  let r := (← get).reader
  let piece ← Guarded.shiftRight8 r.byte (← Guarded.minus r.left take)
  let mask ← Guarded.lowBits8 take
  setLeft (← Guarded.minus r.left take)
  return piece &&& mask

/-- Reads `remaining` bits behind those of `value`. Every round takes one bit at least. -/
def readPieces (value : UInt64) (remaining : UInt8) : (rounds : Nat) → Guarded BitSource UInt64
  | 0 => if remaining = 0 then return value else Guarded.trap .rounds
  | rounds + 1 => do
    if remaining = 0 then return value
    flip
    let take := min remaining (← get).reader.left
    let piece ← readPiece take
    let above ← Guarded.shiftLeft64 value take
    let remaining ← Guarded.minus remaining take
    flipEagerly
    readPieces (above ||| piece.toUInt64) remaining rounds

def readBits (count : UInt8) : Guarded BitSource UInt64 := do
  Guarded.require (count ≤ 64) .width ()
  readPieces 0 count count.toNat

/-- Reads at most `limit` bits behind those of `code`, and stops behind the first zero. -/
def readToClearBit (code : UInt8) : (limit : Nat) → Guarded BitSource UInt8
  | 0 => return code
  | limit + 1 => do
    if ← readBit then readToClearBit (code <<< 1 ||| 1) limit else return code <<< 1

def align : Guarded BitSource Unit := modify fun s => { s with reader := s.reader.align }

/-! ## Calls -/

def call : Call → Guarded BitSource UInt64
  | .bit => return (← readBit).toUInt64
  | .bits count _ => readBits count
  | .toClearBit limit => return (← readToClearBit 0 limit.toNat).toUInt64

def answers : List Call → Guarded BitSource (List UInt64)
  | [] => return []
  | c :: calls => do
    let n ← call c
    return n :: (← answers calls)

end BitSource

end Chronicle.Machine
