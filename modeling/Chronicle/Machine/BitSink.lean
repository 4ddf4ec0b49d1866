/-
  Chronicle.Machine.BitSink — bits packed into bytes, as many at a time as a byte has room for.

  Model.
  - A word is written in pieces, each what is free of the current byte or less. A piece is set in the
    byte, whose free bits have to be zeros for this to add it to the bits that are there.
  - The count of free bits is a byte itself, so every difference of such counts and every shift by one
    is guarded. A byte that is full is passed on at once, so that there always is a free bit.
  - The bytes can be taken out at any time, with the last one filled up; what is left is an empty sink.

  To its caller a sink is the list of the bits that it was given (`sink_is_list_of_bits`).
-/

import Chronicle.Machine.Guarded
import Chronicle.Wire.BitCalls

namespace Chronicle.Machine

/-- Full bytes, the byte that is being filled, and how many of its low bits are free. -/
structure BitSink where
  full : Array UInt8 := #[]
  byte : UInt8 := 0
  free : UInt8 := 8

namespace BitSink

open BitWriter (Call Answer)

def empty : BitSink := {}

def flip (w : BitSink) : BitSink := if w.free = 0 then { full := w.full.push w.byte } else w

def setBits (w : BitSink) (piece : UInt8) : BitSink := { w with byte := w.byte ||| piece }

def setFree (w : BitSink) (free : UInt8) : BitSink := { w with free := free }

def isAligned (w : BitSink) : Bool := w.free == 8

def length : Guarded BitSink Nat := do
  let w ← get
  return w.full.size * 8 + (← Guarded.minus 8 w.free).toNat

def isEmpty : Guarded BitSink Bool := return (← length) == 0

def writeBit (bit : Bool) : Guarded BitSink Unit := do
  let w ← get
  if bit then
    let piece ← Guarded.shiftLeft8 1 (← Guarded.minus w.free 1)
    modify fun w => w.setBits piece
  let free ← Guarded.minus w.free 1
  modify fun w => (w.setFree free).flip

/-- Writes the `remaining` low bits of a word. Every round writes one bit at least. -/
def writePieces (word : UInt64) (remaining : UInt8) : (rounds : Nat) → Guarded BitSink Unit
  | 0 => if remaining = 0 then return () else Guarded.trap .rounds
  | rounds + 1 => do
    if remaining = 0 then return ()
    let w ← get
    if w.free ≤ remaining then
      let above ← Guarded.shiftRight64 word (← Guarded.minus remaining w.free)
      let mask ← Guarded.lowBits8 w.free
      let remaining ← Guarded.minus remaining w.free
      modify fun w => ((w.setBits (above.toUInt8 &&& mask)).setFree 0).flip
      writePieces word remaining rounds
    else
      let free ← Guarded.minus w.free remaining
      let mask ← Guarded.lowBits8 remaining
      let piece ← Guarded.shiftLeft8 (word.toUInt8 &&& mask) free
      modify fun w => ((w.setBits piece).setFree free).flip
      writePieces word 0 rounds

def writeBits (word : UInt64) (count : UInt8) : Guarded BitSink Unit := do
  Guarded.require (count ≤ 64) .width ()
  writePieces word count count.toNat

def align : Guarded BitSink Unit := modify fun w => if w.isAligned then w else (w.setFree 0).flip

def split : Guarded BitSink Bytes := modifyGet fun w => (w.full.toList, { w with full := #[] })

def finish : Guarded BitSink Bytes := do
  align
  split

/-- Like `finish`, but there is one byte more than full ones in any case. -/
def finishWithTerminator : Guarded BitSink Bytes := do
  modify fun w => (w.setFree 0).flip
  split

def clear : Guarded BitSink Unit := set empty

/-! ## Calls -/

def call : Call → Guarded BitSink (Answer Bytes)
  | .bit b => do
    writeBit b
    return .done
  | .bits word count _ => do
    writeBits word count
    return .done
  | .align => do
    align
    return .done
  | .clear => do
    clear
    return .done
  | .finish => return .bytes (← finish)
  | .terminate => return .bytes (← finishWithTerminator)
  | .length => return .number (← length)
  | .isEmpty => return .truth (← isEmpty)
  | .isAligned => return .truth (← get).isAligned

def answers : List Call → Guarded BitSink (List (Answer Bytes))
  | [] => return []
  | c :: calls => do
    let a ← call c
    return a :: (← answers calls)

end BitSink

end Chronicle.Machine
