/-
  Chronicle.Machine.DeltaWriter — TS_2DIFF written on machine words.

  (1) Words are subtracted modulo 2^64, whatever the word size: a difference is cut down to the word
  size and read with its sign, and what a difference is more than the least one is cut down again.

  (2) The words of a block are kept until there are eight, and every field goes to one writer of bits.
  A value first has to become a word, which a scale may refuse; only then is the mode written, if none
  has been, and the word kept. A flush writes the words that are left, takes the bytes out and forgets
  that there was a mode; a reset drops words and bits alike.
-/

import Chronicle.Machine.Guarded
import Chronicle.Stream.Delta

namespace Chronicle.Machine

open Chronicle.Delta (Domain blockSize hasMode)

structure DeltaWriter where
  dataType : NumberType
  domain : Domain
  block : List UInt64 := []
  out : BitWriter := .empty
  opened : Bool := false

namespace DeltaWriter

variable {σ : Type}

def bitsRequired (word : UInt64) : UInt8 := UInt8.ofNat (64 - leadingZeros 64 word.toNat)

/-! ## Blocks -/

def differences (width : UInt8) (mask : UInt64) : List UInt64 → Guarded σ (List Int64)
  | a :: b :: rest => do
    let difference ← Guarded.signExtend ((b - a) &&& mask) width
    return difference :: (← differences width mask (b :: rest))
  | _ => return []

def least (differences : List Int64) : Int64 := differences.min?.getD 0

def offsets (mask : UInt64) (differences : List Int64) : List UInt64 :=
  differences.map fun difference => (difference - least differences).toUInt64 &&& mask

def widest (words : List UInt64) : UInt8 := (words.map bitsRequired).max?.getD 0

def writeDifferences (width : UInt8) (mask : UInt64) (differences : List Int64) : Guarded BitWriter Unit := do
  let offsetWidth := widest (offsets mask differences)
  writeBits ((least differences).toUInt64 &&& mask) width
  writeBits offsetWidth.toUInt64 7
  (offsets mask differences).forM fun offset => writeBits offset offsetWidth

def writeSteps (width : UInt8) (mask : UInt64) (words : List UInt64) : Guarded BitWriter Unit := do
  if 1 < words.length then writeDifferences width mask (← differences width mask words)

/-- Writes a block, of which the first word has to be there. -/
def writeBlock (width : UInt8) : List UInt64 → Guarded BitWriter Unit
  | [] => Guarded.trap .index
  | first :: rest => do
    let mask ← Guarded.lowBits64 width
    writeBits (UInt64.ofNat (first :: rest).length) 4
    writeBits first width
    writeSteps width mask (first :: rest)
    modify BitWriter.align

/-! ## Streams -/

def onOut {α : Type} (m : Guarded BitWriter α) : Guarded DeltaWriter α := fun w =>
  match m w.out with
  | .ok a out => .ok a { w with out := out }
  | .error e out => .error e { w with out := out }

def width (w : DeltaWriter) : UInt8 := UInt8.ofNat (w.domain.width w.dataType)

def writeMode (t : NumberType) (d : Domain) : Guarded BitWriter Unit := do
  if hasMode t then
    match d with
    | .pattern => writeBits 0 8
    | .fixedPoint scale => do
      writeBits 1 8
      writeBits scale.bits 64

def writeModeOnce : Guarded DeltaWriter Unit := do
  let w ← get
  if !w.opened then
    onOut (writeMode w.dataType w.domain)
    modify fun w => { w with opened := true }

def closeBlock : Guarded DeltaWriter Unit := do
  let w ← get
  onOut (writeBlock w.width w.block)
  modify fun w => { w with block := [] }

/-- Adds a word, and closes the block when it is full. -/
def push (word : UInt64) : Guarded DeltaWriter Unit := do
  writeModeOnce
  modify fun w => { w with block := w.block ++ [word] }
  if (← get).block.length = blockSize then closeBlock

def encode (v : Value) : Guarded DeltaWriter Unit := do
  let w ← get
  let bits ← .ofExcept (v.requireBits (.fixed (.number w.dataType)))
  let word ← .ofExcept (Delta.toWord w.dataType w.domain bits)
  push (UInt64.ofNat word)

def closeLastBlock : Guarded DeltaWriter Unit := do
  if !(← get).block.isEmpty then closeBlock

def flush : Guarded DeltaWriter Bytes := do
  closeLastBlock
  let w ← get
  set { w with opened := false, out := w.out.finish.2 }
  return w.out.finish.1

def reset : Guarded DeltaWriter Unit := do
  modify fun w => { w with block := [] }
  modify fun w => { w with out := .empty }
  modify fun w => { w with opened := false }

def payload (t : NumberType) (d : Domain) (words : List UInt64) : Except Trap (Except CodecError Bytes) := do
  let writeAll : Guarded DeltaWriter Bytes := do
    words.forM push
    flush
  return (← Guarded.answer (writeAll { dataType := t, domain := d })).1

end DeltaWriter

end Chronicle.Machine
