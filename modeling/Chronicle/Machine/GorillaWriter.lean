/-
  Chronicle.Machine.GorillaWriter — GORILLA written on machine words.

  (1) Windows. The zeros above and below a difference are counted in 64 bits; what a pattern has
  less than that is taken off the upper ones. A window is two bytes, the first of them 255 as long
  as none has been written, so that no difference ever lies inside. The size of a window is the width
  less both bytes, and the lower byte is a shift: each of these is guarded.

  (2) Stores. A pattern first has to find room in the count, and only then is anything written or
  stored: the bits, the window if it is a new one, the pattern as the last one, the count. A reset
  sets each field back by itself, and so does a flush, behind the bytes that it takes out; a flush of
  no patterns takes nothing and sets nothing back.
-/

import Chronicle.Machine.Gorilla

namespace Chronicle.Machine

open Chronicle.Gorilla (maxCount countHeader)
open Chronicle.Machine.Gorilla (noWindow fieldWidth)

structure GorillaWriter where
  version : GorillaVersion
  dataType : NumberType
  out : BitWriter := .empty
  count : Nat := 0
  previous : UInt64 := 0
  leading : UInt8 := noWindow
  trailing : UInt8 := 0

namespace GorillaWriter

variable {σ : Type}

def width (w : GorillaWriter) : UInt8 := UInt8.ofNat w.dataType.width

def onOut {α : Type} (m : Guarded BitWriter α) : Guarded GorillaWriter α := fun w =>
  within (fun out => { w with out := out }) w.out m w

def writeBit (bit : Bool) : Guarded BitWriter Unit := modify fun out => out.writeBit bit

def zeros (width : UInt8) (difference : UInt64) : Guarded σ (UInt8 × UInt8) := do
  let beyond ← Guarded.minus 64 width
  let leading ← Guarded.minus (UInt8.ofNat (leadingZeros 64 difference.toNat)) beyond
  return (leading, UInt8.ofNat (trailingZeros 64 difference.toNat))

def sizeOf (width leading trailing : UInt8) : Guarded σ UInt8 := do
  let below ← Guarded.minus width leading
  Guarded.minus below trailing

def sizeField (version : GorillaVersion) (width size : UInt8) : Guarded σ UInt64 :=
  match version with
  | .v1 => return size.toUInt64 &&& (← Guarded.lowBits64 (fieldWidth width))
  | .v2 => return (← Guarded.minus size 1).toUInt64

def writeInside (difference : UInt64) : Guarded GorillaWriter Unit := do
  let w ← get
  onOut (writeBit false)
  let size ← sizeOf w.width w.leading w.trailing
  let bits ← Guarded.shiftRight64 difference w.trailing
  onOut (writeBits bits size)

/-- Writes a window and the bits inside it. It is the last one from here on. -/
def writeFresh (difference : UInt64) (leading trailing : UInt8) : Guarded GorillaWriter Unit := do
  let w ← get
  onOut (writeBit true)
  let size ← sizeOf w.width leading trailing
  onOut (writeBits leading.toUInt64 (fieldWidth w.width))
  let field ← sizeField w.version w.width size
  onOut (writeBits field (fieldWidth w.width))
  let bits ← Guarded.shiftRight64 difference trailing
  onOut (writeBits bits size)
  modify fun w => { w with leading := leading }
  modify fun w => { w with trailing := trailing }

def writeCode (difference : UInt64) : Guarded GorillaWriter Unit := do
  if difference = 0 then onOut (writeBit false)
  else
    onOut (writeBit true)
    let w ← get
    let (leading, trailing) ← zeros w.width difference
    if w.leading ≤ leading ∧ w.trailing ≤ trailing then writeInside difference
    else writeFresh difference leading trailing

def push (word : UInt64) : Guarded GorillaWriter Unit := do
  let w ← get
  if w.version = .v1 ∧ maxCount ≤ w.count then Guarded.fail (.overflow .valueCount)
  if w.count = 0 then onOut (writeBits word w.width) else writeCode (word ^^^ w.previous)
  modify fun w => { w with previous := word }
  modify fun w => { w with count := w.count + 1 }

def encode (v : Value) : Guarded GorillaWriter Unit := do
  let bits ← .ofExcept (v.requireBits (.fixed (.number (← get).dataType)))
  push (UInt64.ofNat bits)

def reset : Guarded GorillaWriter Unit := do
  modify fun w => { w with out := .empty }
  modify fun w => { w with count := 0 }
  modify fun w => { w with previous := 0 }
  modify fun w => { w with leading := noWindow }
  modify fun w => { w with trailing := 0 }

def finish : GorillaVersion → Guarded BitWriter Bytes
  | .v1 => modifyGet BitWriter.finish
  | .v2 => modifyGet BitWriter.finishWithTerminator

def flush : Guarded GorillaWriter Bytes := do
  let w ← get
  if w.count = 0 then return []
  let body ← onOut (finish w.version)
  reset
  return countHeader w.version w.count ++ body

end GorillaWriter

end Chronicle.Machine
