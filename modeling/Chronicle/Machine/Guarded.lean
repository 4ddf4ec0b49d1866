/-
  Chronicle.Machine.Guarded — steps on machine words that a machine can refuse.

  Model.
  - Differences of counts and of places, which must not go below zero, and sums of counts, which
    must fit their word.
  - Shifts, by fewer places than the word has, and the masks and signed numbers made with them.
  - Places in a block of eight words.
  Each is a function of its own with its domain in front of it; outside of it the step is trapped
  (`Guarded.require`). Additions and subtractions of patterns, which are meant to wrap around, are
  those of the words themselves and not guarded.

  A state that is part of another one is worked on in its place (`within`): what a step has stored there
  is stored in the whole, however the step ends.
-/

import Chronicle.Wire.BitWriter

namespace Chronicle

namespace Guarded

variable {σ : Type}

/-! ## Words -/

def minus {W : Type} [LE W] [DecidableLE W] [Sub W] (a b : W) : Guarded σ W := require (b ≤ a) .difference (a - b)

def plus8 (a b : UInt8) : Guarded σ UInt8 := require (a.toNat + b.toNat < 2 ^ 8) .sum (a + b)

def plus64 (a b : UInt64) : Guarded σ UInt64 := require (a.toNat + b.toNat < 2 ^ 64) .sum (a + b)

def negate32 (a : Int32) : Guarded σ Int32 := require (a ≠ Int32.minValue) .sum (-a)

def shiftRight8 (a places : UInt8) : Guarded σ UInt8 := require (places < 8) .shift (a >>> places)

def shiftLeft8 (a places : UInt8) : Guarded σ UInt8 := require (places < 8) .shift (a <<< places)

def shiftLeft16 (a : UInt16) (places : UInt8) : Guarded σ UInt16 :=
  require (places < 16) .shift (a <<< places.toUInt16)

def shiftLeft64 (a : UInt64) (places : UInt8) : Guarded σ UInt64 :=
  require (places < 64) .shift (a <<< places.toUInt64)

def shiftRight64 (a : UInt64) (places : UInt8) : Guarded σ UInt64 :=
  require (places < 64) .shift (a >>> places.toUInt64)

/-- The places that become free have the sign. -/
def shiftRightSigned64 (a : Int64) (places : UInt8) : Guarded σ Int64 :=
  require (places < 64) .shift (a >>> places.toUInt64.toInt64)

def lowBits8 (count : UInt8) : Guarded σ UInt8 := do
  let top ← shiftLeft16 1 count
  return (← minus top 1).toUInt8

def lowBits64 (count : UInt8) : Guarded σ UInt64 := do
  if 64 ≤ count then return 0xFFFFFFFFFFFFFFFF
  let top ← shiftLeft64 1 count
  minus top 1

/-- The number that the `width` low bits of a word stand for. A single bit has no sign. -/
def signExtend (bits : UInt64) (width : UInt8) : Guarded σ Int64 := do
  if width ≤ 1 ∨ 64 ≤ width then return bits.toInt64
  let places ← minus 64 width
  let top ← shiftLeft64 bits places
  shiftRightSigned64 top.toInt64 places

end Guarded

namespace Machine

/-- Works on what is stored as `wrap inner`, however that ends. -/
def within {ε σ τ α : Type} (wrap : τ → σ) (inner : τ) (m : EStateM ε τ α) : EStateM ε σ α := fun _ =>
  match m inner with
  | .ok a t => .ok a (wrap t)
  | .error e t => .error e (wrap t)

def writeBits (word : UInt64) (count : UInt8) : Guarded BitWriter Unit :=
  modify fun out => out.write (bitsOf count.toNat word.toNat)

/-! ## Blocks of eight words -/

abbrev Words := Vector UInt64 8

namespace Words

variable {σ : Type}

def blank : Words := Vector.replicate 8 0

def get (words : Words) (place : Nat) : Guarded σ UInt64 :=
  if h : place < 8 then return words[place] else .trap .index

def set (words : Words) (place : Nat) (word : UInt64) : Guarded σ Words :=
  if h : place < 8 then return Vector.set words place word h else .trap .index

def next (place : Nat) : Guarded σ Nat := .require (place + 1 < 2 ^ 64) .sum (place + 1)

end Words

end Machine

end Chronicle
