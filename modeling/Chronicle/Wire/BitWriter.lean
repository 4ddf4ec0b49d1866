/-
  Chronicle.Wire.BitWriter — bits packed into bytes, the high bit of a byte first.

  A writer is a list of bits (`toBits`): writing appends to it (`toBits_write`), aligning appends zeros
  up to a whole number of bytes (`toBits_align`), and the bytes that come out are that list cut into
  eights (`toBits_finish`). So whoever lays a stream out can do so as a list, and is then sure of the
  bytes.

  There are two ways to finish. Both fill the last byte with zeros; the one with a terminator adds a
  byte even if there is nothing to fill, so that a reader that looks one byte ahead finds one.
-/

import Chronicle.Wire.Bits
import Chronicle.Wire.Bytes

namespace Chronicle

/-- Full bytes, and the bits of the byte that is being filled, as a number. -/
structure BitWriter where
  full : Array UInt8 := #[]
  pending : Nat := 0
  used : Nat := 0
  used_lt : used < 8 := by decide

namespace BitWriter

def empty : BitWriter := {}

def toBits (w : BitWriter) : List Bool :=
  Bytes.toBits w.full.toList ++ bitsOf w.used w.pending

def length (w : BitWriter) : Nat := 8 * w.full.size + w.used

def isEmpty (w : BitWriter) : Bool := w.length == 0

def isAligned (w : BitWriter) : Bool := w.used == 0

def writeBit (w : BitWriter) (b : Bool) : BitWriter :=
  let pending := 2 * w.pending + b.toNat
  if h : w.used = 7 then { full := w.full.push (UInt8.ofNat pending) }
  else
    { full := w.full, pending := pending, used := w.used + 1
      used_lt := by have := w.used_lt; omega }

def write (w : BitWriter) (bits : List Bool) : BitWriter := bits.foldl writeBit w

/-- Fills the current byte with zeros, even if it has no bit yet. -/
def closeByte (w : BitWriter) : BitWriter :=
  { full := w.full.push (UInt8.ofNat (w.pending * 2 ^ (8 - w.used))) }

def align (w : BitWriter) : BitWriter := if w.used = 0 then w else w.closeByte

def finish (w : BitWriter) : Bytes × BitWriter := (w.align.full.toList, empty)

/-- Like `finish`, but there is one byte more than full ones in any case. -/
def finishWithTerminator (w : BitWriter) : Bytes × BitWriter := (w.closeByte.full.toList, empty)

/-! ## The list of bits -/

@[simp] theorem toBits_empty : empty.toBits = [] := rfl

theorem length_toBits (w : BitWriter) : w.toBits.length = w.length := by
  rw [toBits, List.length_append, Bytes.length_toBits, length_bitsOf, length, Array.length_toList]

/-- The bits of full bytes with one more byte. -/
theorem toBits_push (full : Array UInt8) (n : Nat) :
    Bytes.toBits (full.push (UInt8.ofNat n)).toList = Bytes.toBits full.toList ++ bitsOf 8 n := by
  have e : (UInt8.ofNat n).toNat = n % 2 ^ 8 := by simp
  rw [Array.toList_push, Bytes.toBits_append, Bytes.toBits_cons, Bytes.toBits_nil, List.append_nil, e,
    bitsOf_mod (Nat.le_refl 8)]

theorem toBits_writeBit (w : BitWriter) (b : Bool) : (w.writeBit b).toBits = w.toBits ++ [b] := by
  unfold writeBit toBits
  by_cases h : w.used = 7
  · simp only [h, dite_true, toBits_push, bitsOf_zero, List.append_nil, List.append_assoc]
    rw [bitsOf_double 7 w.pending b]
  · simp only [h, dite_false, bitsOf_double, List.append_assoc]

theorem toBits_write (w : BitWriter) (bits : List Bool) : (w.write bits).toBits = w.toBits ++ bits := by
  induction bits generalizing w with
  | nil => simp [write]
  | cons b bits ih =>
    have h := ih (w.writeBit b)
    simp only [write, List.foldl_cons] at h ⊢
    rw [h, toBits_writeBit, List.append_assoc]
    rfl

theorem toBits_closeByte (w : BitWriter) :
    w.closeByte.toBits = w.toBits ++ List.replicate (8 - w.used) false := by
  have h := bitsOf_mul_two_pow w.used (8 - w.used) w.pending
  rw [show w.used + (8 - w.used) = 8 by have := w.used_lt; omega] at h
  simp only [closeByte, toBits, toBits_push, h, bitsOf_zero, List.append_nil, List.append_assoc]

/-- Zeros up to a whole number of bytes. -/
theorem toBits_align (w : BitWriter) :
    w.align.toBits = w.toBits ++ List.replicate ((8 - w.used) % 8) false := by
  unfold align
  by_cases h : w.used = 0
  · simp [h]
  · have e : (8 - w.used) % 8 = 8 - w.used := Nat.mod_eq_of_lt (by omega)
    rw [if_neg h, toBits_closeByte, e]

theorem used_align (w : BitWriter) : w.align.used = 0 := by
  unfold align
  by_cases h : w.used = 0
  · rw [if_pos h, h]
  · rw [if_neg h]; rfl

/-- The bytes that come out are the bits with the padding. -/
theorem toBits_finish (w : BitWriter) :
    Bytes.toBits w.finish.1 = w.toBits ++ List.replicate ((8 - w.used) % 8) false := by
  have h := toBits_align w
  rw [toBits, used_align, bitsOf_zero, List.append_nil] at h
  exact h

theorem toBits_finishWithTerminator (w : BitWriter) :
    Bytes.toBits w.finishWithTerminator.1 = w.toBits ++ List.replicate (8 - w.used) false := by
  have h := toBits_closeByte w
  rw [toBits, show w.closeByte.used = 0 from rfl, bitsOf_zero, List.append_nil] at h
  exact h

end BitWriter

def packBits (bits : List Bool) : Bytes := (BitWriter.empty.write bits).finish.1

end Chronicle
