/-
  Chronicle.Wire.BitReader — bits taken from bytes, and what decoders work on.

  Model.
  - A reader owns the byte it is in the middle of; the bytes behind it stay with the caller, and the two
    together are a `BitSource`. The high bit of a byte comes first.
  - A lazy reader takes a byte when a bit is asked for and none is left. An eager one takes the next
    byte as soon as the last bit of a byte is read, so its source has to have a byte behind the last
    bit that is read. Which of the two a reader is stays as it is for all its life.
  - A failed read keeps what it took: there is no going back to the bit where it began.
  - A `Feed` is what a decoder has between two values: its own state, the byte that it is in the middle
    of, and the bytes behind it. Readings of bits and readings of bytes become readings of a feed.

  A source is its list of unread bits (`toBits`); where it is empty there is nothing to read
  (`pullBit_of_toBits_eq_nil`). What is read from a list that is long enough is in
  `Chronicle.Proofs.Wire.BitSource`.
-/

import Chronicle.Wire.BitWriter

namespace Chronicle

inductive Refill
  | onDemand
  | eager
  deriving DecidableEq

/-- The byte a reader is in, and how many of its low bits are unread. -/
structure BitReader where
  refill : Refill
  byte : UInt8 := 0
  left : Nat := 0

structure BitSource where
  reader : BitReader
  bytes : Bytes

namespace BitReader

def align (r : BitReader) : BitReader := { r with left := 0 }

def reset (r : BitReader) : BitReader := { refill := r.refill }

end BitReader

namespace BitSource

def toBits (s : BitSource) : List Bool :=
  bitsOf s.reader.left s.reader.byte.toNat ++ s.bytes.toBits

def hasBits (s : BitSource) : Bool := decide (0 < s.reader.left) || !s.bytes.isEmpty

def fill : Reading BitSource Unit := fun s =>
  if s.reader.left ≠ 0 then .ok () s
  else
    match s.bytes with
    | [] => .error .underflow s
    | b :: rest => .ok () { reader := { s.reader with byte := b, left := 8 }, bytes := rest }

def takeBit : Reading BitSource Bool := fun s =>
  let left := s.reader.left - 1
  .ok (s.reader.byte.toNat.testBit left) { s with reader := { s.reader with left := left } }

/-- Reads a bit. An eager reader fails after a bit that no byte follows. -/
def pullBit : Reading BitSource Bool := do
  fill
  let bit ← takeBit
  if (← get).reader.refill = .eager then fill
  return bit

def pullBits : (count : Nat) → Reading BitSource Nat
  | 0 => return 0
  | count + 1 => do
    let bit ← pullBit
    return bit.toNat * 2 ^ count + (← pullBits count)

/-- Reads at most `limit` bits and stops behind the first zero, with `code` the number read
    so far. The result is a byte, so of more than eight bits the first ones are lost. -/
def pullToClearBit (code : Nat) : (limit : Nat) → Reading BitSource Nat
  | 0 => return code
  | limit + 1 => do
    if ← pullBit then pullToClearBit ((2 * code + 1) % 256) limit
    else return 2 * code % 256

def align : Reading BitSource Unit := modify fun s => { s with reader := s.reader.align }

/-! ## The list of bits -/

/-- Without a bit there is nothing to read. -/
theorem pullBit_of_toBits_eq_nil {s : BitSource} (h : s.toBits = []) : pullBit s = .error .underflow s := by
  rcases s with ⟨⟨refill, byte, left⟩, bytes⟩
  cases left with
  | succ left => simp [toBits, bitsOf] at h
  | zero =>
    cases bytes with
    | nil => rfl
    | cons b bytes => simp [toBits, bitsOf] at h

end BitSource

/-! ## Feeds -/

structure Feed (σ : Type) where
  state : σ
  reader : BitReader
  bytes : Bytes

namespace Feed

variable {σ τ α : Type}

def setState (state : σ) : Reading (Feed σ) Unit := modify fun f => { f with state := state }

def onBits (m : Reading BitSource α) : Reading (Feed σ) α := fun f =>
  match m ⟨f.reader, f.bytes⟩ with
  | .ok a s => .ok a { f with reader := s.reader, bytes := s.bytes }
  | .error e s => .error e { f with reader := s.reader, bytes := s.bytes }

def onBytes (m : Reading Bytes α) : Reading (Feed σ) α := fun f =>
  match m f.bytes with
  | .ok a bytes => .ok a { f with bytes := bytes }
  | .error e bytes => .error e { f with bytes := bytes }

/-- Runs a reading whose state `inner` is stored as `wrap inner`. -/
def within (wrap : τ → σ) (inner : τ) (m : Reading (Feed τ) α) : Reading (Feed σ) α := fun f =>
  match m ⟨inner, f.reader, f.bytes⟩ with
  | .ok a g => .ok a ⟨wrap g.state, g.reader, g.bytes⟩
  | .error e g => .error e ⟨wrap g.state, g.reader, g.bytes⟩

end Feed

end Chronicle
