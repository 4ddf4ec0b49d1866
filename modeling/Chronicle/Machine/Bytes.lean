/-
  Chronicle.Machine.Bytes — byte strings read on machine words, PLAIN, and what decoders work on.

  Model.
  - What takes a number of bytes traps if they are not there, so it stands behind a check of the length,
    which fails (`ensure`).
  - A varint is put together with shifts, seven bits to a byte, and taken apart in the same way; each
    shift is guarded. The tenth byte is shifted by 63 places, and one behind it would be shifted by more
    than a word has: so the tenth has to be the last, and no more than 1.
  - The sign of a zigzag number is its lowest bit, which is negated as a signed word.
  - A `Feed` is a state with the reader and the bytes behind it, as in `Chronicle.Wire.BitReader`; here
    its readings are guarded. Blocks are filled in place (`fill`): a word that has been stored stays
    where it is if a later one is missing.
-/

import Chronicle.Column.Value
import Chronicle.Machine.BitReader

namespace Chronicle.Machine

def takeBytes (count : Nat) : Guarded Bytes Bytes := fun bytes =>
  if count ≤ bytes.length then .ok (bytes.take count) (bytes.drop count)
  else .error (.trapped .bytes) bytes

def ensure (count : Nat) : Guarded Bytes Unit := do
  if (← get).length < count then Guarded.fail .underflow

def takeWord {α : Type} [BigEndian α] : Guarded Bytes α :=
  return BigEndian.ofWord (Bytes.toNat (← takeBytes (BigEndian.size α)))

namespace Varint

/-- Reads on in a number whose bytes before byte `i` make up `value`. -/
def readFrom (value : UInt64) (i : UInt8) : (rounds : Nat) → Guarded Bytes UInt64
  | 0 => Guarded.trap .rounds
  | rounds + 1 => do
    if (← get).isEmpty then Guarded.fail .underflow
    let byte ← takeByte
    if i = 9 ∧ 1 < byte then Guarded.fail (.malformed .varintTooLarge)
    let group ← Guarded.shiftLeft64 (byte &&& 0x7F).toUInt64 (7 * i)
    if byte &&& 0x80 = 0 then return value ||| group
    readFrom (value ||| group) (i + 1) rounds

def read : Guarded Bytes UInt64 := readFrom 0 0 10

def read32 : Guarded Bytes UInt32 := do
  let n ← read
  if 2 ^ 32 ≤ n.toNat then Guarded.fail (.malformed (.lengthTooLarge n.toNat))
  return n.toUInt32

def write (value : UInt64) : Bytes :=
  if 0x80 ≤ value then (value.toUInt8 ||| 0x80) :: write (value >>> 7) else [value.toUInt8]
termination_by value.toNat
decreasing_by
  rename_i h
  have hle : 128 ≤ value.toNat := UInt64.le_iff_toNat_le.mp h
  rw [UInt64.toNat_shiftRight]
  show value.toNat >>> 7 < value.toNat
  rw [Nat.shiftRight_eq_div_pow]
  omega

end Varint

/-- The sign of a number as its lowest bit. -/
def zigzag (v : Int32) : UInt32 := (v <<< 1 ^^^ v >>> 31).toUInt32

def writeZigzag (v : Int32) : Bytes := Varint.write (zigzag v).toUInt64

def readZigzag : Guarded Bytes Int32 := do
  let n ← Varint.read32
  let sign ← Guarded.negate32 (n &&& 1).toInt32
  return (n >>> 1).toInt32 ^^^ sign

/-! ## PLAIN -/

def readText : Guarded Bytes Bytes := do
  let length ← Varint.read
  ensure length.toNat
  takeBytes length.toNat

def takeBool (fault : UInt8 → FormatFault) : Guarded Bytes Bool := do
  let byte ← takeByte
  if byte = 0 then return false
  if byte = 1 then return true
  Guarded.fail (.malformed (fault byte))

def readWord {α : Type} [BigEndian α] : Guarded Bytes α := do
  ensure (BigEndian.size α)
  takeWord

namespace Plain

def read : DataType → Guarded Bytes Value
  | .boolean => do
    ensure 1
    return .boolean (← takeBool .booleanByte)
  | .int32 => return .int32 (← readZigzag)
  | .int64 => return .int64 (← readWord)
  | .float => return .float (← readWord)
  | .double => return .double (← readWord)
  | .text => return .text (← readText)

end Plain

/-! ## Feeds -/

structure Feed (σ : Type) where
  state : σ
  reader : BitReader
  bytes : Bytes

namespace Feed

variable {σ τ α : Type}

def setState (state : σ) : Guarded (Feed σ) Unit := modify fun f => { f with state := state }

def onBits (m : Guarded BitSource α) : Guarded (Feed σ) α := fun f =>
  match m ⟨f.reader, f.bytes⟩ with
  | .ok a s => .ok a { f with reader := s.reader, bytes := s.bytes }
  | .error h s => .error h { f with reader := s.reader, bytes := s.bytes }

def onBytes (m : Guarded Bytes α) : Guarded (Feed σ) α := fun f =>
  match m f.bytes with
  | .ok a bytes => .ok a { f with bytes := bytes }
  | .error h bytes => .error h { f with bytes := bytes }

/-- Runs a reading whose state `inner` is stored as `wrap inner`. -/
def within (wrap : τ → σ) (inner : τ) (m : Guarded (Feed τ) α) : Guarded (Feed σ) α := fun f =>
  match m ⟨inner, f.reader, f.bytes⟩ with
  | .ok a g => .ok a ⟨wrap g.state, g.reader, g.bytes⟩
  | .error h g => .error h ⟨wrap g.state, g.reader, g.bytes⟩

def store (place : Nat) (word : UInt64) : Guarded (Feed Words) Unit := do
  let words ← Words.set (← get).state place word
  setState words

/-- Reads `count` offsets into the places from `place` on. Each word is made of the one before
    it and of its offset, and stays stored if a later one is missing. -/
def fill (offsetWidth : UInt8) (word : UInt64 → UInt64 → UInt64) (previous : UInt64) (place : Nat) :
    (count : Nat) → Guarded (Feed Words) Unit
  | 0 => return ()
  | count + 1 => do
    let offset ← onBits (BitSource.readBits offsetWidth)
    store place (word previous offset)
    fill offsetWidth word (word previous offset) (place + 1) count

end Feed

end Chronicle.Machine
