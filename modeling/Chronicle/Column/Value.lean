/-
  Chronicle.Column.Value — the values of a column, their bit patterns, and PLAIN.

  Model.
  - `=` on values is equality bit for bit. `Value.equal` compares numbers as numbers, so that the two
    zeros are equal and a NaN differs from itself. Which of the two is meant matters wherever values
    are compared: a column is read back in the first sense, statistics are equal in the second.
  - A value of fixed width goes to its bit pattern and back without loss (`ofBits_bits`). The encoders
    ask a value for it (`requireBits`); a value without one is of the wrong type for them.
  - PLAIN writes one value after another, each of which ends by itself: a boolean is a byte 0 or 1, an
    INT32 a zigzag varint, a text its length as a varint and then its bytes; the other numbers are
    big-endian words. No byte but 0 and 1 is a boolean.
-/

import Chronicle.Wire.Bytes
import Chronicle.Wire.Varint

namespace Chronicle

open Ieee

inductive Value
  | boolean (v : Bool)
  | int32 (v : Int32)
  | int64 (v : Int64)
  | float (v : Binary32)
  | double (v : Binary64)
  | text (bytes : Bytes)
  deriving DecidableEq

namespace Value

def dataType : Value → DataType
  | boolean _ => .boolean
  | int32 _ => .int32
  | int64 _ => .int64
  | float _ => .float
  | double _ => .double
  | text _ => .text

def bits? : Value → Option Nat
  | boolean v => some v.toNat
  | int32 v => some v.toUInt32.toNat
  | int64 v => some v.toUInt64.toNat
  | float v => some v.bits.toNat
  | double v => some v.bits.toNat
  | text _ => none

/-- The value with a given bit pattern. Bits above the width of the type have no effect. -/
def ofBits : FixedType → Nat → Value
  | .boolean, n => .boolean (n % 2 == 1)
  | .number .int32, n => .int32 (UInt32.ofNat n).toInt32
  | .number .int64, n => .int64 (UInt64.ofNat n).toInt64
  | .number .float, n => .float ⟨UInt32.ofNat n⟩
  | .number .double, n => .double ⟨UInt64.ofNat n⟩

/-- The bit pattern of a value that is to go where the type `expected` belongs. -/
def requireBits (expected : DataType) (v : Value) : Except CodecError Nat :=
  match v.bits? with
  | some n => .ok n
  | none => .error (.typeMismatch expected v.dataType)

def equal : Value → Value → Bool
  | boolean a, boolean b => a == b
  | int32 a, int32 b => a == b
  | int64 a, int64 b => a == b
  | float a, float b => decide (a.Equal b)
  | double a, double b => decide (a.Equal b)
  | text a, text b => a == b
  | _, _ => false

theorem ofBits_bits {v : Value} {t : FixedType} {n : Nat} (ht : v.dataType = .fixed t)
    (hn : v.bits? = some n) : ofBits t n = v := by
  cases v with
  | boolean b => cases ht; cases hn; cases b <;> rfl
  | int32 v => cases ht; cases hn; simp [ofBits]
  | int64 v => cases ht; cases hn; simp [ofBits]
  | float v => cases ht; cases hn; simp [ofBits]
  | double v => cases ht; cases hn; simp [ofBits]
  | text bytes => cases hn

end Value

end Chronicle

namespace Chronicle.Plain

/-! ## PLAIN -/

def ofBool (v : Bool) : Bytes := [if v then 1 else 0]

def ofText (bytes : Bytes) : Bytes := Varint.encode bytes.length ++ bytes

def encode : Value → Bytes
  | .boolean v => ofBool v
  | .int32 v => Varint.encode (Zigzag.encode v)
  | .int64 v => BigEndian.toBytes v
  | .float v => BigEndian.toBytes v
  | .double v => BigEndian.toBytes v
  | .text bytes => ofText bytes

def pullBool (fault : UInt8 → FormatFault) : Reading Bytes Bool := do
  match ← Bytes.pullByte with
  | 0 => return false
  | 1 => return true
  | b => throw (.malformed (fault b))

def pullText : Reading Bytes Bytes := do Bytes.pull (← Varint.pull)

def pull : DataType → Reading Bytes Value
  | .boolean => return .boolean (← pullBool .booleanByte)
  | .int32 => return .int32 (← Zigzag.pull)
  | .int64 => return .int64 (← BigEndian.pull)
  | .float => return .float (← BigEndian.pull)
  | .double => return .double (← BigEndian.pull)
  | .text => return .text (← pullText)

end Chronicle.Plain
