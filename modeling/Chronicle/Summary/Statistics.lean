/-
  Chronicle.Summary.Statistics — count, time range and values of a page or of many, and their bytes.

  Model.
  - Points are taken in one by one (`update`), summaries of the same column as a whole (`merge`).
  - The first value is the one with the least timestamp, the last one that with the greatest; of
    equal timestamps the earlier point stays first and the later one becomes last.
  - The count has 64 bits, and what does not fit is an error. So are a point and a summary of
    another type. Behind the greatest number of trues a point is trapped (`ValueSummary.observe`).
  - As bytes: the count as a varint; if it is not zero, the time range and then what is kept of the
    values, whose form the type of the column decides. A range that is inverted is refused before the
    values are looked at, and the numbers of a numeric column are there all together or not at all.

  Here a column without points has no values at all. The five fields that a caller changes in place,
  with a range that is empty where there are no points, are in `Chronicle.Machine.Running`.
-/

import Chronicle.Column.Value
import Chronicle.Summary.ValueSummary

namespace Chronicle

structure Summary where
  count : UInt64
  start : Int64
  stop : Int64
  values : ValueSummary
  deriving DecidableEq

/-- The summary of a column, which has none as long as there is no point. -/
structure Statistics where
  dataType : DataType
  summary? : Option Summary := none
  deriving DecidableEq

namespace Statistics

def empty (t : DataType) : Statistics := { dataType := t }

def count (s : Statistics) : UInt64 :=
  match s.summary? with
  | some u => u.count
  | none => 0

def addCounts (a b : UInt64) : Except CodecError UInt64 :=
  if a.toNat + b.toNat < 2 ^ 64 then .ok (a + b) else .error (.overflow .pointCount)

def update (s : Statistics) (time : Int64) (v : Value) : Except Halt Statistics := do
  if v.dataType ≠ s.dataType then throw (.failed (.typeMismatch s.dataType v.dataType))
  match s.summary? with
  | none => return { s with summary? := some ⟨1, time, time, .single v⟩ }
  | some u =>
    let count ← Halt.ofExcept (addCounts u.count 1)
    let values ← u.values.observe v (time < u.start) (u.stop ≤ time)
    return { s with summary? := some ⟨count, min u.start time, max u.stop time, values⟩ }

def merge (s o : Statistics) : Except CodecError Statistics := do
  if o.dataType ≠ s.dataType then throw (.typeMismatch s.dataType o.dataType)
  match s.summary?, o.summary? with
  | _, none => return s
  | none, some p => return { s with summary? := some p }
  | some u, some p =>
    let count ← addCounts u.count p.count
    let values ← u.values.absorb p.values (p.start < u.start) (u.stop ≤ p.stop)
    return { s with summary? := some ⟨count, min u.start p.start, max u.stop p.stop, values⟩ }

def equal (s o : Statistics) : Bool :=
  s.dataType == o.dataType &&
    match s.summary?, o.summary? with
    | none, none => true
    | some u, some p =>
      u.count == p.count && u.start == p.start && u.stop == p.stop && u.values.equal p.values
    | _, _ => false

end Statistics

/-! ## Bytes -/

namespace NumericSummary

variable {α σ : Type} [BigEndian α] [BigEndian σ]

def toBytes (s : NumericSummary α σ) : Bytes :=
  [s.min, s.max, s.first, s.last].flatMap BigEndian.toBytes ++ BigEndian.toBytes s.sum

def pull : Reading Bytes (NumericSummary α σ) := do
  Bytes.need (4 * BigEndian.size α + BigEndian.size σ)
  return {
    min := ← BigEndian.pull
    max := ← BigEndian.pull
    first := ← BigEndian.pull
    last := ← BigEndian.pull
    sum := ← BigEndian.pull }

end NumericSummary

namespace ValueSummary

def toBytes : ValueSummary → Bytes
  | boolean first last trues => Plain.ofBool first ++ Plain.ofBool last ++ Varint.encode trues.toNat
  | int32 s => s.toBytes
  | int64 s => s.toBytes
  | float s => s.toBytes
  | double s => s.toBytes
  | text first last => Plain.ofText first ++ Plain.ofText last

def pullBoolean : Reading Bytes ValueSummary := do
  Bytes.need 2
  let first ← Plain.pullBool .summaryBooleanByte
  let last ← Plain.pullBool .summaryBooleanByte
  return boolean first last (UInt64.ofNat (← Varint.pull))

def pullText : Reading Bytes ValueSummary := do
  let first ← Plain.pullText
  return text first (← Plain.pullText)

def pull : DataType → Reading Bytes ValueSummary
  | .boolean => pullBoolean
  | .int32 => return int32 (← NumericSummary.pull)
  | .int64 => return int64 (← NumericSummary.pull)
  | .float => return float (← NumericSummary.pull)
  | .double => return double (← NumericSummary.pull)
  | .text => pullText

end ValueSummary

namespace Summary

def toBytes (u : Summary) : Bytes :=
  Varint.encode u.count.toNat ++ BigEndian.toBytes u.start ++ BigEndian.toBytes u.stop ++ u.values.toBytes

def pull (t : DataType) (count : UInt64) : Reading Bytes Summary := do
  Bytes.need 16
  let start : Int64 ← BigEndian.pull
  let stop : Int64 ← BigEndian.pull
  if stop < start then throw (.malformed (.invertedTimeRange start stop))
  return ⟨count, start, stop, ← ValueSummary.pull t⟩

end Summary

namespace Statistics

def toBytes (s : Statistics) : Bytes :=
  match s.summary? with
  | some u => u.toBytes
  | none => Varint.encode 0

def pull (t : DataType) : Reading Bytes Statistics := do
  let count ← Varint.pull
  if count = 0 then return empty t
  return { dataType := t, summary? := some (← Summary.pull t (UInt64.ofNat count)) }

end Statistics

end Chronicle
