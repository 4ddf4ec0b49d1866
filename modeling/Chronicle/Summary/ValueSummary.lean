/-
  Chronicle.Summary.ValueSummary — what is kept of the values of a column.

  (1) Numbers. A number is taken in (`observe`), or the numbers of another summary are (`absorb`). Each
  adds to the sum and keeps the lesser minimum and the greater maximum. A NaN is neither below nor above
  anything, so it is a minimum or maximum only of a summary that began with it, and stays so. Sums are
  wider than the numbers: an INT32 column is summed in 64 bits, with an error where they do not suffice,
  and the others as doubles (`Summed`). The two ways to take numbers in have comparisons of their own.
  That one number is no different from a summary of it is proved (`observe_eq_absorb`).

  (2) Values of a type. Of numbers a `NumericSummary` is kept, of booleans the first, the last and how
  many are true, of texts the first and the last. A value and a summary of another type are errors.

  (3) Trues. Their number has 64 bits. Two of them that do not fit together are an error (`absorb`). A
  value that is taken in is added without such a check (`observe`): behind the greatest number of trues
  there is no result at all, and the call is trapped.
-/

import Chronicle.Column.Value
import Chronicle.Wire.Reading

namespace Chronicle

open Ieee

/-! ## Numbers -/

/-- Numbers of type `α` are summed in `σ`. -/
class Summed (α : Type) (σ : outParam Type) where
  widen : α → σ
  add : σ → σ → Except CodecError σ

instance : Summed Int32 Int64 where
  widen v := v.toInt64
  add a b :=
    let sum := a.toInt + b.toInt
    if -2 ^ 63 ≤ sum ∧ sum < 2 ^ 63 then .ok (Int64.ofInt sum) else .error (.overflow .integerSum)

instance : Summed Int64 Binary64 where
  widen v := .ofInt v.toInt
  add a b := .ok (a + b)

instance : Summed Binary32 Binary64 where
  widen v := v.widen
  add a b := .ok (a + b)

instance : Summed Binary64 Binary64 where
  widen v := v
  add a b := .ok (a + b)

structure NumericSummary (α σ : Type) where
  min : α
  max : α
  first : α
  last : α
  sum : σ
  deriving DecidableEq

namespace NumericSummary

variable {α σ : Type} [Summed α σ]

def single (v : α) : NumericSummary α σ := ⟨v, v, v, v, Summed.widen v⟩

variable [LT α] [DecidableLT α]

/-- Takes a number in. The flags say whether it is the earliest so far and whether it is the
    latest. -/
def observe (s : NumericSummary α σ) (v : α) (isFirst isLast : Bool) : Except CodecError (NumericSummary α σ) := do
  return {
    min := if v < s.min then v else s.min
    max := if s.max < v then v else s.max
    first := if isFirst then v else s.first
    last := if isLast then v else s.last
    sum := ← Summed.add α s.sum (Summed.widen v) }

/-- Takes another summary in. The flags say whether its first number comes before this one's
    and its last one after it. -/
def absorb (s o : NumericSummary α σ) (isFirst isLast : Bool) :
    Except CodecError (NumericSummary α σ) := do
  return {
    min := if o.min < s.min then o.min else s.min
    max := if s.max < o.max then o.max else s.max
    first := if isFirst then o.first else s.first
    last := if isLast then o.last else s.last
    sum := ← Summed.add α s.sum o.sum }

/-- Taking a number in is taking in the summary of it. -/
theorem observe_eq_absorb (s : NumericSummary α σ) (v : α) (isFirst isLast : Bool) :
    s.observe v isFirst isLast = s.absorb (single v) isFirst isLast := rfl

def equalBy (number : α → α → Bool) (sum : σ → σ → Bool) (s o : NumericSummary α σ) : Bool :=
  number s.min o.min && number s.max o.max && number s.first o.first && number s.last o.last &&
    sum s.sum o.sum

end NumericSummary

/-! ## Values of a type -/

inductive ValueSummary
  | boolean (first last : Bool) (trues : UInt64)
  | int32 (s : NumericSummary Int32 Int64)
  | int64 (s : NumericSummary Int64 Binary64)
  | float (s : NumericSummary Binary32 Binary64)
  | double (s : NumericSummary Binary64 Binary64)
  | text (first last : Bytes)
  deriving DecidableEq

namespace ValueSummary

def dataType : ValueSummary → DataType
  | boolean _ _ _ => .boolean
  | int32 _ => .int32
  | int64 _ => .int64
  | float _ => .float
  | double _ => .double
  | text _ _ => .text

def single : Value → ValueSummary
  | .boolean v => boolean v v v.toUInt64
  | .int32 v => int32 (.single v)
  | .int64 v => int64 (.single v)
  | .float v => float (.single v)
  | .double v => double (.single v)
  | .text v => text v v

def countTrue (trues : UInt64) (v : Bool) : Except Halt UInt64 :=
  if trues.toNat + v.toUInt64.toNat < 2 ^ 64 then .ok (trues + v.toUInt64) else .error (.trapped .sum)

def observe (s : ValueSummary) (v : Value) (isFirst isLast : Bool) : Except Halt ValueSummary :=
  match s, v with
  | boolean first last trues, .boolean v =>
    return boolean (if isFirst then v else first) (if isLast then v else last) (← countTrue trues v)
  | int32 s, .int32 v => return int32 (← Halt.ofExcept (s.observe v isFirst isLast))
  | int64 s, .int64 v => return int64 (← Halt.ofExcept (s.observe v isFirst isLast))
  | float s, .float v => return float (← Halt.ofExcept (s.observe v isFirst isLast))
  | double s, .double v => return double (← Halt.ofExcept (s.observe v isFirst isLast))
  | text first last, .text v => .ok (text (if isFirst then v else first) (if isLast then v else last))
  | s, v => .error (.failed (.typeMismatch s.dataType v.dataType))

def absorb (s o : ValueSummary) (isFirst isLast : Bool) : Except CodecError ValueSummary :=
  match s, o with
  | boolean first last trues, boolean otherFirst otherLast otherTrues =>
    if trues.toNat + otherTrues.toNat < 2 ^ 64 then
      .ok (boolean (if isFirst then otherFirst else first) (if isLast then otherLast else last)
        (trues + otherTrues))
    else .error (.overflow .booleanSum)
  | int32 s, int32 o => return int32 (← s.absorb o isFirst isLast)
  | int64 s, int64 o => return int64 (← s.absorb o isFirst isLast)
  | float s, float o => return float (← s.absorb o isFirst isLast)
  | double s, double o => return double (← s.absorb o isFirst isLast)
  | text first last, text otherFirst otherLast =>
    .ok (text (if isFirst then otherFirst else first) (if isLast then otherLast else last))
  | s, o => .error (.typeMismatch s.dataType o.dataType)

def equal : ValueSummary → ValueSummary → Bool
  | int64 s, int64 o => s.equalBy (· == ·) (fun a b => decide (a.Equal b)) o
  | float s, float o => s.equalBy (fun a b => decide (a.Equal b)) (fun a b => decide (a.Equal b)) o
  | double s, double o => s.equalBy (fun a b => decide (a.Equal b)) (fun a b => decide (a.Equal b)) o
  | s, o => s == o

end ValueSummary

end Chronicle
