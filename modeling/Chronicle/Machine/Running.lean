/-
  Chronicle.Machine.Running — statistics as five fields that a call changes one after another.

  Model.
  - A summary that has no points yet keeps a range that is empty, from the greatest timestamp to
    the least, which any point extends to its own.
  - A call stores what it has found out as it goes: the sum, then the bounds, then the first and
    the last value, then the range and the count. Where it fails it leaves what it has stored so
    far, so that this is nothing has to be shown (`update_of`, `merge_of`).
  - Counts and sums that other summaries are added to are checked, and so are the counts and the
    INT32 sums that a point is added to; what does not fit is an error. The number of trues is not
    checked when a point is added to it, and a true behind the greatest one is trapped.
  - A number is compared with the bounds in each of the two ways to take one in, and neither is
    defined by the other.
-/

import Chronicle.Machine.Guarded
import Chronicle.Summary.Statistics

namespace Chronicle.Machine

namespace NumericSummary

variable {α σ : Type} [Summed α σ] [LT α] [DecidableLT α]

def observe (v : α) (isFirst isLast : Bool) : Guarded (NumericSummary α σ) Unit := do
  let sum ← .ofExcept (Summed.add α (← get).sum (Summed.widen v))
  modify fun s => { s with sum := sum }
  modify fun s => { s with min := if v < s.min then v else s.min }
  modify fun s => { s with max := if s.max < v then v else s.max }
  modify fun s => { s with first := if isFirst then v else s.first }
  modify fun s => { s with last := if isLast then v else s.last }

def absorb (o : NumericSummary α σ) (isFirst isLast : Bool) : Guarded (NumericSummary α σ) Unit := do
  let sum ← .ofExcept (Summed.add α (← get).sum o.sum)
  modify fun s => { s with sum := sum }
  modify fun s => { s with min := if o.min < s.min then o.min else s.min }
  modify fun s => { s with max := if s.max < o.max then o.max else s.max }
  modify fun s => { s with first := if isFirst then o.first else s.first }
  modify fun s => { s with last := if isLast then o.last else s.last }

end NumericSummary

namespace ValueSummary

/-- Stores the first value and the last one, each where there is a new one. -/
def setEnds {α : Type} (summary : α → α → ValueSummary) (first last newFirst newLast : α) (isFirst isLast : Bool) :
    Guarded ValueSummary Unit := do
  set (summary first last)
  let first := if isFirst then newFirst else first
  set (summary first last)
  let last := if isLast then newLast else last
  set (summary first last)

def observe (v : Value) (isFirst isLast : Bool) : Guarded ValueSummary Unit := do
  match ← get, v with
  | .boolean first last trues, .boolean v =>
    let trues ← Guarded.plus64 trues v.toUInt64
    setEnds (.boolean · · trues) first last v v isFirst isLast
  | .int32 s, .int32 v => within .int32 s (NumericSummary.observe v isFirst isLast)
  | .int64 s, .int64 v => within .int64 s (NumericSummary.observe v isFirst isLast)
  | .float s, .float v => within .float s (NumericSummary.observe v isFirst isLast)
  | .double s, .double v => within .double s (NumericSummary.observe v isFirst isLast)
  | .text first last, .text v => setEnds .text first last v v isFirst isLast
  | s, v => Guarded.fail (.typeMismatch s.dataType v.dataType)

def absorb (o : ValueSummary) (isFirst isLast : Bool) : Guarded ValueSummary Unit := do
  match ← get, o with
  | .boolean first last trues, .boolean otherFirst otherLast otherTrues =>
    if trues.toNat + otherTrues.toNat < 2 ^ 64 then
      setEnds (.boolean · · (trues + otherTrues)) first last otherFirst otherLast isFirst isLast
    else Guarded.fail (.overflow .booleanSum)
  | .int32 s, .int32 o => within .int32 s (NumericSummary.absorb o isFirst isLast)
  | .int64 s, .int64 o => within .int64 s (NumericSummary.absorb o isFirst isLast)
  | .float s, .float o => within .float s (NumericSummary.absorb o isFirst isLast)
  | .double s, .double o => within .double s (NumericSummary.absorb o isFirst isLast)
  | .text first last, .text otherFirst otherLast => setEnds .text first last otherFirst otherLast isFirst isLast
  | s, o => Guarded.fail (.typeMismatch s.dataType o.dataType)

end ValueSummary

structure Running where
  dataType : DataType
  count : UInt64
  start : Int64
  stop : Int64
  values? : Option ValueSummary
  deriving DecidableEq

namespace Running

def new (t : DataType) : Running := ⟨t, 0, .maxValue, .minValue, none⟩

def onValues (values : ValueSummary) (m : Guarded ValueSummary Unit) : Guarded Running Unit := fun r =>
  within (fun values => { r with values? := some values }) values m r

/-- Extends the range, and counts as many points as there are now. -/
def extend (start stop : Int64) (count : UInt64) : Guarded Running Unit := do
  modify fun r => { r with start := min r.start start }
  modify fun r => { r with stop := max r.stop stop }
  modify fun r => { r with count := count }

def update (time : Int64) (v : Value) : Guarded Running Unit := do
  let r ← get
  if v.dataType ≠ r.dataType then Guarded.fail (.typeMismatch r.dataType v.dataType)
  let count ← .ofExcept (Statistics.addCounts r.count 1)
  match r.values? with
  | some values => onValues values (ValueSummary.observe v (time < r.start) (r.stop ≤ time))
  | none => modify fun r => { r with values? := some (.single v) }
  extend time time count

def merge (o : Running) : Guarded Running Unit := do
  let r ← get
  if o.dataType ≠ r.dataType then Guarded.fail (.typeMismatch r.dataType o.dataType)
  if let some others := o.values? then
    let count ← .ofExcept (Statistics.addCounts r.count o.count)
    match r.values? with
    | some values => onValues values (ValueSummary.absorb others (o.start < r.start) (r.stop ≤ o.stop))
    | none => modify fun r => { r with values? := some others }
    extend o.start o.stop count

/-! ## As bytes -/

def toBytes (r : Running) : Bytes :=
  Varint.encode r.count.toNat ++
    match r.values? with
    | some values => BigEndian.toBytes r.start ++ BigEndian.toBytes r.stop ++ values.toBytes
    | none => []

def pull (t : DataType) : Reading Bytes Running := do
  let count ← Varint.pull
  if count = 0 then return new t
  Bytes.need 16
  let start : Int64 ← BigEndian.pull
  let stop : Int64 ← BigEndian.pull
  if stop < start then throw (.malformed (.invertedTimeRange start stop))
  return ⟨t, UInt64.ofNat count, start, stop, some (← Chronicle.ValueSummary.pull t)⟩

end Running

end Chronicle.Machine
