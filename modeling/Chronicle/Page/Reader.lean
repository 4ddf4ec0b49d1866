/-
  Chronicle.Page.Reader — the points of a page, in the order in which they were written.

  Model.
  - Both streams are read side by side, as many points as the statistics count. Before a point is read
    both streams have to have something to read it from; then the timestamp is read, and then the value.
  - A stream that ends before the last point is an underflow. Behind the last point, bytes that are left
    in either stream are an error. What a decoder has taken in and not given out is not looked for.
  - An error does not count as a point, so the calls behind it find the count as it was (`nexts`). A
    caller who iterates is told nothing more behind an error (`item`).
-/

import Chronicle.Block.Compressor
import Chronicle.Page.Basic
import Chronicle.Stream.Decoder
import Chronicle.Wire.Reading

namespace Chronicle

structure PageReader where
  times : Decoder
  values : Decoder
  /-- The number of points that are still to come. -/
  remaining : Nat

namespace PageReader

def ofPage [Snappy.Library] (p : Page) : Except CodecError PageReader := do
  let h := p.header
  let body ← h.compressor.uncompress p.data h.bodyLength
  if body.length < h.timeLength then throw (.malformed (.timeStreamBeyondBody h.timeLength body.length))
  let times ← Decoder.new .int64 h.timeEncoding (body.take h.timeLength)
  let values ← Decoder.new h.dataType h.valueEncoding (body.drop h.timeLength)
  return { times, values, remaining := p.pointCount }

def onTimes {α : Type} (m : Reading Decoder α) : Reading PageReader α := fun r =>
  match m r.times with
  | .ok a d => .ok a { r with times := d }
  | .error e d => .error e { r with times := d }

def onValues {α : Type} (m : Reading Decoder α) : Reading PageReader α := fun r =>
  match m r.values with
  | .ok a d => .ok a { r with values := d }
  | .error e d => .error e { r with values := d }

def nextTime : Reading PageReader Int64 := do
  match ← onTimes Decoder.next with
  | .int64 t => return t
  | v => throw (.typeMismatch .int64 v.dataType)

/-- Reads a point, whether or not there is one more. A failed reading does not count. -/
def point : Reading PageReader (Int64 × Value) := do
  let time ← nextTime
  let v ← onValues Decoder.next
  modify fun r => { r with remaining := r.remaining - 1 }
  return (time, v)

def next : Reading PageReader (Option (Int64 × Value)) := do
  let r ← get
  if r.remaining = 0 then
    let left := r.times.bytes.length + r.values.bytes.length
    if 0 < left then throw (.malformed (.bytesAfterPoints left))
    return none
  if !(r.times.hasNext && r.values.hasNext) then throw .underflow
  return some (← point)

def drain (limit : Nat) (r : PageReader) : Harvest PageReader (Int64 × Value) := Reading.collect next limit r

def readAll (r : PageReader) : Except CodecError (List (Int64 × Value)) :=
  let harvest := r.drain (r.remaining + 1)
  match harvest.ending with
  | .failed e => .error e
  | _ => .ok harvest.items

/-- What `count` calls for the next point answer, one after another and also behind errors. -/
def nexts (r : PageReader) : (count : Nat) → List (Except CodecError (Option (Int64 × Value)))
  | 0 => []
  | count + 1 => (Reading.answer (next r)).1 :: (Reading.answer (next r)).2.nexts count

/-- What a reader gives to the request number `i`, counted from 0, if its points are asked for one
    at a time. -/
def item (r : PageReader) (i : Nat) : Option (Except CodecError (Int64 × Value)) :=
  ({ source := r } : Iteration PageReader).item next i

end PageReader

end Chronicle
