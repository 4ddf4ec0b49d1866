/-
  Chronicle.Machine.Page — pages and their points read on machine words.

  Model.
  - Header, statistics and body are taken from the bytes one after another, each behind a check that the
    bytes are there; what is taken without one is trapped.
  - The body is cut in two at the length of the time stream. Slices, and the sum of the bytes that both
    streams have left behind the last point, are guarded, and so is counting down the points.
  - A timestamp that is no INT64 value is trapped too, although there is an error for it: the time stream
    is one of INT64 values, and a decoder for it gives no others.

  That none of these steps is trapped, on any bytes and under any number of calls, is
  `reading_never_traps`.
-/

import Chronicle.Machine.Decoder
import Chronicle.Page.Reader

namespace Chronicle.Machine

/-! ## Pages -/

namespace Header

def takeId {α : Type} (ofId : Nat → Except CodecError α) : Guarded Bytes α := do
  let id ← takeByte
  .ofExcept (ofId id.toNat)

def read : Guarded Bytes Header := do
  ensure 4
  let valueEncoding ← takeId Encoding.ofId
  let dataType ← takeId DataType.ofId
  let timeEncoding ← takeId Encoding.ofId
  let compressor ← takeId Compressor.ofId
  let bodyLength := (← Varint.read).toNat
  let dataLength := (← Varint.read).toNat
  let timeLength := (← Varint.read).toNat
  discard (.ofExcept (Codec.require dataType valueEncoding))
  discard (.ofExcept (Codec.require .int64 timeEncoding))
  if bodyLength < timeLength then Guarded.fail (.malformed (.timeStreamBeyondLength timeLength bodyLength))
  return { dataType, valueEncoding, timeEncoding, compressor, bodyLength, dataLength, timeLength }

end Header

namespace NumericSummary

def read {α σ : Type} [BigEndian α] [BigEndian σ] : Guarded Bytes (NumericSummary α σ) := do
  ensure (4 * BigEndian.size α + BigEndian.size σ)
  return {
    min := ← takeWord
    max := ← takeWord
    first := ← takeWord
    last := ← takeWord
    sum := ← takeWord }

end NumericSummary

namespace ValueSummary

def read : DataType → Guarded Bytes ValueSummary
  | .boolean => do
    ensure 2
    let first ← takeBool .summaryBooleanByte
    let last ← takeBool .summaryBooleanByte
    return .boolean first last (← Varint.read)
  | .int32 => return .int32 (← NumericSummary.read)
  | .int64 => return .int64 (← NumericSummary.read)
  | .float => return .float (← NumericSummary.read)
  | .double => return .double (← NumericSummary.read)
  | .text => do
    let first ← readText
    return .text first (← readText)

end ValueSummary

namespace Statistics

def read (t : DataType) : Guarded Bytes Statistics := do
  let count ← Varint.read
  if count = 0 then return .empty t
  ensure 16
  let start : Int64 ← takeWord
  let stop : Int64 ← takeWord
  if stop < start then Guarded.fail (.malformed (.invertedTimeRange start stop))
  let values ← ValueSummary.read t
  return { dataType := t, summary? := some ⟨count, start, stop, values⟩ }

end Statistics

namespace Page

def read : Guarded Bytes Page := do
  let header ← Header.read
  let statistics ← Statistics.read header.dataType
  ensure header.dataLength
  return { header, statistics, data := ← takeBytes header.dataLength }

def ofBytes (bytes : Bytes) : Except Trap (Except CodecError Page) := do
  match ← Guarded.answer (read bytes) with
  | (.ok page, []) => return .ok page
  | (.ok _, rest) => return .error (.malformed (.bytesAfterPage rest.length))
  | (.error e, _) => return .error e

end Page

/-! ## Points -/

def slice (bytes : Bytes) (start stop : Nat) : Except Halt Bytes :=
  if start ≤ stop ∧ stop ≤ bytes.length then .ok ((bytes.take stop).drop start) else .error (.trapped .bytes)

structure PageReader where
  times : Decoder
  values : Decoder
  /-- The number of points that are still to come. -/
  remaining : UInt64

namespace PageReader

def ofPage [Snappy.Library] (p : Page) : Except Halt PageReader := do
  let h := p.header
  let body ← Halt.ofExcept (h.compressor.uncompress p.data h.bodyLength)
  if body.length < h.timeLength then
    .error (.failed (.malformed (.timeStreamBeyondBody h.timeLength body.length)))
  let timeStream ← slice body 0 h.timeLength
  let valueStream ← slice body h.timeLength body.length
  let times ← Halt.ofExcept (Decoder.new .int64 h.timeEncoding timeStream)
  let values ← Halt.ofExcept (Decoder.new h.dataType h.valueEncoding valueStream)
  return { times, values, remaining := p.statistics.count }

def onTimes {α : Type} (m : Guarded Decoder α) : Guarded PageReader α := fun r =>
  match m r.times with
  | .ok a d => .ok a { r with times := d }
  | .error h d => .error h { r with times := d }

def onValues {α : Type} (m : Guarded Decoder α) : Guarded PageReader α := fun r =>
  match m r.values with
  | .ok a d => .ok a { r with values := d }
  | .error h d => .error h { r with values := d }

def nextTime : Guarded PageReader Int64 := do
  match ← onTimes Decoder.next with
  | .int64 t => return t
  | _ => Guarded.trap .timestamp

def finish : Guarded PageReader Unit := do
  let r ← get
  let left ← Guarded.plus64 (UInt64.ofNat r.times.bytes.length) (UInt64.ofNat r.values.bytes.length)
  if 0 < left then Guarded.fail (.malformed (.bytesAfterPoints left.toNat))

/-- Reads a point, whether or not there is one more. -/
def point : Guarded PageReader (Int64 × Value) := do
  let time ← nextTime
  let v ← onValues Decoder.next
  let remaining ← Guarded.minus (← get).remaining 1
  modify fun r => { r with remaining := remaining }
  return (time, v)

def next : Guarded PageReader (Option (Int64 × Value)) := do
  if (← get).remaining = 0 then
    finish
    return none
  if !(← onTimes Decoder.hasNext) then Guarded.fail .underflow
  if !(← onValues Decoder.hasNext) then Guarded.fail .underflow
  return some (← point)

/-- What `count` calls for the next point answer, one after another and also behind errors. -/
def nexts (r : PageReader) : (count : Nat) → Except Trap (List (Except CodecError (Option (Int64 × Value))))
  | 0 => return []
  | count + 1 => do
    let (a, r) ← Guarded.answer (next r)
    return a :: (← r.nexts count)

end PageReader

end Chronicle.Machine
