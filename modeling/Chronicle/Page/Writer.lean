/-
  Chronicle.Page.Writer — points in, pages out.

  Model.
  - A writer gives each point to three places, in this order: its value to one encoder, its timestamp to
    another, both to the statistics. A write that fails keeps what the places before the failing one
    took. So the writer that a failing call leaves is part of what the call gives.
  - Where the statistics are trapped by a point, there is no answer (`write`).
  - A flush cuts a page and leaves a writer without points. If the body cannot be compressed there is no
    page, but both streams have been closed by then, and the writer refuses everything from there on.
-/

import Chronicle.Block.Compressor
import Chronicle.Page.Basic
import Chronicle.Stream.Encoder

namespace Chronicle

structure PageWriter where
  compressor : Compressor
  times : Encoder
  values : Encoder
  statistics : Statistics

namespace PageWriter

/-- A writer for a column. All names are looked at before any option or pair. -/
def new (t : DataType) (valueEncoding compressor : String) (config : Config) :
    Except CodecError PageWriter := do
  let valueEncoding ← Encoding.ofName valueEncoding
  let compressor ← Compressor.ofName compressor
  let timeEncoding ← Encoding.ofName config.timeEncoding
  let values ← Encoder.new t valueEncoding config
  let times ← Encoder.new .int64 timeEncoding config
  return { compressor, times, values, statistics := .empty t }

def pointCount (w : PageWriter) : Nat := w.statistics.count.toNat

def write (time : Int64) (v : Value) : Guarded PageWriter Unit := do
  let w ← get
  if v.dataType ≠ w.statistics.dataType then Guarded.fail (.typeMismatch w.statistics.dataType v.dataType)
  let values ← .ofExcept (w.values.encode v)
  modify fun w => { w with values := values }
  let times ← .ofExcept (w.times.encode (.int64 time))
  modify fun w => { w with times := times }
  let statistics ← .ofOutcome (w.statistics.update time v)
  modify fun w => { w with statistics := statistics }

/-- Cuts a page of the points since the last flush. If the body cannot be compressed, both
    streams are closed all the same. -/
def flush [Snappy.Library] : Guarded PageWriter Page := do
  let (timeStream, times) ← .ofExcept (← get).times.flush
  modify fun w => { w with times := times }
  let (valueStream, values) ← .ofExcept (← get).values.flush
  modify fun w => { w with values := values }
  let w ← get
  let body := timeStream ++ valueStream
  let data ← .ofExcept (w.compressor.compress body)
  set { w with
    times := w.times.reset, values := w.values.reset, statistics := .empty w.statistics.dataType }
  return {
    header := {
      dataType := w.statistics.dataType
      valueEncoding := w.values.encoding
      timeEncoding := w.times.encoding
      compressor := w.compressor
      bodyLength := body.length
      dataLength := data.length
      timeLength := timeStream.length }
    statistics := w.statistics
    data }

end PageWriter

end Chronicle
