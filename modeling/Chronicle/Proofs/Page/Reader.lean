/-
  Chronicle.Proofs.Page.Reader — the two streams of a page, read side by side.

  Where one decoder reads the timestamps and another one the values, a reader of pages reads the points
  (`run_point`): neither decoder is touched by what is read from the other. All points are read if nothing is
  left behind either stream (`readAll_of_runs`). A page made of two streams gives a reader at their
  beginnings (`ofPage_ofStreams`), as the header says where the body is to be cut.
-/

import Chronicle.Page.Reader
import Chronicle.Proofs.Block.Compressor
import Chronicle.Proofs.Page.Layout

namespace Chronicle

open Reading

namespace PageReader

/-! ## Point by point -/

variable {times times' values values' : Decoder}

def more (r : PageReader) : Bool := decide (0 < r.remaining) && (r.times.hasNext && r.values.hasNext)

theorem more_eq_true {r : PageReader} (hr : 0 < r.remaining) (ht : r.times.hasNext = true)
    (hv : r.values.hasNext = true) : more r = true := by
  simp [more, hr, ht, hv]

theorem point_of_next {time : Int64} {v : Value} (ht : Decoder.next times = .ok (.int64 time) times')
    (hv : Decoder.next values = .ok v values') (remaining : Nat) :
    point ⟨times, values, remaining⟩ = .ok (time, v) ⟨times', values', remaining - 1⟩ := by
  have htimes : onTimes Decoder.next ⟨times, values, remaining⟩ = .ok (.int64 time) ⟨times', values, remaining⟩ := by
    simp only [onTimes, ht]
  have hvalues : onValues Decoder.next ⟨times', values, remaining⟩ = .ok v ⟨times', values', remaining⟩ := by
    simp only [onValues, hv]
  have htime : nextTime ⟨times, values, remaining⟩ = .ok time ⟨times', values, remaining⟩ := by
    unfold nextTime
    rw [bind_of_eq htimes]
    rfl
  unfold point
  rw [bind_of_eq htime, bind_of_eq hvalues]
  rfl

/-- Two runs of the same length, side by side, are a run of pairs. -/
theorem run_point {points : List (Int64 × Value)}
    (ht : Run Decoder.next Decoder.hasNext times (points.map fun p => .int64 p.1) times')
    (hv : Run Decoder.next Decoder.hasNext values (points.map Prod.snd) values') :
    Run point more ⟨times, values, points.length⟩ points ⟨times', values', 0⟩ := by
  induction points generalizing times values with
  | nil =>
    cases ht
    cases hv
    exact .nil _
  | cons p points ih =>
    cases ht with
    | cons hmoreTimes hnextTime ht =>
      cases hv with
      | cons hmoreValues hnextValue hv =>
        refine .cons (more_eq_true ?_ hmoreTimes hmoreValues) (point_of_next hnextTime hnextValue _) (ih ht hv)
        simp

/-- What reading on does. -/
theorem next_eq (r : PageReader) :
    next r =
      if r.remaining = 0 then
        if 0 < r.times.bytes.length + r.values.bytes.length then
          .error (.malformed (.bytesAfterPoints (r.times.bytes.length + r.values.bytes.length))) r
        else .ok none r
      else if r.times.hasNext && r.values.hasNext then (do return some (← point) : Reading PageReader _) r
      else .error .underflow r := by
  unfold next
  rw [get_bind]
  by_cases hzero : r.remaining = 0
  · simp only [if_pos hzero]
    split <;> rfl
  · simp only [if_neg hzero]
    cases r.times.hasNext && r.values.hasNext <;> rfl

theorem next_of_more {r r' : PageReader} {p : Int64 × Value} (hm : more r = true) (hp : point r = .ok p r') :
    next r = .ok (some p) r' := by
  simp only [more, Bool.and_eq_true, decide_eq_true_eq] at hm
  obtain ⟨hr, ht, hv⟩ := hm
  rw [next_eq, if_neg (Nat.ne_of_gt hr), ht, hv]
  exact map_of_eq hp

theorem next_of_none_left {r : PageReader} (hr : r.remaining = 0) (ht : r.times.bytes = []) (hv : r.values.bytes = []) :
    next r = .ok none r := by
  rw [next_eq, if_pos hr, ht, hv]
  rfl

/-- All points are read if the streams hold them and nothing else. -/
theorem readAll_of_runs {points : List (Int64 × Value)}
    (ht : Run Decoder.next Decoder.hasNext times (points.map fun p => .int64 p.1) times')
    (hv : Run Decoder.next Decoder.hasNext values (points.map Prod.snd) values')
    (htimes : times'.bytes = []) (hvalues : values'.bytes = []) :
    readAll ⟨times, values, points.length⟩ = .ok points := by
  have hdrain : drain (points.length + 1) ⟨times, values, points.length⟩ = ⟨points, .finished, times', values', 0⟩ :=
    collect_of_run (fun _ _ _ => next_of_more) (run_point ht hv) (next_of_none_left rfl htimes hvalues)
      (Nat.lt_succ_self _)
  unfold readAll
  rw [hdrain]

end PageReader

/-! ## Pages of two streams -/

namespace Page

def ofStreams (compressor : Compressor) (timeCodec valueCodec : Codec) (times values data : Bytes)
    (statistics : Statistics) : Page where
  header := {
    dataType := valueCodec.dataType
    valueEncoding := valueCodec.encoding
    timeEncoding := timeCodec.encoding
    compressor := compressor
    bodyLength := (times ++ values).length
    dataLength := data.length
    timeLength := times.length }
  statistics := statistics
  data := data

variable [Snappy.Library] {compressor : Compressor} {timeCodec valueCodec : Codec} {times values data : Bytes}
  {statistics : Statistics}

theorem sound_ofStreams (hl : Snappy.Library.Lossless) (hdata : compressor.compress (times ++ values) = .ok data)
    (hb : (times ++ values).length < 2 ^ 64) (ht : timeCodec.dataType = .int64) {n : Nat}
    (hn : statistics.Counts valueCodec.dataType n) (hs : statistics.Sized) :
    (ofStreams compressor timeCodec valueCodec times values data statistics).Sound := by
  refine ⟨⟨valueCodec.encoding_mem, ?_, ?_, hb, Compressor.length_compress_lt hl hdata hb⟩, rfl, hn.sound hs⟩
  · rw [← ht]
    exact timeCodec.encoding_mem
  · show times.length ≤ (times ++ values).length
    simp

/-- A reader begins at the first byte of either stream. -/
theorem ofPage_ofStreams (hl : Snappy.Library.Lossless) (hdata : compressor.compress (times ++ values) = .ok data)
    (ht : timeCodec.dataType = .int64) :
    PageReader.ofPage (ofStreams compressor timeCodec valueCodec times values data statistics) =
      .ok ⟨.ofCodec timeCodec times, .ofCodec valueCodec values, statistics.count.toNat⟩ := by
  have hbody := Compressor.uncompress_of_compress hl hdata
  have hle : ¬ (times ++ values).length < times.length := by
    simp
  have htime : Decoder.new .int64 timeCodec.encoding times = .ok (.ofCodec timeCodec times) :=
    Decoder.new_of_require (Codec.require_eq_ok_iff.2 ⟨ht, rfl⟩) times
  have hvalue : Decoder.new valueCodec.dataType valueCodec.encoding values = .ok (.ofCodec valueCodec values) :=
    Decoder.new_of_require valueCodec.require_self values
  unfold PageReader.ofPage ofStreams
  simp only [hbody]
  show (if _ then _ else _ : Except CodecError PageReader) = _
  rw [if_neg hle, List.take_left, List.drop_left, htime]
  show (Decoder.new valueCodec.dataType valueCodec.encoding values >>= _) = _
  rw [hvalue]
  rfl

end Page

end Chronicle
