/-
  Chronicle.Proofs.Page.Writer — what the calls of a writer do.

  A write stops at the first place that refuses the point (`write_eq`); whatever it comes to, the writer is
  still for the same and open if it was (`open_of_write`). A flush of an open writer gives the page of its two
  streams, or closes both (`flush_of_open`, `flush_cases`). A writer that is closed takes nothing and stays as
  it is (`write_of_closed`). From here on no proof looks into the two calls again.
-/

import Chronicle.Page.Writer
import Chronicle.Proofs.Page.Reader
import Chronicle.Proofs.Stream.Codec

namespace Chronicle.PageWriter

open Reading

variable {w w' : PageWriter} {time : Int64} {v : Value}

def cleared (w : PageWriter) : PageWriter :=
  { w with times := w.times.reset, values := w.values.reset, statistics := .empty w.statistics.dataType }

def closed (w : PageWriter) : PageWriter :=
  { w with
    times := { w.times with state := w.times.state.flush.2, flushed := true }
    values := { w.values with state := w.values.state.flush.2, flushed := true } }

def Open (w : PageWriter) : Prop := w.times.flushed = false ∧ w.values.flushed = false

def Closed (w : PageWriter) : Prop := w.times.flushed = true ∧ w.values.flushed = true

theorem closed_closed (w : PageWriter) : w.closed.Closed := ⟨rfl, rfl⟩

theorem times_codec_closed (w : PageWriter) : w.closed.times.codec = w.times.codec := by
  simp [closed, Encoder.codec]

theorem values_codec_closed (w : PageWriter) : w.closed.values.codec = w.values.codec := by
  simp [closed, Encoder.codec]

theorem cleared_closed (w : PageWriter) : w.closed.cleared = w.cleared := by
  simp [closed, cleared, Encoder.reset]

/-! ## A write -/

/-- What a write does, by the first place that refuses the point. -/
theorem write_eq (time : Int64) (v : Value) (w : PageWriter) :
    write time v w =
      if v.dataType ≠ w.statistics.dataType then .error (.failed (.typeMismatch w.statistics.dataType v.dataType)) w
      else
        match w.values.encode v, w.times.encode (.int64 time), w.statistics.update time v with
        | .error e, _, _ => .error (.failed e) w
        | .ok values, .error e, _ => .error (.failed e) { w with values := values }
        | .ok values, .ok times, .error h => .error h { w with values := values, times := times }
        | .ok values, .ok times, .ok statistics =>
          .ok () { w with values := values, times := times, statistics := statistics } := by
  unfold write
  rw [get_bind]
  by_cases ht : v.dataType = w.statistics.dataType
  · rw [if_neg (not_not_intro ht), if_neg (not_not_intro ht)]
    rcases w.values.encode v with e | values
    · rfl
    rcases w.times.encode (.int64 time) with e | times
    · rfl
    rcases w.statistics.update time v with e | statistics
    · rfl
    · rfl
  · rw [if_pos ht, if_pos ht]
    rfl

theorem write_of_type_ne (h : v.dataType ≠ w.statistics.dataType) (time : Int64) :
    write time v w = .error (.failed (.typeMismatch w.statistics.dataType v.dataType)) w := by
  rw [write_eq, if_pos h]

theorem write_of_ok {values times : Encoder} {statistics : Statistics} (ht : v.dataType = w.statistics.dataType)
    (hvalues : w.values.encode v = .ok values) (htimes : w.times.encode (.int64 time) = .ok times)
    (hstatistics : w.statistics.update time v = .ok statistics) :
    write time v w = .ok () { w with values := values, times := times, statistics := statistics } := by
  rw [write_eq, if_neg (not_not_intro ht), hvalues, htimes, hstatistics]

/-- A closed writer takes nothing and stays as it is. -/
theorem write_of_closed (h : w.Closed) (time : Int64) (v : Value) : ∃ e, write time v w = .error e w := by
  by_cases ht : v.dataType = w.statistics.dataType
  · rw [write_eq, if_neg (not_not_intro ht), Encoder.encode_of_flushed h.2]
    exact ⟨_, rfl⟩
  · exact ⟨_, write_of_type_ne ht time⟩

/-- What a writer is for does not change with its points. -/
theorem open_of_parts {times values : Encoder} {statistics : Statistics}
    (ht : times.flushed = false ∧ times.reset = w.times.reset)
    (hv : values.flushed = false ∧ values.reset = w.values.reset) (hs : statistics.dataType = w.statistics.dataType) :
    PageWriter.Open { w with times := times, values := values, statistics := statistics } ∧
      cleared { w with times := times, values := values, statistics := statistics } = w.cleared := by
  refine ⟨⟨ht.1, hv.1⟩, ?_⟩
  simp only [cleared, ht.2, hv.2, hs]

/-- The writer is still open and for the same, whether or not it takes the point. -/
theorem open_of_write (ho : w.Open) (h : write time v w = .ok () w' ∨ ∃ e, write time v w = .error e w') :
    w'.Open ∧ w'.cleared = w.cleared := by
  rw [write_eq] at h
  by_cases ht : v.dataType = w.statistics.dataType
  · rw [if_neg (not_not_intro ht)] at h
    rcases hvalues : w.values.encode v with e | values
    · simp only [hvalues, reduceCtorEq, false_or] at h
      obtain ⟨e, h⟩ := h
      cases h
      exact ⟨ho, rfl⟩
    rcases htimes : w.times.encode (.int64 time) with e | times
    · simp only [hvalues, htimes, reduceCtorEq, false_or] at h
      obtain ⟨e, h⟩ := h
      cases h
      exact open_of_parts ⟨ho.1, rfl⟩ (Encoder.open_of_encode hvalues) rfl
    rcases hstatistics : w.statistics.update time v with e | statistics
    · simp only [hvalues, htimes, hstatistics, reduceCtorEq, false_or] at h
      obtain ⟨e, h⟩ := h
      cases h
      exact open_of_parts (Encoder.open_of_encode htimes) (Encoder.open_of_encode hvalues) rfl
    · simp only [hvalues, htimes, hstatistics, reduceCtorEq, exists_false, or_false] at h
      cases h
      exact open_of_parts (Encoder.open_of_encode htimes) (Encoder.open_of_encode hvalues)
        (Statistics.dataType_update hstatistics)
  · simp only [if_pos ht, reduceCtorEq, false_or] at h
    obtain ⟨e, h⟩ := h
    cases h
    exact ⟨ho, rfl⟩

/-! ## A flush -/

section Flush

variable [Snappy.Library]

theorem flush_of_closed (h : w.Closed) : flush w = .error (.failed .flushed) w := by
  unfold flush
  rw [get_bind, Encoder.flush_of_flushed h.1]
  rfl

/-- What a flush of an open writer does. -/
theorem flush_of_open (ho : w.Open) (ht : w.values.dataType = w.statistics.dataType) :
    flush w =
      match w.compressor.compress (w.times.state.flush.1 ++ w.values.state.flush.1) with
      | .ok data =>
        .ok (.ofStreams w.compressor w.times.codec w.values.codec w.times.state.flush.1 w.values.state.flush.1 data
          w.statistics) w.cleared
      | .error e => .error (.failed e) w.closed := by
  have htimes : w.times.flush = .ok (w.times.state.flush.1, w.closed.times) := Encoder.flush_of_open ho.1
  have hvalues : w.values.flush = .ok (w.values.state.flush.1, w.closed.values) := Encoder.flush_of_open ho.2
  unfold flush
  rw [get_bind, htimes]
  show (Guarded.ofExcept w.values.flush >>= _) _ = _
  rw [hvalues]
  show (Guarded.ofExcept (w.compressor.compress (w.times.state.flush.1 ++ w.values.state.flush.1)) >>= _) w.closed = _
  rcases w.compressor.compress (w.times.state.flush.1 ++ w.values.state.flush.1) with e | data
  · rfl
  · have htype : w.closed.values.codec.dataType = w.statistics.dataType := by
      rw [values_codec_closed]
      exact ht
    dsimp only
    rw [← cleared_closed, ← times_codec_closed, ← values_codec_closed, Page.ofStreams, htype]
    rfl

/-- A flush leaves an open writer without its points, or closed. -/
theorem flush_cases (ho : w.Open) (ht : w.values.dataType = w.statistics.dataType) :
    (∃ page, flush w = .ok page w.cleared) ∨ ∃ e, flush w = .error e w.closed := by
  rw [flush_of_open ho ht]
  rcases w.compressor.compress (w.times.state.flush.1 ++ w.values.state.flush.1) with e | data
  · exact .inr ⟨_, rfl⟩
  · exact .inl ⟨_, rfl⟩

end Flush

end Chronicle.PageWriter
