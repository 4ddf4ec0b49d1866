/-
  Chronicle.Proofs.Page.RoundTrip — the points of a page are read back.

  (1) Points in. Where both encoders and the statistics take their part of every point, the writer takes the
  points (`writes_of_folds`). A fresh writer takes all points of its type, as long as they are fewer than
  2^32 (`exists_writes`): so many numbers of 32 bits have a sum of 64 bits, and any count has room for them.

  (2) Points out. The body of numbers and booleans is never too long (`Holds.body_lt`); with texts its length
  has to be a number of 64 bits. The page that is then cut is read back from its bytes, and its points are
  read back from the page (`Holds.page_round_trip`).
-/

import Chronicle.Proofs.Page.Writer

namespace Chronicle.PageWriter

open Reading

variable {w w' : PageWriter} {points : List (Int64 × Value)} {config : Config} {compressor : Compressor}
  {timeCodec valueCodec : Codec}

/-! ## Points in -/

/-- Gives some points to a writer, up to the first one that is refused. -/
def writes : List (Int64 × Value) → Guarded PageWriter Unit
  | [] => return ()
  | p :: points => do
    write p.1 p.2
    writes points

theorem writes_cons_of_eq {p : Int64 × Value} (h : write p.1 p.2 w = .ok () w') (points : List (Int64 × Value)) :
    writes (p :: points) w = writes points w' := by
  rw [writes, bind_of_eq h]

theorem writes_append_of_eq (h : writes points w = .ok () w') (others : List (Int64 × Value)) :
    writes (points ++ others) w = writes others w' := by
  induction points generalizing w with
  | nil =>
    cases h
    rfl
  | cons p points ih =>
    obtain ⟨_, next, hwrite, h⟩ := ok_of_bind h
    rw [List.cons_append, writes_cons_of_eq hwrite, ih h]

/-- A writer that takes some points takes all of them in its type, and is still for the same. -/
theorem open_of_writes (ho : w.Open) (h : writes points w = .ok () w') :
    w'.Open ∧ w'.cleared = w.cleared ∧ ∀ p ∈ points, p.2.dataType = w.statistics.dataType := by
  induction points generalizing w with
  | nil =>
    cases h
    exact ⟨ho, rfl, by simp⟩
  | cons p points ih =>
    obtain ⟨_, next, hwrite, h⟩ := ok_of_bind h
    obtain ⟨hopen, hcleared⟩ := open_of_write ho (.inl hwrite)
    obtain ⟨hopen', hcleared', htypes⟩ := ih hopen h
    have htype : next.statistics.dataType = w.statistics.dataType := congrArg (·.statistics.dataType) hcleared
    refine ⟨hopen', hcleared'.trans hcleared, ?_⟩
    intro q hq
    rcases List.mem_cons.1 hq with rfl | hq
    · by_cases hp : q.2.dataType = w.statistics.dataType
      · exact hp
      · rw [write_of_type_ne hp] at hwrite
        cases hwrite
    · exact (htypes q hq).trans htype

/-- Where both encoders and the statistics take their part of every point, the writer takes
    the points. -/
theorem writes_of_folds (c : Compressor) {t t' v v' : EncoderState} {s s' : Statistics}
    (hstreams : t.codec.dataType = .int64) (hcolumn : v.codec.dataType = s.dataType)
    (hp : ∀ p ∈ points, p.2.dataType = s.dataType)
    (ht : (points.map fun p => Value.int64 p.1).foldlM EncoderState.push t = .ok t')
    (hv : (points.map Prod.snd).foldlM EncoderState.push v = .ok v')
    (hs : points.foldlM (fun s p => s.update p.1 p.2) s = .ok s') (m n : Nat) :
    writes points ⟨c, ⟨t, m, false⟩, ⟨v, n, false⟩, s⟩ =
      .ok () ⟨c, ⟨t', m + points.length, false⟩, ⟨v', n + points.length, false⟩, s'⟩ := by
  induction points generalizing t v s m n with
  | nil =>
    cases ht
    cases hv
    cases hs
    rfl
  | cons p points ih =>
    rw [List.map_cons, List.foldlM_cons] at ht hv
    rw [List.foldlM_cons] at hs
    obtain ⟨t₁, htime, ht⟩ := exists_of_bind_eq_ok ht
    obtain ⟨v₁, hvalue, hv⟩ := exists_of_bind_eq_ok hv
    obtain ⟨s₁, hupdate, hs⟩ := exists_of_bind_eq_ok hs
    obtain ⟨hpoint, hp⟩ := List.forall_mem_cons.1 hp
    have hwrite := write_of_ok (w := ⟨c, ⟨t, m, false⟩, ⟨v, n, false⟩, s⟩) hpoint
      (Encoder.encode_of_push rfl (hpoint.trans hcolumn.symm) hvalue)
      (Encoder.encode_of_push rfl hstreams.symm htime) hupdate
    have hsame := Statistics.dataType_update hupdate
    have hstreams₁ : t₁.codec = t.codec := EncoderState.codec_push htime
    have hcolumn₁ : v₁.codec = v.codec := EncoderState.codec_push hvalue
    rw [writes_cons_of_eq hwrite, List.length_cons, Nat.add_comm points.length, ← Nat.add_assoc, ← Nat.add_assoc]
    refine ih ?_ ?_ ?_ ht hv hs (m + 1) (n + 1)
    · rw [hstreams₁, hstreams]
    · rw [hcolumn₁, hcolumn, hsame]
    · intro q hq
      rw [hsame]
      exact hp q hq

/-! ## Fresh writers -/

def fresh (config : Config) (compressor : Compressor) (timeCodec valueCodec : Codec) : PageWriter where
  compressor := compressor
  times := { state := .initial config timeCodec }
  values := { state := .initial config valueCodec }
  statistics := .empty valueCodec.dataType

theorem open_fresh : (fresh config compressor timeCodec valueCodec).Open := ⟨rfl, rfl⟩

theorem cleared_fresh :
    (fresh config compressor timeCodec valueCodec).cleared = fresh config compressor timeCodec valueCodec := by
  simp [fresh, cleared, Encoder.reset, Statistics.empty]

/-- A writer is made if its options are valid and its names stand for what its type can have. -/
theorem exists_new {t : DataType} {valueName compressorName : String} {e : Encoding}
    (hname : Encoding.ofName valueName = .ok e) (he : e ∈ t.encodings)
    (hcompressor : Compressor.ofName compressorName = .ok compressor) (hvalid : config.validate = .ok ())
    (htime : ∃ e, Encoding.ofName config.timeEncoding = .ok e) :
    ∃ timeCodec valueCodec, timeCodec.dataType = .int64 ∧ valueCodec.dataType = t ∧
      new t valueName compressorName config = .ok (fresh config compressor timeCodec valueCodec) := by
  obtain ⟨timeEncoding, htime⟩ := htime
  have hlegal : timeEncoding ∈ DataType.int64.encodings := by
    rcases timeEncoding with _ | _ | _ | (_ | _) <;> decide
  obtain ⟨timeCodec, htimeCodec, htimes⟩ := Codec.require_of_mem hlegal
  obtain ⟨valueCodec, hvalueCodec, hvalues⟩ := Codec.require_of_mem he
  refine ⟨timeCodec, valueCodec, htimes, hvalues, ?_⟩
  unfold new
  rw [hname, hcompressor, htime]
  show (Encoder.new t e config >>= _) = _
  rw [Encoder.new_of_require hvalid hvalueCodec]
  show (Encoder.new .int64 timeEncoding config >>= _) = _
  rw [Encoder.new_of_require hvalid htimeCodec, fresh, hvalues]
  rfl

structure Holds (w : PageWriter) (points : List (Int64 × Value)) : Prop where
  opened : w.Open
  times : w.times.codec.Written (points.map fun p => .int64 p.1) w.times.state.flush.1
  values : w.values.codec.Written (points.map Prod.snd) w.values.state.flush.1
  statistics : Statistics.ofPoints w.values.dataType points = .ok w.statistics
  counts : w.statistics.Counts w.values.dataType points.length
  sized : (∀ p ∈ points, p.2.Sized) → w.statistics.Sized

/-- A fresh writer takes all points of its type. -/
theorem exists_writes (hc : config.Exact) (ht : timeCodec.dataType = .int64)
    (hp : ∀ p ∈ points, p.2.dataType = valueCodec.dataType) (hn : points.length < 2 ^ 32) :
    ∃ w, writes points (fresh config compressor timeCodec valueCodec) = .ok () w ∧ w.times.codec = timeCodec ∧
      w.values.codec = valueCodec ∧ w.Holds points := by
  have htimes : ∀ v ∈ points.map (fun p => Value.int64 p.1), v.dataType = timeCodec.dataType := by
    intro v hv
    obtain ⟨p, -, rfl⟩ := List.mem_map.1 hv
    exact ht.symm
  have hvalues : ∀ v ∈ points.map Prod.snd, v.dataType = valueCodec.dataType := by
    intro v hv
    obtain ⟨p, hm, rfl⟩ := List.mem_map.1 hv
    exact hp p hm
  obtain ⟨t, htimesFold, htimesWritten⟩ := EncoderState.exists_written hc timeCodec htimes (timeCodec.counts_of_lt (by simpa using hn))
  obtain ⟨v, hvaluesFold, hvaluesWritten⟩ := EncoderState.exists_written hc valueCodec hvalues (valueCodec.counts_of_lt (by simpa using hn))
  obtain ⟨s, hfold, hcounts, hsized⟩ :=
    Statistics.foldlM_update hp (Statistics.counts_empty valueCodec.dataType) (by simpa using hn)
  have htimeCodec : t.codec = timeCodec := by
    rw [EncoderState.codec_foldlM_push htimesFold, EncoderState.codec_initial]
  have hvalueCodec : v.codec = valueCodec := by
    rw [EncoderState.codec_foldlM_push hvaluesFold, EncoderState.codec_initial]
  have hwrites := writes_of_folds compressor (by simpa using ht) (by simp [Statistics.empty]) hp htimesFold
    hvaluesFold hfold 0 0
  refine ⟨_, hwrites, htimeCodec, hvalueCodec, ⟨rfl, rfl⟩, ?_, ?_, ?_, ?_, ?_⟩
  · show t.codec.Written _ _
    rw [htimeCodec]
    exact htimesWritten
  · show v.codec.Written _ _
    rw [hvalueCodec]
    exact hvaluesWritten
  · show Statistics.ofPoints v.codec.dataType points = _
    rw [hvalueCodec]
    exact hfold
  · show s.Counts v.codec.dataType _
    rw [hvalueCodec, ← Nat.zero_add points.length]
    exact hcounts
  · intro hpoints
    refine hsized hpoints ?_
    intro u hu
    cases hu

/-! ## Points out -/

/-- Streams of numbers and booleans are never too long for a page. -/
theorem Holds.body_lt (h : w.Holds points) (ht : w.times.dataType = .int64) (hn : points.length < 2 ^ 32)
    (hv : w.values.dataType ≠ .text) : (w.times.state.flush.1 ++ w.values.state.flush.1).length < 2 ^ 64 := by
  have htext : w.times.codec.dataType ≠ .text := by
    intro htext
    have hint : w.times.codec.dataType = .int64 := ht
    rw [hint] at htext
    cases htext
  have htimes := h.times.length_le htext
  have hvalues := h.values.length_le hv
  rw [List.length_map] at htimes hvalues
  rw [List.length_append]
  omega

/-- The page that is cut of some points is read back, and so are its points. -/
theorem Holds.page_round_trip [Snappy.Library] (hl : Snappy.Library.Lossless) (h : w.Holds points) (ht : w.times.dataType = .int64)
    (hn : points.length < 2 ^ 32) {page : Page} (hf : flush w = .ok page w')
    (hb : w.values.dataType = .text → page.header.bodyLength < 2 ^ 64) :
    Page.ofBytes page.toBytes = .ok page ∧ (do (← PageReader.ofPage page).readAll) = .ok points ∧
      Statistics.ofPoints w.values.dataType points = .ok page.statistics ∧ w' = w.cleared := by
  rw [flush_of_open h.opened h.counts.1.symm] at hf
  rcases hdata : w.compressor.compress (w.times.state.flush.1 ++ w.values.state.flush.1) with e | data
  · rw [hdata] at hf
    cases hf
  rw [hdata] at hf
  cases hf
  have hbody : (w.times.state.flush.1 ++ w.values.state.flush.1).length < 2 ^ 64 := by
    by_cases hv : w.values.dataType = .text
    · exact hb hv
    · exact h.body_lt ht hn hv
  have hparts := hbody
  rw [List.length_append] at hparts
  have hsized : ∀ p ∈ points, p.2.Sized := by
    intro p hp
    exact h.values.sized (by omega) p.2 (List.mem_map_of_mem hp)
  refine ⟨?_, ?_, h.statistics, rfl⟩
  · exact Page.ofBytes_toBytes (Page.sound_ofStreams hl hdata hbody ht h.counts (h.sized hsized))
  · obtain ⟨times, hrunTimes, hleftTimes, -⟩ := h.times.reads (h.times.sized (by omega)) []
    obtain ⟨values, hrunValues, hleftValues, -⟩ := h.values.reads (h.values.sized (by omega)) []
    rw [List.append_nil] at hrunTimes hrunValues
    rw [Page.ofPage_ofStreams hl hdata ht, h.counts.count_eq]
    exact PageReader.readAll_of_runs hrunTimes hrunValues hleftTimes hleftValues

end Chronicle.PageWriter
