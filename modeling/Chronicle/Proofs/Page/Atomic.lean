/-
  Chronicle.Proofs.Page.Atomic — a write that fails leaves no trace, as long as nothing is full.

  (1) What can go wrong. A write gives a point to three places in turn, and takes nothing back. So it is all
  or nothing exactly if the first place is the only one that can refuse: the value encoder may refuse what
  it likes, but the time encoder and the statistics must have room for what it has taken
  (`Tallies.write_of_encode`).

  (2) Where it does not (`failed_write_leaves_no_trace`). They have room while no count and no sum is full
  (`Room`), and as all three have taken the same points (`Tallied`), this can be told from the number of
  points. Then a failing call leaves the writer as it was and can be struck out of a history. The
  statistics are the same behind a failing call in any case.

  (3) Where it does (`a_refused_timestamp_leaves_its_value`). Behind the last timestamp that a GORILLA
  stream can count, a point that is refused leaves its value in the value stream (`exists_stray`). The page
  that is cut next has more values than it counts, and cannot be read any more (`exists_broken_page`).
  No one writes out so many points: the writer is known from what its encoders have been given.
-/

import Chronicle.Proofs.Page.Count
import Chronicle.Proofs.Page.Session

namespace Chronicle

open Reading

/-! ## What an encoder counts -/

namespace EncoderState

variable {s s' : EncoderState} {v : Value} {n : Nat}

/-- A stream that says how many values it has says `n`. -/
def Tallies (n : Nat) : EncoderState → Prop
  | gorilla e => e.count = n
  | _ => True

theorem tallies_reset (s : EncoderState) : s.reset.Tallies 0 := by
  cases s with
  | gorilla e => rfl
  | _ => trivial

theorem Tallies.push (h : s.Tallies n) (hpush : s.push v = .ok s') : s'.Tallies (n + 1) := by
  cases s with
  | gorilla e =>
    obtain ⟨bits, -, hpush⟩ := exists_of_bind_eq_ok hpush
    obtain ⟨next, hnext, hpush⟩ := exists_of_bind_eq_ok hpush
    cases hpush
    exact (Gorilla.Encoder.count_push hnext).trans (congrArg (· + 1) h)
  | plain t out =>
    cases hpush
    trivial
  | runLength e =>
    obtain ⟨bits, -, hpush⟩ := exists_of_bind_eq_ok hpush
    cases hpush
    trivial
  | delta e =>
    obtain ⟨bits, -, hpush⟩ := exists_of_bind_eq_ok hpush
    obtain ⟨next, -, hpush⟩ := exists_of_bind_eq_ok hpush
    cases hpush
    trivial

/-- A GORILLA stream that takes a value is not full. -/
theorem Tallies.lt_of_push (h : s.Tallies n) (hs : s.codec.encoding = .gorilla .v1) (hpush : s.push v = .ok s') :
    n < Gorilla.maxCount := by
  cases s with
  | gorilla e =>
    obtain ⟨bits, -, hpush⟩ := exists_of_bind_eq_ok hpush
    obtain ⟨next, hnext, -⟩ := exists_of_bind_eq_ok hpush
    have hv : e.version = .v1 := Encoding.gorilla.inj hs
    by_contra hfull
    rw [Gorilla.Encoder.push_of_full hv (Nat.le_of_not_lt (h ▸ hfull))] at hnext
    cases hnext
  | _ => cases hs

/-- An integer is taken in whatever the options are, unless the stream is full. -/
theorem Tallies.push_int64 {config : Config} {c : Codec} (h : s.Tallies n) (hs : s.reset = initial config c)
    (hc : c.dataType = .int64) (hroom : c.encoding = .gorilla .v1 → n < Gorilla.maxCount) (time : Int64) :
    ∃ s', s.push (.int64 time) = .ok s' := by
  have hcodec : s.codec = c := by
    rw [← codec_reset, hs, codec_initial]
  subst hcodec
  cases s with
  | plain t out => exact ⟨_, rfl⟩
  | runLength e => exact ⟨_, rfl⟩
  | delta e =>
    rcases e with ⟨t, domain, block, out, opened⟩
    cases hc
    -- Numbers that are not floating-point ones have no other domain.
    have hdomain : domain = .pattern := by
      injection hs with hs
      exact congrArg Delta.Encoder.domain hs
    subst hdomain
    exact ⟨_, rfl⟩
  | gorilla e =>
    obtain ⟨next, hnext⟩ := Gorilla.Encoder.push_of_room (e := e) (fun hv => by
      rw [show e.count = n from h]
      exact hroom (congrArg Encoding.gorilla hv)) time.toUInt64.toNat
    refine ⟨gorilla next, ?_⟩
    show (do return gorilla (← e.push time.toUInt64.toNat) : Except CodecError EncoderState) = _
    rw [hnext]
    rfl

/-- A full stream takes nothing. -/
theorem Tallies.push_of_full {t : NumberType} (h : s.Tallies Gorilla.maxCount) (hs : s.codec = .gorilla .v1 t)
    (hv : v.dataType = .fixed (.number t)) : s.push v = .error (.overflow .valueCount) := by
  obtain ⟨bits, hlt, rfl⟩ := Value.exists_pattern hv
  cases s with
  | gorilla e =>
    rw [EncoderState.push, Value.requireBits_ofBits hlt]
    show (do return gorilla (← e.push bits) : Except CodecError EncoderState) = _
    injection hs with hversion htype
    rw [Gorilla.Encoder.push_of_full hversion (Nat.le_of_eq (Eq.symm h))]
    rfl
  | _ => cases hs

end EncoderState

namespace Encoder

variable {e e' : Encoder} {v : Value} {n : Nat}

structure Tallies (e : Encoder) (n : Nat) : Prop where
  count : e.count = n
  state : e.flushed = false → e.state.Tallies n

theorem tallies_reset (e : Encoder) : e.reset.Tallies 0 := ⟨rfl, fun _ => e.state.tallies_reset⟩

theorem Tallies.encode (h : e.Tallies n) (hencode : e.encode v = .ok e') : e'.Tallies (n + 1) := by
  obtain ⟨hopen, -, s, hpush, rfl⟩ := push_of_encode hencode
  exact ⟨congrArg (· + 1) h.count, fun _ => (h.state hopen).push hpush⟩

theorem tallies_of_foldlM {values : List Value} (h : e.Tallies n) (hs : values.foldlM encode e = .ok e') :
    e'.Tallies (n + values.length) := by
  induction values generalizing e n with
  | nil =>
    cases hs
    exact h
  | cons v values ih =>
    obtain ⟨next, hencode, hs⟩ := exists_of_bind_eq_ok hs
    rw [List.length_cons, Nat.add_comm values.length, ← Nat.add_assoc]
    exact ih (h.encode hencode) hs

/-- A full stream takes nothing. -/
theorem Tallies.encode_of_full {t : NumberType} (h : e.Tallies Gorilla.maxCount) (ho : e.flushed = false)
    (hs : e.codec = .gorilla .v1 t) (hv : v.dataType = .fixed (.number t)) :
    e.encode v = .error (.overflow .valueCount) := by
  refine encode_of_push_error ho ?_ ((h.state ho).push_of_full hs hv)
  rw [hv, dataType, hs]
  rfl

/-- An encoder that has taken some values takes one more, if its codec can count them all. -/
theorem exists_encode {config : Config} (hc : config.Exact) {c : Codec} {values : List Value}
    (hs : values.foldlM encode { state := .initial config c } = .ok e)
    (hv : ∀ u ∈ values ++ [v], u.dataType = c.dataType) (hn : c.Counts (values ++ [v]).length) :
    ∃ e', e.encode v = .ok e' ∧ e'.flushed = false ∧ e'.codec = c ∧ e'.count = values.length + 1 ∧
      c.Written (values ++ [v]) e'.state.flush.1 := by
  obtain ⟨s, hfold, hwritten⟩ := EncoderState.exists_written hc c hv hn
  have htype : dataType { state := .initial config c } = c.dataType :=
    congrArg Codec.dataType (EncoderState.codec_initial config c)
  have hall := foldlM_encode_of_push rfl (fun u hu => (hv u hu).trans htype.symm) hfold
  rw [List.foldlM_append, hs] at hall
  obtain ⟨e', hencode, hall⟩ := exists_of_bind_eq_ok (m := e.encode v) hall
  cases hall
  refine ⟨_, hencode, rfl, ?_, ?_, hwritten⟩
  · exact (EncoderState.codec_foldlM_push hfold).trans (EncoderState.codec_initial config c)
  · simp

end Encoder

/-! ## A write -/

namespace PageWriter

variable {w w' : PageWriter} {n : Nat} {time : Int64} {v : Value} {config : Config} {compressor : Compressor}
  {timeCodec valueCodec : Codec}

/-- One point more than `n` is neither too many to be counted nor too many to be summed. A full
    time stream is no matter if the value stream is full as soon. -/
structure Room (timeCodec valueCodec : Codec) (n : Nat) : Prop where
  count : n + 1 < 2 ^ 64
  sum : valueCodec.dataType = .int32 → n < 2 ^ 32
  times : timeCodec.encoding = .gorilla .v1 → valueCodec.encoding ≠ .gorilla .v1 → n < Gorilla.maxCount

theorem Room.of_succ (h : Room timeCodec valueCodec (n + 1)) : Room timeCodec valueCodec n := by
  refine ⟨Nat.lt_of_succ_lt h.count, ?_, ?_⟩
  · intro hint
    exact Nat.lt_of_succ_lt (h.sum hint)
  · intro htimes hvalues
    exact Nat.lt_of_succ_lt (h.times htimes hvalues)

structure Tallies (w : PageWriter) (n : Nat) : Prop where
  times : w.times.Tallies n
  values : w.values.Tallies n
  statistics : w.statistics.Counts w.statistics.dataType n

theorem tallies_cleared (w : PageWriter) : w.cleared.Tallies 0 :=
  ⟨w.times.tallies_reset, w.values.tallies_reset, Statistics.counts_empty _⟩

theorem Tallies.closed (h : w.Tallies n) : w.closed.Tallies n :=
  ⟨⟨h.times.count, nofun⟩, ⟨h.values.count, nofun⟩, h.statistics⟩

/-- What a writer is for can be told from what is left when it is cleared. -/
theorem codecs_of_cleared (hw : w.cleared = fresh config compressor timeCodec valueCodec) :
    w.times.codec = timeCodec ∧ w.values.codec = valueCodec ∧ w.statistics.dataType = valueCodec.dataType := by
  have htimes : w.times.state.reset = .initial config timeCodec := congrArg (·.times.state) hw
  have hvalues : w.values.state.reset = .initial config valueCodec := congrArg (·.values.state) hw
  refine ⟨?_, ?_, congrArg (·.statistics.dataType) hw⟩
  · rw [Encoder.codec, ← EncoderState.codec_reset, htimes, EncoderState.codec_initial]
  · rw [Encoder.codec, ← EncoderState.codec_reset, hvalues, EncoderState.codec_initial]

/-- Whatever a failing write has changed, the statistics are the same. -/
theorem statistics_of_write_error {e : Halt} (h : write time v w = .error e w') :
    w'.statistics = w.statistics := by
  rw [write_eq] at h
  split at h
  · cases h
    rfl
  split at h <;> cases h <;> rfl

/-- A write that is done has given the value to one encoder and the timestamp to the other. -/
theorem encodes_of_write (h : write time v w = .ok () w') :
    w.values.encode v = .ok w'.values ∧ w.times.encode (.int64 time) = .ok w'.times := by
  rw [write_eq] at h
  split at h
  · cases h
  split at h <;> cases h
  exact ⟨‹_›, ‹_›⟩

/-- A writer whose value encoder takes a value takes the point, if there is room for it. -/
theorem Tallies.write_of_encode (h : w.Tallies n) (ho : w.Open)
    (hw : w.cleared = fresh config compressor timeCodec valueCodec) (ht : timeCodec.dataType = .int64)
    (hroom : Room timeCodec valueCodec n) {values : Encoder} (hvalues : w.values.encode v = .ok values) (time : Int64) :
    ∃ w', write time v w = .ok () w' ∧ w'.Tallies (n + 1) := by
  obtain ⟨hopen, hcolumn, s, hpush, -⟩ := Encoder.push_of_encode hvalues
  obtain ⟨htimeCodec, hvalueCodec, htype⟩ := codecs_of_cleared hw
  have hv : v.dataType = w.statistics.dataType := by
    rw [hcolumn, htype, ← hvalueCodec]
    rfl
  have htimeRoom : timeCodec.encoding = .gorilla .v1 → n < Gorilla.maxCount := by
    intro htimes
    by_cases hgorilla : valueCodec.encoding = .gorilla .v1
    · exact (h.values.state hopen).lt_of_push ((congrArg Codec.encoding hvalueCodec).trans hgorilla) hpush
    · exact hroom.times htimes hgorilla
  obtain ⟨t, htime⟩ := (h.times.state ho.1).push_int64 (congrArg (·.times.state) hw) ht htimeRoom time
  have hstream : w.times.dataType = .int64 := (congrArg Codec.dataType htimeCodec).trans ht
  have htimes := Encoder.encode_of_push (v := .int64 time) ho.1 hstream.symm htime
  obtain ⟨statistics, hupdate, hcounts, -⟩ :=
    h.statistics.update hroom.count (fun hint => hroom.sum (htype.symm.trans hint)) time hv
  refine ⟨_, write_of_ok hv hvalues htimes hupdate, h.times.encode htimes, h.values.encode hvalues, ?_⟩
  rw [Statistics.dataType_update hupdate]
  exact hcounts

/-- A write that fails changes nothing, if there was room for the point. -/
theorem Tallies.eq_of_write_error (h : w.Tallies n) (ho : w.Open)
    (hw : w.cleared = fresh config compressor timeCodec valueCodec) (ht : timeCodec.dataType = .int64)
    (hroom : Room timeCodec valueCodec n) {e : Halt} (hwrite : write time v w = .error e w') : w' = w := by
  cases hvalues : w.values.encode v with
  | ok values =>
    obtain ⟨w'', hok, -⟩ := h.write_of_encode ho hw ht hroom hvalues time
    rw [hok] at hwrite
    cases hwrite
  | error fault =>
    rw [write_eq, hvalues] at hwrite
    split at hwrite <;> cases hwrite <;> rfl

theorem Tallies.write (h : w.Tallies n) (ho : w.Open)
    (hw : w.cleared = fresh config compressor timeCodec valueCodec) (ht : timeCodec.dataType = .int64)
    (hroom : Room timeCodec valueCodec n) (hwrite : write time v w = .ok () w') : w'.Tallies (n + 1) := by
  obtain ⟨hvalues, -⟩ := encodes_of_write hwrite
  obtain ⟨w'', hok, htallies⟩ := h.write_of_encode ho hw ht hroom hvalues time
  rw [hok] at hwrite
  cases hwrite
  exact htallies

/-- A writer that is made is a fresh one. -/
theorem exists_fresh_of_new {t : DataType} {valueName compressorName : String}
    (h : new t valueName compressorName config = .ok w) :
    ∃ compressor timeCodec valueCodec, timeCodec.dataType = .int64 ∧
      w = fresh config compressor timeCodec valueCodec := by
  obtain ⟨valueEncoding, -, h⟩ := exists_of_bind_eq_ok h
  obtain ⟨compressor, -, h⟩ := exists_of_bind_eq_ok h
  obtain ⟨timeEncoding, -, h⟩ := exists_of_bind_eq_ok h
  obtain ⟨values, hvalues, h⟩ := exists_of_bind_eq_ok h
  obtain ⟨times, htimes, h⟩ := exists_of_bind_eq_ok h
  obtain ⟨valueCodec, hvalueCodec, rfl⟩ := Encoder.initial_of_new hvalues
  obtain ⟨timeCodec, htimeCodec, rfl⟩ := Encoder.initial_of_new htimes
  obtain ⟨rfl, -⟩ := Codec.require_eq_ok_iff.1 hvalueCodec
  cases h
  exact ⟨compressor, timeCodec, valueCodec, (Codec.require_eq_ok_iff.1 htimeCodec).1, rfl⟩

end PageWriter

open PageWriter

/-! ## All calls -/

namespace Session

variable {s : Session} {config : Config} {compressor : Compressor} {timeCodec valueCodec : Codec}

structure Tallied (config : Config) (compressor : Compressor) (timeCodec valueCodec : Codec) (s : Session) : Prop where
  current : s.writer.Closed ∨ s.writer.Open ∧ s.writer.cleared = fresh config compressor timeCodec valueCodec
  tallies : Room timeCodec valueCodec s.points.length → s.writer.Tallies s.points.length

theorem tallied_start :
    Tallied config compressor timeCodec valueCodec { writer := fresh config compressor timeCodec valueCodec } := by
  refine ⟨.inr ⟨open_fresh, cleared_fresh⟩, ?_⟩
  intro _
  rw [← cleared_fresh]
  exact tallies_cleared _

/-- A write that fails leaves the writer as it was. -/
theorem Tallied.eq_of_write_error (h : Tallied config compressor timeCodec valueCodec s)
    (ht : timeCodec.dataType = .int64) (hroom : Room timeCodec valueCodec s.points.length) {time : Int64} {v : Value}
    {e : Halt} {w : PageWriter} (hwrite : PageWriter.write time v s.writer = .error e w) : w = s.writer := by
  rcases h.current with hclosed | ⟨hopen, hcleared⟩
  · obtain ⟨fault, hrefused⟩ := write_of_closed hclosed time v
    rw [hrefused] at hwrite
    cases hwrite
    rfl
  · exact (h.tallies hroom).eq_of_write_error hopen hcleared ht hroom hwrite

variable [Snappy.Library]

theorem tallied_write (ht : timeCodec.dataType = .int64) (h : Tallied config compressor timeCodec valueCodec s)
    (time : Int64) (v : Value) : Tallied config compressor timeCodec valueCodec (s.step (.write time v)) := by
  rcases h.current with hclosed | ⟨hopen, hcleared⟩
  · obtain ⟨fault, hrefused⟩ := write_of_closed hclosed time v
    simp only [step, hrefused]
    exact h
  rcases hwrite : PageWriter.write time v s.writer with ⟨_, w⟩ | ⟨e, w⟩
  · obtain ⟨hopen', hcleared'⟩ := open_of_write hopen (.inl hwrite)
    simp only [step, hwrite]
    refine ⟨.inr ⟨hopen', hcleared'.trans hcleared⟩, ?_⟩
    intro hroom
    rw [List.length_append, List.length_singleton] at hroom ⊢
    exact (h.tallies hroom.of_succ).write hopen hcleared ht hroom.of_succ hwrite
  · obtain ⟨hopen', hcleared'⟩ := open_of_write hopen (.inr ⟨e, hwrite⟩)
    simp only [step, hwrite]
    refine ⟨.inr ⟨hopen', hcleared'.trans hcleared⟩, ?_⟩
    intro hroom
    rw [h.eq_of_write_error ht hroom hwrite]
    exact h.tallies hroom

theorem tallied_flush (h : Tallied config compressor timeCodec valueCodec s) :
    Tallied config compressor timeCodec valueCodec (s.step .flush) := by
  rcases h.current with hclosed | ⟨hopen, hcleared⟩
  · simp only [step, flush_of_closed hclosed]
    exact h
  obtain ⟨-, hvalueCodec, htype⟩ := codecs_of_cleared hcleared
  have hcolumn : s.writer.values.dataType = s.writer.statistics.dataType :=
    (congrArg Codec.dataType hvalueCodec).trans htype.symm
  rcases flush_cases hopen hcolumn with ⟨page, hflush⟩ | ⟨e, hflush⟩
  · simp only [step, hflush]
    refine ⟨.inr ⟨?_, ?_⟩, fun _ => tallies_cleared _⟩
    · rw [hcleared]
      exact open_fresh
    · rw [hcleared]
      exact cleared_fresh
  · simp only [step, hflush]
    exact ⟨.inl (closed_closed _), fun hroom => (h.tallies hroom).closed⟩

theorem tallied_step (ht : timeCodec.dataType = .int64) (h : Tallied config compressor timeCodec valueCodec s)
    (call : Call) : Tallied config compressor timeCodec valueCodec (s.step call) := by
  cases call with
  | write time v => exact tallied_write ht h time v
  | flush => exact tallied_flush h

theorem tallied_foldl (ht : timeCodec.dataType = .int64) (h : Tallied config compressor timeCodec valueCodec s)
    (calls : List Call) : Tallied config compressor timeCodec valueCodec (calls.foldl step s) := by
  induction calls generalizing s with
  | nil => exact h
  | cons call calls ih => exact ih (tallied_step ht h call)

theorem tallied_run (ht : timeCodec.dataType = .int64) (calls : List Call) :
    Tallied config compressor timeCodec valueCodec (run (fresh config compressor timeCodec valueCodec) calls) :=
  tallied_foldl ht tallied_start calls

/-- A write that fails without a change can be struck out of the calls. -/
theorem run_of_write_error {first : PageWriter} {calls : List Call} {time : Int64} {v : Value} {e : Halt}
    (hwrite : PageWriter.write time v (run first calls).writer = .error e (run first calls).writer)
    (later : List Call) :
    run first (calls ++ .write time v :: later) = run first (calls ++ later) := by
  have hstep : (run first calls).step (.write time v) = run first calls := by
    simp only [step, hwrite]
  unfold run at hstep ⊢
  rw [List.foldl_append, List.foldl_cons, hstep, List.foldl_append]

end Session

open Session (run Tallied tallied_run run_of_write_error)

/-- Whatever was called on a writer: a write that fails leaves the statistics as they are, and
    as long as nothing is full it leaves everything as it is, so that whatever is called later
    does the same without it, and both streams have as many values as points are counted. -/
theorem failed_write_leaves_no_trace [Snappy.Library] {t : DataType} {valueName compressorName : String}
    {config : Config} {first : PageWriter} (hnew : PageWriter.new t valueName compressorName config = .ok first)
    (calls : List Call) {time : Int64} {v : Value} {e : Halt} {w : PageWriter}
    (hwrite : PageWriter.write time v (run first calls).writer = .error e w) :
    w.statistics = (run first calls).writer.statistics ∧
      (Room first.times.codec first.values.codec (run first calls).points.length →
        w = (run first calls).writer ∧
          (∀ later, run first (calls ++ .write time v :: later) = run first (calls ++ later)) ∧
          w.pointCount = (run first calls).points.length ∧ w.times.count = w.pointCount ∧
          w.values.count = w.pointCount) := by
  refine ⟨statistics_of_write_error hwrite, ?_⟩
  obtain ⟨compressor, timeCodec, valueCodec, htimes, rfl⟩ := exists_fresh_of_new hnew
  intro hroom
  obtain ⟨htimeCodec, hvalueCodec, -⟩ :=
    codecs_of_cleared (w := fresh config compressor timeCodec valueCodec) cleared_fresh
  rw [htimeCodec, hvalueCodec] at hroom
  have htallied : Tallied config compressor timeCodec valueCodec (run _ calls) := tallied_run htimes calls
  have hsame := htallied.eq_of_write_error htimes hroom hwrite
  obtain ⟨htimesTally, hvaluesTally, hcounts⟩ := htallied.tallies hroom
  subst hsame
  refine ⟨rfl, run_of_write_error hwrite, ?_, ?_, ?_⟩
  · exact hcounts.count_eq
  · exact htimesTally.count.trans hcounts.count_eq.symm
  · exact hvaluesTally.count.trans hcounts.count_eq.symm

/-- Under a scale a NaN is refused. It leaves nothing on the page. -/
theorem failed_write_leaves_no_trace_scaled :
    ∃ first e, PageWriter.new .double "TS_2DIFF" "UNCOMPRESSED" { scale? := some ⟨0x4024000000000000⟩ } = .ok first ∧
      PageWriter.write 6 (.double ⟨0x7FF8000000000000⟩) (run first [.write 5 (.double ⟨0x3FF0000000000000⟩)]).writer =
        .error e (run first [.write 5 (.double ⟨0x3FF0000000000000⟩)]).writer ∧
      run first [.write 5 (.double ⟨0x3FF0000000000000⟩), .write 6 (.double ⟨0x7FF8000000000000⟩), .flush] =
        run first [.write 5 (.double ⟨0x3FF0000000000000⟩), .flush] := by
  have hnew : PageWriter.new .double "TS_2DIFF" "UNCOMPRESSED" { scale? := some ⟨0x4024000000000000⟩ } =
      .ok (fresh { scale? := some ⟨0x4024000000000000⟩ } .uncompressed (.delta .int64) (.delta .double)) := by
    rfl
  obtain ⟨first, hfirst⟩ : ∃ first, first =
    fresh { scale? := some ⟨0x4024000000000000⟩ } .uncompressed (.delta .int64) (.delta .double) := ⟨_, rfl⟩
  have hrefused : (PageWriter.write 6 (.double ⟨0x7FF8000000000000⟩)
      (run first [.write 5 (.double ⟨0x3FF0000000000000⟩)]).writer matches .error _ _) = true := by
    rw [hfirst]
    decide +kernel
  have hpoints : (run first [.write 5 (.double ⟨0x3FF0000000000000⟩)]).points.length = 1 := by
    rw [hfirst]
    decide +kernel
  rw [← hfirst] at hnew
  rcases hwrite : PageWriter.write 6 (.double ⟨0x7FF8000000000000⟩)
      (run first [.write 5 (.double ⟨0x3FF0000000000000⟩)]).writer with ⟨_, w⟩ | ⟨e, w⟩
  · rw [hwrite] at hrefused
    cases hrefused
  obtain ⟨-, hsame⟩ := failed_write_leaves_no_trace hnew _ hwrite
  rw [hpoints] at hsame
  obtain ⟨rfl, hstruck, -⟩ := hsame ⟨by decide, fun _ => by decide, fun _ _ => by decide⟩
  exact ⟨first, e, hnew, hwrite, hstruck [.flush]⟩

/-! ## A full time stream -/

namespace PageWriter

variable {w w' : PageWriter} {points : List (Int64 × Value)} {config : Config} {compressor : Compressor}
  {valueCodec : Codec} {v : Value}

/-- Each encoder has been given its part of the points. -/
theorem foldlM_encode_of_writes (h : writes points w = .ok () w') :
    (points.map Prod.snd).foldlM Encoder.encode w.values = .ok w'.values ∧
      (points.map fun p => Value.int64 p.1).foldlM Encoder.encode w.times = .ok w'.times := by
  induction points generalizing w with
  | nil =>
    cases h
    exact ⟨rfl, rfl⟩
  | cons p points ih =>
    obtain ⟨_, next, hwrite, h⟩ := ok_of_bind h
    obtain ⟨hvalue, htime⟩ := encodes_of_write hwrite
    obtain ⟨hvalues, htimes⟩ := ih h
    rw [List.map_cons, List.map_cons, List.foldlM_cons, List.foldlM_cons, hvalue, htime]
    exact ⟨hvalues, htimes⟩

/-- When the time stream has all the timestamps that it can count, one more is refused. Its
    value has been written by then, and stays behind the values of the points. -/
theorem exists_stray (compressor : Compressor) (hc : config.Exact) (hvalueCodec : valueCodec.encoding ≠ .gorilla .v1)
    (hp : ∀ p ∈ points, p.2.dataType = valueCodec.dataType) (hn : points.length = Gorilla.maxCount)
    (hv : v.dataType = valueCodec.dataType) (time : Int64) :
    ∃ w values, writes points (fresh config compressor (.gorilla .v1 .int64) valueCodec) = .ok () w ∧
      w.Holds points ∧ w.times.codec = .gorilla .v1 .int64 ∧ w.values.codec = valueCodec ∧
      write time v w = .error (.failed (.overflow .valueCount)) { w with values := values } ∧
      values.flushed = false ∧ values.codec = valueCodec ∧ values.count = points.length + 1 ∧
      (∀ u ∈ points.map Prod.snd ++ [v], u.dataType = valueCodec.dataType) ∧
      valueCodec.Written (points.map Prod.snd ++ [v]) values.state.flush.1 := by
  have hlt : points.length < 2 ^ 32 := by
    rw [hn]
    decide
  obtain ⟨w, hwrites, htimeCodec, hcodec, hholds⟩ :
      ∃ w, writes points (fresh config compressor (.gorilla .v1 .int64) valueCodec) = .ok () w ∧
        w.times.codec = .gorilla .v1 .int64 ∧ w.values.codec = valueCodec ∧ w.Holds points :=
    exists_writes hc rfl hp hlt
  obtain ⟨hvaluesFold, htimesFold⟩ := foldlM_encode_of_writes hwrites
  have hempty : (fresh config compressor (.gorilla .v1 .int64) valueCodec).times.Tallies 0 := ⟨rfl, fun _ => rfl⟩
  have hfull : w.times.Tallies Gorilla.maxCount := by
    rw [← hn, ← Nat.zero_add points.length, ← List.length_map (f := fun p : Int64 × Value => Value.int64 p.1)]
    exact Encoder.tallies_of_foldlM hempty htimesFold
  have hcounts : valueCodec.Counts (points.map Prod.snd ++ [v]).length := by
    intro version hversion
    cases version with
    | v1 => exact absurd hversion hvalueCodec
    | v2 =>
      rw [List.length_append, List.length_map, hn]
      show Gorilla.maxCount + 1 < 2 ^ 64
      decide
  have htypes : ∀ u ∈ points.map Prod.snd ++ [v], u.dataType = valueCodec.dataType := by
    intro u hu
    rcases List.mem_append.1 hu with hu | hu
    · obtain ⟨p, hm, rfl⟩ := List.mem_map.1 hu
      exact hp p hm
    · obtain rfl := List.mem_singleton.1 hu
      exact hv
  obtain ⟨values, htaken, hopen, hvalues, hcount, hwritten⟩ := Encoder.exists_encode hc hvaluesFold htypes hcounts
  rw [List.length_map] at hcount
  have htype : v.dataType = w.statistics.dataType := by
    rw [hv, ← hcodec, hholds.counts.1]
    rfl
  refine ⟨w, values, hwrites, hholds, htimeCodec, hcodec, ?_, hopen, hvalues, hcount, htypes, hwritten⟩
  rw [write_eq, if_neg (not_not_intro htype), htaken, hfull.encode_of_full hholds.opened.1 htimeCodec rfl]

/-- Without compression a page is always cut. -/
theorem exists_page [Snappy.Library] (ho : w.Open) (hcolumn : w.values.dataType = w.statistics.dataType)
    (hc : w.compressor = .uncompressed) : ∃ page, flush w = .ok page w.cleared := by
  rw [flush_of_open ho hcolumn, hc]
  exact ⟨_, rfl⟩

/-- A page of PLAIN values cannot be read if there are more or fewer of them than it counts. -/
theorem readAll_ne_ok_of_flush [Snappy.Library] (hl : Snappy.Library.Lossless) (ho : w.Open)
    (htimes : w.times.dataType = .int64) {t : DataType} (hvalues : w.values.codec = .plain t)
    (hcolumn : w.values.dataType = w.statistics.dataType) {values : List Value}
    (hreads : Decoder.Reads (.plain t) w.values.state.flush.1 values) (hcount : values.length ≠ w.pointCount)
    {page : Page} (hflush : flush w = .ok page w') (points : List (Int64 × Value)) :
    (do (← PageReader.ofPage page).readAll) ≠ .ok points := by
  rw [flush_of_open ho hcolumn] at hflush
  rcases hdata : w.compressor.compress (w.times.state.flush.1 ++ w.values.state.flush.1) with e | data
  · rw [hdata] at hflush
    cases hflush
  rw [hdata] at hflush
  cases hflush
  rw [Page.ofPage_ofStreams hl hdata htimes, hvalues]
  intro h
  obtain ⟨hlength, -, last, -, hrun, -, hbytes⟩ := PageReader.readAll_eq_ok_iff.1 h
  -- A PLAIN decoder holds nothing, so the values of the points are all that the stream has.
  have hall := Decoder.drainAll_of_run hrun (Decoder.not_hasNext_of_run_plain hrun hbytes)
  obtain ⟨_, hdrain, -⟩ := hreads.drainAll_eq
  rw [hall] at hdrain
  injection hdrain with hitems
  apply hcount
  rw [← hitems, List.length_map, hlength]
  rfl

end PageWriter

namespace Session

variable [Snappy.Library]

/-- Points that a writer takes are accepted one after another. -/
theorem foldl_step_of_writes {points : List (Int64 × Value)} {s : Session} {w : PageWriter}
    (h : writes points s.writer = .ok () w) :
    (points.map fun p => Call.write p.1 p.2).foldl step s = { s with writer := w, points := s.points ++ points } := by
  induction points generalizing s with
  | nil =>
    cases h
    simp
  | cons p points ih =>
    obtain ⟨_, next, hwrite, h⟩ := ok_of_bind h
    have hstep : s.step (.write p.1 p.2) = { s with writer := next, points := s.points ++ [(p.1, p.2)] } := by
      simp only [step, hwrite]
    rw [List.map_cons, List.foldl_cons, hstep, ih h]
    simp

variable {config : Config} {first : PageWriter} {t : DataType} {points : List (Int64 × Value)} {v : Value}

/-- Behind points that fill the time stream, a refused one makes the page that is cut next one
    that cannot be read. -/
theorem exists_broken_page (hl : Snappy.Library.Lossless) (hc : config.Exact)
    (hfirst : first = fresh config .uncompressed (.gorilla .v1 .int64) (.plain t)) (ht : t ≠ .text)
    (hp : ∀ p ∈ points, p.2.dataType = t) (hn : points.length = Gorilla.maxCount) (hv : v.dataType = t)
    (time : Int64) :
    ∃ (page other : Page) (w : PageWriter),
      PageWriter.write time v (run first (points.map fun p => Call.write p.1 p.2)).writer =
        .error (.failed (.overflow .valueCount)) w ∧
      w.pointCount = points.length ∧ w.values.count = points.length + 1 ∧
      (run first ((points.map fun p => Call.write p.1 p.2) ++ [Call.flush])).pages = [(page, points)] ∧
      (do (← PageReader.ofPage page).readAll) = .ok points ∧
      (run first ((points.map fun p => Call.write p.1 p.2) ++ [Call.write time v, Call.flush])).pages = [(other, points)] ∧
      ∀ read, (do (← PageReader.ofPage other).readAll) ≠ .ok read := by
  subst hfirst
  have hvalueCodec : (Codec.plain t).encoding ≠ .gorilla .v1 := nofun
  obtain ⟨w, values, hwrites, hholds, htimes, hvalues, hrefused, hopen, hcodec, hcount, htypes, hwritten⟩ :=
    exists_stray .uncompressed hc hvalueCodec hp hn hv time
  have hrun : run (fresh config .uncompressed (.gorilla .v1 .int64) (.plain t)) (points.map fun p => Call.write p.1 p.2) =
      { writer := w, points := points } := foldl_step_of_writes hwrites
  have hcounted : w.pointCount = points.length := hholds.counts.count_eq
  have hcompressor : w.compressor = .uncompressed := by
    obtain ⟨-, hcleared, -⟩ := open_of_writes open_fresh hwrites
    exact congrArg PageWriter.compressor hcleared
  have hcolumn : w.values.dataType = w.statistics.dataType := hholds.counts.1.symm
  have hother : Encoder.dataType values = w.statistics.dataType := by
    rw [← hcolumn, Encoder.dataType, Encoder.dataType, hcodec, hvalues]
  obtain ⟨page, hpage⟩ := exists_page hholds.opened hcolumn hcompressor
  obtain ⟨other, hstray⟩ :=
    exists_page (w := { w with values := values }) ⟨hholds.opened.1, hopen⟩ hother hcompressor
  have hlt : points.length < 2 ^ 32 := by
    rw [hn]
    decide
  have hbody : w.values.dataType = .text → page.header.bodyLength < 2 ^ 64 := by
    intro htext
    rw [Encoder.dataType, hvalues] at htext
    exact absurd htext ht
  have hsized : ∀ u ∈ points.map Prod.snd ++ [v], u.Sized := by
    intro u hu
    apply Value.sized_of_ne_text
    rw [htypes u hu]
    exact ht
  have hmore : (points.map Prod.snd ++ [v]).length ≠ w.pointCount := by
    rw [hcounted, List.length_append, List.length_map, List.length_singleton]
    omega
  refine ⟨page, other, { w with values := values }, ?_, hcounted, hcount, ?_, ?_, ?_, ?_⟩
  · rw [hrun]
    exact hrefused
  · unfold run at hrun ⊢
    rw [List.foldl_append, hrun]
    simp only [List.foldl, step, hpage, List.nil_append]
  · exact (hholds.page_round_trip hl (congrArg Codec.dataType htimes) hlt hpage hbody).2.1
  · unfold run at hrun ⊢
    rw [List.foldl_append, hrun]
    simp only [List.foldl, step, hrefused, hstray, List.nil_append]
  · exact readAll_ne_ok_of_flush (w := { w with values := values }) hl ⟨hholds.opened.1, hopen⟩
      (congrArg Codec.dataType htimes) hcodec hother (hwritten.reads hsized) hmore hstray

end Session

/-- A page with as many booleans as a GORILLA stream of timestamps can count is read back. If
    one more point is refused before it is cut, it cannot be read. -/
theorem a_refused_timestamp_leaves_its_value :
    ∃ (first : PageWriter) (points : List (Int64 × Value)) (page other : Page) (w : PageWriter),
      PageWriter.new .boolean "PLAIN" "UNCOMPRESSED" { timeEncoding := "GORILLA" } = .ok first ∧
      points = List.replicate (2 ^ 32 - 1) (0, .boolean true) ∧
      PageWriter.write 0 (.boolean true) (run first (points.map fun p => Call.write p.1 p.2)).writer =
        .error (.failed (.overflow .valueCount)) w ∧
      w.pointCount = 2 ^ 32 - 1 ∧ w.values.count = 2 ^ 32 ∧
      (run first ((points.map fun p => Call.write p.1 p.2) ++ [Call.flush])).pages = [(page, points)] ∧
      (do (← PageReader.ofPage page).readAll) = .ok points ∧
      (run first ((points.map fun p => Call.write p.1 p.2) ++ [Call.write 0 (.boolean true), Call.flush])).pages =
        [(other, points)] ∧
      ∀ read, (do (← PageReader.ofPage other).readAll) ≠ .ok read := by
  have hnew : PageWriter.new .boolean "PLAIN" "UNCOMPRESSED" { timeEncoding := "GORILLA" } =
      .ok (fresh { timeEncoding := "GORILLA" } .uncompressed (.gorilla .v1 .int64) (.plain .boolean)) := by
    rfl
  have hexact : ({ timeEncoding := "GORILLA" } : Config).Exact := ⟨by decide, by decide, rfl⟩
  obtain ⟨points, hpoints⟩ : ∃ points : List (Int64 × Value),
    points = List.replicate (2 ^ 32 - 1) (0, .boolean true) := ⟨_, rfl⟩
  have hn : points.length = Gorilla.maxCount := by
    rw [hpoints, List.length_replicate]
    rfl
  have htypes : ∀ p ∈ points, p.2.dataType = .boolean := by
    intro p hp
    rw [hpoints] at hp
    rw [List.eq_of_mem_replicate hp]
    rfl
  obtain ⟨page, other, w, hrefused, hcounted, hcount, hpages⟩ :=
    Session.exists_broken_page Snappy.Library.lossless hexact rfl (by decide) htypes hn
      (rfl : (Value.boolean true).dataType = .boolean) 0
  rw [hn] at hcounted hcount
  exact ⟨_, points, page, other, w, hnew, hpoints, hrefused, hcounted, hcount, hpages⟩

end Chronicle
