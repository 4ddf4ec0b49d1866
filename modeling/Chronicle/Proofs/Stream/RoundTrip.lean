/-
  Chronicle.Proofs.Stream.RoundTrip — a payload gives the values it was made of.

  For each encoding: a fresh encoder that is given some values of its type writes a payload (`Writes`), and a
  fresh decoder reads the values back from it, bit for bit, and comes to its end (`Reads`).
  - PLAIN does so for values of any type (`plain_round_trip`), texts having lengths of 64 bits.
  - RLE does so for any cap, and for any values of fixed width (`runLength_round_trip`).
  - TS_2DIFF does so where the words are bit patterns (`delta_round_trip`). At a scale it cannot; what it
    gives then is in `Chronicle.Proofs.Stream.FixedPoint`.
  - GORILLA does so for as many numbers as it can count, and leaves exactly what follows them
    (`gorilla_round_trip`). It is the only one whose stream says where it ends.

  Each is put together of two halves that meet in the payload: what the encoder has written is known from
  its patterns, and what the decoder reads is known from the payload.
-/

import Chronicle.Proofs.Column.Value
import Chronicle.Proofs.Stream.Capacity
import Chronicle.Proofs.Stream.Delta
import Chronicle.Proofs.Stream.Gorilla
import Chronicle.Stream.Encoder

namespace Chronicle

open Reading

/-! ## Values in -/

namespace EncoderState

def payload (s : EncoderState) (values : List Value) : Except CodecError Bytes :=
  return (← values.foldlM push s).flush.1

variable {patterns : List Nat}

theorem foldlM_push_plain (t : DataType) (out : Array UInt8) (values : List Value) :
    values.foldlM push (plain t out) = .ok (plain t (out ++ values.flatMap Plain.encode)) := by
  induction values generalizing out with
  | nil => simp [pure, Except.pure]
  | cons v values ih =>
    have e : out ++ Plain.encode v ++ values.flatMap Plain.encode = out ++ (v :: values).flatMap Plain.encode := by
      apply Array.toList_inj.1
      simp
    rw [List.foldlM_cons, ← e]
    exact ih (out ++ Plain.encode v)

theorem foldlM_push_runLength {t : FixedType} (cap : Nat) (before : Array Nat) (h : ∀ n ∈ patterns, n < 2 ^ t.width) :
    (patterns.map (.ofBits t)).foldlM push (runLength ⟨t, cap, before⟩) =
      .ok (runLength ⟨t, cap, before ++ patterns⟩) := by
  induction patterns generalizing before with
  | nil => simp [pure, Except.pure]
  | cons n patterns ih =>
    obtain ⟨hn, h⟩ := List.forall_mem_cons.1 h
    have hpush : (runLength ⟨t, cap, before⟩).push (.ofBits t n) = .ok (runLength ⟨t, cap, before.push n⟩) := by
      rw [push, Value.requireBits_ofBits hn]
      rfl
    have e : before.push n ++ patterns = before ++ n :: patterns := by
      apply Array.toList_inj.1
      simp
    rw [List.map_cons, List.foldlM_cons, hpush, ← e]
    exact ih (before.push n) h

theorem foldlM_push_delta {e : Delta.Encoder} {t : NumberType} (he : e.reset = { dataType := t, domain := .pattern })
    (h : ∀ n ∈ patterns, n < 2 ^ t.width) :
    (patterns.map (.ofBits (.number t))).foldlM push (delta e) = .ok (delta (patterns.foldl Delta.Encoder.add e)) := by
  induction patterns generalizing e with
  | nil => rfl
  | cons n patterns ih =>
    obtain ⟨hn, h⟩ := List.forall_mem_cons.1 h
    have hpush : (delta e).push (.ofBits (.number t) n) = .ok (delta (e.add n)) := by
      rw [push, Value.requireBits_ofBits hn]
      have hd : e.domain = .pattern := congrArg Delta.Encoder.domain he
      show (do return delta (← e.push n) : Except CodecError EncoderState) = _
      rw [Delta.Encoder.push, hd]
      rfl
    rw [List.map_cons, List.foldlM_cons, hpush]
    exact ih ((Delta.Encoder.reset_add e n).trans he) h

theorem foldlM_push_gorilla {t : NumberType} (e : Gorilla.Encoder) (h : ∀ n ∈ patterns, n < 2 ^ t.width) :
    (patterns.map (.ofBits (.number t))).foldlM push (gorilla e) =
      (patterns.foldlM Gorilla.Encoder.push e).map gorilla := by
  induction patterns generalizing e with
  | nil => rfl
  | cons n patterns ih =>
    obtain ⟨hn, h⟩ := List.forall_mem_cons.1 h
    have hpush : (gorilla e).push (.ofBits (.number t) n) = (e.push n).map gorilla := by
      rw [push, Value.requireBits_ofBits hn]
      show (do return gorilla (← e.push n) : Except CodecError EncoderState) = _
      cases e.push n <;> rfl
    rw [List.map_cons, List.foldlM_cons, List.foldlM_cons, hpush]
    cases e.push n with
    | error fault => rfl
    | ok next => exact ih next h

/-- An encoder that is given the values flushes the payload. -/
def Writes (s : EncoderState) (values : List Value) (payload : Bytes) : Prop :=
  ∃ s', values.foldlM push s = .ok s' ∧ s'.flush.1 = payload

theorem Writes.payload_eq {s : EncoderState} {values : List Value} {bytes : Bytes} (h : s.Writes values bytes) :
    s.payload values = .ok bytes := by
  obtain ⟨s', hs, rfl⟩ := h
  unfold payload
  rw [hs]
  rfl

theorem writes_plain (t : DataType) (values : List Value) :
    (plain t #[]).Writes values (values.flatMap Plain.encode) := by
  refine ⟨_, foldlM_push_plain t #[] values, ?_⟩
  simp [flush]

theorem writes_runLength (t : FixedType) (cap : Nat) (h : ∀ n ∈ patterns, n < 2 ^ t.width) :
    (runLength { dataType := t, cap := cap }).Writes (patterns.map (.ofBits t))
      (RunLength.payload t.width cap patterns) := by
  refine ⟨_, foldlM_push_runLength cap #[] h, ?_⟩
  simp [flush, RunLength.Encoder.flush]

theorem writes_delta (t : NumberType) (h : ∀ n ∈ patterns, n < 2 ^ t.width) :
    (delta { dataType := t, domain := .pattern }).Writes (patterns.map (.ofBits (.number t)))
      (Delta.payload t .pattern patterns) :=
  ⟨_, foldlM_push_delta rfl h, Delta.Encoder.flush_foldl_add t .pattern patterns⟩

theorem writes_gorilla (version : GorillaVersion) (t : NumberType) (hc : Gorilla.CountFits version patterns.length)
    (h : ∀ n ∈ patterns, n < 2 ^ t.width) :
    (gorilla { version := version, dataType := t }).Writes (patterns.map (.ofBits (.number t)))
      (Gorilla.payload version t.width patterns) := by
  obtain ⟨e, he, hpayload⟩ := Gorilla.Encoder.foldlM_push t hc.accepts
  refine ⟨gorilla e, ?_, hpayload⟩
  rw [foldlM_push_gorilla _ h, he]
  rfl

end EncoderState

/-! ## Values out -/

theorem FixedType.width_lt (t : FixedType) : t.width < 2 ^ 7 := by
  rcases t with _ | (_ | _ | _ | _) <;> decide

namespace Decoder

/-- A fresh decoder reads the values from the payload and leaves the bytes behind it. If there
    are none, it has come to its end. -/
def Reads (c : Codec) (payload : Bytes) (values : List Value) : Prop :=
  ∀ rest, ∃ d, Run next hasNext (ofCodec c (payload ++ rest)) values d ∧ d.bytes = rest ∧
    (rest = [] → d.hasNext = false)

/-- What is read from a payload alone. -/
theorem Reads.drainAll_eq {c : Codec} {payload : Bytes} {values : List Value} (h : Reads c payload values) :
    ∃ d, (ofCodec c payload).drainAll = ⟨values, .finished, d⟩ ∧ d.bytes = [] ∧ d.hasNext = false := by
  obtain ⟨d, hrun, hbytes, hend⟩ := h []
  rw [List.append_nil] at hrun
  exact ⟨d, drainAll_of_run hrun (hend rfl), hbytes, hend rfl⟩

theorem reads_plain {t : DataType} {values : List Value} (ht : ∀ v ∈ values, v.dataType = t)
    (hs : ∀ v ∈ values, v.Sized) : Reads (.plain t) (values.flatMap Plain.encode) values := by
  intro rest
  refine ⟨ofCodec (.plain t) rest, ?_, rfl, ?_⟩
  · induction values with
    | nil => exact .nil _
    | cons v values ih =>
      obtain ⟨hv, ht⟩ := List.forall_mem_cons.1 ht
      obtain ⟨hsized, hs⟩ := List.forall_mem_cons.1 hs
      have hmore : hasNext (ofCodec (.plain t) ((v :: values).flatMap Plain.encode ++ rest)) = true := by
        simp [hasNext, ofCodec, DecoderState.initial, Plain.encode_ne_nil]
      have hpull := Plain.pull_encode_append hsized (values.flatMap Plain.encode ++ rest)
      rw [hv, ← List.append_assoc, ← List.flatMap_cons] at hpull
      have hnext : next (ofCodec (.plain t) ((v :: values).flatMap Plain.encode ++ rest)) =
          .ok v (ofCodec (.plain t) (values.flatMap Plain.encode ++ rest)) :=
        Feed.onBytes_of_eq (f := ofCodec (.plain t) ((v :: values).flatMap Plain.encode ++ rest)) hpull
      exact .cons hmore hnext (ih ht hs)
  · rintro rfl
    rfl

theorem reads_runLength {t : FixedType} {cap : Nat} {patterns : List Nat} (hpos : 0 < cap) (hcap : cap ≤ RunLength.maxCap)
    (h : ∀ n ∈ patterns, n < 2 ^ t.width) :
    Reads (.runLength t) (RunLength.payload t.width cap patterns) (patterns.map (.ofBits t)) := by
  intro rest
  have hr : ({ refill := .onDemand } : BitReader).refill = .onDemand := rfl
  obtain ⟨after, -, hrun⟩ := RunLength.run_payload t.width_lt hpos hcap h hr rest
  refine ⟨⟨.runLength t none, after, rest⟩, ?_, rfl, ?_⟩
  · refine hrun.map (Feed.wrapped (DecoderState.runLength t)) (Value.ofBits t) ?_ ?_
    · intro _ hs
      exact hs
    · intro f n g hn
      exact map_of_eq (Feed.within_of_eq (DecoderState.runLength t) hn)
  · rintro rfl
    rfl

theorem reads_delta {t : NumberType} {d : Delta.Domain} {words : List Nat} (hd : d.Speakable t)
    (h : ∀ w ∈ words, w < 2 ^ d.width t) :
    Reads (.delta t) (Delta.payload t d words) (words.map (Delta.ofWord t d)) := by
  intro rest
  have hr : ({ refill := .onDemand } : BitReader).refill = .onDemand := rfl
  obtain ⟨state, after, hready, hrun⟩ := Delta.run_payload hd h hr rfl rest
  refine ⟨⟨.delta t state, after, rest⟩, ?_, rfl, ?_⟩
  · rw [← List.map_id (words.map _)]
    refine hrun.map (Feed.wrapped (DecoderState.delta t)) id ?_ ?_
    · intro _ hs
      exact hs
    · intro f v g hv
      exact Feed.within_of_eq (DecoderState.delta t) hv
  · rintro rfl
    show (!state.ready.isEmpty || _) = false
    rw [hready]
    rfl

theorem reads_pattern {t : NumberType} {patterns : List Nat} (h : ∀ n ∈ patterns, n < 2 ^ t.width) :
    Reads (.delta t) (Delta.payload t .pattern patterns) (patterns.map (.ofBits (.number t))) := by
  rw [← Delta.ofWord_pattern]
  exact reads_delta (d := .pattern) trivial h

/-- A GORILLA stream says its own length, so what follows it does not matter. -/
theorem run_gorilla {version : GorillaVersion} {t : NumberType} {patterns : List Nat} (hne : patterns ≠ [])
    (hc : Gorilla.CountFits version patterns.length) (h : ∀ n ∈ patterns, n < 2 ^ t.width) (rest : Bytes) :
    ∃ d, Run next hasNext (ofCodec (.gorilla version t) (Gorilla.payload version t.width patterns ++ rest))
        (patterns.map (.ofBits (.number t))) d ∧ d.bytes = rest ∧ d.hasNext = false := by
  have hr : ({ refill := Gorilla.refill version } : BitReader).refill = Gorilla.refill version := rfl
  obtain ⟨last, window?, after, hrun⟩ :=
    Gorilla.run_payload (Gorilla.two_pow_fieldWidth t) t.width_pos hne hc h hr rfl rest
  refine ⟨⟨.gorilla version t (.following 0 last window?), after, rest⟩, ?_, rfl, rfl⟩
  refine hrun.map (Feed.wrapped (DecoderState.gorilla version t)) (Value.ofBits (.number t)) ?_ ?_
  · intro _ hs
    exact hs
  · intro f n g hn
    exact map_of_eq (Feed.within_of_eq (DecoderState.gorilla version t) hn)

theorem reads_gorilla {version : GorillaVersion} {t : NumberType} {patterns : List Nat}
    (hc : Gorilla.CountFits version patterns.length) (h : ∀ n ∈ patterns, n < 2 ^ t.width) :
    Reads (.gorilla version t) (Gorilla.payload version t.width patterns) (patterns.map (.ofBits (.number t))) := by
  intro rest
  by_cases hne : patterns = []
  · subst hne
    refine ⟨_, .nil _, rfl, ?_⟩
    rintro rfl
    rfl
  · obtain ⟨d, hrun, hbytes, hend⟩ := run_gorilla hne hc h rest
    exact ⟨d, hrun, hbytes, fun _ => hend⟩

end Decoder

/-! ## There and back -/

open EncoderState (writes_plain writes_runLength writes_delta writes_gorilla)

/-- PLAIN gives its values back, whatever follows them. The payload is the values one behind the
    other, and a decoder that has it alone comes to its end. Of a text only the length is asked to
    be a number of 64 bits. -/
theorem plain_round_trip (t : DataType) {values : List Value} (hv : ∀ v ∈ values, v.dataType = t)
    (hs : ∀ v ∈ values, v.Sized) :
    ∃ payload, (EncoderState.plain t #[]).payload values = .ok payload ∧
      payload = values.flatMap Plain.encode ∧
      (∃ d, (Decoder.ofCodec (.plain t) payload).drainAll = ⟨values, .finished, d⟩ ∧ d.bytes = [] ∧ d.hasNext = false) ∧
      ∀ rest, ∃ d, Run Decoder.next Decoder.hasNext (Decoder.ofCodec (.plain t) (payload ++ rest)) values d ∧
        d.bytes = rest := by
  have hreads := Decoder.reads_plain hv hs
  refine ⟨_, (writes_plain t values).payload_eq, rfl, hreads.drainAll_eq, ?_⟩
  intro rest
  obtain ⟨d, hrun, hbytes, -⟩ := hreads rest
  exact ⟨d, hrun, hbytes⟩

/-- A text that looks like lengths, and an empty one. -/
theorem plain_round_trip_text :
    ∃ payload, (EncoderState.plain .text #[]).payload [.text [2, 128], .text []] = .ok payload ∧
      payload = [2, 2, 128, 0] ∧
      (∃ d, (Decoder.ofCodec (.plain .text) payload).drainAll = ⟨[.text [2, 128], .text []], .finished, d⟩ ∧
        d.bytes = [] ∧ d.hasNext = false) ∧
      ∃ d, Run Decoder.next Decoder.hasNext (Decoder.ofCodec (.plain .text) (payload ++ [1]))
          [.text [2, 128], .text []] d ∧
        d.bytes = [1] := by
  have hv : ∀ v ∈ [Value.text [2, 128], .text []], v.dataType = .text := by decide
  obtain ⟨payload, hpayload, hbytes, hdrain, hrun⟩ := plain_round_trip .text hv (by simp [Value.Sized])
  have hlayout : [Value.text [2, 128], .text []].flatMap Plain.encode = [2, 2, 128, 0] := by decide +kernel
  exact ⟨payload, hpayload, hbytes.trans hlayout, hdrain, hrun [1]⟩

/-- RLE gives its values back, whatever the cap of its segments. -/
theorem runLength_round_trip (t : FixedType) {cap : Nat} (hpos : 1 ≤ cap) (hcap : cap ≤ 2 ^ 31 - 1)
    {values : List Value} (hv : ∀ v ∈ values, v.dataType = .fixed t) :
    ∃ payload d, (EncoderState.runLength { dataType := t, cap := cap }).payload values = .ok payload ∧
      (Decoder.ofCodec (.runLength t) payload).drainAll = ⟨values, .finished, d⟩ ∧
      d.bytes = [] ∧ d.hasNext = false := by
  obtain ⟨patterns, hlt, rfl⟩ := Value.exists_patterns hv
  obtain ⟨d, hd⟩ := (Decoder.reads_runLength hpos hcap hlt).drainAll_eq
  exact ⟨_, d, (writes_runLength t cap hlt).payload_eq, hd⟩

/-- Two segments of a run and one of literals, as the cap wants it. -/
theorem runLength_round_trip_int32 :
    ∃ payload d, (EncoderState.runLength { dataType := .number .int32, cap := 2 }).payload
        [.int32 7, .int32 7, .int32 7, .int32 (-1)] = .ok payload ∧
      (Decoder.ofCodec (.runLength (.number .int32)) payload).drainAll =
        ⟨[.int32 7, .int32 7, .int32 7, .int32 (-1)], .finished, d⟩ ∧ d.bytes = [] ∧ d.hasNext = false :=
  runLength_round_trip (.number .int32) (by decide) (by decide) (by decide)

/-- TS_2DIFF on bit patterns gives its values back. Of a scale only floating-point numbers
    take notice. -/
theorem delta_round_trip (t : NumberType) {scale? : Option Ieee.Binary64}
    (hs : t = .float ∨ t = .double → scale? = none) {values : List Value}
    (hv : ∀ v ∈ values, v.dataType = .fixed (.number t)) :
    ∃ payload d, (EncoderState.delta { dataType := t, domain := .of t scale? }).payload values = .ok payload ∧
      (Decoder.ofCodec (.delta t) payload).drainAll = ⟨values, .finished, d⟩ ∧ d.bytes = [] ∧ d.hasNext = false := by
  obtain ⟨patterns, hlt, rfl⟩ := Value.exists_patterns hv
  obtain ⟨d, hd⟩ := (Decoder.reads_pattern hlt).drainAll_eq
  rw [Delta.Domain.of_eq_pattern hs]
  exact ⟨_, d, (writes_delta t hlt).payload_eq, hd⟩

/-- The greatest step up and the greatest step down, under a scale that does not count. -/
theorem delta_round_trip_extremes :
    ∃ payload d, (EncoderState.delta { dataType := .int64, domain := .of .int64 (some ⟨0⟩) }).payload
        [.int64 Int64.minValue, .int64 Int64.maxValue, .int64 Int64.minValue] = .ok payload ∧
      (Decoder.ofCodec (.delta .int64) payload).drainAll =
        ⟨[.int64 Int64.minValue, .int64 Int64.maxValue, .int64 Int64.minValue], .finished, d⟩ ∧
      d.bytes = [] ∧ d.hasNext = false :=
  delta_round_trip .int64 (by decide) (by decide)

/-- GORILLA gives its values back and leaves exactly what follows them. A stream without
    values has no bytes. -/
theorem gorilla_round_trip (version : GorillaVersion) (t : NumberType) {values : List Value}
    (hc : Gorilla.CountFits version values.length) (hv : ∀ v ∈ values, v.dataType = .fixed (.number t)) :
    ∃ payload, (EncoderState.gorilla { version := version, dataType := t }).payload values = .ok payload ∧
      (values = [] → payload = []) ∧
      (values ≠ [] → ∀ rest, ∃ d,
        Run Decoder.next Decoder.hasNext (Decoder.ofCodec (.gorilla version t) (payload ++ rest)) values d ∧
          d.bytes = rest ∧ d.hasNext = false) := by
  obtain ⟨patterns, hlt, rfl⟩ := Value.exists_patterns hv
  rw [List.length_map] at hc
  refine ⟨_, (writes_gorilla version t hc hlt).payload_eq, ?_, ?_⟩
  · intro hnil
    rw [List.map_eq_nil_iff.1 hnil]
    rfl
  · intro hne rest
    refine Decoder.run_gorilla ?_ hc hlt rest
    rintro rfl
    exact hne rfl

/-- The first pattern of a stream, one that differs from it in every byte, and a byte behind. -/
theorem gorilla_round_trip_double :
    ∃ payload, (EncoderState.gorilla { version := .v2, dataType := .double }).payload
        [.double ⟨0x3FF0000000000001⟩, .double ⟨0x8000000000000000⟩] = .ok payload ∧
      ∃ d, Run Decoder.next Decoder.hasNext (Decoder.ofCodec (.gorilla .v2 .double) (payload ++ [255]))
          [.double ⟨0x3FF0000000000001⟩, .double ⟨0x8000000000000000⟩] d ∧
        d.bytes = [255] ∧ d.hasNext = false := by
  have hcount : Gorilla.CountFits .v2
      (List.length [Value.double ⟨0x3FF0000000000001⟩, .double ⟨0x8000000000000000⟩]) := (by decide : 2 < 2 ^ 64)
  obtain ⟨payload, hpayload, -, hrun⟩ := gorilla_round_trip .v2 .double hcount (by decide)
  exact ⟨payload, hpayload, hrun (List.cons_ne_nil _ _) [255]⟩

end Chronicle
