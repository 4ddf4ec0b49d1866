/-
  Chronicle.Proofs.Stream.Codec — what can be relied on of any codec.

  The encodings have been treated one by one; from here on they are one.
  - A fresh encoder takes all values of its type, as many as it can count (`Codec.Counts`), and what it
    flushes is read back and not too long (`exists_written`). `Codec.Written` is all that is known of it.
  - Whatever an encoder is given, a reset and a flush bring back the same fresh one (`reset_push`,
    `reset_flush`), so a payload depends on the values of its own stream only.
  - What the state of an encoding refuses, the encoder refuses (`encode_of_push_error`); one that takes a
    value was open and for the type of the value, and counts it (`push_of_encode`).

  Options under which every number and every boolean is written bit for bit are `Exact`: no scale where
  there is a choice.
-/

import Chronicle.Proofs.Stream.RoundTrip
import Chronicle.Proofs.Stream.Size

namespace Chronicle

theorem Value.sized_of_ne_text {v : Value} (h : v.dataType ≠ .text) : v.Sized := by
  cases v with
  | text bytes => exact absurd rfl h
  | _ => trivial

namespace Codec

/-- A codec is given exactly for its own type and encoding. -/
theorem require_eq_ok_iff {t : DataType} {e : Encoding} {c : Codec} :
    require t e = .ok c ↔ c.dataType = t ∧ c.encoding = e := by
  rw [← of?_eq_some_iff]
  unfold require
  cases of? t e <;> simp

theorem require_self (c : Codec) : require c.dataType c.encoding = .ok c :=
  require_eq_ok_iff.2 ⟨rfl, rfl⟩

theorem require_of_mem {t : DataType} {e : Encoding} (h : e ∈ t.encodings) :
    ∃ c, require t e = .ok c ∧ c.dataType = t := by
  obtain ⟨c, hc⟩ := Option.isSome_iff_exists.1 (of?_isSome_iff.2 h)
  obtain ⟨rfl, rfl⟩ := of?_eq_some_iff.1 hc
  exact ⟨c, require_self c, rfl⟩

theorem encoding_mem (c : Codec) : c.encoding ∈ c.dataType.encodings := by
  apply of?_isSome_iff.1
  rw [of?_dataType_encoding]
  rfl

end Codec

theorem Decoder.new_of_require {t : DataType} {encoding : Encoding} {c : Codec} (hc : Codec.require t encoding = .ok c)
    (bytes : Bytes) : new t encoding bytes = .ok (ofCodec c bytes) := by
  unfold new
  rw [hc]
  rfl

/-- What is known of the payload of some values. It is read back if the length of each text is
    a number of 64 bits, as it is if the payload has such a length. -/
structure Codec.Written (c : Codec) (values : List Value) (payload : Bytes) : Prop where
  length_le : c.dataType ≠ .text → payload.length ≤ 22 * values.length + 10
  sized : payload.length < 2 ^ 64 → ∀ v ∈ values, v.Sized
  reads : (∀ v ∈ values, v.Sized) → Decoder.Reads c payload values

/-- Whether the codec can write that many values. Only GORILLA says their number. -/
def Codec.Counts (c : Codec) (count : Nat) : Prop :=
  ∀ version, c.encoding = .gorilla version → Gorilla.CountFits version count

theorem Codec.counts_of_lt (c : Codec) {count : Nat} (h : count < 2 ^ 32) : c.Counts count := by
  intro version _
  cases version with
  | v1 => exact Nat.le_of_lt_succ h
  | v2 => exact Nat.lt_trans h (by decide)

namespace Codec

variable {values : List Value}

theorem written_plain {t : DataType} (hv : ∀ v ∈ values, v.dataType = t) :
    (plain t).Written values (values.flatMap Plain.encode) := by
  refine ⟨fun ht => ?_, Plain.sized_of_length_lt, Decoder.reads_plain hv⟩
  have hne : ∀ v ∈ values, v.dataType ≠ .text := by
    intro v hm
    rw [hv v hm]
    exact ht
  have := Plain.length_flatMap_encode_le hne
  omega

/-- Where there are no texts, a bound on the length and a reader are enough. -/
theorem Written.of_fixed {c : Codec} {t : FixedType} {payload : Bytes} (hv : ∀ v ∈ values, v.dataType = .fixed t)
    (hl : payload.length ≤ 22 * values.length + 10) (hr : Decoder.Reads c payload values) :
    c.Written values payload := by
  refine ⟨fun _ => hl, fun _ v hm => ?_, fun _ => hr⟩
  apply Value.sized_of_ne_text
  rw [hv v hm]
  simp

theorem written_runLength {t : FixedType} {cap : Nat} (hpos : 0 < cap) (hcap : cap ≤ RunLength.maxCap)
    {patterns : List Nat} (h : ∀ n ∈ patterns, n < 2 ^ t.width) :
    (runLength t).Written (patterns.map (.ofBits t)) (RunLength.payload t.width cap patterns) := by
  refine .of_fixed (Value.dataType_of_mem_map_ofBits t) ?_ (Decoder.reads_runLength hpos hcap h)
  have := RunLength.length_payload_le t.width_le hpos hcap h
  rw [List.length_map]
  omega

theorem written_delta {t : NumberType} {patterns : List Nat} (h : ∀ n ∈ patterns, n < 2 ^ t.width) :
    (delta t).Written (patterns.map (.ofBits (.number t))) (Delta.payload t .pattern patterns) := by
  refine .of_fixed (Value.dataType_of_mem_map_ofBits _) ?_ (Decoder.reads_pattern h)
  have := Delta.length_payload_le t .pattern patterns
  rw [List.length_map]
  omega

theorem written_gorilla {version : GorillaVersion} {t : NumberType} {patterns : List Nat}
    (hc : Gorilla.CountFits version patterns.length) (h : ∀ n ∈ patterns, n < 2 ^ t.width) :
    (gorilla version t).Written (patterns.map (.ofBits (.number t))) (Gorilla.payload version t.width patterns) := by
  refine .of_fixed (Value.dataType_of_mem_map_ofBits _) ?_ (Decoder.reads_gorilla hc h)
  rw [List.length_map]
  exact Gorilla.length_payload_le (FixedType.width_le (.number t)) hc

end Codec

namespace Config

/-- Options with which every number and every boolean is written bit for bit. -/
structure Exact (config : Config) : Prop where
  cap_pos : 0 < config.maxRunLength
  cap_le : config.maxRunLength ≤ RunLength.maxCap
  scale?_eq : config.scale? = none

theorem cap_pos_of_validate {config : Config} (h : config.validate = .ok ()) : 0 < config.maxRunLength := by
  refine Nat.pos_of_ne_zero fun hzero => ?_
  unfold validate at h
  rw [if_pos hzero] at h
  cases h

theorem exact_of_validate {config : Config} (h : config.validate = .ok ()) (hs : config.scale? = none) :
    config.Exact ∧ ∃ e, Encoding.ofName config.timeEncoding = .ok e := by
  unfold validate at h
  by_cases hzero : config.maxRunLength = 0
  · rw [if_pos hzero] at h
    cases h
  by_cases hmax : RunLength.maxCap < config.maxRunLength
  · rw [if_neg hzero, if_pos hmax] at h
    cases h
  refine ⟨⟨Nat.pos_of_ne_zero hzero, Nat.le_of_not_lt hmax, hs⟩, ?_⟩
  simp only [if_neg hzero, if_neg hmax, hs] at h
  cases he : Encoding.ofName config.timeEncoding with
  | ok e => exact ⟨e, rfl⟩
  | error fault =>
    rw [he] at h
    cases h

end Config

namespace EncoderState

/-! ## Any codec -/

/-- A fresh encoder takes all values of its type. -/
theorem exists_written {config : Config} (hc : config.Exact) (c : Codec) {values : List Value}
    (hv : ∀ v ∈ values, v.dataType = c.dataType) (hn : c.Counts values.length) :
    ∃ s, values.foldlM push (initial config c) = .ok s ∧ c.Written values s.flush.1 := by
  cases c with
  | plain t =>
    obtain ⟨s, hs, hpayload⟩ := writes_plain t values
    refine ⟨s, hs, ?_⟩
    rw [hpayload]
    exact Codec.written_plain hv
  | runLength t =>
    obtain ⟨patterns, hlt, rfl⟩ := Value.exists_patterns hv
    obtain ⟨s, hs, hpayload⟩ := writes_runLength t config.maxRunLength hlt
    refine ⟨s, hs, ?_⟩
    rw [hpayload]
    exact Codec.written_runLength hc.cap_pos hc.cap_le hlt
  | delta t =>
    obtain ⟨patterns, hlt, rfl⟩ := Value.exists_patterns hv
    obtain ⟨s, hs, hpayload⟩ := writes_delta t hlt
    rw [initial, hc.scale?_eq, Delta.Domain.of_none]
    refine ⟨s, hs, ?_⟩
    rw [hpayload]
    exact Codec.written_delta hlt
  | gorilla version t =>
    obtain ⟨patterns, hlt, rfl⟩ := Value.exists_patterns hv
    have hcount := hn version rfl
    rw [List.length_map] at hcount
    obtain ⟨s, hs, hpayload⟩ := writes_gorilla version t hcount hlt
    refine ⟨s, hs, ?_⟩
    rw [hpayload]
    exact Codec.written_gorilla hcount hlt

/-! ## A reset -/

variable {s s' : EncoderState}

@[simp] theorem codec_reset (s : EncoderState) : s.reset.codec = s.codec := by
  cases s <;> rfl

@[simp] theorem reset_reset (s : EncoderState) : s.reset.reset = s.reset := by
  cases s <;> rfl

@[simp] theorem reset_initial (config : Config) (c : Codec) : (initial config c).reset = initial config c := by
  cases c <;> rfl

@[simp] theorem codec_initial (config : Config) (c : Codec) : (initial config c).codec = c := by
  cases c <;> rfl

@[simp] theorem reset_flush (s : EncoderState) : s.flush.2.reset = s.reset := by
  cases s with
  | gorilla e =>
    show gorilla e.flush.2.reset = gorilla e.reset
    unfold Gorilla.Encoder.flush
    split <;> rfl
  | _ => rfl

@[simp] theorem codec_flush (s : EncoderState) : s.flush.2.codec = s.codec := by
  rw [← codec_reset, reset_flush, codec_reset]

/-- A value that is taken in does not change what a reset brings back. -/
theorem reset_push {v : Value} (h : s.push v = .ok s') : s'.reset = s.reset := by
  cases s with
  | plain t out =>
    cases h
    rfl
  | runLength e =>
    obtain ⟨n, -, h⟩ := exists_of_bind_eq_ok h
    cases h
    rfl
  | delta e =>
    obtain ⟨n, -, h⟩ := exists_of_bind_eq_ok h
    obtain ⟨next, hnext, h⟩ := exists_of_bind_eq_ok h
    obtain ⟨word, -, hnext⟩ := exists_of_bind_eq_ok hnext
    cases hnext
    cases h
    exact congrArg delta (Delta.Encoder.reset_add e word)
  | gorilla e =>
    obtain ⟨n, -, h⟩ := exists_of_bind_eq_ok h
    obtain ⟨next, hnext, h⟩ := exists_of_bind_eq_ok h
    cases h
    exact congrArg gorilla (Gorilla.Encoder.reset_push hnext)

theorem codec_push {v : Value} (h : s.push v = .ok s') : s'.codec = s.codec := by
  rw [← codec_reset s', reset_push h, codec_reset]

theorem codec_foldlM_push {values : List Value} (h : values.foldlM push s = .ok s') : s'.codec = s.codec := by
  induction values generalizing s with
  | nil =>
    cases h
    rfl
  | cons v values ih =>
    obtain ⟨next, hpush, h⟩ := exists_of_bind_eq_ok h
    rw [ih h, codec_push hpush]

end EncoderState

namespace Encoder

def payload (t : DataType) (encoding : Encoding) (config : Config) (values : List Value) : Except CodecError Bytes := do
  let e ← values.foldlM encode (← new t encoding config)
  return (← e.flush).1

variable {e e' : Encoder} {v : Value}

/-! ## Encoders that refuse -/

theorem new_of_require {t : DataType} {encoding : Encoding} {config : Config} {c : Codec}
    (hv : config.validate = .ok ()) (hc : Codec.require t encoding = .ok c) :
    new t encoding config = .ok { state := .initial config c } := by
  unfold new
  rw [hv, hc]
  rfl

/-- An encoder that is made has the codec of its pair and no values. -/
theorem initial_of_new {t : DataType} {encoding : Encoding} {config : Config} (h : new t encoding config = .ok e) :
    ∃ c, Codec.require t encoding = .ok c ∧ e = { state := .initial config c } := by
  unfold new at h
  obtain ⟨_, -, h⟩ := exists_of_bind_eq_ok h
  obtain ⟨c, hc, h⟩ := exists_of_bind_eq_ok h
  cases h
  exact ⟨c, hc, rfl⟩

@[simp] theorem codec_reset (e : Encoder) : e.reset.codec = e.codec := by
  simp [reset, codec]

@[simp] theorem reset_reset (e : Encoder) : e.reset.reset = e.reset := by
  simp [reset]

/-- Encoders that a reset brings back to the same have the same codec. -/
theorem codec_eq_of_reset_eq (h : e'.reset = e.reset) : e'.codec = e.codec := by
  rw [← codec_reset e', h, codec_reset]

theorem encode_of_flushed (h : e.flushed = true) (v : Value) : e.encode v = .error .flushed := by
  unfold encode
  rw [h]
  rfl

theorem flush_of_flushed (h : e.flushed = true) : e.flush = .error .flushed := by
  unfold flush
  rw [if_pos h]

theorem flush_of_open (h : e.flushed = false) :
    e.flush = .ok (e.state.flush.1, { e with state := e.state.flush.2, flushed := true }) := by
  unfold flush
  rw [h]
  rfl

theorem encode_of_push {s : EncoderState} (ho : e.flushed = false) (ht : v.dataType = e.dataType)
    (hs : e.state.push v = .ok s) : e.encode v = .ok { e with state := s, count := e.count + 1 } := by
  unfold encode
  simp only [ho, if_neg (not_not_intro ht), hs]
  rfl

theorem encode_of_type_ne (ho : e.flushed = false) (ht : v.dataType ≠ e.dataType) :
    e.encode v = .error (.typeMismatch e.dataType v.dataType) := by
  unfold encode
  simp only [ho, if_pos ht]
  rfl

/-- What the state refuses, the encoder refuses. -/
theorem encode_of_push_error {fault : CodecError} (ho : e.flushed = false) (ht : v.dataType = e.dataType)
    (hs : e.state.push v = .error fault) : e.encode v = .error fault := by
  unfold encode
  simp only [ho, if_neg (not_not_intro ht), hs]
  rfl

/-- An encoder that takes a value is open, is for the type of the value, and counts it. -/
theorem push_of_encode (h : e.encode v = .ok e') :
    e.flushed = false ∧ v.dataType = e.dataType ∧
      ∃ s, e.state.push v = .ok s ∧ e' = { e with state := s, count := e.count + 1 } := by
  unfold encode at h
  by_cases ho : e.flushed = true
  · rw [if_pos ho] at h
    cases h
  by_cases ht : v.dataType = e.dataType
  · simp only [if_neg ho, if_neg (not_not_intro ht)] at h
    obtain ⟨s, hs, h⟩ := exists_of_bind_eq_ok h
    cases h
    exact ⟨by simpa using ho, ht, s, hs, rfl⟩
  · simp only [if_neg ho, if_pos ht] at h
    cases h

/-- An encoder that takes a value stays open, and is still for the same. -/
theorem open_of_encode (h : e.encode v = .ok e') : e'.flushed = false ∧ e'.reset = e.reset := by
  obtain ⟨hopen, -, s, hs, rfl⟩ := push_of_encode h
  refine ⟨hopen, ?_⟩
  simp only [reset, EncoderState.reset_push hs]

/-- An open encoder takes values of its type that its state takes. -/
theorem foldlM_encode_of_push {values : List Value} {s : EncoderState} (ho : e.flushed = false)
    (hv : ∀ v ∈ values, v.dataType = e.dataType) (hs : values.foldlM EncoderState.push e.state = .ok s) :
    values.foldlM encode e = .ok { e with state := s, count := e.count + values.length } := by
  induction values generalizing e with
  | nil =>
    cases hs
    rfl
  | cons v values ih =>
    obtain ⟨next, hpush, hs⟩ := exists_of_bind_eq_ok hs
    obtain ⟨ht, hv⟩ := List.forall_mem_cons.1 hv
    have htype : next.codec.dataType = e.dataType := congrArg Codec.dataType (EncoderState.codec_push hpush)
    rw [List.foldlM_cons, encode_of_push ho ht hpush, List.length_cons, Nat.add_comm values.length, ← Nat.add_assoc]
    exact ih (e := { e with state := next, count := e.count + 1 }) ho (fun u hu => (hv u hu).trans htype.symm) hs

/-- The values of a legal pair have a payload, of which everything is known. -/
theorem exists_payload {t : DataType} {encoding : Encoding} {config : Config} (he : encoding ∈ t.encodings)
    (hvalid : config.validate = .ok ()) (hscale : config.scale? = none) {values : List Value}
    (hv : ∀ v ∈ values, v.dataType = t) (hn : ∀ version, encoding = .gorilla version → Gorilla.CountFits version values.length) :
    ∃ c bytes, Codec.require t encoding = .ok c ∧ payload t encoding config values = .ok bytes ∧
      c.Written values bytes := by
  obtain ⟨c, hc, -⟩ := Codec.require_of_mem he
  obtain ⟨rfl, rfl⟩ := Codec.require_eq_ok_iff.1 hc
  obtain ⟨hexact, -⟩ := Config.exact_of_validate hvalid hscale
  obtain ⟨s, hs, hwritten⟩ := EncoderState.exists_written hexact c hv hn
  refine ⟨c, _, hc, ?_, hwritten⟩
  have htypes : ∀ v ∈ values, v.dataType = dataType { state := .initial config c } := by
    intro v hm
    rw [hv v hm, dataType, codec, EncoderState.codec_initial]
  unfold payload
  rw [new_of_require hvalid hc]
  show (values.foldlM encode _ >>= _) = _
  rw [foldlM_encode_of_push rfl htypes hs]
  rfl

end Encoder

end Chronicle
