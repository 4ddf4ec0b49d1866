/-
  Chronicle.Proofs.Stream.FixedPoint — floating-point numbers as whole numbers at a scale.

  Under a scale TS_2DIFF writes of each number only what it is times the scale, rounded (`Quantizes`), as a
  word of 64 bits, also where the numbers themselves have 32. So numbers are not read back as they were,
  and what is read back has to be said: the stream says the scale, and a decoder that knows nothing but the
  type finds the same scale and the same whole numbers, so that all it does to them is to divide
  (`fixed_point_round_trip`).

  Whole numbers at a scale are signed numbers of 64 bits (`Quantizes.signedOf_patternOf`), and differences
  of them may not be. These are only right modulo the word size, which is enough.
-/

import Chronicle.Proofs.Stream.RoundTrip

namespace Chronicle

open Ieee Reading

namespace Delta

/-- The whole number that a floating-point value is at a scale. -/
inductive Quantizes (scale : Binary64) : Value → Int → Prop
  | float {x : Binary32} {n : Int} : quantize x.widen scale = .ok n → Quantizes scale (.float x) n
  | double {x : Binary64} {n : Int} : quantize x scale = .ok n → Quantizes scale (.double x) n

/-- The value of a type that a whole number is at a scale. -/
def restore (t : NumberType) (scale : Binary64) (n : Int) : Value :=
  match t with
  | .float => .float (dequantize n scale).narrow
  | _ => .double (dequantize n scale)

variable {t : NumberType} {scale : Binary64} {v : Value} {n : Int}

theorem bounds_of_quantize {x : Binary64} (h : quantize x scale = .ok n) : -2 ^ 63 ≤ n ∧ n < 2 ^ 63 := by
  unfold quantize at h
  split at h
  · split at h
    · next hbounds =>
      cases h
      exact hbounds
    · cases h
  · cases h

/-- Whole numbers at a scale are signed numbers of 64 bits. -/
theorem Quantizes.signedOf_patternOf (h : Quantizes scale v n) : signedOf 64 (patternOf 64 n) = n := by
  have hbounds : -2 ^ 63 ≤ n ∧ n < 2 ^ 63 := by
    cases h with
    | float h => exact bounds_of_quantize h
    | double h => exact bounds_of_quantize h
  have hleast : leastSigned 64 = -2 ^ 63 := rfl
  exact Chronicle.signedOf_patternOf (by omega) (by omega)

/-- What the encoder makes of the bit pattern of a value is the pattern of its whole number. -/
theorem Quantizes.exists_toWord (h : Quantizes scale v n) (ht : v.dataType = .fixed (.number t)) :
    ∃ bits, v.requireBits (.fixed (.number t)) = .ok bits ∧
      toWord t (.fixedPoint scale) bits = .ok (patternOf 64 n) := by
  cases h with
  | @float x n h =>
    cases ht
    refine ⟨x.bits.toNat, rfl, ?_⟩
    simp only [toWord, UInt32.ofNat_toNat, h]
    rfl
  | @double x n h =>
    cases ht
    refine ⟨x.bits.toNat, rfl, ?_⟩
    simp only [toWord, UInt64.ofNat_toNat, h]
    rfl

/-- What the decoder makes of that pattern is the whole number divided by the scale. -/
theorem Quantizes.ofWord (h : Quantizes scale v n) (hm : hasMode t = true) :
    Delta.ofWord t (.fixedPoint scale) (patternOf 64 n) = restore t scale n := by
  cases t with
  | int32 => cases hm
  | int64 => cases hm
  | float =>
    rw [Delta.ofWord, h.signedOf_patternOf]
    rfl
  | double =>
    rw [Delta.ofWord, h.signedOf_patternOf]
    rfl

theorem Domain.of_some (hm : hasMode t = true) (scale : Binary64) : Domain.of t (some scale) = .fixedPoint scale := by
  cases t with
  | int32 => cases hm
  | int64 => cases hm
  | float => rfl
  | double => rfl

end Delta

open Delta

variable {t : NumberType} {scale : Binary64} {values : List Value} {quanta : List Int}

namespace EncoderState

/-- An encoder with a scale takes the whole numbers of its values. -/
theorem foldlM_push_quanta {e : Delta.Encoder} (he : e.reset = { dataType := t, domain := .fixedPoint scale })
    (hv : ∀ v ∈ values, v.dataType = .fixed (.number t)) (hq : List.Forall₂ (Quantizes scale) values quanta) :
    values.foldlM push (delta e) = .ok (delta ((quanta.map (patternOf 64)).foldl Delta.Encoder.add e)) := by
  induction hq generalizing e with
  | nil => rfl
  | @cons v n values quanta hquantum _ ih =>
    obtain ⟨ht, hv⟩ := List.forall_mem_cons.1 hv
    obtain ⟨bits, hbits, hword⟩ := hquantum.exists_toWord ht
    have hpush : (delta e).push v = .ok (delta (e.add (patternOf 64 n))) := by
      have htype : e.dataType = t := congrArg Delta.Encoder.dataType he
      have hdomain : e.domain = .fixedPoint scale := congrArg Delta.Encoder.domain he
      rw [push, htype, hbits]
      show (do return delta (← e.push bits) : Except CodecError EncoderState) = _
      rw [Delta.Encoder.push, htype, hdomain, hword]
      rfl
    rw [List.foldlM_cons, hpush]
    exact ih ((Delta.Encoder.reset_add e _).trans he) hv

theorem writes_quanta (hm : hasMode t = true) (hv : ∀ v ∈ values, v.dataType = .fixed (.number t))
    (hq : List.Forall₂ (Quantizes scale) values quanta) :
    (delta { dataType := t, domain := .of t (some scale) }).Writes values
      (Delta.payload t (.fixedPoint scale) (quanta.map (patternOf 64))) := by
  rw [Delta.Domain.of_some hm]
  exact ⟨_, foldlM_push_quanta rfl hv hq, Delta.Encoder.flush_foldl_add t (.fixedPoint scale) _⟩

end EncoderState

/-- Every whole number is found again in its pattern. -/
theorem map_signedOf_quanta (hq : List.Forall₂ (Quantizes scale) values quanta) :
    (quanta.map (patternOf 64)).map (signedOf 64) = quanta := by
  induction hq with
  | nil => rfl
  | cons hquantum _ ih => rw [List.map_cons, List.map_cons, hquantum.signedOf_patternOf, ih]

theorem map_ofWord_quanta (hm : hasMode t = true) (hq : List.Forall₂ (Quantizes scale) values quanta) :
    (quanta.map (patternOf 64)).map (Delta.ofWord t (.fixedPoint scale)) = quanta.map (restore t scale) := by
  induction hq with
  | nil => rfl
  | cons hquantum _ ih => rw [List.map_cons, List.map_cons, List.map_cons, hquantum.ofWord hm, ih]

/-- Of floating-point values that are whole numbers `quanta` at a scale, a new decoder reads back
    these numbers, each divided by the scale and in the type of the values, and comes to the end
    of the payload. Before it divides, the words that it finds are exactly the numbers, and the
    scale that it finds is exactly the one of the encoder. -/
theorem fixed_point_round_trip (hm : hasMode t = true) (hs : isScale scale = true)
    (hv : ∀ v ∈ values, v.dataType = .fixed (.number t)) (hq : List.Forall₂ (Quantizes scale) values quanta) :
    ∃ payload, (EncoderState.delta { dataType := t, domain := .of t (some scale) }).payload values = .ok payload ∧
      (∃ d, (Decoder.ofCodec (.delta t) payload).drainAll = ⟨quanta.map (restore t scale), .finished, d⟩ ∧
        d.bytes = [] ∧ d.hasNext = false) ∧
      ∃ (words : List Nat) (f : Feed State),
        Run (nextWord t) more ⟨{}, { refill := .onDemand }, payload⟩ (words.map (.fixedPoint scale, ·)) f ∧
          words.map (signedOf 64) = quanta := by
  have hlt : ∀ w ∈ quanta.map (patternOf 64), w < 2 ^ Domain.width t (.fixedPoint scale) := by
    intro w hw
    obtain ⟨n, -, rfl⟩ := List.mem_map.1 hw
    exact patternOf_lt 64 n
  have hspeak : Domain.Speakable t (.fixedPoint scale) := ⟨hm, hs⟩
  obtain ⟨d, hdrain⟩ := (Decoder.reads_delta hspeak hlt).drainAll_eq
  have hr : ({ refill := .onDemand } : BitReader).refill = .onDemand := rfl
  obtain ⟨state, after, -, hrun⟩ := run_words hspeak hlt hr rfl []
  rw [map_ofWord_quanta hm hq] at hdrain
  rw [List.append_nil] at hrun
  exact ⟨_, (EncoderState.writes_quanta hm hv hq).payload_eq, ⟨d, hdrain⟩, _, _, hrun, map_signedOf_quanta hq⟩

/-- The least number of 64 bits and the greatest FLOAT below them, at a scale of one: their
    difference is only right modulo the word size, which is twice that of the type. -/
theorem fixed_point_round_trip_float :
    isScale ⟨0x3FF0000000000000⟩ = true ∧
      List.Forall₂ (Quantizes ⟨0x3FF0000000000000⟩) [.float ⟨0xDF000000⟩, .float ⟨0x5EFFFFFF⟩]
        [-2 ^ 63, 2 ^ 63 - 2 ^ 39] ∧
      ∃ payload, (EncoderState.delta { dataType := .float, domain := .of .float (some ⟨0x3FF0000000000000⟩) }).payload
          [.float ⟨0xDF000000⟩, .float ⟨0x5EFFFFFF⟩] = .ok payload ∧
        (∃ d, (Decoder.ofCodec (.delta .float) payload).drainAll =
            ⟨[.float ⟨0xDF000000⟩, .float ⟨0x5EFFFFFF⟩], .finished, d⟩ ∧ d.bytes = [] ∧ d.hasNext = false) ∧
        ∃ (words : List Nat) (f : Feed State), Run (nextWord .float) more ⟨{}, { refill := .onDemand }, payload⟩
            (words.map (.fixedPoint ⟨0x3FF0000000000000⟩, ·)) f ∧
          words.map (signedOf 64) = [-2 ^ 63, 2 ^ 63 - 2 ^ 39] := by
  have hs : isScale ⟨0x3FF0000000000000⟩ = true := by decide +kernel
  have hq : List.Forall₂ (Quantizes ⟨0x3FF0000000000000⟩) [.float ⟨0xDF000000⟩, .float ⟨0x5EFFFFFF⟩]
      [-2 ^ 63, 2 ^ 63 - 2 ^ 39] :=
    .cons (.float (by decide +kernel)) (.cons (.float (by decide +kernel)) .nil)
  have hrestore : [-2 ^ 63, 2 ^ 63 - 2 ^ 39].map (restore .float ⟨0x3FF0000000000000⟩) =
      [.float ⟨0xDF000000⟩, .float ⟨0x5EFFFFFF⟩] := by
    decide +kernel
  obtain ⟨payload, hpayload, hdrain, hwords⟩ := fixed_point_round_trip (t := .float) rfl hs (by decide) hq
  rw [hrestore] at hdrain
  exact ⟨hs, hq, payload, hpayload, hdrain, hwords⟩

end Chronicle
