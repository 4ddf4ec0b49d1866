/-
  Chronicle.Proofs.Stream.Truncation — what a decoder makes of the beginning of its bytes.

  (1) More bytes (`decoding_is_monotone`). A decoder never looks ahead: the values that it reads from some
  bytes are the first ones of those that it reads when more bytes follow (`Decoder.drainAll_prefix_grow`).
  If it stopped at a fault, and not because the bytes had ended, it stops there whatever follows
  (`Decoder.drainAll_grow_of_failed`). The bytes can be any; no encoder has to have written them.

  (2) Fewer bytes (`truncation_is_noticed`). What a decoder reads from the beginning of a payload it also
  reads from the whole of it, so it is the beginning of the values (`drainAll_of_cut`). It is never all of
  them, as then the whole would have bytes behind its last value; and a fault other than an underflow would
  be met in the whole too. A GORILLA stream says how many values it has, so its decoder does not stop short
  without noticing. The others may: a payload that is cut between two values looks like one of fewer.
-/

import Chronicle.Proofs.Stream.Codec
import Chronicle.Proofs.Stream.Extension

namespace Chronicle

open Reading

/-! ## More bytes -/

namespace Decoder

/-- Reading everything fails only where there was something left to read. -/
theorem exists_run_of_failed {d : Decoder} {fault : CodecError} (h : d.drainAll.ending = .failed fault) :
    ∃ e f, Run next hasNext d d.drainAll.items e ∧ e.hasNext = true ∧ next e = .error fault f := by
  obtain ⟨e, hrun, hend⟩ := drainAll_cases d
  rcases hend with ⟨-, hfinished⟩ | ⟨fault', f, herror, hfailed⟩
  · rw [hfinished] at h
    cases h
  · rw [hfailed] at h
    cases h
    refine ⟨e, f, hrun, ?_, herror⟩
    cases hmore : e.hasNext with
    | true => rfl
    | false =>
      rw [drainAll_of_run hrun hmore] at hfailed
      cases hfailed

/-- The values that are read are the first ones that are read with more bytes behind them. -/
theorem drainAll_prefix_grow (extra : Bytes) (d : Decoder) :
    d.drainAll.items <+: (drainAll (d.grow extra)).items := by
  obtain ⟨e, hrun, -⟩ := drainAll_cases d
  exact prefix_drainAll_of_run (run_grow extra hrun)

/-- A fault that is not a lack of bytes is met whatever follows, behind the same values. -/
theorem drainAll_grow_of_failed (extra : Bytes) {d : Decoder} {fault : CodecError}
    (h : d.drainAll.ending = .failed fault) (hfault : fault ≠ .underflow) :
    (drainAll (d.grow extra)).items = d.drainAll.items ∧
      (drainAll (d.grow extra)).ending = .failed fault := by
  obtain ⟨e, f, hrun, hmore, herror⟩ := exists_run_of_failed h
  exact drainAll_of_failure (run_grow extra hrun) (hasNext_grow extra hmore)
    ((stable_next extra).error herror hfault)

end Decoder

/-- Whatever bytes `p` and `r` are: the values that a new decoder reads from `p` are the first
    ones that it reads from `p ++ r`, and if it stops in `p` at a fault other than that the bytes
    have ended, it reads the same values from `p ++ r` and stops at the same fault. -/
theorem decoding_is_monotone {t : DataType} {encoding : Encoding} (he : encoding ∈ t.encodings) (p r : Bytes) :
    ∃ d e, Decoder.new t encoding p = .ok d ∧ Decoder.new t encoding (p ++ r) = .ok e ∧
      d.drainAll.items <+: e.drainAll.items ∧
      ∀ fault, d.drainAll.ending = .failed fault → fault ≠ .underflow →
        e.drainAll.items = d.drainAll.items ∧ e.drainAll.ending = .failed fault := by
  obtain ⟨c, hc, -⟩ := Codec.require_of_mem he
  refine ⟨_, _, Decoder.new_of_require hc p, Decoder.new_of_require hc (p ++ r), ?_, ?_⟩
  · exact Decoder.drainAll_prefix_grow r (Decoder.ofCodec c p)
  · intro fault hfailed hfault
    exact Decoder.drainAll_grow_of_failed r hfailed hfault

/-- A boolean and then a byte that is none: what follows is not looked at. -/
theorem decoding_is_monotone_boolean :
    ∃ d e, Decoder.new .boolean .plain [1, 7] = .ok d ∧ Decoder.new .boolean .plain ([1, 7] ++ [0]) = .ok e ∧
      d.drainAll.items = [.boolean true] ∧ d.drainAll.ending = .failed (.malformed (.booleanByte 7)) ∧
      e.drainAll.items = [.boolean true] ∧ e.drainAll.ending = .failed (.malformed (.booleanByte 7)) := by
  obtain ⟨d, e, hd, he, -, hfailed⟩ := decoding_is_monotone (show .plain ∈ DataType.boolean.encodings by decide) [1, 7] [0]
  cases hd
  have hitems : (Decoder.ofCodec (.plain .boolean) [1, 7]).drainAll.items = [.boolean true] := by decide
  have hending : (Decoder.ofCodec (.plain .boolean) [1, 7]).drainAll.ending = .failed (.malformed (.booleanByte 7)) := by
    decide
  obtain ⟨hsame, hfault⟩ := hfailed _ hending (by decide)
  exact ⟨_, e, rfl, he, hitems, hending, hsame.trans hitems, hfault⟩

/-! ## Counted streams -/

theorem Codec.eq_gorilla_of_encoding {c : Codec} {version : GorillaVersion} (h : c.encoding = .gorilla version) :
    ∃ t, c = .gorilla version t := by
  cases c <;> cases h
  exact ⟨_, rfl⟩

namespace Decoder

variable {c : Codec} {payload p cut : Bytes} {values : List Value}

/-- A decoder of a counted stream that has not read the count has read nothing. -/
def Untouched (version : GorillaVersion) (t : NumberType) (bytes : Bytes) (d : Decoder) : Prop :=
  ∃ s, d.state = .gorilla version t s ∧ (s = .start → d.bytes = bytes)

theorem untouched_of_next {version : GorillaVersion} {t : NumberType} {bytes : Bytes} {d e : Decoder} {v : Value}
    (h : Untouched version t bytes d) (hn : next d = .ok v e) : Untouched version t bytes e := by
  obtain ⟨s, hs, -⟩ := h
  rcases d with ⟨state, reader, left⟩
  cases hs
  obtain ⟨n, f, hf, hn⟩ := ok_of_bind (m := Feed.within (DecoderState.gorilla version t) s (Gorilla.next version t.width)) hn
  obtain ⟨g, hg, rfl⟩ := Feed.ok_of_within hf
  obtain ⟨u, x, left, window?, -, rfl, -⟩ := Gorilla.next_eq_ok hg
  cases hn
  refine ⟨_, rfl, ?_⟩
  intro hstart
  cases hstart

/-- Where a counted stream has no further value, more bytes do not give it one. -/
theorem hasNext_grow_of_untouched {version : GorillaVersion} {t : NumberType} {d : Decoder} (hp : p ≠ [])
    (h : Untouched version t p d) (hd : d.hasNext = false) (extra : Bytes) : hasNext (d.grow extra) = false := by
  obtain ⟨s, hs, hstart⟩ := h
  rcases d with ⟨state, reader, left⟩
  cases hs
  cases s with
  | start =>
    have hempty : left = [] := by simpa [hasNext, Gorilla.hasNext] using hd
    exact absurd ((hstart rfl).symm.trans hempty) hp
  | counted left => exact hd
  | following left previous window? => exact hd

/-! ## Any stream -/

/-- What is read from the beginning of a payload is the beginning of what is read from all of
    it, and the bytes that follow give the rest. -/
theorem Reads.run_of_cut (h : Reads c payload values) (hp : payload = p ++ cut) {items : List Value} {d : Decoder}
    (hrun : Run next hasNext (ofCodec c p) items d) :
    ∃ rest e, values = items ++ rest ∧ Run next hasNext (d.grow cut) rest e ∧ e.bytes = [] := by
  obtain ⟨e, hall, hbytes, hend⟩ := h []
  rw [List.append_nil, hp] at hall
  obtain ⟨rest, hvalues, hrest⟩ := (run_grow cut hrun).split hall (by simp [hend rfl])
  exact ⟨rest, e, hvalues, hrest, hbytes⟩

/-- If more bytes give a value, it was bytes that were missing. -/
theorem underflow_of_grow {d e f : Decoder} {fault : CodecError} {v : Value} (herror : next d = .error fault e)
    (hnext : next (d.grow cut) = .ok v f) : fault = .underflow := by
  by_contra hfault
  rw [(stable_next cut).error herror hfault] at hnext
  cases hnext

/-- Of a payload that has lost some bytes a decoder reads some of the values, but not all of
    them, and ends as if there were no more or because of the bytes that are missing. -/
theorem Reads.drainAll_of_cut (h : Reads c payload values) (hp : payload = p ++ cut) (hcut : cut ≠ []) :
    (∃ rest, rest ≠ [] ∧ values = (ofCodec c p).drainAll.items ++ rest) ∧
      ((ofCodec c p).drainAll.ending = .finished ∨ (ofCodec c p).drainAll.ending = .failed .underflow) ∧
      ∀ version, c.encoding = .gorilla version → p ≠ [] → (ofCodec c p).drainAll.ending = .failed .underflow := by
  obtain ⟨d, hrun, hend⟩ := drainAll_cases (ofCodec c p)
  obtain ⟨rest, e, hvalues, hrest, hbytes⟩ := h.run_of_cut hp hrun
  have hne : rest ≠ [] := by
    rintro rfl
    cases hrest
    exact hcut (List.append_eq_nil_iff.1 hbytes).2
  obtain ⟨hmore, v, f, hnext⟩ := hrest.first hne
  refine ⟨⟨rest, hne, hvalues⟩, ?_, ?_⟩
  · rcases hend with ⟨-, hfinished⟩ | ⟨fault, g, herror, hfailed⟩
    · exact .inl hfinished
    · rw [underflow_of_grow herror hnext] at hfailed
      exact .inr hfailed
  · intro version hversion hne
    obtain ⟨t, rfl⟩ := Codec.eq_gorilla_of_encoding hversion
    rcases hend with ⟨hdone, -⟩ | ⟨fault, g, herror, hfailed⟩
    · have huntouched : Untouched version t p d := hrun.keeps (fun _ _ _ => untouched_of_next) ⟨.start, rfl, fun _ => rfl⟩
      rw [hasNext_grow_of_untouched hne huntouched hdone] at hmore
      cases hmore
    · rw [underflow_of_grow herror hnext] at hfailed
      exact hfailed

end Decoder

/-- Of the payload of some values, less its last bytes, a decoder reads the first ones of the
    values but never all of them. It ends without a fault or with an underflow, and with an
    underflow if the stream is one that is counted and anything of it is left. -/
theorem truncation_is_noticed {t : DataType} {encoding : Encoding} {config : Config} (he : encoding ∈ t.encodings)
    (hvalid : config.validate = .ok ()) (hscale : config.scale? = none) {values : List Value}
    (hv : ∀ v ∈ values, v.dataType = t) (hsized : ∀ v ∈ values, v.Sized)
    (hcount : ∀ version, encoding = .gorilla version → Gorilla.CountFits version values.length) :
    ∃ payload, Encoder.payload t encoding config values = .ok payload ∧
      ∀ p cut, payload = p ++ cut → cut ≠ [] → ∃ d, Decoder.new t encoding p = .ok d ∧
        (∃ rest, rest ≠ [] ∧ values = d.drainAll.items ++ rest) ∧
        (d.drainAll.ending = .finished ∨ d.drainAll.ending = .failed .underflow) ∧
        ∀ version, encoding = .gorilla version → p ≠ [] → d.drainAll.ending = .failed .underflow := by
  obtain ⟨c, payload, hc, hpayload, hwritten⟩ := Encoder.exists_payload he hvalid hscale hv hcount
  refine ⟨payload, hpayload, ?_⟩
  intro p cut hp hcut
  obtain ⟨hitems, hending, hcounted⟩ := (hwritten.reads hsized).drainAll_of_cut hp hcut
  obtain ⟨-, rfl⟩ := Codec.require_eq_ok_iff.1 hc
  exact ⟨_, Decoder.new_of_require hc p, hitems, hending, hcounted⟩

/-- Two equal numbers, of which the second one is a bit in a byte that is missing. -/
theorem truncation_is_noticed_int32 :
    ∃ payload d, Encoder.payload .int32 (.gorilla .v1) {} [.int32 5, .int32 5] = .ok payload ∧
      payload = [0, 0, 0, 2, 0, 0, 0, 5] ++ [0] ∧
      Decoder.new .int32 (.gorilla .v1) [0, 0, 0, 2, 0, 0, 0, 5] = .ok d ∧
      (∃ rest, rest ≠ [] ∧ [Value.int32 5, .int32 5] = d.drainAll.items ++ rest) ∧
      d.drainAll.ending = .failed .underflow := by
  have hcount (version : GorillaVersion) (_ : Encoding.gorilla .v1 = .gorilla version) :
      Gorilla.CountFits version (List.length [Value.int32 5, .int32 5]) := by
    cases version <;> simp [Gorilla.CountFits, Gorilla.maxCount]
  have hlegal : Encoding.gorilla .v1 ∈ DataType.int32.encodings := by decide
  have hvalid : ({} : Config).validate = .ok () := rfl
  obtain ⟨payload, hpayload, h⟩ := truncation_is_noticed hlegal hvalid rfl (by decide) (by simp [Value.Sized]) hcount
  have hbytes : Encoder.payload .int32 (.gorilla .v1) {} [.int32 5, .int32 5] = .ok ([0, 0, 0, 2, 0, 0, 0, 5] ++ [0]) := by
    decide +kernel
  have hcut := Except.ok.inj (hpayload.symm.trans hbytes)
  obtain ⟨d, hd, hitems, -, hunderflow⟩ := h _ _ hcut (by decide)
  exact ⟨payload, d, hpayload, hcut, hd, hitems, hunderflow .v1 rfl (by decide)⟩

end Chronicle
