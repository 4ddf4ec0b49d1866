/-
  Chronicle.Proofs.Stream.Grammar — which bytes a decoder accepts.

  Nothing is asked of the bytes. What a decoder yields from them is said by a description of the format
  that has no state and no calls:
  - for GORILLA a parser of the whole stream (`gorilla_decoding_is_parsing`),
  - for TS_2DIFF another one (`delta_decoding_is_parsing`),
  - for RLE the segments that the bytes spell, or where they break (`runLength_decoding_is_parsing`).

  The values are said twice, as the values that some patterns stand for and by the bit patterns that they
  have. Each statement says too how reading ends: at the end of the stream, or with one of the faults that
  the format knows, so an error of any other kind does not occur.
-/

import Chronicle.Proofs.Stream.DeltaGrammar
import Chronicle.Proofs.Stream.GorillaGrammar
import Chronicle.Proofs.Stream.RoundTrip

namespace Chronicle

open Reading

namespace Decoder

variable {bytes : Bytes} {patterns : List Nat} {ending : Ending}

/-- What the reading of a codec yields, a decoder of it reads as values. -/
theorem drainAll_of_yields_within {σ α : Type} {m : Reading (Feed σ) α} {more : Feed σ → Bool} {f : Feed σ}
    {items : List α} (wrap : σ → DecoderState) (value : α → Value) (hmore : ∀ g, hasNext (g.wrapped wrap) = more g)
    (hnext : ∀ g : Feed σ, next (g.wrapped wrap) =
      (do return value (← Feed.within wrap g.state m) : Reading Decoder Value) (g.wrapped wrap))
    (h : Yields m more f items ending) :
    (drainAll (f.wrapped wrap)).items = items.map value ∧ (drainAll (f.wrapped wrap)).ending = ending := by
  apply drainAll_of_yields
  refine h.map (Feed.wrapped wrap) value hmore ?_ ?_
  · intro g a g' hok
    exact (hnext g).trans (map_of_eq (Feed.within_of_eq wrap hok))
  · intro g e g' herror
    exact (hnext g).trans (map_of_error (Feed.within_of_error wrap herror))

theorem drainAll_of_yields_gorilla {version : GorillaVersion} {t : NumberType}
    (h : Yields (Gorilla.next version t.width) Gorilla.more ⟨.start, { refill := Gorilla.refill version }, bytes⟩
      patterns ending) :
    (ofCodec (.gorilla version t) bytes).drainAll.items = patterns.map (.ofBits (.number t)) ∧
      (ofCodec (.gorilla version t) bytes).drainAll.ending = ending :=
  drainAll_of_yields_within (.gorilla version t) (.ofBits (.number t)) (fun _ => rfl) (fun _ => rfl) h

theorem drainAll_of_yields_delta {t : NumberType} {values : List Value}
    (h : Yields (Delta.next t) Delta.more ⟨{}, { refill := .onDemand }, bytes⟩ values ending) :
    (ofCodec (.delta t) bytes).drainAll.items = values ∧ (ofCodec (.delta t) bytes).drainAll.ending = ending := by
  let wrap := DecoderState.delta t
  have hnext : ∀ g : Feed Delta.State, next (g.wrapped wrap) =
      (do return id (← Feed.within wrap g.state (Delta.next t)) : Reading Decoder Value) (g.wrapped wrap) := by
    intro g
    exact (congrFun (bind_pure (Feed.within wrap g.state (Delta.next t))) (g.wrapped wrap)).symm
  have hdrain := drainAll_of_yields_within wrap id (fun _ => rfl) hnext h
  rw [List.map_id] at hdrain
  exact hdrain

theorem drainAll_of_yields_runLength {t : FixedType}
    (h : Yields (RunLength.next t.width) RunLength.more ⟨none, { refill := .onDemand }, bytes⟩ patterns ending) :
    (ofCodec (.runLength t) bytes).drainAll.items = patterns.map (.ofBits t) ∧
      (ofCodec (.runLength t) bytes).drainAll.ending = ending :=
  drainAll_of_yields_within (.runLength t) (.ofBits t) (fun _ => rfl) (fun _ => rfl) h

end Decoder

/-- Whatever the bytes are, a new decoder reads the patterns that the parser finds in them, as the
    values that have these patterns, and stops where the parser does: behind as many patterns as the count says, or at the
    first fault in the order of the bytes. -/
theorem gorilla_decoding_is_parsing (version : GorillaVersion) (t : NumberType) (bytes : Bytes) :
    ∃ d, Decoder.new (.fixed (.number t)) (.gorilla version) bytes = .ok d ∧
      d.drainAll.items = (Gorilla.Grammar.parse version t bytes).items.map (.ofBits (.number t)) ∧
      d.drainAll.items.map Value.bits? = (Gorilla.Grammar.parse version t bytes).items.map some ∧
      d.drainAll.ending = (Gorilla.Grammar.parse version t bytes).ending ∧
      (bytes = [] ∧ d.drainAll.items = [] ∧ d.drainAll.ending = .finished ∨
        (d.drainAll.ending = .finished ∧
          ∃ rest, Gorilla.Grammar.count version bytes = .ok (d.drainAll.items.length, rest)) ∨
        ∃ e, Gorilla.Grammar.Fault t e ∧ d.drainAll.ending = .failed e) := by
  obtain ⟨hitems, hending⟩ := Decoder.drainAll_of_yields_gorilla (Gorilla.Grammar.yields_parse version t bytes)
  have hbits := Value.map_bits?_ofBits (t := .number t) (Gorilla.Grammar.parse_lt version t bytes)
  rw [← hitems] at hbits
  refine ⟨_, rfl, hitems, hbits, hending, ?_⟩
  rw [hitems, hending, List.length_map]
  by_cases hnil : bytes = []
  · subst hnil
    exact .inl ⟨rfl, rfl, rfl⟩
  · exact .inr (Gorilla.Grammar.ending_parse hnil)

/-- A stream of the second version has a byte that no pattern takes; without it none is read. -/
example :
    (Gorilla.Grammar.parse .v2 .int32 [1, 0, 0, 0, 5]).ending = .failed .underflow ∧
      (Gorilla.Grammar.parse .v2 .int32 [1, 0, 0, 0, 5, 0]).items = [5] := by
  decide +kernel

/-- Whatever the bytes are, a new decoder reads the values that the parser finds in them, those of
    whole blocks, and stops where the parser does: at the end of the bytes, or at the first fault. -/
theorem delta_decoding_is_parsing (t : NumberType) (bytes : Bytes) :
    ∃ d, Decoder.new (.fixed (.number t)) .delta bytes = .ok d ∧
      d.drainAll.items = (Delta.Grammar.parse t bytes).items ∧
      d.drainAll.items.map Value.bits? = (Delta.Grammar.patterns t bytes).map some ∧
      d.drainAll.ending = (Delta.Grammar.parse t bytes).ending ∧
      (d.drainAll.ending = .finished ∨ ∃ e, Delta.Grammar.Fault t e ∧ d.drainAll.ending = .failed e) := by
  obtain ⟨hitems, hending⟩ := Decoder.drainAll_of_yields_delta (Delta.Grammar.yields_parse t bytes)
  have hbits := Delta.Grammar.bits?_parse t bytes
  rw [← hitems] at hbits
  refine ⟨_, rfl, hitems, hbits, hending, ?_⟩
  rw [hending]
  exact Delta.Grammar.ending_parse t bytes

/-- A whole block of one word, and one that ends inside its word. -/
example :
    (Delta.Grammar.parse .int32 [0x10, 0, 0, 0, 0x50, 0x20, 0, 0]).items = [.int32 5] ∧
      (Delta.Grammar.parse .int32 [0x10, 0, 0, 0, 0x50, 0x20, 0, 0]).ending = .failed .underflow := by
  decide +kernel

open RunLength.Grammar (Spells Defect Breaks Segment)

/-- Whatever the bytes are: a new decoder comes to their end exactly if they are a row of segments,
    and then it has read what these stand for. If they are not, they break, and it has read what
    stands in front of the fault and has failed with it. -/
theorem runLength_decoding_is_parsing (t : FixedType) (bytes : Bytes) :
    ∃ d, Decoder.new (.fixed t) .runLength bytes = .ok d ∧
      (d.drainAll.ending = .finished ↔ ∃ segments, Spells t.width segments bytes) ∧
      (∀ segments, Spells t.width segments bytes →
        d.drainAll.items = (segments.flatMap (Segment.expand t.width)).map (.ofBits t) ∧
        d.drainAll.items.map Value.bits? = (segments.flatMap (Segment.expand t.width)).map some) ∧
      (d.drainAll.ending ≠ .finished → ∃ values e, Breaks t.width bytes values e) ∧
      ∀ values e, Breaks t.width bytes values e →
        d.drainAll.items = values.map (.ofBits t) ∧ d.drainAll.items.map Value.bits? = values.map some ∧
        d.drainAll.ending = .failed e := by
  have hspells := fun segments (h : Spells t.width segments bytes) =>
    Decoder.drainAll_of_yields_runLength (RunLength.yields_spelled t.width_lt h rfl)
  have hbreaks := fun values e (h : Breaks t.width bytes values e) =>
    Decoder.drainAll_of_yields_runLength (RunLength.yields_breaks t.width_lt h rfl)
  refine ⟨_, rfl, ⟨?_, ?_⟩, ?_, ?_, ?_⟩
  · intro hfinished
    rcases RunLength.Grammar.spells_or_breaks t.width bytes with h | ⟨values, e, h⟩
    · exact h
    · have hfailed := (hbreaks values e h).2
      rw [hfinished] at hfailed
      cases hfailed
  · rintro ⟨segments, h⟩
    exact (hspells segments h).2
  · intro segments h
    have hitems := (hspells segments h).1
    refine ⟨hitems, ?_⟩
    rw [hitems]
    exact Value.map_bits?_ofBits h.expand_lt
  · intro hne
    rcases RunLength.Grammar.spells_or_breaks t.width bytes with ⟨segments, h⟩ | h
    · exact absurd (hspells segments h).2 hne
    · exact h
  · intro values e h
    obtain ⟨hitems, hending⟩ := hbreaks values e h
    refine ⟨hitems, ?_, hending⟩
    rw [hitems]
    exact Value.map_bits?_ofBits h.values_lt

/-- A run of two, with something in the pad behind it, and then the beginning of a head. -/
theorem runLength_decoding_is_parsing_boolean :
    Breaks 1 [0x80, 0, 0, 2, 0x85, 0] [1, 1] .underflow ∧
      ∃ d, Decoder.new .boolean .runLength [0x80, 0, 0, 2, 0x85, 0] = .ok d ∧
        d.drainAll.items = [.boolean true, .boolean true] ∧ d.drainAll.ending = .failed .underflow := by
  have hown : Bytes.toBits [0x80, 0, 0, 2, 0x85] =
      (Segment.run 2 1).bits 1 ++ [false, false, false, false, true, false, true] := by decide
  have hlegal : (Segment.run 2 1).Legal 1 := ⟨by decide, by decide, by decide⟩
  have hrun : Spells 1 [.run 2 1] [0x80, 0, 0, 2, 0x85] := .cons hlegal hown (by decide) .nil
  have hcut : Defect 1 (Bytes.toBits [0]) [] .underflow := .noHead (by decide) (by decide)
  have hbreaks : Breaks 1 [0x80, 0, 0, 2, 0x85, 0] [1, 1] .underflow := .intro hrun hcut
  obtain ⟨d, hd, -, -, -, hdrain⟩ := runLength_decoding_is_parsing .boolean [0x80, 0, 0, 2, 0x85, 0]
  obtain ⟨hitems, -, hending⟩ := hdrain _ _ hbreaks
  exact ⟨hbreaks, d, hd, hitems, hending⟩

end Chronicle
