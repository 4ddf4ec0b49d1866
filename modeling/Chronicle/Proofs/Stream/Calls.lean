/-
  Chronicle.Proofs.Stream.Calls — what every call on a decoder leaves as it is.

  (1) A call is one of a few things done to a decoder: other bytes, a reset, or calls for the next value,
  one after another. What these three keep is kept by every call (`keeps_call`), failed ones included.

  (2) Codecs. A decoder stays one for its codec, and so its values have its type (`dataType_of_next`).

  (3) Bits that are kept. Between two calls a reader that has not got past the mode of a TS_2DIFF stream
  stands at the start of a byte (`Settled`, `settled_after`): a mode is whole bytes, also where it is cut
  off, so no bits are kept in front of one that `hasNext` does not see. Behind the mode bits may be kept,
  but a block starts on the next byte and does not look at them.

  (4) Nothing to read. So where a decoder finds nothing to read there is nothing: the next call fails for
  want of bytes, takes none and changes nothing that could be seen (`next_of_not_hasNext`). What is read
  was there to be read (`hasNext_of_next`).
-/

import Chronicle.Proofs.Column.Value
import Chronicle.Proofs.Stream.Capacity
import Chronicle.Stream.Decoder

namespace Chronicle

open Reading

/-! ## What a reading leaves -/

namespace Reading

variable {σ α β : Type}

/-- A last step that only renames the results leaves the same. -/
theorem source_map (m : Reading σ α) (f : α → β) (s : σ) :
    (answer ((do return f (← m) : Reading σ β) s)).2 = (answer (m s)).2 := by
  cases h : m s with
  | ok a t => rw [map_of_eq h]; rfl
  | error e t => rw [map_of_error h]; rfl

end Reading

namespace Feed

variable {σ τ α : Type}

theorem source_within (wrap : τ → σ) (inner : τ) (m : Reading (Feed τ) α) (f : Feed σ) :
    (answer (within wrap inner m f)).2 = (answer (m ⟨inner, f.reader, f.bytes⟩)).2.wrapped wrap := by
  unfold within
  cases m ⟨inner, f.reader, f.bytes⟩ <;> rfl

end Feed

/-! ## Types of values -/

theorem Delta.dataType_ofWord (t : NumberType) (d : Delta.Domain) (word : Nat) :
    (Delta.ofWord t d word).dataType = .fixed (.number t) := by
  cases d with
  | pattern => exact Value.dataType_ofBits (.number t) word
  | fixedPoint scale => cases t <;> rfl

theorem Plain.dataType_of_pull {t : DataType} {v : Value} {bytes rest : Bytes} (h : pull t bytes = .ok v rest) :
    v.dataType = t := by
  have hread {α : Type} {m : Reading Bytes α} {f : α → Value} (hf : ∀ a, (f a).dataType = t)
      (h : (do return f (← m) : Reading Bytes Value) bytes = .ok v rest) : v.dataType = t := by
    obtain ⟨a, _, -, ha⟩ := ok_of_bind h
    cases ha
    exact hf a
  rcases t with (_ | (_ | _ | _ | _)) | _
  · exact hread (f := .boolean) (fun _ => rfl) h
  · exact hread (f := .int32) (fun _ => rfl) h
  · exact hread (f := .int64) (fun _ => rfl) h
  · exact hread (f := .float) (fun _ => rfl) h
  · exact hread (f := .double) (fun _ => rfl) h
  · exact hread (f := .text) (fun _ => rfl) h

theorem Delta.dataType_of_next {t : NumberType} {f g : Feed State} {v : Value} (h : next t f = .ok v g) :
    v.dataType = .fixed (.number t) := by
  obtain ⟨d, x, -, h⟩ := ok_of_bind h
  rw [get_bind] at h
  cases hready : x.state.ready with
  | cons word rest =>
    rw [hready] at h
    cases h
    exact dataType_ofWord t d word
  | nil =>
    rw [hready] at h
    obtain ⟨⟨word, rest⟩, y, -, h⟩ := ok_of_bind (m := Feed.onBits (pullBlock (d.width t))) h
    cases h
    exact dataType_ofWord t d word

/-! ## Nothing to read -/

theorem Plain.pull_nil (t : DataType) : pull t [] = .error .underflow [] := by
  rcases t with (_ | (_ | _ | _ | _)) | _ <;> rfl

namespace RunLength

theorem next_nil (width : Nat) (reader : BitReader) :
    next width ⟨none, reader, []⟩ = .error .underflow ⟨none, reader.align, []⟩ := by
  have halign : BitSource.align ⟨reader, []⟩ = .ok () ⟨reader.align, []⟩ := rfl
  have hsegment : pullSegment width ⟨reader, []⟩ = .error .underflow ⟨reader.align, []⟩ := by
    rw [pullSegment, bind_of_eq halign, bind_of_error (BitSource.pullBit_of_toBits_eq_nil BitSource.toBits_align_of_nil)]
  have hread := Feed.onBits_of_error (f := (⟨none, reader, []⟩ : Feed State)) hsegment
  have hpending : pending width ⟨none, reader, []⟩ = .error .underflow ⟨none, reader.align, []⟩ := by
    rw [pending, get_bind]
    exact bind_of_error hread
  rw [next, bind_of_error hpending]

end RunLength

namespace Delta

open BitSource (AtByte)

/-- Where a stream may open with a mode, the reader stands at the start of a byte. -/
def Settled (f : Feed State) : Prop :=
  f.reader.refill = .onDemand ∧ (f.state.domain? = none → f.reader.left = 0)

variable {t : NumberType} {f g : Feed State}

/-- A mode is a whole number of bytes, and so is what there is of it if it is cut off. -/
theorem keeps_atByte_pullDomain (t : NumberType) : Keeps AtByte (pullDomain t) := by
  unfold pullDomain
  refine .ite ((BitSource.keeps_atByte_pullBits 1).bind ?_) (keeps_pure _)
  intro mode
  split
  · exact keeps_pure _
  · refine (BitSource.keeps_atByte_pullBits 8).bind ?_
    intro scale
    exact .ite (keeps_pure _) (keeps_throw _)
  · exact keeps_throw _

theorem keeps_refill_pullWords (refill : Refill) (width base offsetWidth previous count : Nat) :
    Keeps (fun s => s.reader.refill = refill) (pullWords width base offsetWidth previous count) := by
  induction count generalizing previous with
  | zero => exact keeps_pure _
  | succ count ih =>
    refine (BitSource.keeps_refill_pullBits refill _).bind ?_
    intro offset
    exact (ih _).bind fun _ => keeps_pure _

theorem keeps_refill_pullBlock (refill : Refill) (width : Nat) :
    Keeps (fun s => s.reader.refill = refill) (pullBlock width) := by
  have hbits (count : Nat) := BitSource.keeps_refill_pullBits refill count
  refine (BitSource.keeps_refill_align refill).bind fun _ => ?_
  refine (hbits 4).bind fun count => ?_
  refine .ite (keeps_throw _) ?_
  refine (hbits width).bind fun first => ?_
  refine .ite (keeps_pure _) ?_
  refine (hbits width).bind fun base => ?_
  refine (hbits 7).bind fun offsetWidth => ?_
  refine .ite (keeps_throw _) ?_
  exact (keeps_refill_pullWords refill width base offsetWidth first _).bind fun _ => keeps_pure _

/-- The domain is known from then on, or the mode could not be read. -/
theorem domain_cases (t : NumberType) (h : Settled f) :
    (∃ d g, domain t f = .ok d g ∧ g.reader.refill = .onDemand ∧ g.state = ⟨some d, f.state.ready⟩) ∨
      ∃ e g, domain t f = .error e g ∧ Settled g := by
  obtain ⟨hr, hl⟩ := h
  rcases f with ⟨⟨_ | d, ready⟩, reader, bytes⟩
  · have hat : AtByte ⟨reader, bytes⟩ := ⟨hr, hl rfl⟩
    cases hd : pullDomain t ⟨reader, bytes⟩ with
    | ok d s =>
      have hs := (keeps_atByte_pullDomain t).ok hat hd
      have hread := Feed.onBits_of_eq (f := (⟨⟨none, ready⟩, reader, bytes⟩ : Feed State)) hd
      refine .inl ⟨d, ⟨⟨some d, ready⟩, s.reader, s.bytes⟩, ?_, hs.1, rfl⟩
      show (Feed.onBits (pullDomain t) >>= _) _ = _
      rw [bind_of_eq hread]
      rfl
    | error e s =>
      have hs := (keeps_atByte_pullDomain t).error hat hd
      have hread := Feed.onBits_of_error (f := (⟨⟨none, ready⟩, reader, bytes⟩ : Feed State)) hd
      refine .inr ⟨e, ⟨⟨none, ready⟩, s.reader, s.bytes⟩, ?_, hs.1, fun _ => hs.2⟩
      show (Feed.onBits (pullDomain t) >>= _) _ = _
      rw [bind_of_error hread]
  · exact .inl ⟨d, _, rfl, hr, rfl⟩

/-- What is known is not forgotten by a block that cannot be read. -/
theorem keeps_settled_next (t : NumberType) : Keeps Settled (next t) := by
  intro f hf
  rcases domain_cases t hf with ⟨d, g, hd, hr, hstate⟩ | ⟨e, g, hd, hg⟩
  · have hknown (word : Nat) (rest : List Nat) (s : BitReader) (bytes : Bytes) (hs : s.refill = .onDemand) :
        Settled (answer ((do
          Feed.setState { domain? := some d, ready := rest }
          return ofWord t d word : Reading (Feed State) Value) ⟨g.state, s, bytes⟩)).2 :=
      ⟨hs, nofun⟩
    rw [next, bind_of_eq hd, get_bind]
    cases hready : g.state.ready with
    | cons word rest => exact hknown word rest g.reader g.bytes hr
    | nil =>
      show Settled (answer ((Feed.onBits (pullBlock (d.width t)) >>= _) g)).2
      cases hb : pullBlock (d.width t) g.source with
      | ok block s =>
        have hs := (keeps_refill_pullBlock .onDemand (d.width t)).ok hr hb
        rw [bind_of_eq (Feed.onBits_of_eq hb)]
        exact hknown block.1 block.2 s.reader s.bytes hs
      | error e s =>
        have hs := (keeps_refill_pullBlock .onDemand (d.width t)).error hr hb
        rw [bind_of_error (Feed.onBits_of_error hb)]
        refine ⟨hs, ?_⟩
        rw [show ({ state := g.state, reader := s.reader, bytes := s.bytes } : Feed State).state = g.state from rfl, hstate]
        exact nofun
  · rw [next, bind_of_error hd]
    exact hg

theorem pullDomain_nil (t : NumberType) {s : BitSource} (h : s.toBits = []) :
    pullDomain t s = .error .underflow s ∨ ∃ d, pullDomain t s = .ok d s := by
  unfold pullDomain
  by_cases hm : hasMode t = true
  · rw [if_pos hm]
    exact .inl (bind_of_error (BitSource.pullBits_of_toBits_eq_nil (by decide) h))
  · rw [if_neg hm]
    exact .inr ⟨_, rfl⟩

theorem domain_nil (t : NumberType) (h : Settled f) (hb : f.bytes = []) :
    (∃ d g, domain t f = .ok d g ∧ g.bytes = [] ∧ g.state.ready = f.state.ready) ∨
      ∃ g, domain t f = .error .underflow g ∧ g.bytes = [] ∧ g.state = f.state := by
  rcases f with ⟨⟨_ | d, ready⟩, reader, bytes⟩
  · obtain rfl : bytes = [] := hb
    have hl : reader.left = 0 := h.2 rfl
    have hbits : BitSource.toBits ⟨reader, []⟩ = [] := by
      rw [BitSource.toBits, hl]
      rfl
    rcases pullDomain_nil t hbits with hd | ⟨d, hd⟩
    · have hread := Feed.onBits_of_error (f := (⟨⟨none, ready⟩, reader, []⟩ : Feed State)) hd
      refine .inr ⟨⟨⟨none, ready⟩, reader, []⟩, ?_, rfl, rfl⟩
      show (Feed.onBits (pullDomain t) >>= _) _ = _
      rw [bind_of_error hread]
    · have hread := Feed.onBits_of_eq (f := (⟨⟨none, ready⟩, reader, []⟩ : Feed State)) hd
      refine .inl ⟨d, ⟨⟨some d, ready⟩, reader, []⟩, ?_, rfl, rfl⟩
      show (Feed.onBits (pullDomain t) >>= _) _ = _
      rw [bind_of_eq hread]
      rfl
  · exact .inl ⟨d, _, rfl, hb, rfl⟩

theorem pullBlock_nil (width : Nat) (reader : BitReader) :
    pullBlock width ⟨reader, []⟩ = .error .underflow ⟨reader.align, []⟩ := by
  have halign : BitSource.align ⟨reader, []⟩ = .ok () ⟨reader.align, []⟩ := rfl
  rw [pullBlock, bind_of_eq halign,
    bind_of_error (BitSource.pullBits_of_toBits_eq_nil (by decide) BitSource.toBits_align_of_nil)]

theorem next_nil (t : NumberType) (h : Settled f) (hready : f.state.ready = []) (hb : f.bytes = []) :
    ∃ g, next t f = .error .underflow g ∧ g.state.ready = [] ∧ g.bytes = [] := by
  rcases domain_nil t h hb with ⟨d, g, hd, hg, hstate⟩ | ⟨g, hd, hg, hstate⟩
  · have hempty : g.state.ready = [] := hstate.trans hready
    have hblock : pullBlock (d.width t) g.source = .error .underflow ⟨g.reader.align, []⟩ := by
      rw [Feed.source, hg, pullBlock_nil]
    refine ⟨⟨g.state, g.reader.align, []⟩, ?_, hempty, rfl⟩
    rw [next, bind_of_eq hd, get_bind]
    simp only [hempty]
    exact bind_of_error (Feed.onBits_of_error hblock)
  · refine ⟨g, ?_, by rw [hstate, hready], hg⟩
    rw [next, bind_of_error hd]

end Delta

namespace Gorilla

theorem pullCount_nil (version : GorillaVersion) : pullCount version [] = .error .underflow [] := by
  cases version <;> rfl

/-- A counted stream has no further value where its count is used up, whatever bytes follow. -/
theorem next_of_not_hasNext (version : GorillaVersion) (width : Nat) {f : Feed State}
    (h : hasNext f.state f.bytes = false) : next version width f = .error .underflow f := by
  rcases f with ⟨_ | left | ⟨left, previous, window?⟩, reader, bytes⟩
  · obtain rfl : bytes = [] := by simpa [hasNext] using h
    have hcount := Feed.onBytes_of_error (f := (⟨.start, reader, []⟩ : Feed State)) (pullCount_nil version)
    have hstart : start version ⟨.start, reader, []⟩ = .error .underflow ⟨.start, reader, []⟩ := by
      show (Feed.onBytes (pullCount version) >>= _) _ = _
      rw [bind_of_error hcount]
    rw [next, bind_of_error hstart]
  · obtain rfl : left = 0 := by simpa [hasNext] using h
    rfl
  · obtain rfl : left = 0 := by simpa [hasNext] using h
    rfl

end Gorilla

namespace Decoder

variable {d e : Decoder}

/-! ## One call, and any number of calls -/

/-- What a call for the next value leaves is what its codec leaves. -/
theorem source_next (d : Decoder) :
    (answer (next d)).2 =
      match d.state with
      | .plain t => ⟨.plain t, d.reader, (answer (Plain.pull t d.bytes)).2⟩
      | .runLength t s => (answer (RunLength.next t.width ⟨s, d.reader, d.bytes⟩)).2.wrapped (.runLength t)
      | .delta t s => (answer (Delta.next t ⟨s, d.reader, d.bytes⟩)).2.wrapped (.delta t)
      | .gorilla version t s =>
        (answer (Gorilla.next version t.width ⟨s, d.reader, d.bytes⟩)).2.wrapped (.gorilla version t) := by
  rcases d with ⟨t | ⟨t, s⟩ | ⟨t, s⟩ | ⟨version, t, s⟩, reader, bytes⟩
  · show (answer (Feed.onBytes (Plain.pull t) _)).2 = _
    unfold Feed.onBytes
    dsimp only
    cases Plain.pull t bytes <;> rfl
  · exact (source_map (Feed.within (DecoderState.runLength t) s (RunLength.next t.width)) _ _).trans
      (Feed.source_within _ _ _ _)
  · exact Feed.source_within (DecoderState.delta t) s (Delta.next t) _
  · exact (source_map (Feed.within (DecoderState.gorilla version t) s (Gorilla.next version t.width)) _ _).trans
      (Feed.source_within _ _ _ _)

theorem keeps_step {P : Decoder → Prop} (h : Keeps P next) : Keeps P step := by
  intro d hd
  rcases step_cases d with ⟨-, hs⟩ | ⟨v, e, -, hnext, hs⟩ | ⟨fault, e, -, hnext, hs⟩ <;> rw [hs]
  · exact hd
  · exact h.ok hd hnext
  · exact h.error hd hnext

/-- What other bytes, a reset and a call for the next value keep is kept by every call. -/
theorem keeps_call {P : Decoder → Prop} (hload : ∀ d bytes, P d → P (d.load bytes)) (hreset : ∀ d, P d → P d.reset)
    (hnext : Keeps P next) (hd : P d) (c : Call) : P (d.call c).2 := by
  cases c with
  | load bytes => exact hload d bytes hd
  | hasNext => exact hd
  | next =>
    unfold call
    cases h : next d with
    | ok v e => exact hnext.ok hd h
    | error fault e => exact hnext.error hd h
  | drain limit => exact (keeps_step hnext).collectInto #[] limit hd
  | drainAll => exact (keeps_step hnext).collectInto #[] _ hd
  | reset => exact hreset d hd

theorem keeps_after {P : Decoder → Prop} (hload : ∀ d bytes, P d → P (d.load bytes)) (hreset : ∀ d, P d → P d.reset)
    (hnext : Keeps P next) (hd : P d) (calls : List Call) : P (d.after calls) := by
  induction calls generalizing d with
  | nil => exact hd
  | cons c calls ih => exact ih (keeps_call hload hreset hnext hd c)

/-! ## The codec -/

theorem codec_next (d : Decoder) : (answer (next d)).2.codec = d.codec := by
  rw [source_next]
  rcases d with ⟨t | ⟨t, s⟩ | ⟨t, s⟩ | ⟨version, t, s⟩, reader, bytes⟩ <;> rfl

theorem keeps_codec_next (c : Codec) : Keeps (fun d => d.codec = c) next := by
  intro d hd
  exact (codec_next d).trans hd

/-- The values of a decoder have the type that it was built for. -/
theorem dataType_of_next {v : Value} (h : next d = .ok v e) : v.dataType = d.codec.dataType := by
  rcases d with ⟨t | ⟨t, s⟩ | ⟨t, s⟩ | ⟨version, t, s⟩, reader, bytes⟩
  · obtain ⟨rest, hrest, -⟩ := Feed.ok_of_onBytes (m := Plain.pull t) h
    exact Plain.dataType_of_pull hrest
  · obtain ⟨n, f, -, hv⟩ := ok_of_bind (m := Feed.within (DecoderState.runLength t) s (RunLength.next t.width)) h
    cases hv
    exact Value.dataType_ofBits t n
  · obtain ⟨g, hg, -⟩ := Feed.ok_of_within (m := Delta.next t) h
    exact Delta.dataType_of_next hg
  · obtain ⟨n, f, -, hv⟩ :=
      ok_of_bind (m := Feed.within (DecoderState.gorilla version t) s (Gorilla.next version t.width)) h
    cases hv
    exact Value.dataType_ofBits (.number t) n

/-! ## Bits that are kept -/

def Settled (d : Decoder) : Prop := ∀ t s, d.state = .delta t s → Delta.Settled ⟨s, d.reader, d.bytes⟩

theorem settled_ofCodec (c : Codec) (bytes : Bytes) : (ofCodec c bytes).Settled := by
  intro t s h
  cases c with
  | delta t' =>
    cases h
    exact ⟨rfl, fun _ => rfl⟩
  | _ => cases h

theorem settled_load (h : d.Settled) (bytes : Bytes) : (d.load bytes).Settled := by
  intro t s hs
  exact h t s hs

theorem keeps_settled_next : Keeps Settled next := by
  intro d hd t s h
  rw [source_next] at h ⊢
  rcases d with ⟨t' | ⟨t', s'⟩ | ⟨t', s'⟩ | ⟨version, t', s'⟩, reader, bytes⟩
  · cases h
  · cases h
  · cases h
    exact Delta.keeps_settled_next t _ (hd t s' rfl)
  · cases h

/-- Bits are kept as they should be behind any calls, whatever they answered. -/
theorem settled_after (c : Codec) (bytes : Bytes) (calls : List Call) : ((ofCodec c bytes).after calls).Settled := by
  have hload (d : Decoder) (buffer : Bytes) (hd : d.Settled) : (d.load buffer).Settled := settled_load hd buffer
  have hreset (d : Decoder) (_ : d.Settled) : d.reset.Settled := settled_ofCodec d.codec d.bytes
  exact keeps_after hload hreset keeps_settled_next (settled_ofCodec c bytes) calls

/-- Where a decoder finds nothing to read it reads nothing, and finds nothing afterwards. -/
theorem next_of_not_hasNext (hd : d.Settled) (h : d.hasNext = false) :
    ∃ e, next d = .error .underflow e ∧ e.bytes = d.bytes ∧ e.hasNext = false := by
  rcases d with ⟨t | ⟨t, s⟩ | ⟨t, s⟩ | ⟨version, t, s⟩, reader, bytes⟩
  · obtain rfl : bytes = [] := by simpa [hasNext] using h
    have hpull := Feed.onBytes_of_error (f := (⟨.plain t, reader, []⟩ : Decoder)) (Plain.pull_nil t)
    exact ⟨_, hpull, rfl, rfl⟩
  · obtain ⟨rfl, rfl⟩ : s = none ∧ bytes = [] := by simpa [hasNext, RunLength.hasNext] using h
    have hnext := Feed.within_of_error (DecoderState.runLength t) (RunLength.next_nil t.width reader)
    exact ⟨_, map_of_error (f := Value.ofBits t) hnext, rfl, rfl⟩
  · obtain ⟨hready, rfl⟩ : s.ready = [] ∧ bytes = [] := by simpa [hasNext, Delta.hasNext] using h
    obtain ⟨g, hg, hempty, hbytes⟩ := Delta.next_nil t (hd t s rfl) hready rfl
    refine ⟨_, Feed.within_of_error (DecoderState.delta t) hg, hbytes, ?_⟩
    show Delta.hasNext g.state g.bytes = false
    simp [Delta.hasNext, hempty, hbytes]
  · have hnext := Gorilla.next_of_not_hasNext version t.width (f := ⟨s, reader, bytes⟩) h
    have hnext := Feed.within_of_error (DecoderState.gorilla version t) hnext
    exact ⟨_, map_of_error (f := Value.ofBits (.number t)) hnext, rfl, h⟩

/-- What is read was there to be read. -/
theorem hasNext_of_next {v : Value} (hd : d.Settled) (h : next d = .ok v e) : d.hasNext = true := by
  cases hmore : d.hasNext with
  | true => rfl
  | false =>
    obtain ⟨f, hf, -⟩ := next_of_not_hasNext hd hmore
    rw [h] at hf
    cases hf

end Decoder

end Chronicle
