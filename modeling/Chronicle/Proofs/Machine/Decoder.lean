/-
  Chronicle.Proofs.Machine.Decoder — decoders on machine words answer like decoders.

  What a decoder holds stands for the same as long as the calls are the same (`call_views`), also behind calls
  that failed, and no call is trapped. So any sequence of calls has the answers that it has without words
  (`answers_eq`). Each encoding brings a relation between its two states (`DecoderState.Views`), and the
  readings of each keep it; here they are put together.

  A reset sets less back than a construction sets, but what it leaves cannot be seen (`reset_views`): in either
  case the state stands for the same one. So behind a reset a decoder is as good as new, on any bytes and
  whatever had been called before (`reset_is_construction`).
-/

import Chronicle.Machine.Decoder
import Chronicle.Proofs.Machine.Delta
import Chronicle.Proofs.Machine.Gorilla
import Chronicle.Proofs.Machine.RunLength
import Chronicle.Proofs.Stream.Codec

namespace Chronicle.Machine


theorem toNat_ofNat_width (t : FixedType) : (UInt8.ofNat t.width).toNat = t.width := by
  rcases t with _ | (_ | _ | _ | _) <;> rfl

theorem width_le_64 (t : FixedType) : (UInt8.ofNat t.width).toNat ≤ 64 := by
  rcases t with _ | (_ | _ | _ | _) <;> decide

theorem isWidth_width (t : NumberType) : Gorilla.IsWidth (UInt8.ofNat t.width) := by
  cases t
  · exact .inl rfl
  · exact .inr rfl
  · exact .inl rfl
  · exact .inr rfl

inductive DecoderState.Views : Codec → DecoderState → Chronicle.DecoderState → Prop
  | plain (t : DataType) : Views (.plain t) (.plain t) (.plain t)
  | runLength (t : FixedType) {s : RunLength.Segment} {s' : Chronicle.RunLength.State} (h : s.Views s') :
      Views (.runLength t) (.runLength t s) (.runLength t s')
  | delta (t : NumberType) {s : Delta.State} {s' : Chronicle.Delta.State} (h : s.Views t s') :
      Views (.delta t) (.delta t s) (.delta t s')
  | gorilla (version : GorillaVersion) (t : NumberType) {s : Gorilla.State} {s' : Chronicle.Gorilla.State}
      (h : s.Views (UInt8.ofNat t.width) s') : Views (.gorilla version t) (.gorilla version t s) (.gorilla version t s')

theorem DecoderState.initial_views (c : Codec) : Views c (.initial c) (.initial c) := by
  cases c with
  | plain t => exact .plain t
  | runLength t => exact .runLength t .idle
  | delta t => exact .delta t (Delta.initial_views t)
  | gorilla version t => exact .gorilla version t .start

theorem DecoderState.reset_views {c : Codec} {s : DecoderState} {s' : Chronicle.DecoderState} (h : Views c s s') :
    Views c s.reset (.initial c) := by
  cases h with
  | plain t => exact .plain t
  | runLength t _ => exact .runLength t .idle
  | delta t _ => exact .delta t (Delta.reset_views t _)
  | gorilla version t _ => exact .gorilla version t .start

theorem DecoderState.Views.codec_eq {c : Codec} {s : DecoderState} {s' : Chronicle.DecoderState} (h : Views c s s') :
    s'.codec = c := by
  cases h <;> rfl

namespace Decoder

open Chronicle.Decoder (Call Answer refill)

/-- A decoder for the codec, with no more than `room` bytes. -/
def Views (c : Codec) (room : Nat) : Machine.Decoder → Chronicle.Decoder → Prop :=
  Feed.Views (DecoderState.Views c) ⟨refill c, room⟩

variable {c : Codec} {room : Nat} {d : Machine.Decoder} {e : Chronicle.Decoder}

/-! ## Construction and reset -/

theorem ofCodec_views (c : Codec) (bytes : Bytes) : Views c bytes.length (ofCodec c bytes) (.ofCodec c bytes) :=
  ⟨DecoderState.initial_views c, Nat.zero_le 8, rfl, Nat.le_refl _, rfl⟩

theorem load_views (h : Views c room d e) (bytes : Bytes) : Views c bytes.length (d.load bytes) (e.load bytes) := by
  refine ⟨h.state, h.source.left_le, h.source.refill_eq, Nat.le_refl _, ?_⟩
  have hreader : e.reader = d.reader.view := congrArg Chronicle.BitSource.reader h.source.view_eq
  show (⟨e.reader, bytes⟩ : Chronicle.BitSource) = _
  rw [hreader]
  rfl

/-- Behind a reset nothing is seen of what was read before. -/
theorem reset_views (h : Views c room d e) : Views c room d.reset e.reset := by
  have hcodec : e.codec = c := h.state.codec_eq
  obtain ⟨hbytes, hlength⟩ := h.bytes
  unfold Chronicle.Decoder.reset
  rw [hcodec, hbytes]
  refine ⟨DecoderState.reset_views h.state, Nat.zero_le 8, h.source.refill_eq, hlength, ?_⟩
  have hrefill : d.reader.refill = refill c := h.source.refill_eq
  show (⟨{ refill := refill c }, d.bytes⟩ : Chronicle.BitSource) = ⟨{ refill := d.reader.refill }, d.bytes⟩
  rw [hrefill]

/-! ## Values -/

theorem hasNext_eq (h : Views c room d e) : hasNext d = .ok e.hasNext d := by
  obtain ⟨state, reader, bytes⟩ := d
  obtain ⟨state', reader', bytes'⟩ := e
  have hstate : DecoderState.Views c state state' := h.state
  cases hstate with
  | plain t =>
    obtain rfl : bytes' = bytes := h.bytes.1
    rfl
  | @runLength t s s' hs =>
    have hmore := RunLength.hasNext_eq (f := ⟨s, reader, bytes⟩) (g := ⟨s', reader', bytes'⟩) ⟨hs, h.source⟩
    show Feed.within _ s RunLength.hasNext _ = _
    unfold Feed.within
    rw [hmore]
    rfl
  | @delta t s s' hs =>
    have hmore := Delta.hasNext_eq (f := ⟨s, reader, bytes⟩) (g := ⟨s', reader', bytes'⟩) ⟨hs, h.source⟩
    exact congrArg (EStateM.Result.ok · _) hmore
  | @gorilla version t s s' hs =>
    have hmore := Gorilla.hasNext_eq (f := ⟨s, reader, bytes⟩) (g := ⟨s', reader', bytes'⟩) ⟨hs, h.source⟩
    exact congrArg (EStateM.Result.ok · _) hmore

theorem matches_next (h : Views c room d e) :
    Matches (fun v v' d' e' => v = v' ∧ Views c room d' e') (Views c room) (next d) (Chronicle.Decoder.next e) := by
  obtain ⟨state, reader, bytes⟩ := d
  obtain ⟨state', reader', bytes'⟩ := e
  have hstate : DecoderState.Views c state state' := h.state
  cases hstate with
  | plain t =>
    refine (Feed.matches_onBytes h (Plain.matches_read t h.bytes)).mono ?_ fun _ _ => id
    rintro v _ d' e' ⟨rfl, -, -, hv⟩
    exact ⟨rfl, hv⟩
  | @runLength t s s' hs =>
    have hnext := RunLength.matches_next (f := ⟨s, reader, bytes⟩) (g := ⟨s', reader', bytes'⟩) (width_le_64 t) ⟨hs, h.source⟩
    rw [toNat_ofNat_width] at hnext
    refine (Feed.matches_within (fun _ _ => .runLength t) hnext).map ?_
    rintro w _ d' e' ⟨rfl, hv⟩
    exact ⟨rfl, hv⟩
  | @delta t s s' hs =>
    exact Feed.matches_within (fun _ _ => .delta t)
      (Delta.matches_next (f := ⟨s, reader, bytes⟩) (g := ⟨s', reader', bytes'⟩) ⟨hs, h.source⟩)
  | @gorilla version t s s' hs =>
    have hnext := Gorilla.matches_next (f := ⟨s, reader, bytes⟩) (g := ⟨s', reader', bytes'⟩) version (isWidth_width t)
      ⟨hs, h.source⟩
    have hwidth : (UInt8.ofNat t.width).toNat = t.width := toNat_ofNat_width (.number t)
    rw [hwidth] at hnext
    refine (Feed.matches_within (fun _ _ => .gorilla version t) hnext).map ?_
    rintro w _ d' e' ⟨rfl, hv⟩
    exact ⟨rfl, hv⟩

theorem matches_step (h : Views c room d e) :
    Matches (fun v v' d' e' => v = v' ∧ Views c room d' e') (Views c room) (step d) (Chronicle.Decoder.step e) := by
  unfold step
  rw [bind_of_eq (hasNext_eq h)]
  cases hmore : e.hasNext with
  | false =>
    rw [Chronicle.Decoder.step_of_not_hasNext hmore]
    exact .ok ⟨rfl, h⟩
  | true =>
    rw [Chronicle.Decoder.step_of_hasNext hmore]
    refine (matches_next h).map ?_
    rintro v _ d' e' ⟨rfl, hv⟩
    exact ⟨rfl, hv⟩

theorem drain_views (h : Views c room d e) (limit : Nat) :
    ∃ harvest, d.drain limit = .ok harvest ∧ SameHarvest (Views c room) harvest (e.drain limit) :=
  collectInto_matches (fun _ _ => matches_step) #[] limit h

/-- A segment has no more patterns than its count says, and eight of them can be in a group. -/
theorem count_le {s : RunLength.Segment} {s' : Chronicle.RunLength.State} (h : s.Views s') : s'.count ≤ 2 ^ 32 + 8 := by
  cases h with
  | idle => exact Nat.zero_le _
  | ended value => exact Nat.zero_le _
  | @run value remaining more hmore =>
    have := remaining.toNat_lt
    show more + 1 ≤ 2 ^ 32 + 8
    omega
  | literal l hplace hlength hs =>
    have := l.group.length_unread_le l.length l.place
    have := l.remaining.toNat_lt
    rw [hs, Chronicle.RunLength.count_ofLiterals]
    omega

theorem capacity_lt_rounds (h : Views c room d e) : e.capacity < d.rounds := by
  obtain ⟨state, reader, bytes⟩ := d
  obtain ⟨state', reader', bytes'⟩ := e
  have hstate : DecoderState.Views c state state' := h.state
  obtain rfl : bytes' = bytes := h.bytes.1
  unfold rounds
  cases hstate with
  | plain t =>
    show bytes'.length < 2 ^ 33 + 2 ^ 31 * bytes'.length
    omega
  | @runLength t s s' hs =>
    have := count_le hs
    show s'.count + (2 ^ 31 - 1) * bytes'.length < 2 ^ 33 + 2 ^ 31 * bytes'.length
    omega
  | @delta t s s' hs =>
    have hready : s'.ready.length ≤ 8 := by
      rw [hs.ready_eq]
      exact Words.length_unread_le ..
    show s'.ready.length + 8 * bytes'.length < 2 ^ 33 + 2 ^ 31 * bytes'.length
    omega
  | @gorilla version t s s' hs =>
    have hleft : reader'.left ≤ 8 := by
      have hreader : reader' = reader.view := congrArg Chronicle.BitSource.reader h.source.view_eq
      rw [hreader]
      exact h.source.left_le
    show reader'.left + 8 * bytes'.length < 2 ^ 33 + 2 ^ 31 * bytes'.length
    omega

theorem drainAll_views (h : Views c room d e) :
    ∃ harvest, d.drainAll = .ok harvest ∧ SameHarvest (Views c room) harvest e.drainAll := by
  have hending : e.drainAll.ending ≠ .limited := (Chronicle.Decoder.yields_drainAll e).ne_limited
  have hall : e.drain d.rounds = e.drainAll := Reading.collectInto_of_le (capacity_lt_rounds h) hending
  obtain ⟨harvest, hdrain, hsame⟩ := drain_views h d.rounds
  rw [hall] at hsame
  refine ⟨harvest, ?_, hsame⟩
  unfold drainAll
  rw [hdrain]
  exact if_neg (hsame.ending ▸ hending)

/-! ## Calls -/

theorem call_views (h : Views c room d e) (k : Call) :
    ∃ d' room', d.call k = .ok ((e.call k).1, d') ∧ Views c room' d' (e.call k).2 := by
  cases k with
  | load bytes => exact ⟨_, bytes.length, rfl, load_views h bytes⟩
  | reset => exact ⟨_, room, rfl, reset_views h⟩
  | hasNext =>
    refine ⟨d, room, ?_, h⟩
    unfold call
    rw [hasNext_eq h]
    rfl
  | next =>
    have hnext := matches_next h
    unfold call Chronicle.Decoder.call
    generalize next d = r at hnext ⊢
    generalize Chronicle.Decoder.next e = r' at hnext ⊢
    cases hnext with
    | ok hv => exact ⟨_, room, by rw [hv.1]; rfl, hv.2⟩
    | error hv => exact ⟨_, room, rfl, hv⟩
  | drain limit =>
    obtain ⟨harvest, hdrain, hsame⟩ := drain_views h limit
    refine ⟨harvest.source, room, ?_, hsame.source⟩
    unfold call Chronicle.Decoder.call
    dsimp only
    rw [hdrain, ← hsame.items, ← hsame.ending]
    rfl
  | drainAll =>
    obtain ⟨harvest, hdrain, hsame⟩ := drainAll_views h
    refine ⟨harvest.source, room, ?_, hsame.source⟩
    unfold call Chronicle.Decoder.call
    dsimp only
    rw [hdrain, ← hsame.items, ← hsame.ending]
    rfl

theorem after_views (h : Views c room d e) (calls : List Call) :
    ∃ d' room', d.after calls = .ok d' ∧ Views c room' d' (e.after calls) := by
  induction calls generalizing room d e with
  | nil => exact ⟨d, room, rfl, h⟩
  | cons k calls ih =>
    obtain ⟨d', room', hcall, hd'⟩ := call_views h k
    obtain ⟨d'', room'', hafter, hd''⟩ := ih hd'
    refine ⟨d'', room'', ?_, hd''⟩
    unfold after
    rw [hcall]
    exact hafter

theorem answers_eq (h : Views c room d e) (calls : List Call) : d.answers calls = .ok (e.answers calls) := by
  induction calls generalizing room d e with
  | nil => rfl
  | cons k calls ih =>
    obtain ⟨d', room', hcall, hd'⟩ := call_views h k
    unfold answers Chronicle.Decoder.answers
    rw [hcall]
    show (do return ((e.call k).1, d'.bytes) :: (← d'.answers calls) : Except Trap (List (Answer × Bytes))) = _
    rw [ih hd', hd'.bytes.1]
    rfl

theorem new_of_require {t : DataType} {encoding : Encoding} (h : Codec.require t encoding = .ok c) (bytes : Bytes) :
    new t encoding bytes = .ok (ofCodec c bytes) := by
  unfold new
  rw [h]
  rfl

end Decoder

open Chronicle.Decoder (Call)

/-- Whatever has been called before, and whatever it has answered: behind a reset a decoder answers
    any calls on any bytes as one that has just been built for the same pair, with the same bytes
    left behind each answer. Decoders without words give the same answers. -/
theorem reset_is_construction {t : DataType} {encoding : Encoding} (he : encoding ∈ t.encodings) (bytes : Bytes)
    (history : List Call) :
    ∃ d e d', Decoder.new t encoding bytes = .ok d ∧ d.after history = .ok e ∧
      Chronicle.Decoder.new t encoding bytes = .ok d' ∧
      ∀ buffer calls, ∃ fresh answers, Decoder.new t encoding buffer = .ok fresh ∧ fresh.answers calls = .ok answers ∧
        (e.reset.load buffer).answers calls = .ok answers ∧
        ((d'.after history).reset.load buffer).answers calls = answers := by
  obtain ⟨c, hc, -⟩ := Codec.require_of_mem he
  obtain ⟨e, room, hafter, hviews⟩ := Decoder.after_views (Decoder.ofCodec_views c bytes) history
  refine ⟨_, e, _, Decoder.new_of_require hc bytes, hafter, Chronicle.Decoder.new_of_require hc bytes, ?_⟩
  intro buffer calls
  have hfresh := Decoder.answers_eq (Decoder.ofCodec_views c buffer) calls
  have hreset := Decoder.answers_eq (Decoder.load_views (Decoder.reset_views hviews) buffer) calls
  have hcodec : Chronicle.Decoder.codec (Chronicle.Decoder.after (.ofCodec c bytes) history) = c := hviews.state.codec_eq
  have hsame : (Chronicle.Decoder.after (.ofCodec c bytes) history).reset.load buffer = .ofCodec c buffer := by
    unfold Chronicle.Decoder.reset
    rw [hcodec]
    rfl
  rw [hsame] at hreset ⊢
  exact ⟨_, _, Decoder.new_of_require hc buffer, hfresh, hreset, rfl⟩

/-- A block of two words is broken off behind the first one, and then a block of one word is read. -/
theorem reset_is_construction_delta :
    ∃ d e, Decoder.new .int32 .delta [0x20, 0, 0, 0, 0x50] = .ok d ∧ d.after [.next] = .ok e ∧
      (e.reset.load [0x10, 0, 0, 0, 0x70]).answers [.next, .hasNext] = .ok [(.value (.int32 7), []), (.more false, [])] := by
  obtain ⟨d, e, d', hd, he, hd', hreset⟩ :=
    reset_is_construction (show .delta ∈ DataType.int32.encodings by decide) [0x20, 0, 0, 0, 0x50] [.next]
  obtain ⟨fresh, answers, -, -, hanswers, hsame⟩ := hreset [0x10, 0, 0, 0, 0x70] [.next, .hasNext]
  cases hd'
  have hvalues : ((Chronicle.Decoder.after (.ofCodec (.delta .int32) [0x20, 0, 0, 0, 0x50]) [.next]).reset.load
      [0x10, 0, 0, 0, 0x70]).answers [.next, .hasNext] = [(.value (.int32 7), []), (.more false, [])] := by decide +kernel
  exact ⟨d, e, hd, he, hanswers.trans (congrArg _ (hsame.symm.trans hvalues))⟩

end Chronicle.Machine
