/-
  Chronicle.Proofs.Machine.PageReader — points read on machine words are points.

  A page that has been read says the length of its body in 64 bits, so what the two streams have left can be
  added up (`finish_eq`). The time stream is one of INT64 values, and so are all its values
  (`matches_nextTime`). Calls for points are answered as they are without words, however many there are and
  whatever they answer (`nexts_eq`).

  With pages and decoders this says that no bytes trap a reading (`reading_never_traps`), whether they are read
  as a page, as the points of a page, or by a decoder under any calls. Writers and statistics are not readings;
  a point that statistics are trapped by is in `Chronicle.Proofs.Machine.Running`.
-/

import Chronicle.Proofs.Machine.Decoder
import Chronicle.Proofs.Machine.Page
import Chronicle.Proofs.Page.Reader
import Chronicle.Proofs.Stream.Calls

namespace Chronicle

namespace Machine

namespace PageReader

/-- What the streams of a page are: their codecs, and how many bytes each of them has at most. -/
structure Streams where
  times : Codec
  values : Codec
  timeRoom : Nat
  valueRoom : Nat
  int64_times : times.dataType = .int64
  countable : timeRoom + valueRoom < 2 ^ 64

structure Views (k : Streams) (r : Machine.PageReader) (r' : Chronicle.PageReader) : Prop where
  times : Decoder.Views k.times k.timeRoom r.times r'.times
  values : Decoder.Views k.values k.valueRoom r.values r'.values
  remaining_eq : r'.remaining = r.remaining.toNat

variable {k : Streams} {r : Machine.PageReader} {r' : Chronicle.PageReader} {α β : Type}

/-! ## One stream -/

theorem matches_onTimes {m : Guarded Machine.Decoder α} {n : Reading Chronicle.Decoder β} {R : α → β → Prop} (h : Views k r r')
    (hm : Matches (fun a b d d' => R a b ∧ Decoder.Views k.times k.timeRoom d d') (Decoder.Views k.times k.timeRoom) (m r.times)
      (n r'.times)) :
    Matches (fun a b x x' => R a b ∧ x.remaining = r.remaining ∧ Views k x x') (Views k) (onTimes m r)
      (Chronicle.PageReader.onTimes n r') := by
  unfold onTimes Chronicle.PageReader.onTimes
  generalize m r.times = o at hm
  generalize n r'.times = o' at hm
  cases hm with
  | ok hq => exact .ok ⟨hq.1, rfl, hq.2, h.values, h.remaining_eq⟩
  | error hd => exact .error ⟨hd, h.values, h.remaining_eq⟩

theorem matches_onValues {m : Guarded Machine.Decoder α} {n : Reading Chronicle.Decoder β} {R : α → β → Prop} (h : Views k r r')
    (hm : Matches (fun a b d d' => R a b ∧ Decoder.Views k.values k.valueRoom d d') (Decoder.Views k.values k.valueRoom)
      (m r.values) (n r'.values)) :
    Matches (fun a b x x' => R a b ∧ x.remaining = r.remaining ∧ Views k x x') (Views k) (onValues m r)
      (Chronicle.PageReader.onValues n r') := by
  unfold onValues Chronicle.PageReader.onValues
  generalize m r.values = o at hm
  generalize n r'.values = o' at hm
  cases hm with
  | ok hq => exact .ok ⟨hq.1, rfl, h.times, hq.2, h.remaining_eq⟩
  | error hd => exact .error ⟨h.times, hd, h.remaining_eq⟩

theorem onTimes_hasNext (h : Views k r r') : onTimes Decoder.hasNext r = .ok r'.times.hasNext r := by
  unfold onTimes
  rw [Decoder.hasNext_eq h.times]

theorem onValues_hasNext (h : Views k r r') : onValues Decoder.hasNext r = .ok r'.values.hasNext r := by
  unfold onValues
  rw [Decoder.hasNext_eq h.values]

/-! ## Points -/

/-- The time stream has INT64 values only. -/
theorem matches_nextTime (h : Views k r r') :
    Matches (fun t t' x x' => t = t' ∧ x.remaining = r.remaining ∧ Views k x x') (Views k) (nextTime r)
      (Chronicle.PageReader.nextTime r') := by
  have hnext : Matches (fun v v' d d' => (v = v' ∧ v.dataType = .int64) ∧ Decoder.Views k.times k.timeRoom d d')
      (Decoder.Views k.times k.timeRoom) (Decoder.next r.times) (Chronicle.Decoder.next r'.times) := by
    refine (Decoder.matches_next h.times).with_right.mono ?_ fun _ _ => id
    rintro v _ d d' ⟨⟨rfl, hd⟩, hv⟩
    refine ⟨⟨rfl, ?_⟩, hd⟩
    rw [Chronicle.Decoder.dataType_of_next hv, ← k.int64_times]
    exact congrArg Codec.dataType h.times.state.codec_eq
  refine (matches_onTimes h hnext).bind ?_
  rintro v _ x x' ⟨⟨rfl, htype⟩, hremaining, hx⟩
  cases v with
  | int64 t => exact .ok ⟨rfl, hremaining, hx⟩
  | _ => cases htype

theorem matches_point (h : Views k r r') (hpos : 1 ≤ r.remaining) :
    Matches (fun p p' x x' => p = p' ∧ Views k x x') (Views k) (point r) (Chronicle.PageReader.point r') := by
  refine (matches_nextTime h).bind ?_
  rintro time _ x x' ⟨rfl, hx, hxv⟩
  refine (matches_onValues hxv (Decoder.matches_next hxv.values)).bind ?_
  rintro v _ y y' ⟨rfl, hy, hyv⟩
  have hone : (1 : UInt64) ≤ y.remaining := by
    rw [hy, hx]
    exact hpos
  rw [get_bind, bind_of_eq (Guarded.minus_eq hone)]
  refine .ok ⟨rfl, hyv.times, hyv.values, ?_⟩
  show y'.remaining - 1 = (y.remaining - 1).toNat
  rw [hyv.remaining_eq, UInt64.toNat_sub_of_le _ _ hone]
  rfl

/-- The bytes that both streams have left can be counted. -/
theorem finish_eq (h : Views k r r') :
    finish r =
      if 0 < r'.times.bytes.length + r'.values.bytes.length then
        .error (.failed (.malformed (.bytesAfterPoints (r'.times.bytes.length + r'.values.bytes.length)))) r
      else .ok () r := by
  obtain ⟨htimes, htlength⟩ := h.times.bytes
  obtain ⟨hvalues, hvlength⟩ := h.values.bytes
  have hsum : r.times.bytes.length + r.values.bytes.length < 2 ^ 64 :=
    Nat.lt_of_le_of_lt (Nat.add_le_add htlength hvlength) k.countable
  have htword : (UInt64.ofNat r.times.bytes.length).toNat = r.times.bytes.length :=
    UInt64.toNat_ofNat_of_lt' (Nat.lt_of_le_of_lt (Nat.le_add_right _ _) hsum)
  have hvword : (UInt64.ofNat r.values.bytes.length).toNat = r.values.bytes.length :=
    UInt64.toNat_ofNat_of_lt' (Nat.lt_of_le_of_lt (Nat.le_add_left _ _) hsum)
  have hroom : (UInt64.ofNat r.times.bytes.length).toNat + (UInt64.ofNat r.values.bytes.length).toNat < 2 ^ 64 := by
    rw [htword, hvword]
    exact hsum
  have hleft : (UInt64.ofNat r.times.bytes.length + UInt64.ofNat r.values.bytes.length).toNat =
      r.times.bytes.length + r.values.bytes.length := by
    rw [UInt64.toNat_add, Nat.mod_eq_of_lt hroom, htword, hvword]
  unfold finish
  rw [get_bind, bind_of_eq (Guarded.plus64_eq hroom), htimes, hvalues]
  by_cases hpos : 0 < r.times.bytes.length + r.values.bytes.length
  · rw [if_pos hpos, if_pos (by rw [UInt64.lt_iff_toNat_lt, hleft]; exact hpos), hleft]
    rfl
  · rw [if_neg hpos, if_neg (by rw [UInt64.lt_iff_toNat_lt, hleft]; exact hpos)]
    rfl

theorem matches_next (h : Views k r r') :
    Matches (fun p p' x x' => p = p' ∧ Views k x x') (Views k) (next r) (Chronicle.PageReader.next r') := by
  have hzero : r'.remaining = 0 ↔ r.remaining = 0 := by
    rw [h.remaining_eq, ← UInt64.toNat_inj]
    rfl
  rw [Chronicle.PageReader.next_eq]
  unfold next
  rw [get_bind]
  by_cases hnone : r.remaining = 0
  · rw [if_pos hnone, if_pos (hzero.mpr hnone)]
    have hfinish := finish_eq h
    by_cases hleft : 0 < r'.times.bytes.length + r'.values.bytes.length
    · rw [if_pos hleft] at hfinish ⊢
      rw [bind_of_error hfinish]
      exact .error h
    · rw [if_neg hleft] at hfinish ⊢
      rw [bind_of_eq hfinish]
      exact .ok ⟨rfl, h⟩
  · have hpos : 1 ≤ r.remaining := by
      rw [UInt64.le_iff_toNat_le]
      exact Nat.pos_of_ne_zero fun h => hnone (UInt64.toNat_inj.mp h)
    rw [if_neg hnone, if_neg fun h => hnone (hzero.mp h), bind_of_eq (onTimes_hasNext h)]
    cases r'.times.hasNext with
    | false => exact .error h
    | true =>
      rw [if_neg (by decide)]
      dsimp only
      rw [bind_of_eq (onValues_hasNext h)]
      cases r'.values.hasNext with
      | false => exact .error h
      | true =>
        rw [if_neg (by decide), Bool.and_self, if_pos rfl]
        refine (matches_point h hpos).map ?_
        rintro p _ x x' ⟨rfl, hx⟩
        exact ⟨rfl, hx⟩

/-- Any number of calls for the next point, behind whatever the calls before have answered. -/
theorem nexts_eq (h : Views k r r') (count : Nat) : r.nexts count = .ok (r'.nexts count) := by
  induction count generalizing r r' with
  | zero => rfl
  | succ count ih =>
    have hnext := matches_next h
    unfold nexts Chronicle.PageReader.nexts
    generalize next r = o at hnext
    generalize Chronicle.PageReader.next r' = o' at hnext
    cases hnext with
    | ok hq =>
      obtain ⟨rfl, hviews⟩ := hq
      show (do return _ :: (← nexts _ count) : Except Trap (List (Except CodecError (Option (Int64 × Value))))) = _
      rw [ih hviews]
      rfl
    | error hviews =>
      show (do return _ :: (← nexts _ count) : Except Trap (List (Except CodecError (Option (Int64 × Value))))) = _
      rw [ih hviews]
      rfl

/-! ## Readers of pages -/

theorem length_of_uncompress [Snappy.Library] {c : Compressor} {data body : Bytes} {length : Nat}
    (h : c.uncompress data length = .ok body) : body.length = length := by
  have hcheck {content : Bytes} (h : (if content.length = length then .ok content
      else .error (.malformed (.bodyLength content.length length)) : Except CodecError Bytes) = .ok body) : body.length = length := by
    by_cases hlength : content.length = length
    · rw [if_pos hlength] at h
      cases h
      exact hlength
    · rw [if_neg hlength] at h
      cases h
  cases c with
  | uncompressed => exact hcheck h
  | snappy =>
    obtain ⟨content, -, hcontent⟩ := exists_of_bind_eq_ok (m := Compressor.expand data length) h
    exact hcheck hcontent

theorem slice_eq {bytes : Bytes} {count : Nat} (h : count ≤ bytes.length) :
    slice bytes 0 count = .ok (bytes.take count) ∧ slice bytes count bytes.length = .ok (bytes.drop count) := by
  unfold slice
  rw [if_pos ⟨Nat.zero_le _, h⟩, if_pos ⟨h, Nat.le_refl _⟩, List.take_length]
  exact ⟨rfl, rfl⟩

section OfPage

variable [Snappy.Library] {p : Page} {body : Bytes} (hbody : p.header.compressor.uncompress p.data p.header.bodyLength = .ok body)

include hbody

theorem ofPage_of_short (h : body.length < p.header.timeLength) :
    ofPage p = .error (.failed (.malformed (.timeStreamBeyondBody p.header.timeLength body.length))) ∧
      Chronicle.PageReader.ofPage p = .error (.malformed (.timeStreamBeyondBody p.header.timeLength body.length)) := by
  unfold ofPage Chronicle.PageReader.ofPage
  dsimp only
  rw [hbody]
  refine ⟨?_, ?_⟩
  · exact if_pos h
  · exact if_pos h

theorem ofPage_of_body (h : p.header.timeLength ≤ body.length) :
    ofPage p = (do
        let times ← Halt.ofExcept (Decoder.new .int64 p.header.timeEncoding (body.take p.header.timeLength))
        let values ← Halt.ofExcept (Decoder.new p.header.dataType p.header.valueEncoding (body.drop p.header.timeLength))
        return { times, values, remaining := p.statistics.count }) ∧
      Chronicle.PageReader.ofPage p = (do
        let times ← Chronicle.Decoder.new .int64 p.header.timeEncoding (body.take p.header.timeLength)
        let values ← Chronicle.Decoder.new p.header.dataType p.header.valueEncoding (body.drop p.header.timeLength)
        return { times, values, remaining := p.pointCount }) := by
  have hnot := Nat.not_lt.mpr h
  obtain ⟨htimes, hvalues⟩ := slice_eq h
  unfold ofPage Chronicle.PageReader.ofPage
  dsimp only
  rw [hbody]
  refine ⟨?_, ?_⟩
  · refine (if_neg hnot).trans ?_
    rw [htimes, hvalues]
    rfl
  · exact if_neg hnot

end OfPage

/-- Both readers of a page fail with the same error, or both stand at the first point. -/
theorem ofPage_views [Snappy.Library] {p : Page} (h : p.header.bodyLength < 2 ^ 64) :
    (∃ fault, ofPage p = .error (.failed fault) ∧ Chronicle.PageReader.ofPage p = .error fault) ∨
      ∃ k r r', ofPage p = .ok r ∧ Chronicle.PageReader.ofPage p = .ok r' ∧ Views k r r' := by
  cases hbody : p.header.compressor.uncompress p.data p.header.bodyLength with
  | error fault =>
    refine .inl ⟨fault, ?_, ?_⟩
    · unfold ofPage
      dsimp only
      rw [hbody]
      rfl
    · unfold Chronicle.PageReader.ofPage
      dsimp only
      rw [hbody]
      rfl
  | ok body =>
    have hlength := length_of_uncompress hbody
    by_cases hshort : body.length < p.header.timeLength
    · exact .inl ⟨_, ofPage_of_short hbody hshort⟩
    · have hle := Nat.le_of_not_lt hshort
      obtain ⟨hmachine, hpage⟩ := ofPage_of_body hbody hle
      rw [hmachine, hpage]
      unfold Decoder.new Chronicle.Decoder.new
      cases htime : Codec.require .int64 p.header.timeEncoding with
      | error fault => exact .inl ⟨fault, rfl, rfl⟩
      | ok times =>
        cases hvalue : Codec.require p.header.dataType p.header.valueEncoding with
        | error fault => exact .inl ⟨fault, rfl, rfl⟩
        | ok values =>
          have hcountable : (body.take p.header.timeLength).length + (body.drop p.header.timeLength).length < 2 ^ 64 := by
            rw [List.length_take, List.length_drop]
            omega
          exact .inr ⟨⟨times, values, _, _, (Codec.require_eq_ok_iff.mp htime).1, hcountable⟩, _, _, rfl, rfl,
            Decoder.ofCodec_views times _, Decoder.ofCodec_views values _, rfl⟩

end PageReader

/-- No bytes trap a reading: what the machine answers is what is answered without words, an error or
    a result. That holds of pages, of any number of calls for the points of a page that has been
    read, and of any calls to a decoder, also behind calls that have failed. -/
theorem reading_never_traps [Snappy.Library] :
    (∀ bytes, Guarded.answer (Page.read bytes) = .ok (Reading.answer (Chronicle.Page.pull bytes)) ∧
      Page.ofBytes bytes = .ok (Chronicle.Page.ofBytes bytes)) ∧
    (∀ bytes rest p, Chronicle.Page.pull bytes = .ok p rest →
      (∃ fault, PageReader.ofPage p = .error (.failed fault) ∧ Chronicle.PageReader.ofPage p = .error fault) ∨
      ∃ r r', PageReader.ofPage p = .ok r ∧ Chronicle.PageReader.ofPage p = .ok r' ∧
        ∀ count, r.nexts count = .ok (r'.nexts count)) ∧
    ∀ t encoding, encoding ∈ DataType.encodings t → ∀ bytes calls,
      ∃ d d', Decoder.new t encoding bytes = .ok d ∧ Chronicle.Decoder.new t encoding bytes = .ok d' ∧
        d.answers calls = .ok (d'.answers calls) := by
  refine ⟨?_, ?_, ?_⟩
  · intro bytes
    exact ⟨Page.read_eq bytes, Page.ofBytes_eq bytes⟩
  · intro bytes rest p hp
    rcases PageReader.ofPage_views (Page.bodyLength_lt hp) with hfault | ⟨k, r, r', hr, hr', hviews⟩
    · exact .inl hfault
    · exact .inr ⟨r, r', hr, hr', PageReader.nexts_eq hviews⟩
  · intro t encoding he bytes calls
    obtain ⟨c, hc, -⟩ := Codec.require_of_mem he
    exact ⟨_, _, Decoder.new_of_require hc bytes, Chronicle.Decoder.new_of_require hc bytes,
      Decoder.answers_eq (Decoder.ofCodec_views c bytes) calls⟩

/-- A page of one point whose value is no boolean: the first call meets that, and the second one
    finds no bytes. -/
theorem reading_never_traps_boolean :
    ∃ p r, Chronicle.Page.pull ([0, 0, 0, 0, 9, 9, 8] ++ [1] ++ List.replicate 16 0 ++ [1, 1, 1] ++ List.replicate 8 0 ++ [7]) =
        .ok p [] ∧
      PageReader.ofPage p = .ok r ∧ r.nexts 2 = .ok [.error (.malformed (.booleanByte 7)), .error .underflow] := by
  obtain ⟨-, hpoints, -⟩ := reading_never_traps
  have hp : Chronicle.Page.pull ([0, 0, 0, 0, 9, 9, 8] ++ [1] ++ List.replicate 16 0 ++ [1, 1, 1] ++ List.replicate 8 0 ++ [7]) =
      .ok ⟨⟨.boolean, .plain, .plain, .uncompressed, 9, 9, 8⟩, ⟨.boolean, some ⟨1, 0, 0, .boolean true true 1⟩⟩,
        List.replicate 8 0 ++ [7]⟩ [] := rfl
  rcases hpoints _ _ _ hp with ⟨fault, -, hfault⟩ | ⟨r, r', hr, hr', hnexts⟩
  · cases hfault
  · cases hr'
    exact ⟨_, r, hp, hr, hnexts 2⟩

end Machine

end Chronicle
