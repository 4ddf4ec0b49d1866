/-
  Chronicle.Proofs.Page.SideBySide — the points of a page from its two streams, each read alone.

  What a decoder gives until it ends is a list of values and at most one error (`outcomes`). Of two such
  lists and a count, `Pairs` says what the reader of a page has to answer, point by point:
  - it looks whether both streams have something before it reads either,
  - it reads the timestamp first, so of two errors at one point that of the timestamp is the answer,
  - it minds unread bytes only behind the last point, and
  - behind an error there is nothing.

  `points_are_pairs` is that it does so. The streams may be any bytes; they need not have been written, nor be
  of the same length.
-/

import Chronicle.Proofs.Page.Count
import Chronicle.Proofs.Stream.Calls

namespace Chronicle

open Reading

def Harvest.outcomes {σ α : Type} (h : Harvest σ α) : List (Except CodecError α) :=
  h.items.map .ok ++
    match h.ending with
    | .failed e => [.error e]
    | _ => []

/-! ## One stream -/

namespace Decoder

variable {d e : Decoder} {v : Value} {fault : CodecError}

theorem outcomes_of_yields {values : List Value} {ending : Ending} (h : Yields next hasNext d values ending) :
    d.drainAll.outcomes = (⟨values, ending, d⟩ : Harvest Decoder Value).outcomes := by
  obtain ⟨hitems, hending⟩ := drainAll_of_yields h
  rw [Harvest.outcomes, hitems, hending]
  rfl

theorem outcomes_of_not_hasNext (h : d.hasNext = false) : d.drainAll.outcomes = [] :=
  outcomes_of_yields (.finished h)

theorem outcomes_of_error (hmore : d.hasNext = true) (h : next d = .error fault e) :
    d.drainAll.outcomes = [.error fault] :=
  outcomes_of_yields (.failed hmore h)

theorem outcomes_of_ok (hmore : d.hasNext = true) (h : next d = .ok v e) :
    d.drainAll.outcomes = .ok v :: e.drainAll.outcomes :=
  outcomes_of_yields (.cons hmore h (yields_drainAll e))

theorem outcomes_ne_nil (h : d.hasNext = true) : d.drainAll.outcomes ≠ [] := by
  cases hnext : next d with
  | ok v e =>
    rw [outcomes_of_ok h hnext]
    exact List.cons_ne_nil _ _
  | error fault e =>
    rw [outcomes_of_error h hnext]
    exact List.cons_ne_nil _ _

theorem dataType_of_new {t : DataType} {encoding : Encoding} {bytes : Bytes} (h : new t encoding bytes = .ok d) :
    d.codec.dataType = t := by
  obtain ⟨c, hc, hd⟩ := exists_of_bind_eq_ok h
  cases hd
  obtain ⟨rfl, -⟩ := Codec.require_eq_ok_iff.1 hc
  cases c <;> rfl

def bytesBehind (d : Decoder) (count : Nat) : Nat := (d.drain count).source.bytes.length

theorem bytesBehind_succ (hmore : d.hasNext = true) (h : next d = .ok v e) (count : Nat) :
    d.bytesBehind (count + 1) = e.bytesBehind count := by
  have hstep : step d = .ok (some v) e := by
    rw [step_of_hasNext hmore, map_of_eq h]
  rw [bytesBehind, drain, collect_succ hstep]
  rfl

end Decoder

/-! ## Two streams -/

/-- What is answered for the point number `i`, if there are `count` of them, `times` and `values`
    are what the streams give, and `left` bytes are behind the last point. -/
inductive Pairs (count left : Nat) (times values : List (Except CodecError Value)) (i : Nat) :
    Option (Except CodecError (Int64 × Value)) → Prop
  | point {time : Int64} {v : Value} : i < count → times[i]? = some (.ok (.int64 time)) → values[i]? = some (.ok v) →
      Pairs count left times values i (some (.ok (time, v)))
  /-- One of the streams is over. -/
  | underflow : i < count → times[i]? = none ∨ values[i]? = none →
      Pairs count left times values i (some (.error .underflow))
  | timeFault {e : CodecError} : i < count → times[i]? = some (.error e) → values[i]? ≠ none →
      Pairs count left times values i (some (.error e))
  | valueFault {time : Value} {e : CodecError} : i < count → times[i]? = some (.ok time) →
      values[i]? = some (.error e) → Pairs count left times values i (some (.error e))
  | bytesLeft : i = count → 0 < left → Pairs count left times values i (some (.error (.malformed (.bytesAfterPoints left))))
  | finished : i = count → left = 0 → Pairs count left times values i none

/-- What is answered for a point is answered with one more point in front of it. -/
theorem Pairs.succ {count left i : Nat} {times values : List (Except CodecError Value)}
    {a : Option (Except CodecError (Int64 × Value))} (h : Pairs count left times values i a)
    (time v : Except CodecError Value) : Pairs (count + 1) left (time :: times) (v :: values) (i + 1) a := by
  cases h with
  | point hi ht hv => exact .point (Nat.succ_lt_succ hi) ht hv
  | underflow hi hend => exact .underflow (Nat.succ_lt_succ hi) hend
  | timeFault hi ht hv => exact .timeFault (Nat.succ_lt_succ hi) ht hv
  | valueFault hi ht hv => exact .valueFault (Nat.succ_lt_succ hi) ht hv
  | bytesLeft hi hleft => exact .bytesLeft (congrArg _ hi) hleft
  | finished hi hleft => exact .finished (congrArg _ hi) hleft

namespace PageReader

variable {r r' : PageReader} {p : Int64 × Value}

/-! ## Point by point -/

def bytesBehind (r : PageReader) : Nat := r.times.bytesBehind r.remaining + r.values.bytesBehind r.remaining

theorem item_zero_of_next {p? : Option (Int64 × Value)} (h : next r = .ok p? r') : r.item 0 = p?.map .ok := by
  show (Iteration.next next { source := r }).1 = _
  unfold Iteration.next
  simp only [h]
  cases p? <;> rfl

theorem item_zero_of_error {e : CodecError} (h : next r = .error e r') : r.item 0 = some (.error e) := by
  show (Iteration.next next { source := r }).1 = _
  unfold Iteration.next
  simp only [h]
  rfl

theorem item_succ_of_next (h : next r = .ok (some p) r') (i : Nat) : r.item (i + 1) = r'.item i := by
  show (Iteration.next next { source := r }).2.item next i = _
  unfold Iteration.next
  simp only [h]
  rfl

/-- A point that is given has been read. -/
theorem next_of_item_zero (h : r.item 0 = some (.ok p)) : ∃ r', next r = .ok (some p) r' := by
  cases hnext : next r with
  | ok p? r' =>
    rw [item_zero_of_next hnext] at h
    cases p? with
    | none => cases h
    | some q =>
      cases h
      exact ⟨r', rfl⟩
  | error e r' =>
    rw [item_zero_of_error hnext] at h
    cases h

/-- The error of a point is that of its timestamp, or else that of its value. -/
theorem error_of_point {e : CodecError} (htimes : r.times.codec.dataType = .int64) (h : point r = .error e r') :
    (∃ d, Decoder.next r.times = .error e d) ∨
      ∃ time times d, Decoder.next r.times = .ok (.int64 time) times ∧ Decoder.next r.values = .error e d := by
  obtain ⟨times, values, remaining⟩ := r
  cases htime : Decoder.next times with
  | error fault d =>
    have hread : onTimes Decoder.next ⟨times, values, remaining⟩ = .error fault ⟨d, values, remaining⟩ := by
      simp only [onTimes, htime]
    have hstamp : nextTime ⟨times, values, remaining⟩ = .error fault ⟨d, values, remaining⟩ := by
      rw [nextTime, bind_of_error hread]
    rw [point, bind_of_error hstamp] at h
    cases h
    exact .inl ⟨d, rfl⟩
  | ok v d =>
    have htype : v.dataType = .int64 := (Decoder.dataType_of_next htime).trans htimes
    cases v with
    | int64 time =>
      have hread : onTimes Decoder.next ⟨times, values, remaining⟩ = .ok (.int64 time) ⟨d, values, remaining⟩ := by
        simp only [onTimes, htime]
      have hstamp : nextTime ⟨times, values, remaining⟩ = .ok time ⟨d, values, remaining⟩ := by
        rw [nextTime, bind_of_eq hread]
        rfl
      cases hvalue : Decoder.next values with
      | ok v x =>
        rw [point_of_next htime hvalue] at h
        cases h
      | error fault x =>
        have hread : onValues Decoder.next ⟨d, values, remaining⟩ = .error fault ⟨d, x, remaining⟩ := by
          simp only [onValues, hvalue]
        rw [point, bind_of_eq hstamp, bind_of_error hread] at h
        cases h
        exact .inr ⟨time, d, x, rfl, rfl⟩
    | _ => cases htype

theorem pairs_zero (htimes : r.times.codec.dataType = .int64) :
    Pairs r.remaining r.bytesBehind r.times.drainAll.outcomes r.values.drainAll.outcomes 0 (r.item 0) := by
  by_cases hzero : r.remaining = 0
  · have hbytes : r.bytesBehind = r.times.bytes.length + r.values.bytes.length := by
      rw [bytesBehind, hzero]
      rfl
    have hnext := next_eq r
    rw [if_pos hzero, ← hbytes] at hnext
    by_cases hleft : 0 < r.bytesBehind
    · rw [if_pos hleft] at hnext
      rw [item_zero_of_error hnext]
      exact .bytesLeft hzero.symm hleft
    · rw [if_neg hleft] at hnext
      rw [item_zero_of_next hnext]
      exact .finished hzero.symm (Nat.eq_zero_of_not_pos hleft)
  · have hpos : 0 < r.remaining := Nat.pos_of_ne_zero hzero
    have hnext := next_eq r
    rw [if_neg hzero] at hnext
    by_cases hmore : (r.times.hasNext && r.values.hasNext) = true
    · rw [if_pos hmore] at hnext
      obtain ⟨hmoreTimes, hmoreValues⟩ := Bool.and_eq_true_iff.1 hmore
      cases hpoint : point r with
      | ok p r' =>
        rw [map_of_eq hpoint] at hnext
        obtain ⟨times, values, htime, hvalue, -⟩ := ok_of_point hpoint
        rw [item_zero_of_next hnext, Decoder.outcomes_of_ok hmoreTimes htime, Decoder.outcomes_of_ok hmoreValues hvalue]
        exact .point hpos rfl rfl
      | error e r' =>
        rw [map_of_error hpoint] at hnext
        rw [item_zero_of_error hnext]
        rcases error_of_point htimes hpoint with ⟨d, htime⟩ | ⟨time, times, d, htime, hvalue⟩
        · rw [Decoder.outcomes_of_error hmoreTimes htime]
          refine .timeFault hpos rfl ?_
          rw [ne_eq, List.getElem?_eq_none_iff, Nat.le_zero, List.length_eq_zero_iff]
          exact Decoder.outcomes_ne_nil hmoreValues
        · rw [Decoder.outcomes_of_ok hmoreTimes htime, Decoder.outcomes_of_error hmoreValues hvalue]
          exact .valueFault hpos rfl rfl
    · rw [if_neg hmore] at hnext
      rw [item_zero_of_error hnext]
      refine .underflow hpos ?_
      rcases Bool.and_eq_false_iff.1 (Bool.eq_false_iff.2 hmore) with hnone | hnone
      · exact .inl (by rw [Decoder.outcomes_of_not_hasNext hnone]; rfl)
      · exact .inr (by rw [Decoder.outcomes_of_not_hasNext hnone]; rfl)

/-- As long as points are given, the next answer is that for the next items of the streams. -/
theorem pairs_item (htimes : r.times.codec.dataType = .int64) {i : Nat}
    (h : ∀ j, j < i → ∃ p, r.item j = some (.ok p)) :
    Pairs r.remaining r.bytesBehind r.times.drainAll.outcomes r.values.drainAll.outcomes i (r.item i) := by
  induction i generalizing r with
  | zero => exact pairs_zero htimes
  | succ i ih =>
    obtain ⟨p, hp⟩ := h 0 (Nat.succ_pos i)
    obtain ⟨r', hnext⟩ := next_of_item_zero hp
    obtain ⟨hmore, hpoint⟩ := more_of_next hnext
    obtain ⟨times, values, htime, hvalue, rfl⟩ := ok_of_point hpoint
    simp only [more, Bool.and_eq_true, decide_eq_true_eq] at hmore
    obtain ⟨hpos, hmoreTimes, hmoreValues⟩ := hmore
    have hcodec : times.codec = r.times.codec := (Decoder.keeps_codec_next _).ok rfl htime
    have hlater := ih (r := ⟨times, values, r.remaining - 1⟩) (by rw [hcodec]; exact htimes) fun j hj => by
      rw [← item_succ_of_next hnext]
      exact h (j + 1) (Nat.succ_lt_succ hj)
    have hcount : r.remaining = r.remaining - 1 + 1 := by omega
    have hbytes : r.bytesBehind = bytesBehind ⟨times, values, r.remaining - 1⟩ := by
      rw [bytesBehind, hcount, Decoder.bytesBehind_succ hmoreTimes htime, Decoder.bytesBehind_succ hmoreValues hvalue]
      rfl
    rw [item_succ_of_next hnext, hbytes, hcount, Decoder.outcomes_of_ok hmoreTimes htime,
      Decoder.outcomes_of_ok hmoreValues hvalue]
    exact hlater.succ _ _

/-! ## Pages -/

/-- The points of a page that can be opened are pairs of what its two streams give to decoders of
    their own, as many as the page counts, up to the first answer that is no point. Behind that one
    nothing is given any more. -/
theorem points_are_pairs [Snappy.Library] {p : Page} {r : PageReader} (hr : ofPage p = .ok r) :
    ∃ body times values, p.header.compressor.uncompress p.data p.header.bodyLength = .ok body ∧
      Decoder.new .int64 p.header.timeEncoding (body.take p.header.timeLength) = .ok times ∧
      Decoder.new p.header.dataType p.header.valueEncoding (body.drop p.header.timeLength) = .ok values ∧
      (∀ i, (∀ j, j < i → ∃ q, r.item j = some (.ok q)) →
        Pairs p.pointCount (times.bytesBehind p.pointCount + values.bytesBehind p.pointCount)
          times.drainAll.outcomes values.drainAll.outcomes i (r.item i)) ∧
      ∀ i j, (∀ q, r.item i ≠ some (.ok q)) → i < j → r.item j = none := by
  obtain ⟨body, hbody, htimes, hvalues, hcount⟩ := ofPage_eq_ok hr
  refine ⟨body, r.times, r.values, hbody, htimes, hvalues, ?_, ?_⟩
  · intro i h
    rw [← hcount]
    exact pairs_item (Decoder.dataType_of_new htimes) h
  · intro i j h hj
    exact Iteration.item_of_ended h hj

/-- A page that counts two points has one timestamp and one boolean. -/
theorem points_are_pairs_short :
    ∃ r times values, ofPage ⟨⟨.boolean, .plain, .plain, .uncompressed, 9, 9, 8⟩,
        ⟨.boolean, some ⟨2, 5, 6, .boolean true true 2⟩⟩, [0, 0, 0, 0, 0, 0, 0, 5, 1]⟩ = .ok r ∧
      Decoder.new .int64 .plain [0, 0, 0, 0, 0, 0, 0, 5] = .ok times ∧ Decoder.new .boolean .plain [1] = .ok values ∧
      r.item 0 = some (.ok (5, .boolean true)) ∧ r.item 1 = some (.error .underflow) ∧
      Pairs 2 (times.bytesBehind 2 + values.bytesBehind 2) times.drainAll.outcomes values.drainAll.outcomes 1 (r.item 1) ∧
      ∀ j, 1 < j → r.item j = none := by
  have hr : ofPage ⟨⟨.boolean, .plain, .plain, .uncompressed, 9, 9, 8⟩,
      ⟨.boolean, some ⟨2, 5, 6, .boolean true true 2⟩⟩, [0, 0, 0, 0, 0, 0, 0, 5, 1]⟩ =
        .ok ⟨.ofCodec (.plain .int64) [0, 0, 0, 0, 0, 0, 0, 5], .ofCodec (.plain .boolean) [1], 2⟩ := rfl
  have hpoint : item ⟨.ofCodec (.plain .int64) [0, 0, 0, 0, 0, 0, 0, 5], .ofCodec (.plain .boolean) [1], 2⟩ 0 =
      some (.ok (5, .boolean true)) := by decide +kernel
  have hend : item ⟨.ofCodec (.plain .int64) [0, 0, 0, 0, 0, 0, 0, 5], .ofCodec (.plain .boolean) [1], 2⟩ 1 =
      some (.error .underflow) := by decide +kernel
  obtain ⟨body, times, values, hbody, htimes, hvalues, hpairs, hnone⟩ := points_are_pairs hr
  cases hbody
  refine ⟨_, times, values, hr, htimes, hvalues, hpoint, hend, hpairs 1 ?_, fun j => hnone 1 j ?_⟩
  · intro j hj
    obtain rfl : j = 0 := Nat.lt_one_iff.1 hj
    exact ⟨_, hpoint⟩
  · intro q
    rw [hend]
    exact nofun

end PageReader

end Chronicle
