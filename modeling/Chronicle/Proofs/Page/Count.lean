/-
  Chronicle.Proofs.Page.Count — the count of a page and what its streams hold.

  A reader gives all points of a page exactly if each stream has as many values as there are points, one
  after another, and no bytes behind the last of them (`readAll_eq_ok_iff`). A point is a value of each
  stream, and counts down, so a run of points is a run of each (`runs_of_run_point`).

  Bytes are all that it looks for: of a run or a block that its decoder has taken in, it does not see the
  values that are still to come.
  - Where a decoder holds none of them, as one for PLAIN never does, the streams hold the points and nothing
    else (`drains_of_readAll`).
  - Where it does, there may be more, and the page is read without an error all the same
    (`a_pending_run_is_not_seen`).
-/

import Chronicle.Proofs.Page.Reader

namespace Chronicle

open Reading

namespace PageReader

variable {r r' : PageReader} {p : Int64 × Value} {points : List (Int64 × Value)}

/-! ## Point by point -/

theorem ok_of_onTimes {α : Type} {m : Reading Decoder α} {a : α} (h : onTimes m r = .ok a r') :
    ∃ d, m r.times = .ok a d ∧ r' = { r with times := d } := by
  unfold onTimes at h
  cases hm : m r.times with
  | ok b d =>
    rw [hm] at h
    cases h
    exact ⟨d, rfl, rfl⟩
  | error e d =>
    rw [hm] at h
    cases h

theorem ok_of_onValues {α : Type} {m : Reading Decoder α} {a : α} (h : onValues m r = .ok a r') :
    ∃ d, m r.values = .ok a d ∧ r' = { r with values := d } := by
  unfold onValues at h
  cases hm : m r.values with
  | ok b d =>
    rw [hm] at h
    cases h
    exact ⟨d, rfl, rfl⟩
  | error e d =>
    rw [hm] at h
    cases h

theorem ok_of_nextTime {time : Int64} (h : nextTime r = .ok time r') :
    ∃ d, Decoder.next r.times = .ok (.int64 time) d ∧ r' = { r with times := d } := by
  obtain ⟨v, t, hv, h⟩ := ok_of_bind h
  cases v with
  | int64 time' =>
    cases h
    exact ok_of_onTimes hv
  | _ => cases h

/-- A point is a value of each stream. -/
theorem ok_of_point (h : point r = .ok p r') :
    ∃ times values, Decoder.next r.times = .ok (.int64 p.1) times ∧ Decoder.next r.values = .ok p.2 values ∧
      r' = ⟨times, values, r.remaining - 1⟩ := by
  obtain ⟨time, s, htime, h⟩ := ok_of_bind h
  obtain ⟨times, htimes, rfl⟩ := ok_of_nextTime htime
  obtain ⟨v, s, hv, h⟩ := ok_of_bind h
  obtain ⟨values, hvalues, rfl⟩ := ok_of_onValues hv
  cases h
  exact ⟨times, values, htimes, hvalues, rfl⟩

/-- A run of points is a run of each stream, and counts down. -/
theorem runs_of_run_point (h : Run point more r points r') :
    r.remaining = points.length + r'.remaining ∧
      Run Decoder.next Decoder.hasNext r.times (points.map fun p => .int64 p.1) r'.times ∧
      Run Decoder.next Decoder.hasNext r.values (points.map Prod.snd) r'.values := by
  induction h with
  | nil r => exact ⟨(Nat.zero_add _).symm, .nil _, .nil _⟩
  | cons hmore hpoint _ ih =>
    obtain ⟨hcount, htimes, hvalues⟩ := ih
    obtain ⟨times, values, hnextTime, hnextValue, rfl⟩ := ok_of_point hpoint
    simp only [more, Bool.and_eq_true, decide_eq_true_eq] at hmore
    obtain ⟨hpos, hmoreTimes, hmoreValues⟩ := hmore
    refine ⟨?_, .cons hmoreTimes hnextTime htimes, .cons hmoreValues hnextValue hvalues⟩
    rw [List.length_cons]
    dsimp only at hcount
    omega

theorem more_of_next (h : next r = .ok (some p) r') : more r = true ∧ point r = .ok p r' := by
  rw [next_eq] at h
  by_cases hzero : r.remaining = 0
  · rw [if_pos hzero] at h
    split at h <;> cases h
  · rw [if_neg hzero] at h
    by_cases hmore : (r.times.hasNext && r.values.hasNext) = true
    · rw [if_pos hmore] at h
      obtain ⟨q, s, hpoint, h⟩ := ok_of_bind h
      cases h
      exact ⟨by simp [more, Nat.pos_of_ne_zero hzero, hmore], hpoint⟩
    · rw [if_neg hmore] at h
      cases h

/-- A reader comes to its end where no point and no byte is left. -/
theorem spent_of_next (h : next r = .ok none r') : r.remaining = 0 ∧ r.times.bytes = [] ∧ r.values.bytes = [] := by
  rw [next_eq] at h
  by_cases hzero : r.remaining = 0
  · rw [if_pos hzero] at h
    by_cases hbytes : 0 < r.times.bytes.length + r.values.bytes.length
    · rw [if_pos hbytes] at h
      cases h
    · rw [Nat.not_lt, Nat.le_zero, Nat.add_eq_zero_iff] at hbytes
      exact ⟨hzero, List.eq_nil_of_length_eq_zero hbytes.1, List.eq_nil_of_length_eq_zero hbytes.2⟩
  · rw [if_neg hzero] at h
    split at h
    · obtain ⟨q, s, -, h⟩ := ok_of_bind h
      cases h
    · cases h

/-! ## All points -/

/-- A reader gives these points exactly if they are as many as are counted, and each stream
    gives its part of them and has no bytes behind it. -/
theorem readAll_eq_ok_iff :
    r.readAll = .ok points ↔
      points.length = r.remaining ∧ ∃ times values,
        Run Decoder.next Decoder.hasNext r.times (points.map fun p => .int64 p.1) times ∧
        Run Decoder.next Decoder.hasNext r.values (points.map Prod.snd) values ∧
        times.bytes = [] ∧ values.bytes = [] := by
  constructor
  · intro h
    have hlimit (items : List (Int64 × Value)) (t : PageReader) (hrun : Run point more r items t) :
        items.length < r.remaining + 1 := by
      have := (runs_of_run_point hrun).1
      omega
    have hstep (s : PageReader) (q : Int64 × Value) (t : PageReader) (hs : next s = .ok (some q) t) :
        more s = true ∧ point s = .ok q t := more_of_next hs
    obtain ⟨t, hrun, hend⟩ := collect_cases hstep hlimit
    obtain ⟨hcount, htimes, hvalues⟩ := runs_of_run_point hrun
    unfold readAll drain at h
    rcases hend with ⟨hnone, hfinished⟩ | ⟨e, -, hfailed⟩
    · obtain ⟨hzero, htimesEnd, hvaluesEnd⟩ := spent_of_next hnone
      simp only [hfinished] at h
      cases h
      exact ⟨by omega, t.times, t.values, htimes, hvalues, htimesEnd, hvaluesEnd⟩
    · simp only [hfailed] at h
      cases h
  · rintro ⟨hcount, times, values, htimes, hvalues, htimesEnd, hvaluesEnd⟩
    have h := readAll_of_runs htimes hvalues htimesEnd hvaluesEnd
    rw [hcount] at h
    exact h

/-- A reader of a page has read nothing of its two streams. -/
theorem ofPage_eq_ok [Snappy.Library] {p : Page} (h : ofPage p = .ok r) :
    ∃ body, p.header.compressor.uncompress p.data p.header.bodyLength = .ok body ∧
      Decoder.new .int64 p.header.timeEncoding (body.take p.header.timeLength) = .ok r.times ∧
      Decoder.new p.header.dataType p.header.valueEncoding (body.drop p.header.timeLength) = .ok r.values ∧
      r.remaining = p.pointCount := by
  obtain ⟨body, hbody, h⟩ := exists_of_bind_eq_ok h
  by_cases hlong : body.length < p.header.timeLength
  · rw [if_pos hlong] at h
    cases h
  · rw [if_neg hlong] at h
    obtain ⟨times, htimes, h⟩ := exists_of_bind_eq_ok h
    obtain ⟨values, hvalues, h⟩ := exists_of_bind_eq_ok h
    cases h
    exact ⟨body, hbody, htimes, hvalues, rfl⟩

/-- If the points of a page can be read, they are as many as it counts, and they are the
    beginning of what each stream gives when it is read alone. They are all of it exactly if
    the decoder holds nothing more behind the last point; only of its bytes this is sure. -/
theorem drains_of_readAll [Snappy.Library] {p : Page} (hr : ofPage p = .ok r) (h : r.readAll = .ok points) :
    ∃ body times values, p.header.compressor.uncompress p.data p.header.bodyLength = .ok body ∧
      Decoder.new .int64 p.header.timeEncoding (body.take p.header.timeLength) = .ok r.times ∧
      Decoder.new p.header.dataType p.header.valueEncoding (body.drop p.header.timeLength) = .ok r.values ∧
      points.length = p.pointCount ∧
      Run Decoder.next Decoder.hasNext r.times (points.map fun q => .int64 q.1) times ∧ times.bytes = [] ∧
      Run Decoder.next Decoder.hasNext r.values (points.map Prod.snd) values ∧ values.bytes = [] ∧
      (points.map fun q => Value.int64 q.1) <+: r.times.drainAll.items ∧
      points.map Prod.snd <+: r.values.drainAll.items ∧
      (r.times.drainAll = ⟨points.map fun q => .int64 q.1, .finished, times⟩ ↔ times.hasNext = false) ∧
      (r.values.drainAll = ⟨points.map Prod.snd, .finished, values⟩ ↔ values.hasNext = false) := by
  obtain ⟨body, hbody, hnewTimes, hnewValues, hremaining⟩ := ofPage_eq_ok hr
  obtain ⟨hcount, times, values, htimes, hvalues, htimesEnd, hvaluesEnd⟩ := readAll_eq_ok_iff.1 h
  exact ⟨body, times, values, hbody, hnewTimes, hnewValues, hcount.trans hremaining, htimes, htimesEnd, hvalues,
    hvaluesEnd, Decoder.prefix_drainAll_of_run htimes, Decoder.prefix_drainAll_of_run hvalues,
    Decoder.drainAll_eq_iff htimes, Decoder.drainAll_eq_iff hvalues⟩

/-- A timestamp and a boolean. PLAIN decoders hold nothing, so there is no more of either. -/
theorem drains_of_readAll_boolean :
    ∃ r times values, ofPage ⟨⟨.boolean, .plain, .plain, .uncompressed, 9, 9, 8⟩,
        ⟨.boolean, some ⟨1, 5, 5, .boolean true true 1⟩⟩, [0, 0, 0, 0, 0, 0, 0, 5, 1]⟩ = .ok r ∧
      r.readAll = .ok [(5, .boolean true)] ∧
      r.times.drainAll = ⟨[.int64 5], .finished, times⟩ ∧ r.values.drainAll = ⟨[.boolean true], .finished, values⟩ := by
  have hr : ofPage ⟨⟨.boolean, .plain, .plain, .uncompressed, 9, 9, 8⟩,
      ⟨.boolean, some ⟨1, 5, 5, .boolean true true 1⟩⟩, [0, 0, 0, 0, 0, 0, 0, 5, 1]⟩ =
        .ok ⟨.ofCodec (.plain .int64) [0, 0, 0, 0, 0, 0, 0, 5], .ofCodec (.plain .boolean) [1], 1⟩ := rfl
  have hall : readAll ⟨.ofCodec (.plain .int64) [0, 0, 0, 0, 0, 0, 0, 5], .ofCodec (.plain .boolean) [1], 1⟩ =
      .ok [(5, .boolean true)] := by
    decide +kernel
  obtain ⟨_, times, values, -, -, -, -, hruntimes, htimes, hrunvalues, hvalues, -, -, hdrainTimes, hdrainValues⟩ :=
    drains_of_readAll hr hall
  exact ⟨_, times, values, hr, hall, hdrainTimes.2 (Decoder.not_hasNext_of_run_plain hruntimes htimes),
    hdrainValues.2 (Decoder.not_hasNext_of_run_plain hrunvalues hvalues)⟩

/-- Of runs of two timestamps and of two numbers, a page that counts one point gives the first
    of each, and does not see the others. -/
theorem a_pending_run_is_not_seen :
    ¬ ∀ (p : Page) (r : PageReader) (points : List (Int64 × Value)), ofPage p = .ok r → r.readAll = .ok points →
      r.times.drainAll.items.length = points.length ∧ r.values.drainAll.items.length = points.length := by
  intro hall
  have h := hall ⟨⟨.int64, .runLength, .runLength, .uncompressed, 24, 24, 12⟩,
      ⟨.int64, some ⟨1, 5, 5, .int64 ⟨7, 7, 7, 7, ⟨0x401C000000000000⟩⟩⟩⟩,
      [0x80, 0, 0, 2, 0, 0, 0, 0, 0, 0, 0, 5, 0x80, 0, 0, 2, 0, 0, 0, 0, 0, 0, 0, 7]⟩ _ [(5, .int64 7)] rfl
    (by decide +kernel)
  have hlength := h.1
  revert hlength
  decide +kernel

end PageReader

end Chronicle
