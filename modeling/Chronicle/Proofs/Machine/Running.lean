/-
  Chronicle.Proofs.Machine.Running — statistics that are changed in place.

  Five fields and sentinels hold what `Statistics` say (`Running.of`). Every value is found out
  before anything is stored, so a call leaves what the call on statistics gives, or stops with
  everything as it was.

  Proved.
  - What each call leaves, in one equation (`update_of`, `merge_of`). From there on a call is
    reasoned about on statistics, and no proof looks at the order of the stores again.
  - Whatever calls lead to, failed ones among them, the fields agree with one another
    (`Reachable.exists_reached`), and what is written of them is read back as it is
    (`running_summary_is_read_back`).
  - The number of trues is exact. Summaries whose numbers of trues do not fit together are refused.
    A true for which there is no room is not refused but trapped (`boolean_sums`), which summaries
    that were folded from points never come to, but one that was read can
    (`a_true_too_many_is_no_error`).
-/

import Chronicle.Machine.Running
import Chronicle.Proofs.Machine.Guarded
import Chronicle.Proofs.Summary.Layout

namespace Chronicle.Machine

open Reading

/-- What a call leaves that has an outcome: what came of it, or all as it was before. -/
def leaving {σ τ : Type} (wrap : τ → σ) (before : σ) : Except Halt τ → EStateM.Result Halt σ Unit
  | .ok a => .ok () (wrap a)
  | .error e => .error e before

/-! ## Values -/

section Leaving

variable {σ τ ρ : Type}

/-- A call on a part leaves the whole with that part changed. -/
theorem within_eq {wrap : τ → σ} {inner : τ} {m : Guarded τ Unit} {r : Except Halt τ} (h : m inner = leaving id inner r)
    (s : σ) : within wrap inner m s = leaving wrap (wrap inner) r := by
  unfold within
  rw [h]
  cases r <;> rfl

theorem leaving_map (f : ρ → τ) (wrap : τ → σ) (before : σ) (r : Except Halt ρ) :
    leaving wrap before (do return f (← r)) = leaving (fun a => wrap (f a)) before r := by
  cases r <;> rfl

theorem exists_of_leaving_eq_ok {wrap : τ → σ} {before after : σ} {r : Except Halt τ}
    (h : leaving wrap before r = .ok () after) : ∃ a, r = .ok a ∧ after = wrap a := by
  cases r with
  | ok a =>
    cases h
    exact ⟨a, rfl, rfl⟩
  | error e => cases h

end Leaving

namespace NumericSummary

variable {α σ : Type} [Summed α σ] [LT α] [DecidableLT α]

theorem observe_eq (s : NumericSummary α σ) (v : α) (isFirst isLast : Bool) :
    observe v isFirst isLast s = leaving id s (Halt.ofExcept (s.observe v isFirst isLast)) := by
  unfold observe Chronicle.NumericSummary.observe
  rw [get_bind]
  cases Summed.add α s.sum (Summed.widen v) with
  | error e => rfl
  | ok sum => rfl

theorem absorb_eq (s o : NumericSummary α σ) (isFirst isLast : Bool) :
    absorb o isFirst isLast s = leaving id s (Halt.ofExcept (s.absorb o isFirst isLast)) := by
  unfold absorb Chronicle.NumericSummary.absorb
  rw [get_bind]
  cases Summed.add α s.sum o.sum with
  | error e => rfl
  | ok sum => rfl

variable (wrap : NumericSummary α σ → ValueSummary) (s o : NumericSummary α σ) (v : α) (isFirst isLast : Bool)

theorem within_observe :
    within wrap s (observe v isFirst isLast) (wrap s) =
      leaving id (wrap s) (do return wrap (← Halt.ofExcept (s.observe v isFirst isLast))) := by
  rw [within_eq (observe_eq s v isFirst isLast), leaving_map]
  rfl

theorem within_absorb :
    within wrap s (absorb o isFirst isLast) (wrap s) =
      leaving id (wrap s) (Halt.ofExcept (do return wrap (← s.absorb o isFirst isLast))) := by
  rw [within_eq (absorb_eq s o isFirst isLast), Halt.ofExcept_bind]
  exact (leaving_map wrap id (wrap s) _).symm

end NumericSummary

namespace ValueSummary

theorem absorb_eq (s o : ValueSummary) (isFirst isLast : Bool) :
    absorb o isFirst isLast s = leaving id s (Halt.ofExcept (s.absorb o isFirst isLast)) := by
  cases s with
  | boolean first last trues =>
    cases o with
    | boolean otherFirst otherLast otherTrues =>
      show (if _ then setEnds _ _ _ _ _ _ _ else Guarded.fail _ : Guarded ValueSummary Unit) _ =
        leaving _ _ (Halt.ofExcept (if _ then _ else _))
      split <;> rfl
    | _ => rfl
  | int32 s =>
    cases o with
    | int32 o => exact NumericSummary.within_absorb .int32 s o isFirst isLast
    | _ => rfl
  | int64 s =>
    cases o with
    | int64 o => exact NumericSummary.within_absorb .int64 s o isFirst isLast
    | _ => rfl
  | float s =>
    cases o with
    | float o => exact NumericSummary.within_absorb .float s o isFirst isLast
    | _ => rfl
  | double s =>
    cases o with
    | double o => exact NumericSummary.within_absorb .double s o isFirst isLast
    | _ => rfl
  | text first last => cases o <;> rfl

/-- The number of trues is added to before anything is stored. -/
theorem observe_boolean_eq (first last : Bool) (trues : UInt64) (v isFirst isLast : Bool) :
    observe (.boolean v) isFirst isLast (.boolean first last trues) =
      leaving id (.boolean first last trues)
        ((Chronicle.ValueSummary.boolean first last trues).observe (.boolean v) isFirst isLast) := by
  unfold observe Chronicle.ValueSummary.observe Chronicle.ValueSummary.countTrue
  rw [get_bind]
  by_cases hfits : trues.toNat + v.toUInt64.toNat < 2 ^ 64
  · simp only [if_pos hfits]
    exact bind_of_eq (Guarded.plus64_eq hfits)
  · simp only [if_neg hfits]
    show (Guarded.require _ .sum _ >>= _ : Guarded ValueSummary Unit) _ = _
    unfold Guarded.require
    rw [if_neg hfits]
    rfl

theorem observe_eq (s : ValueSummary) (v : Value) (isFirst isLast : Bool) :
    observe v isFirst isLast s = leaving id s (s.observe v isFirst isLast) := by
  cases s with
  | boolean first last trues =>
    cases v with
    | boolean v => exact observe_boolean_eq first last trues v isFirst isLast
    | _ => rfl
  | int32 s =>
    cases v with
    | int32 v => exact NumericSummary.within_observe .int32 s v isFirst isLast
    | _ => rfl
  | int64 s =>
    cases v with
    | int64 v => exact NumericSummary.within_observe .int64 s v isFirst isLast
    | _ => rfl
  | float s =>
    cases v with
    | float v => exact NumericSummary.within_observe .float s v isFirst isLast
    | _ => rfl
  | double s =>
    cases v with
    | double v => exact NumericSummary.within_observe .double s v isFirst isLast
    | _ => rfl
  | text first last => cases v <;> rfl

end ValueSummary

/-! ## Calls -/

namespace Running

def of (s : Statistics) : Running :=
  match s.summary? with
  | none => .new s.dataType
  | some u => ⟨s.dataType, u.count, u.start, u.stop, some u.values⟩

/-- An empty range gives way to any timestamp. -/
theorem min_maxValue (time : Int64) : min Int64.maxValue time = time := by
  by_cases h : Int64.maxValue ≤ time
  · exact (if_pos h).trans (Int64.le_antisymm h (Int64.le_maxValue time))
  · exact if_neg h

theorem max_minValue (time : Int64) : max Int64.minValue time = time := if_pos (Int64.minValue_le time)

theorem dataType_of (s : Statistics) : (of s).dataType = s.dataType := by
  unfold of
  split <;> rfl

/-- What is stored when values are there: nothing unless count and values are found. -/
theorem store_of (t : DataType) (u : Summary) (count? : Except CodecError UInt64) {m : Guarded ValueSummary Unit}
    {values? : Except Halt ValueSummary} (h : m u.values = leaving id u.values values?) (start stop : Int64) :
    (do
      let count ← .ofExcept count?
      onValues u.values m
      extend start stop count : Guarded Running Unit) (of ⟨t, some u⟩) =
      leaving of (of ⟨t, some u⟩) (do
        let count ← Halt.ofExcept count?
        let values ← values?
        return ⟨t, some ⟨count, min u.start start, max u.stop stop, values⟩⟩) := by
  cases count? with
  | error e => rfl
  | ok count =>
    have hvalues : onValues u.values m (of ⟨t, some u⟩) = _ := within_eq h _
    show (onValues u.values m >>= fun _ => extend start stop count) _ = _
    cases values? with
    | error e => exact bind_of_error hvalues
    | ok values => exact bind_of_eq hvalues

/-- A call for a point does what the statistics say, and nothing if it fails. -/
theorem update_of (s : Statistics) (time : Int64) (v : Value) :
    update time v (of s) = leaving of (of s) (s.update time v) := by
  unfold update Statistics.update
  rw [get_bind]
  by_cases htype : v.dataType = s.dataType
  · simp only [dataType_of, if_neg (not_not_intro htype)]
    obtain ⟨t, _ | u⟩ := s
    · show EStateM.Result.ok () (⟨t, 1, min Int64.maxValue time, max Int64.minValue time, some (.single v)⟩ : Running) = _
      rw [min_maxValue, max_minValue]
      rfl
    · exact store_of t u _ (ValueSummary.observe_eq u.values v _ _) time time
  · simp only [dataType_of, if_pos htype]
    rfl

/-- A call for other statistics does what these and its own say, and nothing if it fails. -/
theorem merge_of (s o : Statistics) : merge (of o) (of s) = leaving of (of s) (Halt.ofExcept (s.merge o)) := by
  unfold merge Statistics.merge
  rw [get_bind]
  by_cases htype : o.dataType = s.dataType
  · simp only [dataType_of, if_neg (not_not_intro htype)]
    obtain ⟨t, _ | u⟩ := s
    · obtain ⟨t', _ | p⟩ := o
      · rfl
      · have hcount : Statistics.addCounts (of ⟨t, none⟩).count (of ⟨t', some p⟩).count = .ok p.count := by
          show Statistics.addCounts 0 p.count = _
          simp [Statistics.addCounts, p.count.toNat_lt]
        show (Guarded.ofExcept (Statistics.addCounts (of ⟨t, none⟩).count (of ⟨t', some p⟩).count) >>= fun count => _) _ = _
        rw [hcount]
        show EStateM.Result.ok () (⟨t, p.count, min Int64.maxValue p.start, max Int64.minValue p.stop, some p.values⟩ :
          Running) = _
        rw [min_maxValue, max_minValue]
        rfl
    · obtain ⟨t', _ | p⟩ := o
      · rfl
      · refine (store_of t u _ (ValueSummary.absorb_eq u.values p.values _ _) p.start p.stop).trans ?_
        simp only [Halt.ofExcept_bind]
        rfl
  · simp only [dataType_of, if_pos htype]
    rfl

/-! ## As bytes -/

theorem toBytes_of (s : Statistics) : (of s).toBytes = s.toBytes := by
  obtain ⟨t, _ | u⟩ := s
  · exact List.append_nil _
  · simp [toBytes, of, Statistics.toBytes, Summary.toBytes]

/-- Reading fields is reading statistics. -/
theorem pull_eq (t : DataType) : pull t = (do return of (← Statistics.pull t)) := by
  unfold pull Statistics.pull Summary.pull
  simp only [bind_assoc]
  congr 1
  funext count
  by_cases hzero : count = 0
  · simp only [if_pos hzero, pure_bind]
    rfl
  · simp only [if_neg hzero, bind_assoc]
    congr 1
    funext _
    congr 1
    funext start
    congr 1
    funext stop
    by_cases hrange : stop < start
    · simp only [if_pos hrange]
      rfl
    · simp only [if_neg hrange, bind_assoc, pure_bind]
      rfl

/-! ## What calls lead to -/

/-- What a call leaves of a summary, however it ends. -/
def after (r : Running) (call : Guarded Running Unit) : Running :=
  match call r with
  | .ok _ r' => r'
  | .error _ r' => r'

/-- The summaries of columns that calls lead to. -/
inductive Reachable : DataType → Running → Prop
  | new (t : DataType) : Reachable t (.new t)
  | read {t : DataType} {bytes rest : Bytes} {r : Running} : pull t bytes = .ok r rest → Reachable t r
  | update {t : DataType} {r : Running} (time : Int64) {v : Value} : Reachable t r → v.Sized →
      Reachable t (r.after (update time v))
  | merge {t t' : DataType} {r o : Running} : Reachable t r → Reachable t' o → Reachable t (r.after (merge o))

theorem after_of {s : Statistics} {call : Guarded Running Unit} {outcome : Except Halt Statistics}
    (h : call (of s) = leaving of (of s) outcome) :
    (∃ r, outcome = .ok r ∧ (of s).after call = of r) ∨ (of s).after call = of s := by
  unfold after
  rw [h]
  cases outcome with
  | ok r => exact .inl ⟨r, rfl, rfl⟩
  | error e => exact .inr rfl

/-- The fields that calls lead to are those of statistics that calls lead to. -/
theorem Reachable.exists_reached {t : DataType} {r : Running} (h : Reachable t r) :
    ∃ s : Statistics, s.Reached t ∧ r = of s := by
  induction h with
  | new t => exact ⟨.empty t, .empty, rfl⟩
  | @read t bytes rest r h =>
    rw [pull_eq] at h
    obtain ⟨s, left, hs, h⟩ := ok_of_bind h
    cases h
    exact ⟨s, .read hs, rfl⟩
  | @update t r time v _ hv ih =>
    obtain ⟨s, hs, rfl⟩ := ih
    rcases after_of (update_of s time v) with ⟨s', hs', hafter⟩ | hafter
    · exact ⟨s', hs.update hv hs', hafter⟩
    · exact ⟨s, hs, hafter⟩
  | @merge t t' r o _ _ ihr iho =>
    obtain ⟨s, hs, rfl⟩ := ihr
    obtain ⟨p, hp, rfl⟩ := iho
    rcases after_of (merge_of s p) with ⟨s', hs', hafter⟩ | hafter
    · rw [Halt.ofExcept_eq_ok] at hs'
      -- Statistics of another column would have been refused.
      have htype : t' = t := hp.sound.dataType.symm.trans ((Statistics.merge_eq_ok hs').1.trans hs.sound.dataType)
      subst htype
      exact ⟨s', hs.merge hp hs', hafter⟩
    · exact ⟨s, hs, hafter⟩

/-- Whatever calls lead to is read back as it was written, the range of an empty summary
    included, and what follows it is left. -/
theorem running_summary_is_read_back {t : DataType} {r : Running} (h : Reachable t r) (rest : Bytes) :
    pull t (r.toBytes ++ rest) = .ok r rest := by
  obtain ⟨s, hs, rfl⟩ := h.exists_reached
  rw [toBytes_of, pull_eq]
  exact map_of_eq (Statistics.pull_toBytes_append hs.sound rest)

/-- A summary of texts into which a point and an empty summary were taken, and an empty summary
    of booleans. -/
theorem running_summary_is_read_back_text :
    pull .text ((((new .text).after (update 7 (.text [0x61]))).after (merge (new .text))).toBytes ++ [0xFF]) =
        .ok ⟨.text, 1, 7, 7, some (.text [0x61] [0x61])⟩ [0xFF] ∧
      pull .boolean ((new .boolean).toBytes ++ [0xFF]) = .ok ⟨.boolean, 0, .maxValue, .minValue, none⟩ [0xFF] := by
  refine ⟨?_, running_summary_is_read_back (.new .boolean) [0xFF]⟩
  refine running_summary_is_read_back (.merge (.update 7 (.new .text) ?_) (.new .text)) [0xFF]
  simp [Value.Sized]

/-! ## Sums of booleans -/

def trues (r : Running) : Nat :=
  match r.values? with
  | some (.boolean _ _ trues) => trues.toNat
  | _ => 0

theorem trues_lt (r : Running) : r.trues < 2 ^ 64 := by
  unfold trues
  split
  · exact UInt64.toNat_lt _
  · decide

/-- A summary of booleans is empty or has values that are booleans. -/
theorem Reachable.booleans {r : Running} (h : Reachable .boolean r) :
    r = of (.empty .boolean) ∨ ∃ count start stop first last trues,
      r = of ⟨.boolean, some ⟨count, start, stop, .boolean first last trues⟩⟩ := by
  obtain ⟨s, hs, rfl⟩ := h.exists_reached
  obtain ⟨t, _ | ⟨count, start, stop, values⟩⟩ := s
  · obtain rfl : t = .boolean := hs.sound.dataType
    exact .inl rfl
  · obtain ⟨htype, hu⟩ := hs.sound
    obtain rfl : t = .boolean := htype
    have hvalues := (hu _ rfl).type
    cases values with
    | boolean first last trues => exact .inr ⟨count, start, stop, first, last, trues, rfl⟩
    | _ => cases hvalues

/-- A boolean more: both the count and the number of trues have to have room for it. -/
theorem update_booleans (count n : UInt64) (start stop time : Int64) (first last b : Bool) :
    update time (.boolean b) ⟨.boolean, count, start, stop, some (.boolean first last n)⟩ =
      if count.toNat + 1 < 2 ^ 64 then
        if n.toNat + b.toNat < 2 ^ 64 then
          .ok () ⟨.boolean, count + 1, min start time, max stop time,
            some (.boolean (if decide (time < start) then b else first) (if decide (stop ≤ time) then b else last)
              (n + b.toUInt64))⟩
        else .error (.trapped .sum) ⟨.boolean, count, start, stop, some (.boolean first last n)⟩
      else .error (.failed (.overflow .pointCount)) ⟨.boolean, count, start, stop, some (.boolean first last n)⟩ := by
  refine (update_of ⟨.boolean, some ⟨count, start, stop, .boolean first last n⟩⟩ time (.boolean b)).trans ?_
  rw [← toNat_toUInt64]
  show leaving of _ (Halt.ofExcept (if count.toNat + 1 < 2 ^ 64 then _ else _) >>= fun count =>
    ((if n.toNat + b.toUInt64.toNat < 2 ^ 64 then _ else _) >>= fun trues => _) >>= fun values => _) = _
  split
  · split <;> rfl
  · rfl

/-- A point adds what it is to the number of trues, if there is room for it. -/
theorem trues_of_update {r : Running} (h : Reachable .boolean r) (time : Int64) {b : Bool}
    (hcount : r.count.toNat + 1 < 2 ^ 64) (htrues : r.trues + b.toNat < 2 ^ 64) :
    ∃ r', update time (.boolean b) r = .ok () r' ∧ r'.trues = r.trues + b.toNat := by
  rcases h.booleans with rfl | ⟨count, start, stop, first, last, n, rfl⟩
  · refine ⟨_, update_of _ _ _, ?_⟩
    show b.toUInt64.toNat = 0 + b.toNat
    rw [toNat_toUInt64, Nat.zero_add]
  · have hfits : n.toNat + b.toNat < 2 ^ 64 := htrues
    refine ⟨_, (update_booleans ..).trans ((if_pos hcount).trans (if_pos hfits)), ?_⟩
    show (n + b.toUInt64).toNat = n.toNat + b.toNat
    rw [UInt64.toNat_add, toNat_toUInt64, Nat.mod_eq_of_lt hfits]

/-- A true that there is no room for is trapped before anything is stored. -/
theorem update_of_brim {r : Running} (h : Reachable .boolean r) (time : Int64) {b : Bool}
    (hcount : r.count.toNat + 1 < 2 ^ 64) (htrues : 2 ^ 64 ≤ r.trues + b.toNat) :
    update time (.boolean b) r = .error (.trapped .sum) r := by
  rcases h.booleans with rfl | ⟨count, start, stop, first, last, n, rfl⟩
  · have hone : b.toNat ≤ 1 := Bool.toNat_le b
    have hown : 2 ^ 64 ≤ 0 + b.toNat := htrues
    omega
  · have hfull : ¬ n.toNat + b.toNat < 2 ^ 64 := Nat.not_lt.2 htrues
    exact (update_booleans ..).trans ((if_pos hcount).trans (if_neg hfull))

theorem update_of_full {r : Running} (h : Reachable .boolean r) (time : Int64) (b : Bool)
    (hcount : 2 ^ 64 ≤ r.count.toNat + 1) : update time (.boolean b) r = .error (.failed (.overflow .pointCount)) r := by
  rcases h.booleans with rfl | ⟨count, start, stop, first, last, n, rfl⟩
  · exact absurd hcount (by decide)
  · exact (update_booleans ..).trans (if_neg (Nat.not_lt.2 hcount))

/-- Two summaries of booleans with points: both counts and both numbers of trues have to fit
    together. -/
theorem merge_booleans (count count' n n' : UInt64) (start stop start' stop' : Int64) (first last first' last' : Bool) :
    merge ⟨.boolean, count', start', stop', some (.boolean first' last' n')⟩
        ⟨.boolean, count, start, stop, some (.boolean first last n)⟩ =
      if count.toNat + count'.toNat < 2 ^ 64 then
        if n.toNat + n'.toNat < 2 ^ 64 then
          .ok () ⟨.boolean, count + count', min start start', max stop stop',
            some (.boolean (if decide (start' < start) then first' else first) (if decide (stop ≤ stop') then last' else last)
              (n + n'))⟩
        else .error (.failed (.overflow .booleanSum)) ⟨.boolean, count, start, stop, some (.boolean first last n)⟩
      else .error (.failed (.overflow .pointCount)) ⟨.boolean, count, start, stop, some (.boolean first last n)⟩ := by
  refine (merge_of ⟨.boolean, some ⟨count, start, stop, .boolean first last n⟩⟩
    ⟨.boolean, some ⟨count', start', stop', .boolean first' last' n'⟩⟩).trans ?_
  show leaving of _ (Halt.ofExcept ((if count.toNat + count'.toNat < 2 ^ 64 then _ else _) >>= fun count =>
    (if n.toNat + n'.toNat < 2 ^ 64 then _ else _) >>= fun values => _)) = _
  split
  · split <;> rfl
  · rfl

/-- Two numbers of trues that fit together are added up, and so are the counts. -/
theorem trues_of_merge {r o : Running} (hr : Reachable .boolean r) (ho : Reachable .boolean o)
    (hcounts : r.count.toNat + o.count.toNat < 2 ^ 64) (htrues : r.trues + o.trues < 2 ^ 64) :
    ∃ r', merge o r = .ok () r' ∧ r'.trues = r.trues + o.trues := by
  rcases hr.booleans with rfl | ⟨count, start, stop, first, last, n, rfl⟩
  · rcases ho.booleans with rfl | ⟨count', start', stop', first', last', n', rfl⟩
    · exact ⟨_, merge_of _ _, rfl⟩
    · exact ⟨_, merge_of _ _, (Nat.zero_add _).symm⟩
  · rcases ho.booleans with rfl | ⟨count', start', stop', first', last', n', rfl⟩
    · exact ⟨_, merge_of _ _, rfl⟩
    · have hsum : n.toNat + n'.toNat < 2 ^ 64 := htrues
      refine ⟨_, (merge_booleans ..).trans ((if_pos hcounts).trans (if_pos hsum)), ?_⟩
      show (n + n').toNat = n.toNat + n'.toNat
      rw [UInt64.toNat_add, Nat.mod_eq_of_lt hsum]

/-- Counts or numbers of trues that do not fit together are refused. -/
theorem merge_of_full {r o : Running} (hr : Reachable .boolean r) (ho : Reachable .boolean o)
    (hfull : 2 ^ 64 ≤ r.count.toNat + o.count.toNat ∨ 2 ^ 64 ≤ r.trues + o.trues) :
    ∃ f, merge o r = .error (.failed (.overflow f)) r := by
  rcases hr.booleans with rfl | ⟨count, start, stop, first, last, n, rfl⟩
  · have hcount := o.count.toNat_lt
    have htrues := o.trues_lt
    have hown : 2 ^ 64 ≤ 0 + o.count.toNat ∨ 2 ^ 64 ≤ 0 + o.trues := hfull
    omega
  · rcases ho.booleans with rfl | ⟨count', start', stop', first', last', n', rfl⟩
    · have hcount := count.toNat_lt
      have htrues := n.toNat_lt
      have hown : 2 ^ 64 ≤ count.toNat + 0 ∨ 2 ^ 64 ≤ n.toNat + 0 := hfull
      omega
    · by_cases hcounts : count.toNat + count'.toNat < 2 ^ 64
      · have hsum : ¬ n.toNat + n'.toNat < 2 ^ 64 := by
          rcases hfull with hfull | hfull
          · exact absurd hcounts (Nat.not_lt.2 hfull)
          · exact Nat.not_lt.2 hfull
        exact ⟨_, (merge_booleans ..).trans ((if_pos hcounts).trans (if_neg hsum))⟩
      · exact ⟨_, (merge_booleans ..).trans (if_neg hcounts)⟩

/-- What calls do to the number of trues of a column. Two summaries are added up exactly, or
    refused, with all as it was, where a sum of 64 bits is not enough. A point is added exactly too,
    or refused where the count is full. But a true that 64 bits have no room for is not refused: it
    is trapped, with all as it was. -/
theorem boolean_sums {r o : Running} (hr : Reachable .boolean r) (ho : Reachable .boolean o) :
    (∀ time b,
      (r.count.toNat + 1 < 2 ^ 64 ∧ r.trues + b.toNat < 2 ^ 64 ∧
        ∃ r', update time (.boolean b) r = .ok () r' ∧ r'.trues = r.trues + b.toNat) ∨
      (r.count.toNat + 1 < 2 ^ 64 ∧ r.trues + b.toNat = 2 ^ 64 ∧
        update time (.boolean b) r = .error (.trapped .sum) r) ∨
      (r.count.toNat + 1 = 2 ^ 64 ∧ update time (.boolean b) r = .error (.failed (.overflow .pointCount)) r)) ∧
    ((r.count.toNat + o.count.toNat < 2 ^ 64 ∧ r.trues + o.trues < 2 ^ 64 ∧
        ∃ r', merge o r = .ok () r' ∧ r'.trues = r.trues + o.trues) ∨
      ((2 ^ 64 ≤ r.count.toNat + o.count.toNat ∨ 2 ^ 64 ≤ r.trues + o.trues) ∧
        ∃ f, merge o r = .error (.failed (.overflow f)) r)) := by
  refine ⟨?_, ?_⟩
  · intro time b
    have hb : b.toNat ≤ 1 := Bool.toNat_le b
    have htrues := r.trues_lt
    by_cases hcount : r.count.toNat + 1 < 2 ^ 64
    · by_cases hfits : r.trues + b.toNat < 2 ^ 64
      · exact .inl ⟨hcount, hfits, trues_of_update hr time hcount hfits⟩
      · exact .inr (.inl ⟨hcount, by omega, update_of_brim hr time hcount (by omega)⟩)
    · have hlt := r.count.toNat_lt
      exact .inr (.inr ⟨by omega, update_of_full hr time b (by omega)⟩)
  · by_cases hfits : r.count.toNat + o.count.toNat < 2 ^ 64 ∧ r.trues + o.trues < 2 ^ 64
    · exact .inl ⟨hfits.1, hfits.2, trues_of_merge hr ho hfits.1 hfits.2⟩
    · have hfull : 2 ^ 64 ≤ r.count.toNat + o.count.toNat ∨ 2 ^ 64 ≤ r.trues + o.trues := by omega
      exact .inr ⟨hfull, merge_of_full hr ho hfull⟩

/-- A summary of one point at the timestamp 0 that says of itself that it has as many trues as
    64 bits can count. -/
def brimming : Running := ⟨.boolean, 1, 0, 0, some (.boolean false false 0xFFFFFFFFFFFFFFFF)⟩

theorem reachable_brimming : Reachable .boolean brimming := by
  have hread : pull .boolean (1 :: List.replicate 18 0 ++ (List.replicate 9 0xFF ++ [1])) = .ok brimming [] := rfl
  exact .read hread

/-- A full number of trues refuses other summaries, and is trapped by one more point, unless that
    is false. -/
theorem boolean_sums_brimming :
    (∃ r', update 1 (.boolean false) brimming = .ok () r' ∧ r'.trues = 2 ^ 64 - 1) ∧
      update 1 (.boolean true) brimming = .error (.trapped .sum) brimming ∧
      ∃ f, merge brimming brimming = .error (.failed (.overflow f)) brimming := by
  obtain ⟨hupdate, hmerge⟩ := boolean_sums reachable_brimming reachable_brimming
  refine ⟨?_, ?_, ?_⟩
  · rcases hupdate 1 false with ⟨-, -, hadded⟩ | ⟨-, htrues, -⟩ | ⟨hcount, -⟩
    · exact hadded
    · exact absurd htrues (by decide)
    · exact absurd hcount (by decide)
  · rcases hupdate 1 true with ⟨-, htrues, -⟩ | ⟨-, -, htrapped⟩ | ⟨hcount, -⟩
    · exact absurd htrues (by decide)
    · exact htrapped
    · exact absurd hcount (by decide)
  · rcases hmerge with ⟨-, htrues, -⟩ | ⟨-, h⟩
    · exact absurd htrues (by decide)
    · exact h

/-- Not every point that the number of trues has no room for is refused: one more true behind the
    greatest sum is no error, and no answer at all. -/
theorem a_true_too_many_is_no_error :
    ¬ ∀ r, Reachable .boolean r → ∀ time b, 2 ^ 64 ≤ r.trues + b.toNat →
      ∃ f, update time (.boolean b) r = .error (.failed (.overflow f)) r := by
  intro hrefused
  obtain ⟨f, hf⟩ := hrefused brimming reachable_brimming 1 true (by decide)
  have htrapped : update 1 (.boolean true) brimming = .error (.trapped .sum) brimming := rfl
  rw [htrapped] at hf
  cases hf

end Running

end Chronicle.Machine
