/-
  Chronicle.Proofs.Machine.Refusal — which calls on statistics fail, and how.

  Proved.
  - Values always are of the type of their column (`Statistics.Sound`), so the checks of the types
    of values are never what refuses a call.
  - A call for another type is a type mismatch. Of the right type, a call overflows where a count
    or a sum that is checked has no room: a point where the count is full or where the INT32 sum
    leaves 64 bits, other statistics where the two counts, the two INT32 sums or the two numbers of
    trues do not fit together.
  - One sum is not checked, the number of trues when a point is taken in. Where it has no room the
    call is trapped. Every other call succeeds, and one that fails leaves everything as it was
    (`calls_fail_for_cause`).
  - So the causes of failures do not decide whether there is an answer
    (`a_point_may_go_unanswered`).

  Of one call more than one thing can be wrong. Types are looked at before counts, and counts before sums: where
  the count is full, a true that has no room is refused and not trapped.
-/

import Chronicle.Proofs.Machine.Running

namespace Chronicle

/-! ## Values -/

namespace NumericSummary

variable {α σ : Type} [Summed α σ] [LT α] [DecidableLT α] {s o : NumericSummary α σ}

theorem absorb_of_add {sum : σ} (h : Summed.add α s.sum o.sum = .ok sum) (isFirst isLast : Bool) :
    ∃ r, s.absorb o isFirst isLast = .ok r := by
  unfold absorb
  rw [h]
  exact ⟨_, rfl⟩

theorem absorb_of_add_error {e : CodecError} (h : Summed.add α s.sum o.sum = .error e) (isFirst isLast : Bool) :
    s.absorb o isFirst isLast = .error e := by
  unfold absorb
  rw [h]
  rfl

end NumericSummary

namespace ValueSummary

/-- The sum can grow by so much, if it is one that is checked. -/
def HasRoom (more : Int) : ValueSummary → Prop
  | boolean _ _ trues => trues.toNat + more < 2 ^ 64
  | int32 s => IsInt64 (s.sum.toInt + more)
  | _ => True

variable {s o : ValueSummary}

/-- Values of one type are taken in where their sums fit together. -/
theorem absorb_of_room (ht : o.dataType = s.dataType) (hroom : s.HasRoom o.total) (isFirst isLast : Bool) :
    ∃ r, s.absorb o isFirst isLast = .ok r := by
  have hwrap {α σ : Type} [Summed α σ] [LT α] [DecidableLT α] {s o : NumericSummary α σ}
      {wrap : NumericSummary α σ → ValueSummary} {sum : σ} (h : Summed.add α s.sum o.sum = .ok sum) :
      ∃ r, (do return wrap (← s.absorb o isFirst isLast) : Except CodecError ValueSummary) = .ok r := by
    obtain ⟨r, hr⟩ := NumericSummary.absorb_of_add h isFirst isLast
    rw [hr]
    exact ⟨_, rfl⟩
  cases s with
  | boolean first last trues =>
    cases o with
    | boolean first' last' trues' =>
      have hfits : trues.toNat + trues'.toNat < 2 ^ 64 := by
        have h : (trues.toNat : Int) + trues'.toNat < 2 ^ 64 := hroom
        omega
      exact ⟨_, if_pos hfits⟩
    | _ => cases ht
  | int32 s =>
    cases o with
    | int32 o => exact hwrap ((Summed.add_int32 s.sum o.sum).trans (if_pos hroom))
    | _ => cases ht
  | int64 s =>
    cases o with
    | int64 o => exact hwrap rfl
    | _ => cases ht
  | float s =>
    cases o with
    | float o => exact hwrap rfl
    | _ => cases ht
  | double s =>
    cases o with
    | double o => exact hwrap rfl
    | _ => cases ht
  | text first last =>
    cases o with
    | text first' last' => exact ⟨_, rfl⟩
    | _ => cases ht

/-- Otherwise they are refused. -/
theorem absorb_of_no_room (ht : o.dataType = s.dataType) (hroom : ¬ s.HasRoom o.total) (isFirst isLast : Bool) :
    ∃ f, s.absorb o isFirst isLast = .error (.overflow f) := by
  cases s with
  | boolean first last trues =>
    cases o with
    | boolean first' last' trues' =>
      have hfull : ¬ trues.toNat + trues'.toNat < 2 ^ 64 := by
        have h : ¬ (trues.toNat : Int) + trues'.toNat < 2 ^ 64 := hroom
        omega
      exact ⟨_, if_neg hfull⟩
    | _ => cases ht
  | int32 s =>
    cases o with
    | int32 o =>
      have hsum := NumericSummary.absorb_of_add_error ((Summed.add_int32 s.sum o.sum).trans (if_neg hroom)) isFirst isLast
      refine ⟨.integerSum, ?_⟩
      show (do return int32 (← s.absorb o isFirst isLast) : Except CodecError ValueSummary) = _
      rw [hsum]
      rfl
    | _ => cases ht
  | _ => exact absurd trivial hroom

/-- A value of the type is taken in where the sum has room for it. -/
theorem observe_of_room {v : Value} (ht : v.dataType = s.dataType) (hroom : s.HasRoom v.addend) (isFirst isLast : Bool) :
    ∃ r, s.observe v isFirst isLast = .ok r := by
  have hfits : v.dataType = .boolean → s.total + v.addend < 2 ^ 64 := by
    intro hv
    cases s with
    | boolean first last trues => exact hroom
    | _ => cases hv.symm.trans ht
  have hsingle : s.HasRoom (single v).total := by simpa using hroom
  obtain ⟨r, hr⟩ := absorb_of_room ((dataType_single v).trans ht) hsingle isFirst isLast
  rw [observe_of_fits hfits, hr]
  exact ⟨r, rfl⟩

/-- Otherwise it is refused, unless it is a boolean. -/
theorem observe_of_no_room {v : Value} (ht : v.dataType = s.dataType) (hv : v.dataType ≠ .boolean)
    (hroom : ¬ s.HasRoom v.addend) (isFirst isLast : Bool) :
    ∃ f, s.observe v isFirst isLast = .error (.failed (.overflow f)) := by
  have hsingle : ¬ s.HasRoom (single v).total := by simpa using hroom
  obtain ⟨f, hf⟩ := absorb_of_no_room ((dataType_single v).trans ht) hsingle isFirst isLast
  rw [observe_of_fits fun h => absurd h hv, hf]
  exact ⟨f, rfl⟩

theorem not_hasRoom_iff {more : Int} :
    ¬ s.HasRoom more ↔
      s.dataType = .int32 ∧ ¬ IsInt64 (s.total + more) ∨ s.dataType = .boolean ∧ 2 ^ 64 ≤ s.total + more := by
  cases s <;> simp [HasRoom, total, dataType]

end ValueSummary

/-! ## Statistics -/

namespace Statistics

def PointTooMuch (s : Statistics) (v : Value) : Prop :=
  2 ^ 64 ≤ s.count.toNat + 1 ∨ v.dataType ≠ .boolean ∧ ∃ u ∈ s.summary?, ¬ u.values.HasRoom v.addend

def TrueTooMuch (s : Statistics) (v : Value) : Prop :=
  v.dataType = .boolean ∧ ∃ u ∈ s.summary?, ¬ u.values.HasRoom v.addend

def TooMuch (s o : Statistics) : Prop :=
  2 ^ 64 ≤ s.count.toNat + o.count.toNat ∨ ∃ u ∈ s.summary?, ∃ p ∈ o.summary?, ¬ u.values.HasRoom p.values.total

variable {t : DataType} {s o : Statistics} {v : Value}

theorem addCounts_of_fits {a b : UInt64} (h : a.toNat + b.toNat < 2 ^ 64) : addCounts a b = .ok (a + b) := if_pos h

theorem addCounts_of_full {a b : UInt64} (h : 2 ^ 64 ≤ a.toNat + b.toNat) : addCounts a b = .error (.overflow .pointCount) :=
  if_neg (Nat.not_lt.2 h)

theorem update_of_mismatch (h : v.dataType ≠ s.dataType) (time : Int64) :
    s.update time v = .error (.failed (.typeMismatch s.dataType v.dataType)) := by
  unfold update
  rw [if_pos h]
  rfl

theorem merge_of_mismatch (h : o.dataType ≠ s.dataType) : s.merge o = .error (.typeMismatch s.dataType o.dataType) := by
  unfold merge
  rw [if_pos h]
  rfl

/-- A point is taken in where the count and the sum have room for it. -/
theorem update_of_room (hs : s.Sound t) (ht : v.dataType = t) (hroom : ¬ s.PointTooMuch v) (htrue : ¬ s.TrueTooMuch v)
    (time : Int64) : ∃ r, s.update time v = .ok r := by
  obtain ⟨hcount, hroom⟩ := not_or.1 hroom
  obtain ⟨own, summary?⟩ := s
  obtain rfl : own = t := hs.dataType
  unfold update
  rw [if_neg (not_not_intro ht)]
  cases summary? with
  | none => exact ⟨_, rfl⟩
  | some u =>
    have hsum : u.values.HasRoom v.addend := by
      refine Classical.byContradiction fun hnone => ?_
      by_cases hv : v.dataType = .boolean
      · exact htrue ⟨hv, u, rfl, hnone⟩
      · exact hroom ⟨hv, u, rfl, hnone⟩
    obtain ⟨values, hvalues⟩ := ValueSummary.observe_of_room (ht.trans (hs.summary u rfl).type.symm) hsum
      (time < u.start) (u.stop ≤ time)
    show ∃ r, (Halt.ofExcept (addCounts u.count 1) >>= fun count => u.values.observe v _ _ >>= fun values => _) = .ok r
    rw [addCounts_of_fits (Nat.lt_of_not_le hcount), hvalues]
    exact ⟨_, rfl⟩

theorem update_of_no_room (hs : s.Sound t) (ht : v.dataType = t) (hfull : s.PointTooMuch v) (time : Int64) :
    ∃ f, s.update time v = .error (.failed (.overflow f)) := by
  obtain ⟨own, summary?⟩ := s
  obtain rfl : own = t := hs.dataType
  unfold update
  rw [if_neg (not_not_intro ht)]
  cases summary? with
  | none => simp [PointTooMuch, count] at hfull
  | some u =>
    show ∃ f, (Halt.ofExcept (addCounts u.count 1) >>= fun count => u.values.observe v _ _ >>= fun values => _) =
      .error (.failed (.overflow f))
    by_cases hcount : 2 ^ 64 ≤ u.count.toNat + 1
    · rw [addCounts_of_full hcount]
      exact ⟨_, rfl⟩
    · rw [addCounts_of_fits (Nat.lt_of_not_le hcount)]
      obtain ⟨hv, p, hp, hroom⟩ := hfull.resolve_left hcount
      cases hp
      obtain ⟨f, hf⟩ := ValueSummary.observe_of_no_room (ht.trans (hs.summary u rfl).type.symm) hv hroom
        (time < u.start) (u.stop ≤ time)
      refine ⟨f, ?_⟩
      show (u.values.observe v _ _ >>= fun values => _) = _
      rw [hf]
      rfl

/-- A true that there is no room for is trapped, if the count has room for the point. -/
theorem update_of_no_room_for_true (hs : s.Sound t) (ht : v.dataType = t) (hroom : ¬ s.PointTooMuch v)
    (hfull : s.TrueTooMuch v) (time : Int64) : s.update time v = .error (.trapped .sum) := by
  obtain ⟨hcount, -⟩ := not_or.1 hroom
  obtain ⟨hv, u, hu, hfull⟩ := hfull
  obtain ⟨own, summary?⟩ := s
  obtain rfl : own = t := hs.dataType
  obtain rfl : summary? = some u := hu
  have htype : u.values.dataType = .boolean := (hs.summary u rfl).type.trans (ht.symm.trans hv)
  have htrues : 2 ^ 64 ≤ u.values.total + v.addend := by
    rcases ValueSummary.not_hasRoom_iff.1 hfull with ⟨hint, -⟩ | ⟨-, htrues⟩
    · cases hint.symm.trans htype
    · exact htrues
  unfold update
  rw [if_neg (not_not_intro ht)]
  show (Halt.ofExcept (addCounts u.count 1) >>= fun count => u.values.observe v _ _ >>= fun values => _) = _
  rw [addCounts_of_fits (Nat.lt_of_not_le hcount), ValueSummary.observe_of_full htype hv htrues]
  rfl

/-- Other statistics are taken in where the counts and the sums fit together. -/
theorem merge_of_room (hs : s.Sound t) (ho : o.Sound t) (hroom : ¬ s.TooMuch o) : ∃ r, s.merge o = .ok r := by
  obtain ⟨hcount, hroom⟩ := not_or.1 hroom
  have htype : o.dataType = s.dataType := ho.dataType.trans hs.dataType.symm
  obtain ⟨own, summary?⟩ := s
  obtain ⟨other, others?⟩ := o
  unfold merge
  rw [if_neg (not_not_intro htype)]
  cases others? with
  | none => cases summary? <;> exact ⟨_, rfl⟩
  | some p =>
    cases summary? with
    | none => exact ⟨_, rfl⟩
    | some u =>
      have hsum : u.values.HasRoom p.values.total :=
        Classical.byContradiction fun hnone => hroom ⟨u, rfl, p, rfl, hnone⟩
      obtain ⟨values, hvalues⟩ := ValueSummary.absorb_of_room ((ho.summary p rfl).type.trans (hs.summary u rfl).type.symm)
        hsum (p.start < u.start) (u.stop ≤ p.stop)
      show ∃ r, (addCounts u.count p.count >>= fun count => u.values.absorb p.values _ _ >>= fun values => _) = .ok r
      rw [addCounts_of_fits (show u.count.toNat + p.count.toNat < 2 ^ 64 from Nat.lt_of_not_le hcount), hvalues]
      exact ⟨_, rfl⟩

theorem merge_of_no_room (hs : s.Sound t) (ho : o.Sound t) (hfull : s.TooMuch o) : ∃ f, s.merge o = .error (.overflow f) := by
  have htype : o.dataType = s.dataType := ho.dataType.trans hs.dataType.symm
  obtain ⟨own, summary?⟩ := s
  obtain ⟨other, others?⟩ := o
  unfold merge
  rw [if_neg (not_not_intro htype)]
  cases others? with
  | none =>
    have hfits : (count ⟨own, summary?⟩).toNat + 0 < 2 ^ 64 := UInt64.toNat_lt _
    rcases hfull with hfull | ⟨_, _, _, hp, _⟩
    · exact absurd hfits (Nat.not_lt.2 hfull)
    · cases hp
  | some p =>
    cases summary? with
    | none =>
      have hfits : 0 + p.count.toNat < 2 ^ 64 := (Nat.zero_add _).symm ▸ p.count.toNat_lt
      rcases hfull with hfull | ⟨_, hu, _⟩
      · exact absurd hfits (Nat.not_lt.2 hfull)
      · cases hu
    | some u =>
      show ∃ f, (addCounts u.count p.count >>= fun count => u.values.absorb p.values _ _ >>= fun values => _) =
        .error (.overflow f)
      by_cases hcount : 2 ^ 64 ≤ u.count.toNat + p.count.toNat
      · rw [addCounts_of_full hcount]
        exact ⟨_, rfl⟩
      · rw [addCounts_of_fits (Nat.lt_of_not_le hcount)]
        obtain ⟨u', hu', p', hp', hroom⟩ := hfull.resolve_left hcount
        cases hu'
        cases hp'
        obtain ⟨f, hf⟩ := ValueSummary.absorb_of_no_room ((ho.summary p rfl).type.trans (hs.summary u rfl).type.symm) hroom
          (p.start < u.start) (u.stop ≤ p.stop)
        refine ⟨f, ?_⟩
        show (u.values.absorb p.values _ _ >>= fun values => _) = _
        rw [hf]
        rfl

end Statistics

/-! ## Calls on fields -/

namespace Machine

namespace Running

/-- The sum of a column whose sum is one of whole numbers: the INT32 values, or the trues. -/
def total (r : Running) : Int :=
  match r.values? with
  | some values => values.total
  | none => 0

/-- A call for something of the type `other` on a column of the type `own` fails with a type mismatch
    where the types differ, and with an overflow where they do not and there is one. It is trapped
    where there is none but a reason for a trap, and succeeds otherwise. Unless it succeeds it leaves
    everything as it was. -/
structure FailsFor (call : Guarded Running Unit) (r : Running) (own other : DataType) (overflow trap : Prop) : Prop where
  mismatch : other ≠ own → call r = .error (.failed (.typeMismatch own other)) r
  overflows : other = own → overflow → ∃ f, call r = .error (.failed (.overflow f)) r
  traps : other = own → ¬ overflow → trap → call r = .error (.trapped .sum) r
  succeeds : other = own → ¬ overflow → ¬ trap → ∃ r', call r = .ok () r'

def PointOverflows (r : Running) (v : Value) : Prop :=
  r.count.toNat = 2 ^ 64 - 1 ∨ r.dataType = .int32 ∧ ¬ IsInt64 (r.total + v.addend)

/-- What leaves no room for a point and is not looked at before it is added. -/
def PointTraps (r : Running) (v : Value) : Prop := r.dataType = .boolean ∧ 2 ^ 64 ≤ r.total + v.addend

def MergeOverflows (r o : Running) : Prop :=
  o.count ≠ 0 ∧ 2 ^ 64 ≤ r.count.toNat + o.count.toNat ∨
    r.count ≠ 0 ∧ o.count ≠ 0 ∧
      (r.dataType = .int32 ∧ ¬ IsInt64 (r.total + o.total) ∨ r.dataType = .boolean ∧ 2 ^ 64 ≤ r.total + o.total)

variable {t t' : DataType} {s o : Statistics} {v : Value}

theorem isInt64_addend (v : Value) : IsInt64 v.addend := by
  cases v with
  | boolean b => cases b <;> decide
  | int32 v =>
    have hlo := v.le_toInt
    have hhi := v.toInt_lt
    refine ⟨?_, ?_⟩ <;> simp only [Value.addend] <;> omega
  | _ => exact (by decide : IsInt64 0)

theorem pointOverflows_iff (hs : s.Sound t) (ht : v.dataType = t) : (of s).PointOverflows v ↔ s.PointTooMuch v := by
  obtain ⟨own, summary?⟩ := s
  obtain rfl : own = t := hs.dataType
  cases summary? with
  | none => simp [PointOverflows, of, new, total, Statistics.PointTooMuch, Statistics.count, isInt64_addend v]
  | some u =>
    have htype : u.values.dataType = own := (hs.summary u rfl).type
    have hcount : u.count.toNat = 2 ^ 64 - 1 ↔ 2 ^ 64 ≤ u.count.toNat + 1 := by
      have := u.count.toNat_lt
      omega
    have hroom : (own = .int32 ∧ ¬ IsInt64 (u.values.total + v.addend)) ↔
        v.dataType ≠ .boolean ∧ ¬ u.values.HasRoom v.addend := by
      rw [ValueSummary.not_hasRoom_iff, htype, ht]
      constructor
      · rintro ⟨rfl, hsum⟩
        exact ⟨by decide, .inl ⟨rfl, hsum⟩⟩
      · rintro ⟨hown, hfull⟩
        exact hfull.resolve_right fun h => hown h.1
    show (u.count.toNat = 2 ^ 64 - 1 ∨ own = .int32 ∧ ¬ IsInt64 (u.values.total + v.addend)) ↔
      2 ^ 64 ≤ u.count.toNat + 1 ∨ v.dataType ≠ .boolean ∧ ∃ u' ∈ some u, ¬ u'.values.HasRoom v.addend
    rw [hcount, hroom]
    simp

theorem mergeOverflows_iff (hs : s.Sound t) (ho : o.Sound t) : (of s).MergeOverflows (of o) ↔ s.TooMuch o := by
  obtain ⟨own, summary?⟩ := s
  obtain rfl : own = t := hs.dataType
  obtain ⟨other, others?⟩ := o
  obtain rfl : other = own := ho.dataType
  cases others? with
  | none =>
    -- Nothing is too much that has no points.
    have hfits : (Statistics.count ⟨other, summary?⟩).toNat + 0 < 2 ^ 64 := UInt64.toNat_lt _
    refine iff_of_false ?_ ?_
    · rintro (⟨hempty, -⟩ | ⟨-, hempty, -⟩) <;> exact hempty rfl
    · rintro (hfull | ⟨_, _, _, hp, _⟩)
      · exact absurd hfits (Nat.not_lt.2 hfull)
      · cases hp
  | some p =>
    cases summary? with
    | none =>
      have hfits : 0 + p.count.toNat < 2 ^ 64 := (Nat.zero_add _).symm ▸ p.count.toNat_lt
      refine iff_of_false ?_ ?_
      · rintro (⟨-, hfull⟩ | ⟨hempty, -⟩)
        · exact absurd hfits (Nat.not_lt.2 hfull)
        · exact hempty rfl
      · rintro (hfull | ⟨_, hu, _⟩)
        · exact absurd hfits (Nat.not_lt.2 hfull)
        · cases hu
    | some u =>
      have htype : u.values.dataType = other := (hs.summary u rfl).type
      have hu : u.count ≠ 0 := (hs.summary u rfl).count
      have hp : p.count ≠ 0 := (ho.summary p rfl).count
      simp [MergeOverflows, of, total, Statistics.TooMuch, Statistics.count, ValueSummary.not_hasRoom_iff, htype, hu, hp]

theorem pointTraps_iff (hs : s.Sound t) (ht : v.dataType = t) : (of s).PointTraps v ↔ s.TrueTooMuch v := by
  obtain ⟨own, summary?⟩ := s
  obtain rfl : own = t := hs.dataType
  cases summary? with
  | none =>
    have hsmall : ¬ 2 ^ 64 ≤ 0 + v.addend := by
      have := (isInt64_addend v).2
      omega
    exact iff_of_false (fun h => hsmall h.2) (by simp [Statistics.TrueTooMuch])
  | some u =>
    have htype : u.values.dataType = own := (hs.summary u rfl).type
    show own = .boolean ∧ 2 ^ 64 ≤ u.values.total + v.addend ↔
      v.dataType = .boolean ∧ ∃ u' ∈ some u, ¬ u'.values.HasRoom v.addend
    rw [ht]
    refine and_congr_right fun hown => ?_
    simp [ValueSummary.not_hasRoom_iff, htype, hown]

/-- A call for a point fails for its type, or as there is no room for it. -/
theorem update_failsFor (hs : s.Sound t) (time : Int64) (v : Value) :
    FailsFor (update time v) (of s) s.dataType v.dataType ((of s).PointOverflows v) ((of s).PointTraps v) := by
  refine ⟨?mismatch, ?overflows, ?traps, ?succeeds⟩
  case mismatch =>
    intro htype
    rw [update_of, Statistics.update_of_mismatch htype]
    rfl
  case overflows =>
    intro htype hfull
    have ht := htype.trans hs.dataType
    obtain ⟨f, hf⟩ := Statistics.update_of_no_room hs ht ((pointOverflows_iff hs ht).1 hfull) time
    rw [update_of, hf]
    exact ⟨f, rfl⟩
  case traps =>
    intro htype hroom hfull
    have ht := htype.trans hs.dataType
    rw [update_of, Statistics.update_of_no_room_for_true hs ht (mt (pointOverflows_iff hs ht).2 hroom)
      ((pointTraps_iff hs ht).1 hfull) time]
    rfl
  case succeeds =>
    intro htype hroom htrue
    have ht := htype.trans hs.dataType
    obtain ⟨r, hr⟩ := Statistics.update_of_room hs ht (mt (pointOverflows_iff hs ht).2 hroom)
      (mt (pointTraps_iff hs ht).2 htrue) time
    rw [update_of, hr]
    exact ⟨of r, rfl⟩

/-- A call for other statistics fails for their type, or as there is no room for them. It is never
    trapped. -/
theorem merge_failsFor (hs : s.Sound t) (ho : o.Sound t') :
    FailsFor (merge (of o)) (of s) s.dataType o.dataType ((of s).MergeOverflows (of o)) False := by
  have hsame (htype : o.dataType = s.dataType) : o.Sound t := by
    rwa [← hs.dataType, ← htype, ho.dataType]
  refine ⟨?mismatch, ?overflows, fun _ _ => False.elim, ?succeeds⟩
  case mismatch =>
    intro htype
    rw [merge_of, Statistics.merge_of_mismatch htype]
    rfl
  case overflows =>
    intro htype hfull
    obtain ⟨f, hf⟩ := Statistics.merge_of_no_room hs (hsame htype) ((mergeOverflows_iff hs (hsame htype)).1 hfull)
    rw [merge_of, hf]
    exact ⟨f, rfl⟩
  case succeeds =>
    intro htype hroom _
    obtain ⟨r, hr⟩ := Statistics.merge_of_room hs (hsame htype) (mt (mergeOverflows_iff hs (hsame htype)).2 hroom)
    rw [merge_of, hr]
    exact ⟨of r, rfl⟩

/-- Of the summaries that calls lead to, a point is refused for its type, for a full count or for an
    INT32 sum that leaves 64 bits, and other statistics for their type, for counts or for sums that
    are too great together. A true behind the greatest number of trues is the one call that is
    trapped. Whatever is refused or trapped leaves all fields as they were. -/
theorem calls_fail_for_cause {r o : Running} (hr : Reachable t r) (ho : Reachable t' o) :
    (∀ time v, FailsFor (update time v) r r.dataType v.dataType (r.PointOverflows v) (r.PointTraps v)) ∧
      FailsFor (merge o) r r.dataType o.dataType (r.MergeOverflows o) False := by
  obtain ⟨s, hs, rfl⟩ := hr.exists_reached
  obtain ⟨p, hp, rfl⟩ := ho.exists_reached
  rw [dataType_of, dataType_of]
  exact ⟨update_failsFor hs.sound, merge_failsFor hs.sound hp.sound⟩

/-- A summary of one point that says of itself that its sum is the greatest number of 64 bits. -/
def topped : Running := ⟨.int32, 1, 0, 0, some (.int32 ⟨0, 0, 0, 0, Int64.maxValue⟩)⟩

theorem reachable_topped : Reachable .int32 topped := by
  have hread : pull .int32 (1 :: List.replicate 32 0 ++ 0x7F :: List.replicate 7 0xFF) = .ok topped [] := rfl
  exact .read hread

/-- The greatest INT32 sum has room for 0 but not for 1 or for itself, and none is asked for a text.
    The greatest number of trues refuses itself, takes a false and is trapped by a true. -/
theorem calls_fail_for_cause_topped :
    ((∃ r', update 5 (.int32 0) topped = .ok () r') ∧
      (∃ f, update 5 (.int32 1) topped = .error (.failed (.overflow f)) topped) ∧
      update 5 (.text []) topped = .error (.failed (.typeMismatch .int32 .text)) topped ∧
      ∃ f, merge topped topped = .error (.failed (.overflow f)) topped) ∧
    (∃ r', update 5 (.boolean false) brimming = .ok () r') ∧
      update 5 (.boolean true) brimming = .error (.trapped .sum) brimming ∧
      ∃ f, merge brimming brimming = .error (.failed (.overflow f)) brimming := by
  obtain ⟨hupdate, hmerge⟩ := calls_fail_for_cause reachable_topped reachable_topped
  obtain ⟨hpoint, hsame⟩ := calls_fail_for_cause reachable_brimming reachable_brimming
  have hroom (b : Bool) : ¬ brimming.PointOverflows (.boolean b) := by
    rintro (hcount | ⟨htype, -⟩)
    · exact absurd hcount (by decide)
    · exact absurd htype (by decide)
  refine ⟨⟨(hupdate 5 _).succeeds rfl ?_ ?_, (hupdate 5 _).overflows rfl (.inr ⟨rfl, ?_⟩), (hupdate 5 _).mismatch (by decide),
      hmerge.overflows rfl (.inr ⟨by decide, by decide, .inl ⟨rfl, ?_⟩⟩)⟩,
    (hpoint 5 _).succeeds rfl (hroom false) ?_, (hpoint 5 _).traps rfl (hroom true) ⟨rfl, ?_⟩,
    hsame.overflows rfl (.inr ⟨by decide, by decide, .inr ⟨rfl, ?_⟩⟩)⟩
  · rintro (hcount | ⟨-, hsum⟩)
    · exact absurd hcount (by decide)
    · exact hsum (by decide)
  · exact fun htrue => absurd htrue.1 (by decide)
  · decide
  · decide
  · exact fun htrue => absurd htrue.2 (by decide)
  · decide
  · decide

/-- Not every point that is of the type of its column, and for which there is no overflow, is taken
    in: a true behind the greatest number of trues is not. -/
theorem a_point_may_go_unanswered :
    ¬ ∀ t r, Reachable t r → ∀ time v, FailsFor (update time v) r r.dataType v.dataType (r.PointOverflows v) False := by
  intro hcause
  have hroom : ¬ brimming.PointOverflows (.boolean true) := by
    rintro (hcount | ⟨htype, -⟩)
    · exact absurd hcount (by decide)
    · exact absurd htype (by decide)
  obtain ⟨r, hr⟩ := (hcause .boolean brimming reachable_brimming 1 (.boolean true)).succeeds rfl hroom id
  have htrapped : update 1 (.boolean true) brimming = .error (.trapped .sum) brimming := rfl
  rw [htrapped] at hr
  cases hr

end Running

end Machine

end Chronicle
