/-
  Chronicle.Proofs.Summary.Statistics — what folding points into statistics keeps.

  A value is taken in like the summary of it (`ValueSummary.absorb_of_observe`), with one difference: a true
  that the number of trues has no room for is trapped, where two numbers of trues that do not fit together are
  an error (`ValueSummary.observe_of_fits`, `ValueSummary.observe_of_full`).

  Proved.
  - What statistics are that have taken a point or others in (`update_eq_ok`, `merge_eq_ok`). From here on no
    proof looks into the two calls again.
  - A summary that was folded from points has their number as its count, a time range that is not inverted
    and, for BOOLEAN and INT32, a sum that so many values can have (`Counts`).
  - Up to 2^32 numbers of 32 bits have a sum of 64 bits, no more booleans are true than there are, and nothing
    but the count can overflow in a column of another type. So every point of the column's type is taken in,
    and none is trapped (`Counts.update`, `foldlM_update`).
-/

import Chronicle.Proofs.Column.Value
import Chronicle.Summary.Statistics

namespace Chronicle

/-- A number is taken in if its sum with the others can be written. -/
theorem NumericSummary.observe_of_add {α σ : Type} [Summed α σ] [LT α] [DecidableLT α] {s : NumericSummary α σ} {v : α}
    {sum : σ} (h : Summed.add α s.sum (Summed.widen v) = .ok sum) (isFirst isLast : Bool) :
    ∃ s', s.observe v isFirst isLast = .ok s' ∧ s'.sum = sum := by
  unfold observe
  rw [h]
  exact ⟨_, rfl, rfl⟩

/-- What a summary of numbers is that has taken another one in. -/
theorem NumericSummary.absorb_eq_ok {α σ : Type} [Summed α σ] [LT α] [DecidableLT α] {s o r : NumericSummary α σ}
    {isFirst isLast : Bool} (h : s.absorb o isFirst isLast = .ok r) :
    ∃ sum, Summed.add α s.sum o.sum = .ok sum ∧ r = {
      min := if o.min < s.min then o.min else s.min
      max := if s.max < o.max then o.max else s.max
      first := if isFirst then o.first else s.first
      last := if isLast then o.last else s.last
      sum := sum } := by
  unfold absorb at h
  obtain ⟨sum, hsum, h⟩ := exists_of_bind_eq_ok h
  cases h
  exact ⟨sum, hsum, rfl⟩

def IsInt64 (n : Int) : Prop := -2 ^ 63 ≤ n ∧ n < 2 ^ 63

instance (n : Int) : Decidable (IsInt64 n) := inferInstanceAs (Decidable (-2 ^ 63 ≤ n ∧ n < 2 ^ 63))

theorem Summed.add_int32 (a b : Int64) :
    Summed.add Int32 a b =
      if IsInt64 (a.toInt + b.toInt) then (.ok (Int64.ofInt (a.toInt + b.toInt)) : Except CodecError Int64)
      else .error (.overflow .integerSum) := rfl

/-- A sum of 64 bits that could be written is exact. -/
theorem Summed.toInt_of_add {a b sum : Int64} (h : Summed.add Int32 a b = .ok sum) : sum.toInt = a.toInt + b.toInt := by
  rw [add_int32] at h
  split at h
  · next hfits =>
    cases h
    exact Int64.toInt_ofInt_of_le hfits.1 hfits.2
  · cases h

theorem toNat_toUInt64 (b : Bool) : b.toUInt64.toNat = b.toNat := by
  cases b <;> rfl

/-- What a value adds to the sum of its column, if that is a sum of whole numbers: a number of
    32 bits itself, a true one. -/
def Value.addend : Value → Int
  | .boolean v => v.toNat
  | .int32 v => v.toInt
  | _ => 0

namespace ValueSummary

def first : ValueSummary → Value
  | boolean first _ _ => .boolean first
  | int32 s => .int32 s.first
  | int64 s => .int64 s.first
  | float s => .float s.first
  | double s => .double s.first
  | text first _ => .text first

def last : ValueSummary → Value
  | boolean _ last _ => .boolean last
  | int32 s => .int32 s.last
  | int64 s => .int64 s.last
  | float s => .float s.last
  | double s => .double s.last
  | text _ last => .text last

def total : ValueSummary → Int
  | boolean _ _ trues => trues.toNat
  | int32 s => s.sum.toInt
  | _ => 0

/-- Texts whose lengths are numbers of 64 bits. -/
def Sized : ValueSummary → Prop
  | text first last => first.length < 2 ^ 64 ∧ last.length < 2 ^ 64
  | _ => True

/-- A sum that `n` booleans or `n` numbers of 32 bits can have. -/
def SumWithin (n : Nat) : ValueSummary → Prop
  | boolean _ _ trues => trues.toNat ≤ n
  | int32 s => -(n * 2 ^ 31 : Int) ≤ s.sum.toInt ∧ s.sum.toInt ≤ n * 2 ^ 31
  | _ => True

theorem dataType_single (v : Value) : (single v).dataType = v.dataType := by
  cases v <;> rfl

theorem dataType_first (s : ValueSummary) : s.first.dataType = s.dataType := by
  cases s <;> rfl

@[simp] theorem first_single (v : Value) : (single v).first = v := by
  cases v <;> rfl

@[simp] theorem last_single (v : Value) : (single v).last = v := by
  cases v <;> rfl

@[simp] theorem total_single (v : Value) : (single v).total = v.addend := by
  cases v with
  | boolean v => cases v <;> rfl
  | int32 v => exact Int32.toInt_toInt64 v
  | _ => rfl

theorem sized_iff {s : ValueSummary} : s.Sized ↔ s.first.Sized ∧ s.last.Sized := by
  cases s <;> simp [Sized, first, last, Value.Sized]

theorem sized_single {v : Value} (h : v.Sized) : (single v).Sized := by
  simp [sized_iff, h]

/-- What a summary of values is that has taken another one in. -/
theorem absorb_eq_ok {s o r : ValueSummary} {isFirst isLast : Bool} (h : s.absorb o isFirst isLast = .ok r) :
    o.dataType = s.dataType ∧ r.dataType = s.dataType ∧ r.first = (if isFirst then o.first else s.first) ∧
      r.last = (if isLast then o.last else s.last) ∧ r.total = s.total + o.total := by
  cases s with
  | boolean f l trues =>
    cases o with
    | boolean f' l' trues' =>
      simp only [absorb] at h
      split at h
      · next hfits =>
        cases h
        refine ⟨rfl, rfl, apply_ite Value.boolean _ _ _, apply_ite Value.boolean _ _ _, ?_⟩
        show ((trues + trues').toNat : Int) = trues.toNat + trues'.toNat
        rw [UInt64.toNat_add, Nat.mod_eq_of_lt hfits, Int.natCast_add]
      · cases h
    | _ => cases h
  | int32 s =>
    cases o with
    | int32 o =>
      obtain ⟨u, hu, h⟩ := exists_of_bind_eq_ok (m := s.absorb o isFirst isLast) h
      cases h
      obtain ⟨sum, hsum, rfl⟩ := NumericSummary.absorb_eq_ok hu
      exact ⟨rfl, rfl, apply_ite Value.int32 _ _ _, apply_ite Value.int32 _ _ _, Summed.toInt_of_add hsum⟩
    | _ => cases h
  | int64 s =>
    cases o with
    | int64 o =>
      obtain ⟨u, hu, h⟩ := exists_of_bind_eq_ok (m := s.absorb o isFirst isLast) h
      cases h
      obtain ⟨sum, -, rfl⟩ := NumericSummary.absorb_eq_ok hu
      exact ⟨rfl, rfl, apply_ite Value.int64 _ _ _, apply_ite Value.int64 _ _ _, rfl⟩
    | _ => cases h
  | float s =>
    cases o with
    | float o =>
      obtain ⟨u, hu, h⟩ := exists_of_bind_eq_ok (m := s.absorb o isFirst isLast) h
      cases h
      obtain ⟨sum, -, rfl⟩ := NumericSummary.absorb_eq_ok hu
      exact ⟨rfl, rfl, apply_ite Value.float _ _ _, apply_ite Value.float _ _ _, rfl⟩
    | _ => cases h
  | double s =>
    cases o with
    | double o =>
      obtain ⟨u, hu, h⟩ := exists_of_bind_eq_ok (m := s.absorb o isFirst isLast) h
      cases h
      obtain ⟨sum, -, rfl⟩ := NumericSummary.absorb_eq_ok hu
      exact ⟨rfl, rfl, apply_ite Value.double _ _ _, apply_ite Value.double _ _ _, rfl⟩
    | _ => cases h
  | text f l =>
    cases o with
    | text f' l' =>
      cases h
      exact ⟨rfl, rfl, apply_ite Value.text _ _ _, apply_ite Value.text _ _ _, rfl⟩
    | _ => cases h

/-- A value is taken in like the summary of it, unless it is a true that there is no room for. -/
theorem observe_of_fits {s : ValueSummary} {v : Value} (h : v.dataType = .boolean → s.total + v.addend < 2 ^ 64)
    (isFirst isLast : Bool) : s.observe v isFirst isLast = Halt.ofExcept (s.absorb (single v) isFirst isLast) := by
  have hwrap {α σ : Type} [Summed α σ] [LT α] [DecidableLT α] (wrap : NumericSummary α σ → ValueSummary)
      (s : NumericSummary α σ) (v : α) :
      (do return wrap (← Halt.ofExcept (s.observe v isFirst isLast)) : Except Halt ValueSummary) =
        Halt.ofExcept (do return wrap (← s.absorb (.single v) isFirst isLast)) := by
    rw [NumericSummary.observe_eq_absorb]
    cases s.absorb (.single v) isFirst isLast <;> rfl
  cases v with
  | boolean v =>
    cases s with
    | boolean f l trues =>
      have hfits : trues.toNat + v.toUInt64.toNat < 2 ^ 64 := by
        have htrues : (trues.toNat : Int) + v.toNat < 2 ^ 64 := h rfl
        rw [toNat_toUInt64]
        omega
      simp only [observe, countTrue, absorb, single, if_pos hfits]
      rfl
    | _ => rfl
  | int32 v =>
    cases s with
    | int32 s => exact hwrap int32 s v
    | _ => rfl
  | int64 v =>
    cases s with
    | int64 s => exact hwrap int64 s v
    | _ => rfl
  | float v =>
    cases s with
    | float s => exact hwrap float s v
    | _ => rfl
  | double v =>
    cases s with
    | double s => exact hwrap double s v
    | _ => rfl
  | text v => cases s <;> rfl

/-- A true is trapped where there is no room for it. -/
theorem observe_of_full {s : ValueSummary} {v : Value} (hs : s.dataType = .boolean) (hv : v.dataType = .boolean)
    (h : 2 ^ 64 ≤ s.total + v.addend) (isFirst isLast : Bool) : s.observe v isFirst isLast = .error (.trapped .sum) := by
  cases v with
  | boolean v =>
    cases s with
    | boolean f l trues =>
      have hfull : ¬ trues.toNat + v.toUInt64.toNat < 2 ^ 64 := by
        have htrues : 2 ^ 64 ≤ (trues.toNat : Int) + v.toNat := h
        rw [toNat_toUInt64]
        omega
      simp only [observe, countTrue, if_neg hfull]
      rfl
    | _ => cases hs
  | _ => cases hv

/-- A value that is taken in is taken in like the summary of it. -/
theorem absorb_of_observe {s r : ValueSummary} {v : Value} {isFirst isLast : Bool}
    (h : s.observe v isFirst isLast = .ok r) : s.absorb (single v) isFirst isLast = .ok r := by
  by_cases hfits : v.dataType = .boolean → s.total + v.addend < 2 ^ 64
  · rwa [observe_of_fits hfits, Halt.ofExcept_eq_ok] at h
  · obtain ⟨hv, hfull⟩ := Classical.not_imp.1 hfits
    by_cases hs : s.dataType = .boolean
    · rw [observe_of_full hs hv (Int.not_lt.1 hfull)] at h
      cases h
    · cases v with
      | boolean v =>
        cases s with
        | boolean f l trues => exact absurd rfl hs
        | _ => cases h
      | _ => cases hv

theorem sumWithin_single (v : Value) : (single v).SumWithin 1 := by
  cases v with
  | boolean v =>
    show v.toUInt64.toNat ≤ 1
    rw [toNat_toUInt64]
    exact Bool.toNat_le v
  | int32 v =>
    have hsum : (v.toInt64).toInt = v.toInt := Int32.toInt_toInt64 v
    have := v.le_toInt
    have := v.toInt_lt
    show -((1 : Nat) * 2 ^ 31 : Int) ≤ (v.toInt64).toInt ∧ (v.toInt64).toInt ≤ (1 : Nat) * 2 ^ 31
    omega
  | _ => trivial

/-- A number of 32 bits is taken in as long as there are not too many of them. -/
theorem observe_int32_ok {s : NumericSummary Int32 Int64} {n : Nat} (hs : (int32 s).SumWithin n) (hn : n < 2 ^ 32)
    (v : Int32) (isFirst isLast : Bool) :
    ∃ s', (int32 s).observe (.int32 v) isFirst isLast = .ok s' ∧ s'.dataType = .int32 ∧ s'.SumWithin (n + 1) ∧
      s'.Sized := by
  obtain ⟨hlo, hhi⟩ := hs
  have hwiden : (Summed.widen v : Int64).toInt = v.toInt := Int32.toInt_toInt64 v
  have := v.le_toInt
  have := v.toInt_lt
  have hfits : IsInt64 (s.sum.toInt + v.toInt) := ⟨by omega, by omega⟩
  have hadd : Summed.add Int32 s.sum (Summed.widen v) =
      (.ok (Int64.ofInt (s.sum.toInt + v.toInt)) : Except CodecError Int64) := by
    rw [Summed.add_int32, hwiden, if_pos hfits]
  obtain ⟨s', hobserve, hsum⟩ := NumericSummary.observe_of_add hadd isFirst isLast
  refine ⟨.int32 s', ?_, rfl, ?_, trivial⟩
  · show (do return int32 (← Halt.ofExcept (s.observe v isFirst isLast)) : Except Halt ValueSummary) = _
    rw [hobserve]
    rfl
  · show -((n + 1 : Nat) * 2 ^ 31 : Int) ≤ s'.sum.toInt ∧ s'.sum.toInt ≤ (n + 1 : Nat) * 2 ^ 31
    rw [hsum, Int64.toInt_ofInt_of_le hfits.1 hfits.2]
    omega

/-- A boolean is taken in as long as there are not more of them than 64 bits can count. -/
theorem observe_boolean_ok {first last : Bool} {trues : UInt64} {n : Nat} (hs : (boolean first last trues).SumWithin n)
    (hn : n + 1 < 2 ^ 64) (v isFirst isLast : Bool) :
    ∃ s', (boolean first last trues).observe (.boolean v) isFirst isLast = .ok s' ∧ s'.dataType = .boolean ∧
      s'.SumWithin (n + 1) ∧ s'.Sized := by
  have hle : trues.toNat ≤ n := hs
  have hone : v.toUInt64.toNat ≤ 1 := by
    rw [toNat_toUInt64]
    exact Bool.toNat_le v
  have hfits : trues.toNat + v.toUInt64.toNat < 2 ^ 64 := by omega
  refine ⟨boolean (if isFirst then v else first) (if isLast then v else last) (trues + v.toUInt64), ?_, rfl, ?_, trivial⟩
  · simp only [observe, countTrue, if_pos hfits]
    rfl
  · show (trues + v.toUInt64).toNat ≤ n + 1
    rw [UInt64.toNat_add, Nat.mod_eq_of_lt hfits]
    omega

/-- A value of the same type is taken in, unless the sum might overflow. -/
theorem observe_ok {s : ValueSummary} {v : Value} {n : Nat} (ht : v.dataType = s.dataType) (hs : s.SumWithin n)
    (hcount : n + 1 < 2 ^ 64) (hn : s.dataType = .int32 → n < 2 ^ 32) (isFirst isLast : Bool) :
    ∃ s', s.observe v isFirst isLast = .ok s' ∧ s'.dataType = s.dataType ∧ s'.SumWithin (n + 1) ∧
      (s.Sized → v.Sized → s'.Sized) := by
  cases s with
  | boolean first last trues =>
    cases v with
    | boolean v =>
      obtain ⟨s', hobserve, htype, hsum, hsized⟩ := observe_boolean_ok hs hcount v isFirst isLast
      exact ⟨s', hobserve, htype, hsum, fun _ _ => hsized⟩
    | _ => cases ht
  | int32 s =>
    cases v with
    | int32 v =>
      obtain ⟨s', hobserve, htype, hsum, hsized⟩ := observe_int32_ok hs (hn rfl) v isFirst isLast
      exact ⟨s', hobserve, htype, hsum, fun _ _ => hsized⟩
    | _ => cases ht
  | int64 s =>
    cases v with
    | int64 v => exact ⟨_, rfl, rfl, trivial, fun _ _ => trivial⟩
    | _ => cases ht
  | float s =>
    cases v with
    | float v => exact ⟨_, rfl, rfl, trivial, fun _ _ => trivial⟩
    | _ => cases ht
  | double s =>
    cases v with
    | double v => exact ⟨_, rfl, rfl, trivial, fun _ _ => trivial⟩
    | _ => cases ht
  | text first last =>
    cases v with
    | text bytes =>
      refine ⟨_, rfl, rfl, trivial, ?_⟩
      intro hs hv
      refine ⟨?_, ?_⟩
      · cases isFirst
        · exact hs.1
        · exact hv
      · cases isLast
        · exact hs.2
        · exact hv
    | _ => cases ht

/-- What a summary of values is that has taken a value in. -/
theorem observe_eq_ok {s r : ValueSummary} {v : Value} {isFirst isLast : Bool} (h : s.observe v isFirst isLast = .ok r) :
    v.dataType = s.dataType ∧ r.dataType = s.dataType ∧ r.first = (if isFirst then (single v).first else s.first) ∧
      r.last = (if isLast then (single v).last else s.last) := by
  obtain ⟨hother, htype, hfirst, hlast, -⟩ := absorb_eq_ok (absorb_of_observe h)
  exact ⟨(dataType_single v).symm.trans hother, htype, hfirst, hlast⟩

end ValueSummary

namespace Statistics

def ofPoints (t : DataType) (points : List (Int64 × Value)) : Except Halt Statistics :=
  points.foldlM (fun s p => s.update p.1 p.2) (empty t)

def Counts (t : DataType) (n : Nat) (s : Statistics) : Prop :=
  s.dataType = t ∧
    match s.summary? with
    | none => n = 0
    | some u => 0 < n ∧ u.count.toNat = n ∧ ¬ u.stop < u.start ∧ u.values.dataType = t ∧ u.values.SumWithin n

def Sized (s : Statistics) : Prop := ∀ u ∈ s.summary?, u.values.Sized

/-- What statistics are that have taken a point in. -/
theorem update_eq_ok {s r : Statistics} {time : Int64} {v : Value} (h : s.update time v = .ok r) :
    v.dataType = s.dataType ∧
      match s.summary? with
      | none => r = { s with summary? := some ⟨1, time, time, .single v⟩ }
      | some u => ∃ count values, addCounts u.count 1 = .ok count ∧
          u.values.observe v (time < u.start) (u.stop ≤ time) = .ok values ∧
          r = { s with summary? := some ⟨count, min u.start time, max u.stop time, values⟩ } := by
  unfold update at h
  by_cases ht : v.dataType = s.dataType
  · refine ⟨ht, ?_⟩
    rw [if_neg (not_not_intro ht)] at h
    obtain ⟨own, _ | u⟩ := s
    · cases h
      rfl
    · obtain ⟨count, hcount, h⟩ := exists_of_bind_eq_ok h
      obtain ⟨values, hvalues, h⟩ := exists_of_bind_eq_ok h
      cases h
      exact ⟨count, values, Halt.ofExcept_eq_ok.1 hcount, hvalues, rfl⟩
  · rw [if_pos ht] at h
    cases h

/-- The column that statistics are of does not change. -/
theorem dataType_update {s s' : Statistics} {time : Int64} {v : Value} (h : s.update time v = .ok s') :
    s'.dataType = s.dataType := by
  obtain ⟨-, h⟩ := update_eq_ok h
  rcases hs : s.summary? with _ | u
  · rw [hs] at h
    rw [h]
  · rw [hs] at h
    obtain ⟨count, values, -, -, rfl⟩ := h
    rfl

/-- What statistics are that have taken others in. -/
theorem merge_eq_ok {s o r : Statistics} (h : s.merge o = .ok r) :
    o.dataType = s.dataType ∧
      match s.summary?, o.summary? with
      | _, none => r = s
      | none, some p => r = { s with summary? := some p }
      | some u, some p => ∃ count values, addCounts u.count p.count = .ok count ∧
          u.values.absorb p.values (p.start < u.start) (u.stop ≤ p.stop) = .ok values ∧
          r = { s with summary? := some ⟨count, min u.start p.start, max u.stop p.stop, values⟩ } := by
  unfold merge at h
  by_cases ht : o.dataType = s.dataType
  · refine ⟨ht, ?_⟩
    rw [if_neg (not_not_intro ht)] at h
    obtain ⟨own, _ | u⟩ := s <;> obtain ⟨other, _ | p⟩ := o
    · cases h
      rfl
    · cases h
      rfl
    · cases h
      rfl
    · obtain ⟨count, hcount, h⟩ := exists_of_bind_eq_ok h
      obtain ⟨values, hvalues, h⟩ := exists_of_bind_eq_ok h
      cases h
      exact ⟨count, values, hcount, hvalues, rfl⟩
  · rw [if_pos ht] at h
    cases h

/-- A count that could be written is exact. -/
theorem toNat_of_addCounts {a b count : UInt64} (h : addCounts a b = .ok count) :
    count.toNat = a.toNat + b.toNat := by
  unfold addCounts at h
  split at h
  · next hfits =>
    cases h
    rw [UInt64.toNat_add, Nat.mod_eq_of_lt hfits]
  · cases h

theorem counts_empty (t : DataType) : (empty t).Counts t 0 := ⟨rfl, rfl⟩

theorem Counts.count_eq {t : DataType} {n : Nat} {s : Statistics} (h : s.Counts t n) : s.count.toNat = n := by
  obtain ⟨-, h⟩ := h
  unfold count
  cases hs : s.summary? with
  | none =>
    rw [hs] at h
    exact h.symm
  | some u =>
    rw [hs] at h
    exact h.2.1

/-- A range that takes another one in is not inverted. -/
theorem not_max_lt_min {start stop : Int64} (h : ¬ stop < start) (start' stop' : Int64) :
    ¬ max stop stop' < min start start' := by
  have hmax : max stop stop' = if stop ≤ stop' then stop' else stop := rfl
  have hmin : min start start' = if start ≤ start' then start else start' := rfl
  rw [hmax, hmin]
  simp only [Int64.lt_iff_toInt_lt, Int64.le_iff_toInt_le] at h ⊢
  split <;> split <;> omega

/-- A point of the column's type is taken in if the count and the sum have room for it. -/
theorem Counts.update {t : DataType} {n : Nat} {s : Statistics} (h : s.Counts t n) (hn : n + 1 < 2 ^ 64)
    (hsum : t = .int32 → n < 2 ^ 32) (time : Int64) {v : Value} (ht : v.dataType = t) :
    ∃ s', s.update time v = .ok s' ∧ s'.Counts t (n + 1) ∧ (v.Sized → s.Sized → s'.Sized) := by
  obtain ⟨own, summary?⟩ := s
  obtain ⟨rfl, h⟩ := h
  unfold Statistics.update
  rw [if_neg (not_not_intro ht)]
  cases summary? with
  | none =>
    obtain rfl : n = 0 := h
    refine ⟨_, rfl, ⟨rfl, ?_⟩, ?_⟩
    · exact ⟨by decide, rfl, Int64.lt_irrefl, (ValueSummary.dataType_single v).trans ht,
        ValueSummary.sumWithin_single v⟩
    · intro hv _ u hu
      cases hu
      exact ValueSummary.sized_single hv
  | some u =>
    obtain ⟨-, hcount, hrange, htype, hwithin⟩ := h
    have hadd : addCounts u.count 1 = .ok (u.count + 1) := if_pos (by rw [hcount]; exact hn)
    have hnext : (u.count + 1).toNat = n + 1 := by
      rw [UInt64.toNat_add, hcount]
      exact Nat.mod_eq_of_lt hn
    obtain ⟨values, hobserve, hsame, hwithin, hsized⟩ :=
      ValueSummary.observe_ok (ht.trans htype.symm) hwithin hn (fun hint => hsum (htype.symm.trans hint))
        (time < u.start) (u.stop ≤ time)
    refine ⟨⟨own, some ⟨u.count + 1, min u.start time, max u.stop time, values⟩⟩, ?_, ⟨rfl, ?_⟩, ?_⟩
    · show (Halt.ofExcept (addCounts u.count 1) >>= fun count => u.values.observe v _ _ >>= fun values => _) = _
      rw [hadd]
      show (u.values.observe v _ _ >>= fun values => _) = _
      rw [hobserve]
      rfl
    · exact ⟨Nat.succ_pos n, hnext, not_max_lt_min hrange time time, hsame.trans htype, hwithin⟩
    · intro hv hs u hu
      cases hu
      exact hsized (hs _ rfl) hv

/-- Folding points of the column's type, fewer than 2^32 of them, never fails. -/
theorem foldlM_update {t : DataType} {points : List (Int64 × Value)} (ht : ∀ p ∈ points, p.2.dataType = t)
    {s : Statistics} {n : Nat} (h : s.Counts t n) (hn : n + points.length < 2 ^ 32) :
    ∃ s', points.foldlM (fun s p => s.update p.1 p.2) s = .ok s' ∧ s'.Counts t (n + points.length) ∧
      ((∀ p ∈ points, p.2.Sized) → s.Sized → s'.Sized) := by
  induction points generalizing s n with
  | nil => exact ⟨s, rfl, h, fun _ hs => hs⟩
  | cons p points ih =>
    rw [List.length_cons] at hn ⊢
    obtain ⟨hp, ht⟩ := List.forall_mem_cons.1 ht
    obtain ⟨next, hupdate, hnext, hsized⟩ := h.update (by omega) (fun _ => by omega) p.1 hp
    obtain ⟨s', hfold, hs', hrest⟩ := ih ht hnext (by omega)
    refine ⟨s', ?_, ?_, ?_⟩
    · rw [List.foldlM_cons, hupdate]
      exact hfold
    · rw [Nat.add_comm points.length, ← Nat.add_assoc]
      exact hs'
    · intro hv hs
      obtain ⟨hp, hv⟩ := List.forall_mem_cons.1 hv
      exact hrest hv (hsized hp hs)

end Statistics

end Chronicle
