/-
  Chronicle.Proofs.Summary.Bounds — no value lies outside the bounds of its statistics.

  Statistics come about by points and by other statistics that are taken in (`History`).

  (1) Bounds begin with the first value, and from then on only give way to a number below or above them
  (`Joined`). A NaN is neither, so bounds that begin with one stay NaNs, which exclude nothing
  (`Around.holds_of_isNaN`): nobody can say of a value that it is below a NaN.

  (2) If such statistics are merged into ones that begin with a number, the numbers behind the NaN are lost
  with it (`bounds_merge_of_isNaN`). So there are values outside of bounds that were computed from them
  (`a_merged_nan_hides_what_follows_it`).

  (3) Where that does not happen (`History.NaNApart`), every value is within the bounds (`History.covers`).
  What is asked concerns merges only: points can be NaNs at any place, and statistics that begin with a NaN
  can be merged with one another and take other statistics in.
-/

import Chronicle.Proofs.Summary.Statistics

namespace Chronicle

/-! ## The order of numbers -/

namespace Ieee.Format

variable {f : Format} {a b c : Nat}

theorem Less.trans (h : f.Less a b) (h' : f.Less b c) : f.Less a c :=
  ⟨h.1, h'.2.1, Int.lt_trans h.2.2 h'.2.2⟩

/-- A number is above the lesser or below the greater of two others. -/
theorem Less.split (h : f.Less a b) (hc : f.isNaN c = false) : f.Less a c ∨ f.Less c b := by
  obtain ⟨ha, hb, hlt⟩ := h
  by_cases hac : f.rank a < f.rank c
  · exact .inl ⟨ha, hc, hac⟩
  · exact .inr ⟨hc, hb, by omega⟩

end Ieee.Format

namespace Value

open Ieee

def isNaN : Value → Bool
  | float v => Format.single.isNaN v.bits.toNat
  | double v => Format.double.isNaN v.bits.toNat
  | _ => false

inductive Below : Value → Value → Prop
  | int32 {a b : Int32} : a < b → Below (.int32 a) (.int32 b)
  | int64 {a b : Int64} : a < b → Below (.int64 a) (.int64 b)
  | float {a b : Binary32} : a < b → Below (.float a) (.float b)
  | double {a b : Binary64} : a < b → Below (.double a) (.double b)

@[simp] theorem below_int32 (a b : Int32) : (int32 a).Below (int32 b) ↔ a < b :=
  ⟨fun h => by cases h; assumption, .int32⟩

@[simp] theorem below_int64 (a b : Int64) : (int64 a).Below (int64 b) ↔ a < b :=
  ⟨fun h => by cases h; assumption, .int64⟩

@[simp] theorem below_float (a b : Binary32) : (float a).Below (float b) ↔ a < b :=
  ⟨fun h => by cases h; assumption, .float⟩

@[simp] theorem below_double (a b : Binary64) : (double a).Below (double b) ↔ a < b :=
  ⟨fun h => by cases h; assumption, .double⟩

variable {a b c : Value}

theorem Below.trans (h : a.Below b) (h' : b.Below c) : a.Below c := by
  cases h with
  | int32 h => cases h' with | int32 h' => exact .int32 (Int32.lt_trans h h')
  | int64 h => cases h' with | int64 h' => exact .int64 (Int64.lt_trans h h')
  | float h => cases h' with | float h' => exact .float (Format.Less.trans h h')
  | double h => cases h' with | double h' => exact .double (Format.Less.trans h h')

theorem Below.isNaN_left (h : a.Below b) : a.isNaN = false := by
  cases h with
  | float h => exact h.1
  | double h => exact h.1
  | _ => rfl

theorem Below.isNaN_right (h : a.Below b) : b.isNaN = false := by
  cases h with
  | float h => exact h.2.1
  | double h => exact h.2.1
  | _ => rfl

theorem Below.dataType_eq (h : a.Below b) : a.dataType = b.dataType := by
  cases h <;> rfl

theorem not_below_self (a : Value) : ¬ a.Below a := by
  intro h
  cases h with
  | int32 h => exact Int32.lt_irrefl h
  | int64 h => exact Int64.lt_irrefl h
  | float h => exact Int.lt_irrefl _ h.2.2
  | double h => exact Int.lt_irrefl _ h.2.2

/-- A number of the same type is above the lesser or below the greater of two others. -/
theorem Below.split (h : a.Below b) (ht : c.dataType = a.dataType) (hc : c.isNaN = false) : a.Below c ∨ c.Below b := by
  cases h with
  | @int32 x y h =>
    cases c <;> cases ht
    rename_i z
    by_cases hlt : x < z
    · exact .inl (.int32 hlt)
    · exact .inr (.int32 (Int32.lt_of_le_of_lt (Int32.not_lt.mp hlt) h))
  | @int64 x y h =>
    cases c <;> cases ht
    rename_i z
    by_cases hlt : x < z
    · exact .inl (.int64 hlt)
    · exact .inr (.int64 (Int64.lt_of_le_of_lt (Int64.not_lt.mp hlt) h))
  | float h =>
    cases c <;> cases ht
    exact (Format.Less.split h hc).imp .float .float
  | double h =>
    cases c <;> cases ht
    exact (Format.Less.split h hc).imp .double .double

end Value

/-! ## Bounds -/

@[ext]
structure Bounds where
  lo : Value
  hi : Value

namespace Bounds

/-- The value is not outside. -/
def Holds (b : Bounds) (v : Value) : Prop := ¬ v.Below b.lo ∧ ¬ b.hi.Below v

def Among (b : Bounds) (values : List Value) : Prop := b.lo ∈ values ∧ b.hi ∈ values

/-- Bounds that have given way to those of other bounds that go further. -/
structure Joined (b c d : Bounds) : Prop where
  lo : c.lo.Below b.lo ∧ d.lo = c.lo ∨ ¬ c.lo.Below b.lo ∧ d.lo = b.lo
  hi : b.hi.Below c.hi ∧ d.hi = c.hi ∨ ¬ b.hi.Below c.hi ∧ d.hi = b.hi

/-- Bounds of values of a type that begin with the given one. -/
structure Around (b : Bounds) (t : DataType) (lead : Value) : Prop where
  lo_type : b.lo.dataType = t
  hi_type : b.hi.dataType = t
  lo_isNaN : b.lo.isNaN = lead.isNaN
  hi_isNaN : b.hi.isNaN = lead.isNaN

variable {b c d : Bounds} {t : DataType} {lead other v : Value}

theorem holds_of_isNaN (b : Bounds) (hv : v.isNaN = true) : b.Holds v := by
  refine ⟨fun h => ?_, fun h => ?_⟩
  · rw [h.isNaN_left] at hv
    cases hv
  · rw [h.isNaN_right] at hv
    cases hv

/-- Bounds that begin with a NaN exclude nothing. -/
theorem Around.holds_of_isNaN (h : b.Around t lead) (hn : lead.isNaN = true) (v : Value) : b.Holds v := by
  refine ⟨fun hlo => ?_, fun hhi => ?_⟩
  · rw [← h.lo_isNaN, hlo.isNaN_right] at hn
    cases hn
  · rw [← h.hi_isNaN, hhi.isNaN_left] at hn
    cases hn

/-- Bounds give way only to what is of their kind. -/
theorem Joined.around (h : b.Joined c d) (hb : b.Around t lead) (hc : c.Around t other) : d.Around t lead := by
  have hlo : d.lo.dataType = t ∧ d.lo.isNaN = lead.isNaN := by
    rcases h.lo with ⟨hbelow, elo⟩ | ⟨-, elo⟩ <;> rw [elo]
    · exact ⟨hc.lo_type, by rw [hbelow.isNaN_left, ← hbelow.isNaN_right, hb.lo_isNaN]⟩
    · exact ⟨hb.lo_type, hb.lo_isNaN⟩
  have hhi : d.hi.dataType = t ∧ d.hi.isNaN = lead.isNaN := by
    rcases h.hi with ⟨hbelow, ehi⟩ | ⟨-, ehi⟩ <;> rw [ehi]
    · exact ⟨hc.hi_type, by rw [hbelow.isNaN_right, ← hbelow.isNaN_left, hb.hi_isNaN]⟩
    · exact ⟨hb.hi_type, hb.hi_isNaN⟩
  exact ⟨hlo.1, hhi.1, hlo.2, hhi.2⟩

/-- Bounds give way only to bounds. -/
theorem Joined.among {xs ys : List Value} (h : b.Joined c d) (hb : b.Among xs) (hc : c.Among ys) : d.Among (xs ++ ys) := by
  refine ⟨?_, ?_⟩
  · rcases h.lo with ⟨-, elo⟩ | ⟨-, elo⟩ <;> rw [elo]
    · exact List.mem_append_right xs hc.1
    · exact List.mem_append_left ys hb.1
  · rcases h.hi with ⟨-, ehi⟩ | ⟨-, ehi⟩ <;> rw [ehi]
    · exact List.mem_append_right xs hc.2
    · exact List.mem_append_left ys hb.2

/-- What the first bounds hold, the joined ones hold. -/
theorem Joined.holds_left (h : b.Joined c d) (hv : b.Holds v) : d.Holds v := by
  refine ⟨?_, ?_⟩
  · rcases h.lo with ⟨hlo, elo⟩ | ⟨-, elo⟩ <;> rw [elo]
    · exact fun hbelow => hv.1 (hbelow.trans hlo)
    · exact hv.1
  · rcases h.hi with ⟨hhi, ehi⟩ | ⟨-, ehi⟩ <;> rw [ehi]
    · exact fun hbelow => hv.2 (hhi.trans hbelow)
    · exact hv.2

/-- What the second bounds hold, the joined ones hold, if the second ones begin with a number. -/
theorem Joined.holds_right (h : b.Joined c d) (hb : b.Around t lead) (hc : c.Around t other) (hn : other.isNaN = false)
    (ht : v.dataType = t) (hv : c.Holds v) : d.Holds v := by
  refine ⟨?_, ?_⟩
  · rcases h.lo with ⟨-, elo⟩ | ⟨hlo, elo⟩ <;> rw [elo]
    · exact hv.1
    · intro hbelow
      rcases hbelow.split (hc.lo_type.trans ht.symm) (hc.lo_isNaN.trans hn) with h | h
      · exact hv.1 h
      · exact hlo h
  · rcases h.hi with ⟨-, ehi⟩ | ⟨hhi, ehi⟩ <;> rw [ehi]
    · exact hv.2
    · intro hbelow
      rcases hbelow.split (hc.hi_type.trans hb.hi_type.symm) (hc.hi_isNaN.trans hn) with h | h
      · exact hhi h
      · exact hv.2 h

/-- Bounds do not give way to a NaN. -/
theorem Joined.eq_of_isNaN (h : b.Joined c d) (hc : c.Around t other) (hn : other.isNaN = true) : d = b := by
  have hlo : ¬ c.lo.Below b.lo := by
    intro hbelow
    rw [← hc.lo_isNaN, hbelow.isNaN_left] at hn
    cases hn
  have hhi : ¬ b.hi.Below c.hi := by
    intro hbelow
    rw [← hc.hi_isNaN, hbelow.isNaN_right] at hn
    cases hn
  obtain ⟨lo, hi⟩ := d
  obtain rfl : lo = b.lo := by simpa [hlo] using h.lo
  obtain rfl : hi = b.hi := by simpa [hhi] using h.hi
  rfl

end Bounds

/-- Two summaries of numbers, one taken into the other, join their bounds. -/
theorem NumericSummary.joined_of_absorb {α σ : Type} [Summed α σ] [LT α] [DecidableLT α] {s o r : NumericSummary α σ}
    {isFirst isLast : Bool} (wrap : α → Value) (hwrap : ∀ a b, (wrap a).Below (wrap b) ↔ a < b)
    (h : s.absorb o isFirst isLast = .ok r) :
    Bounds.Joined ⟨wrap s.min, wrap s.max⟩ ⟨wrap o.min, wrap o.max⟩ ⟨wrap r.min, wrap r.max⟩ := by
  obtain ⟨sum, -, rfl⟩ := absorb_eq_ok h
  refine ⟨?_, ?_⟩
  · dsimp only
    rw [hwrap]
    by_cases hlt : o.min < s.min
    · exact .inl ⟨hlt, by rw [if_pos hlt]⟩
    · exact .inr ⟨hlt, by rw [if_neg hlt]⟩
  · dsimp only
    rw [hwrap]
    by_cases hlt : s.max < o.max
    · exact .inl ⟨hlt, by rw [if_pos hlt]⟩
    · exact .inr ⟨hlt, by rw [if_neg hlt]⟩

namespace ValueSummary

def bounds? : ValueSummary → Option Bounds
  | int32 s => some ⟨.int32 s.min, .int32 s.max⟩
  | int64 s => some ⟨.int64 s.min, .int64 s.max⟩
  | float s => some ⟨.float s.min, .float s.max⟩
  | double s => some ⟨.double s.min, .double s.max⟩
  | _ => none

/-- It is numbers that have bounds. -/
theorem exists_bounds_iff {s : ValueSummary} :
    (∃ b, s.bounds? = some b) ↔ ∃ t : NumberType, s.dataType = .fixed (.number t) := by
  cases s <;> simp [bounds?, dataType]

/-- Two summaries of numbers, one taken into the other, join their bounds. -/
theorem bounds_absorb {s o r : ValueSummary} {isFirst isLast : Bool} (h : s.absorb o isFirst isLast = .ok r)
    {b c : Bounds} (hb : s.bounds? = some b) (hc : o.bounds? = some c) : ∃ d, r.bounds? = some d ∧ b.Joined c d := by
  cases s with
  | int32 s =>
    cases hb
    cases o with
    | int32 o =>
      cases hc
      obtain ⟨u, hu, h⟩ := exists_of_bind_eq_ok (m := s.absorb o isFirst isLast) h
      cases h
      exact ⟨_, rfl, NumericSummary.joined_of_absorb .int32 Value.below_int32 hu⟩
    | _ => cases h
  | int64 s =>
    cases hb
    cases o with
    | int64 o =>
      cases hc
      obtain ⟨u, hu, h⟩ := exists_of_bind_eq_ok (m := s.absorb o isFirst isLast) h
      cases h
      exact ⟨_, rfl, NumericSummary.joined_of_absorb .int64 Value.below_int64 hu⟩
    | _ => cases h
  | float s =>
    cases hb
    cases o with
    | float o =>
      cases hc
      obtain ⟨u, hu, h⟩ := exists_of_bind_eq_ok (m := s.absorb o isFirst isLast) h
      cases h
      exact ⟨_, rfl, NumericSummary.joined_of_absorb .float Value.below_float hu⟩
    | _ => cases h
  | double s =>
    cases hb
    cases o with
    | double o =>
      cases hc
      obtain ⟨u, hu, h⟩ := exists_of_bind_eq_ok (m := s.absorb o isFirst isLast) h
      cases h
      exact ⟨_, rfl, NumericSummary.joined_of_absorb .double Value.below_double hu⟩
    | _ => cases h
  | boolean first last trues => cases hb
  | text first last => cases hb

/-- The bounds of one number are the number. -/
theorem bounds_single {t : NumberType} {v : Value} (hv : v.dataType = .fixed (.number t)) :
    (single v).bounds? = some ⟨v, v⟩ := by
  cases v <;> cases hv <;> rfl

end ValueSummary

/-! ## Statistics -/

namespace Statistics

def bounds? (s : Statistics) : Option Bounds := s.summary?.bind (·.values.bounds?)

/-- A reader that goes by the bounds does not miss the value. -/
def Covers (s : Statistics) (v : Value) : Prop := ∃ b, s.bounds? = some b ∧ b.Holds v

def ofPoint (time : Int64) (v : Value) : Statistics :=
  { dataType := v.dataType, summary? := some ⟨1, time, time, .single v⟩ }

/-- Statistics of some values of a type, of which the first one says whether the bounds are
    numbers. -/
inductive Spans (t : NumberType) : List Value → Statistics → Prop
  | empty : Spans t [] (.empty (.fixed (.number t)))
  | led {lead : Value} {rest : List Value} {s : Statistics} {b : Bounds} : s.dataType = .fixed (.number t) →
      s.bounds? = some b → b.Around (.fixed (.number t)) lead →
      (∀ v ∈ lead :: rest, v.dataType = .fixed (.number t) ∧ b.Holds v) → Spans t (lead :: rest) s

variable {t : NumberType} {s o r : Statistics} {xs ys : List Value} {time : Int64} {v : Value}

/-- Statistics that take a point in take in the statistics of it. -/
theorem merge_of_update (h : s.update time v = .ok r) : s.merge (ofPoint time v) = .ok r := by
  obtain ⟨own, summary?⟩ := s
  obtain ⟨htype, h⟩ := update_eq_ok h
  unfold merge ofPoint
  rw [if_neg (not_not_intro htype)]
  cases summary? with
  | none => exact congrArg Except.ok h.symm
  | some u =>
    obtain ⟨count, values, hcount, hvalues, rfl⟩ := h
    show (addCounts u.count 1 >>= fun count => u.values.absorb (.single v) _ _ >>= fun values => _) = _
    rw [hcount]
    show (u.values.absorb (.single v) _ _ >>= fun values => _) = _
    rw [ValueSummary.absorb_of_observe hvalues]
    rfl

theorem spans_ofPoint (hv : v.dataType = .fixed (.number t)) (time : Int64) : Spans t [v] (ofPoint time v) := by
  refine .led hv (ValueSummary.bounds_single hv) ⟨hv, hv, rfl, rfl⟩ ?_
  intro w hw
  obtain rfl := List.mem_singleton.1 hw
  exact ⟨hv, w.not_below_self, w.not_below_self⟩

theorem merge_of_none (ho : o.summary? = none) (h : s.merge o = .ok r) : r = s := by
  obtain ⟨-, h⟩ := merge_eq_ok h
  rw [ho] at h
  cases hs : s.summary? <;> rw [hs] at h <;> exact h

theorem merge_into_none (hs : s.summary? = none) (h : s.merge o = .ok r) : r = { s with summary? := o.summary? } := by
  obtain ⟨-, h⟩ := merge_eq_ok h
  rw [hs] at h
  cases ho : o.summary? with
  | none =>
    rw [ho] at h
    rw [← hs]
    exact h
  | some p =>
    rw [ho] at h
    exact h

theorem exists_of_bounds {b : Bounds} (h : s.bounds? = some b) :
    ∃ u, s.summary? = some u ∧ u.values.bounds? = some b := Option.bind_eq_some_iff.1 h

/-- Statistics of numbers, one taken into the other, join their bounds. -/
theorem bounds_merge {b c : Bounds} (hb : s.bounds? = some b) (hc : o.bounds? = some c) (h : s.merge o = .ok r) :
    r.dataType = s.dataType ∧ ∃ d, r.bounds? = some d ∧ b.Joined c d := by
  obtain ⟨u, hu, hb⟩ := exists_of_bounds hb
  obtain ⟨p, hp, hc⟩ := exists_of_bounds hc
  obtain ⟨-, h⟩ := merge_eq_ok h
  rw [hu, hp] at h
  obtain ⟨count, values, -, hvalues, rfl⟩ := h
  exact ⟨rfl, ValueSummary.bounds_absorb hvalues hb hc⟩

/-- Statistics that begin with a NaN have no influence on the bounds of others. -/
theorem bounds_merge_of_isNaN {lead other : Value} (hs : Spans t (lead :: xs) s) (ho : Spans t (other :: ys) o)
    (hn : other.isNaN = true) (h : s.merge o = .ok r) : r.bounds? = s.bounds? := by
  cases hs with
  | led _ hb _ _ =>
    cases ho with
    | led _ hc haround _ =>
      obtain ⟨-, d, hd, hjoined⟩ := bounds_merge hb hc h
      rw [hd, hb, hjoined.eq_of_isNaN haround hn]

/-- Statistics of some values that take in those of others are statistics of all of them, if
    they hold what is behind a NaN. -/
theorem Spans.merge (hs : Spans t xs s) (ho : Spans t ys o)
    (hhidden : xs ≠ [] → (∃ w ∈ ys.head?, w.isNaN = true) → ∀ v ∈ ys, s.Covers v) (h : s.merge o = .ok r) :
    Spans t (xs ++ ys) r := by
  cases ho with
  | empty =>
    obtain rfl := merge_of_none rfl h
    rw [List.append_nil]
    exact hs
  | @led other ys o c ho hc haround hholds =>
    cases hs with
    | empty =>
      obtain rfl := merge_into_none rfl h
      exact .led rfl hc haround hholds
    | @led lead xs s b hs hb haroundb hholdsb =>
      obtain ⟨htype, d, hd, hjoined⟩ := bounds_merge hb hc h
      refine .led (htype.trans hs) hd (hjoined.around haroundb haround) ?_
      intro v (hv : v ∈ (lead :: xs) ++ (other :: ys))
      rcases List.mem_append.1 hv with hv | hv
      · exact ⟨(hholdsb v hv).1, hjoined.holds_left (hholdsb v hv).2⟩
      · refine ⟨(hholds v hv).1, ?_⟩
        cases hn : other.isNaN with
        | true =>
          obtain ⟨b', hb', hcovers⟩ := hhidden (List.cons_ne_nil _ _) ⟨other, rfl, hn⟩ v hv
          rw [hb] at hb'
          cases hb'
          exact hjoined.holds_left hcovers
        | false => exact hjoined.holds_right haroundb haround hn (hholds v hv).1 (hholds v hv).2

/-- Statistics that begin with a NaN exclude nothing. -/
theorem Spans.covers_of_isNaN (hs : Spans t xs s) (hn : ∃ w ∈ xs.head?, w.isNaN = true) (v : Value) : s.Covers v := by
  obtain ⟨w, hw, hn⟩ := hn
  cases hs with
  | empty => cases hw
  | led _ hb haround _ =>
    cases hw
    exact ⟨_, hb, haround.holds_of_isNaN hn v⟩

theorem Spans.dataType_eq (hs : Spans t xs s) : s.dataType = .fixed (.number t) := by
  cases hs with
  | empty => rfl
  | led htype _ _ _ => exact htype

/-- A point is one more value. -/
theorem Spans.update (hs : Spans t xs s) (h : s.update time v = .ok r) : Spans t (xs ++ [v]) r := by
  have hv := (update_eq_ok h).1.trans hs.dataType_eq
  refine hs.merge (spans_ofPoint hv time) ?_ (merge_of_update h)
  -- A NaN with nothing behind it hides nothing.
  rintro hne ⟨w, hw, hn⟩ u hu
  cases hw
  obtain rfl := List.mem_singleton.1 hu
  cases hs with
  | empty => exact absurd rfl hne
  | led _ hb _ _ => exact ⟨_, hb, Bounds.holds_of_isNaN _ hn⟩

/-- Bounds that are some of the values stay so when a point is taken in. -/
theorem Spans.among_update (hs : Spans t xs s) (hamong : ∀ b ∈ s.bounds?, b.Among xs) (h : s.update time v = .ok r) :
    ∀ d ∈ r.bounds?, d.Among (xs ++ [v]) := by
  have hv := (update_eq_ok h).1.trans hs.dataType_eq
  have hpoint : (ofPoint time v).bounds? = some ⟨v, v⟩ := ValueSummary.bounds_single hv
  have hself : Bounds.Among ⟨v, v⟩ [v] := ⟨List.mem_singleton_self v, List.mem_singleton_self v⟩
  have hmerge := merge_of_update h
  intro d hd
  cases hs with
  | empty =>
    obtain rfl := merge_into_none rfl hmerge
    cases hpoint.symm.trans hd
    exact hself
  | led _ hb _ _ =>
    obtain ⟨-, d', hd', hjoined⟩ := bounds_merge hb hpoint hmerge
    cases hd'.symm.trans hd
    exact hjoined.among (hamong _ hb) hself

end Statistics

/-! ## Histories -/

/-- How statistics come about. -/
inductive History
  | empty
  | update (h : History) (time : Int64) (v : Value)
  | merge (h other : History)

namespace History

def statistics (t : DataType) : History → Except Halt Statistics
  | empty => .ok (.empty t)
  | update h time v => do (← h.statistics t).update time v
  | merge h other => do Halt.ofExcept ((← h.statistics t).merge (← other.statistics t))

/-- All values that were taken in, directly or with other statistics. -/
def values : History → List Value
  | empty => []
  | update h _ v => h.values ++ [v]
  | merge h other => h.values ++ other.values

def NaNLed (h : History) : Prop := ∃ v ∈ h.values.head?, v.isNaN = true

/-- Nowhere does a history that begins with a NaN get into one that begins with a number. -/
def NaNApart : History → Prop
  | empty => True
  | update h _ _ => h.NaNApart
  | merge h other => h.NaNApart ∧ other.NaNApart ∧ (other.NaNLed → h.values = [] ∨ h.NaNLed)

variable {t : NumberType} {h : History} {s : Statistics}

theorem spans_statistics (hapart : h.NaNApart) (hs : h.statistics (.fixed (.number t)) = .ok s) :
    s.Spans t h.values := by
  induction h generalizing s with
  | empty =>
    cases hs
    exact .empty
  | update h time v ih =>
    obtain ⟨before, hbefore, hs⟩ := exists_of_bind_eq_ok hs
    exact (ih hapart hbefore).update hs
  | merge h other ihh iho =>
    obtain ⟨hh, ho, hled⟩ := hapart
    obtain ⟨before, hbefore, hs⟩ := exists_of_bind_eq_ok hs
    obtain ⟨taken, htaken, hs⟩ := exists_of_bind_eq_ok hs
    refine (ihh hh hbefore).merge (iho ho htaken) ?_ (Halt.ofExcept_eq_ok.1 hs)
    intro hne hnan v _
    rcases hled hnan with hnil | hnan
    · exact absurd hnil hne
    · exact (ihh hh hbefore).covers_of_isNaN hnan v

/-- No value of a history is below the minimum or above the maximum of its statistics, if no
    statistics that begin with a NaN are merged into ones that begin with a number. -/
theorem covers (hapart : h.NaNApart) (hs : h.statistics (.fixed (.number t)) = .ok s) {v : Value} (hv : v ∈ h.values) :
    s.Covers v := by
  have hspans := spans_statistics hapart hs
  generalize h.values = values at hspans hv
  cases hspans with
  | empty => cases hv
  | led _ hb _ hholds => exact ⟨_, hb, (hholds v hv).2⟩

/-- A NaN behind 5.0 does no harm to statistics that are merged into those of 1.0. -/
theorem covers_double :
    ∃ s, (merge (update empty 1 (.double ⟨0x3FF0000000000000⟩))
        (update (update empty 2 (.double ⟨0x4014000000000000⟩)) 3 (.double ⟨0x7FF8000000000000⟩))).statistics .double =
          .ok s ∧
      s.Covers (.double ⟨0x4014000000000000⟩) ∧ s.Covers (.double ⟨0x7FF8000000000000⟩) := by
  have hapart : (merge (update empty 1 (.double ⟨0x3FF0000000000000⟩))
      (update (update empty 2 (.double ⟨0x4014000000000000⟩)) 3 (.double ⟨0x7FF8000000000000⟩))).NaNApart := by
    refine ⟨trivial, trivial, ?_⟩
    rintro ⟨v, hv, hnan⟩
    cases hv
    exact absurd hnan (by decide)
  refine ⟨_, rfl, ?_, ?_⟩
  · exact covers (t := .double) hapart rfl (by decide)
  · exact covers (t := .double) hapart rfl (by decide)

/-- A NaN before 5.0 hides it from the statistics that it is merged into, whose maximum stays
    at 1.0. -/
theorem a_merged_nan_hides_what_follows_it :
    ¬ ∀ (t : NumberType) (h : History) (s : Statistics), h.statistics (.fixed (.number t)) = .ok s →
      ∀ v ∈ h.values, s.Covers v := by
  intro hcovers
  have h := hcovers .double (merge (update empty 1 (.double ⟨0x3FF0000000000000⟩))
    (update (update empty 2 (.double ⟨0x7FF8000000000000⟩)) 3 (.double ⟨0x4014000000000000⟩))) _ rfl
    (.double ⟨0x4014000000000000⟩) (by decide)
  obtain ⟨b, hb, -, hhi⟩ := h
  have hbounds : some ⟨.double ⟨0x3FF0000000000000⟩, .double ⟨0x3FF0000000000000⟩⟩ = some b := hb
  cases hbounds
  exact hhi (.double (by decide))

end History

end Chronicle
