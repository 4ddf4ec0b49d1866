/-
  Chronicle.Proofs.Machine.Folding — what fields say of the points that were folded into them.

  Points come in any order, some at the same time, at the greatest timestamp or at the least one. If all of them
  are taken in, the fields give
  - their number and the range of their timestamps,
  - the value that was written first of the earliest and the value that was written last of the latest,
  - their sum if that is one of whole numbers, and
  - bounds that are some of the values and exclude none of them
  (`folded_points_are_summarized`). Without points the fields are those that they begin with.

  This asks nothing of NaNs. One that was written first is both bounds and excludes nothing, a later one is
  neither.
-/

import Chronicle.Proofs.Machine.Running
import Chronicle.Proofs.Summary.Points

namespace Chronicle

namespace Statistics

/-- Statistics of points with numbers, whose bounds are some of the numbers and exclude none. -/
structure Encloses (n : NumberType) (points : List (Int64 × Value)) (s : Statistics) : Prop where
  spans : s.Spans n (points.map Prod.snd)
  among : ∀ b ∈ s.bounds?, b.Among (points.map Prod.snd)

variable {n : NumberType} {points : List (Int64 × Value)} {s r : Statistics} {time : Int64} {v : Value}

theorem encloses_empty (n : NumberType) : (empty (.fixed (.number n))).Encloses n [] :=
  ⟨.empty, by simp [bounds?, empty]⟩

theorem Encloses.update (hs : s.Encloses n points) (h : s.update time v = .ok r) :
    r.Encloses n (points ++ [(time, v)]) := by
  refine ⟨?_, ?_⟩ <;> rw [List.map_append]
  · exact hs.spans.update h
  · exact hs.spans.among_update hs.among h

theorem encloses_ofPoints (h : ofPoints (.fixed (.number n)) points = .ok s) : s.Encloses n points :=
  foldlM_keeps Encloses.update (encloses_empty n) h

/-- There are bounds if there are points. -/
theorem Encloses.exists_bounds (hs : s.Encloses n points) (hne : points ≠ []) :
    ∃ b, s.bounds? = some b ∧ b.Among (points.map Prod.snd) ∧ ∀ p ∈ points, b.Holds p.2 := by
  obtain ⟨hspans, hamong⟩ := hs
  generalize hvalues : points.map Prod.snd = values at hspans hamong
  cases hspans with
  | empty => exact absurd (List.map_eq_nil_iff.1 hvalues) hne
  | led _ hb _ hholds =>
    refine ⟨_, hb, hamong _ hb, ?_⟩
    intro p hp
    have hmem : p.2 ∈ points.map Prod.snd := List.mem_map_of_mem hp
    rw [hvalues] at hmem
    exact (hholds p.2 hmem).2

end Statistics

namespace Machine

namespace Running

/-- Takes some points in, one after another, until one of them is refused. -/
def updates (points : List (Int64 × Value)) : Guarded Running Unit := points.forM fun p => update p.1 p.2

/-- What fields with some values say of points of a type. Of the points at the least timestamp they
    have the value that was written first, of those at the greatest one the value that was written
    last. -/
structure Summarizes (r : Running) (values : ValueSummary) (t : DataType) (points : List (Int64 × Value)) : Prop where
  dataType : r.dataType = t
  values_eq : r.values? = some values
  count : r.count.toNat = points.length
  range : ∀ p ∈ points, r.start ≤ p.1 ∧ p.1 ≤ r.stop
  first : Leads Earlier points (r.start, values.first)
  last : Leads NotEarlier points (r.stop, values.last)
  total : values.total = Points.total points
  bounds : ∀ n : NumberType, t = .fixed (.number n) →
    ∃ b, values.bounds? = some b ∧ b.Among (points.map Prod.snd) ∧ ∀ p ∈ points, b.Holds p.2

/-- Points that were all taken in were folded into the statistics that the fields are of. -/
theorem foldlM_of_updates {points : List (Int64 × Value)} {s : Statistics} {r : Running}
    (h : updates points (of s) = .ok () r) :
    ∃ s', points.foldlM (fun s p => s.update p.1 p.2) s = .ok s' ∧ r = of s' := by
  induction points generalizing s with
  | nil =>
    cases h
    exact ⟨s, rfl, rfl⟩
  | cons p points ih =>
    obtain ⟨⟨⟩, next, hnext, h⟩ := ok_of_bind h
    obtain ⟨s', hupdate, rfl⟩ := exists_of_leaving_eq_ok ((update_of s p.1 p.2).symm.trans hnext)
    obtain ⟨last, hfold, hlast⟩ := ih h
    refine ⟨last, ?_, hlast⟩
    rw [List.foldlM_cons, hupdate]
    exact hfold

theorem of_folded_summarizes {t : DataType} {points : List (Int64 × Value)} {s : Statistics} (hne : points ≠ [])
    (h : Statistics.ofPoints t points = .ok s) : ∃ values, (of s).Summarizes values t points := by
  have hrecounts := Statistics.recounts_ofPoints h
  cases hrecounts with
  | empty => exact absurd rfl hne
  | @points _ u _ hu =>
    refine ⟨u.values, rfl, rfl, hu.count, ?range, hu.first, hu.last, hu.total, ?bounds⟩
    case range => exact fun p hp => ⟨hu.first.start_le p hp, hu.last.le_stop p hp⟩
    case bounds =>
      rintro n rfl
      exact (Statistics.encloses_ofPoints h).exists_bounds hne

/-- Whatever the order of some points, what they were all folded into gives their number, their
    range, the first and the last value, a sum of whole numbers, and bounds that are values of which
    none is exceeded. -/
theorem folded_points_are_summarized {t : DataType} {points : List (Int64 × Value)} {r : Running} (hne : points ≠ [])
    (h : updates points (new t) = .ok () r) : ∃ values, r.Summarizes values t points := by
  obtain ⟨s, hfold, rfl⟩ := foldlM_of_updates (s := .empty t) h
  exact of_folded_summarizes hne hfold

/-- Doubles out of order: at the greatest timestamp 1.0 and then a NaN, at the least one -0.0 and
    then 0.0. -/
def tied : List (Int64 × Value) :=
  [(.maxValue, .double ⟨0x3FF0000000000000⟩), (.minValue, .double ⟨0x8000000000000000⟩), (.minValue, .double ⟨0⟩),
    (.maxValue, .double ⟨0x7FF8000000000000⟩)]

theorem folded_points_are_summarized_tied :
    ∃ r values, updates tied (new .double) = .ok () r ∧ r.Summarizes values .double tied := by
  obtain ⟨values, hvalues⟩ := folded_points_are_summarized (t := .double) (List.cons_ne_nil _ _ : tied ≠ []) rfl
  exact ⟨_, values, rfl, hvalues⟩

end Running

end Machine

end Chronicle
