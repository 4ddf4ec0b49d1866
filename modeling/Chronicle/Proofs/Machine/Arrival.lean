/-
  Chronicle.Proofs.Machine.Arrival — fields that do not show in which order points arrived.

  Each page starts with fields of its own, and the fields of pages are merged. In the end the same points leave
  the same fields, whichever page each of them went to, in whatever order, and however the pages were merged
  (`summaries_ignore_arrival`): the sentinels of pages without points and the ranges that first and last values
  are chosen by leave no trace. Pages without points may be merged at any place, and may be all there is.

  This is so of points at different times and of values that are no floats. The sum of INT64 values alone, which
  is a double, may differ in its last bits, as the additions come in another order (`Agrees`).
-/

import Chronicle.Proofs.Machine.Folding
import Chronicle.Proofs.Summary.Arrival

namespace Chronicle.Machine

namespace Running

def made (call : Guarded Running Unit) (r : Running) : Except Halt Running :=
  match call r with
  | .ok _ r' => .ok r'
  | .error e _ => .error e

/-- Fields that say the same, except for sums that are doubles. -/
structure Agrees (r o : Running) : Prop where
  dataType : r.dataType = o.dataType
  count : r.count = o.count
  start : r.start = o.start
  stop : r.stop = o.stop
  first : r.values?.map (·.first) = o.values?.map (·.first)
  last : r.values?.map (·.last) = o.values?.map (·.last)
  bounds : r.values?.bind (·.bounds?) = o.values?.bind (·.bounds?)
  total : r.values?.map (·.total) = o.values?.map (·.total)

theorem made_eq_ok {call : Guarded Running Unit} {r r' : Running} (h : made call r = .ok r') : call r = .ok () r' := by
  unfold made at h
  split at h
  · next h' =>
    cases h
    exact h'
  · cases h

/-- The fields of statistics that agree do. -/
theorem agrees_of {s o : Statistics} (h : s.Agrees o) : (of s).Agrees (of o) := by
  obtain ⟨t, summary?⟩ := s
  obtain ⟨t', others?⟩ := o
  obtain rfl : t = t' := h.dataType
  cases summary? with
  | none =>
    cases others? with
    | none => exact ⟨rfl, rfl, rfl, rfl, rfl, rfl, rfl, rfl⟩
    | some p => exact absurd h.start (by simp [Statistics.start?])
  | some u =>
    cases others? with
    | none => exact absurd h.start (by simp [Statistics.start?])
    | some p =>
      exact ⟨rfl, h.count, Option.some.inj h.start, Option.some.inj h.stop, h.first, h.last, h.bounds, h.total⟩

end Running

open Running

def fields (t : DataType) : MergeTree → Except Halt Running
  | .page points => made (updates points) (new t)
  | .merge left right => do
    let l ← fields t left
    let r ← fields t right
    made (merge r) l

theorem statistics_of_fields {t : DataType} {tree : MergeTree} {r : Running} (h : fields t tree = .ok r) :
    ∃ s, tree.statistics t = .ok s ∧ r = of s := by
  induction tree generalizing r with
  | page points => exact foldlM_of_updates (s := .empty t) (made_eq_ok h)
  | merge left right ihl ihr =>
    obtain ⟨l, hl, h⟩ := exists_of_bind_eq_ok h
    obtain ⟨o, ho, h⟩ := exists_of_bind_eq_ok h
    obtain ⟨sl, hsl, rfl⟩ := ihl hl
    obtain ⟨so, hso, rfl⟩ := ihr ho
    obtain ⟨s, hs, rfl⟩ := exists_of_leaving_eq_ok ((merge_of sl so).symm.trans (made_eq_ok h))
    refine ⟨s, ?_, rfl⟩
    show (left.statistics t >>= fun l => right.statistics t >>= fun r => Halt.ofExcept (l.merge r)) = _
    rw [hsl, hso]
    exact hs

/-- Points at different times, of a type without floats, come in two orders, are cut into pages in two
    ways and these are merged in two ways. If nothing is refused either way, the fields agree. -/
theorem summaries_ignore_arrival {t : DataType} (ht : t.IsExact) {points : List (Int64 × Value)}
    (htimes : (points.map Prod.fst).Nodup) {tree tree' : MergeTree} (hperm : tree.pages.flatten.Perm points)
    (hperm' : tree'.pages.flatten.Perm points) {r r' : Running} (hr : fields t tree = .ok r)
    (hr' : fields t tree' = .ok r') : r.Agrees r' := by
  obtain ⟨s, hs, rfl⟩ := statistics_of_fields hr
  obtain ⟨o, ho, rfl⟩ := statistics_of_fields hr'
  have htimes' : (tree.pages.flatten.map Prod.fst).Nodup := (hperm.map Prod.fst).nodup_iff.2 htimes
  exact agrees_of (MergeTree.agrees_of_perm ht htimes' (hperm.trans hperm'.symm) hs ho)

/-- Numbers of 64 bits at both ends of time and between them, in one page and in two, before which one
    without points is merged. -/
theorem summaries_ignore_arrival_int64 :
    ∃ r r', fields .int64 (.page [(.maxValue, .int64 7), (0, .int64 (-7)), (.minValue, .int64 7)]) = .ok r ∧
      fields .int64 (.merge (.merge (.page []) (.page [(0, .int64 (-7))]))
        (.page [(.maxValue, .int64 7), (.minValue, .int64 7)])) = .ok r' ∧ r.Agrees r' := by
  obtain ⟨r, hr⟩ : ∃ r, fields .int64 (.page [(.maxValue, .int64 7), (0, .int64 (-7)), (.minValue, .int64 7)]) = .ok r :=
    ⟨_, rfl⟩
  obtain ⟨r', hr'⟩ : ∃ r', fields .int64 (.merge (.merge (.page []) (.page [(0, .int64 (-7))]))
      (.page [(.maxValue, .int64 7), (.minValue, .int64 7)])) = .ok r' := ⟨_, rfl⟩
  refine ⟨r, r', hr, hr', summaries_ignore_arrival (.inr (.inr (.inl rfl))) ?distinct (.refl _) ?permuted hr hr'⟩
  case distinct => decide
  case permuted => exact .swap _ _ _

end Chronicle.Machine
