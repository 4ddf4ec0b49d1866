/-
  Chronicle.Proofs.Summary.Arrival — what does not depend on the order in which points arrive.

  Points at different times have one earliest and one latest point whatever their order, whole numbers a least
  and a greatest one, and a sum (`Points.alike_of_perm`). So statistics of the same points agree, however the
  points were ordered, cut into pages and merged (`MergeTree.agrees_of_perm`).

  The reason is the same for all of them: where elements that are not before one another are equal, the same
  one leads a list in whatever order it is (`Leads.eq_of_perm`). It is not so of points at one time, of which
  the first to arrive is the first, nor of floats: of zeros with both signs the first to arrive is a bound,
  and so is a NaN that comes before all others.
-/

import Mathlib.Data.List.Nodup
import Chronicle.Proofs.Summary.Points

namespace Chronicle

/-! ## What leads in any order -/

/-- Where elements that are not before one another are the same, it is the same one that leads a list
    in whatever order it is. -/
theorem Leads.eq_of_perm {α : Type} {before : α → α → Prop} {P : α → Prop} {xs ys : List α} {a b : α}
    (ho : Orders before P) (hself : ∀ x, ¬ before x x)
    (hsame : ∀ {x y}, P x → P y → ¬ before x y → ¬ before y x → x = y) (hxs : ∀ x ∈ xs, P x) (hperm : xs.Perm ys)
    (ha : Leads before xs a) (hb : Leads before ys b) : a = b := by
  have hys : ∀ y ∈ ys, P y := fun y hy => hxs y (hperm.mem_iff.2 hy)
  have hba : ¬ before b a := ha.not_before ho hxs (hself a) b (hperm.mem_iff.2 hb.mem)
  have hab : ¬ before a b := hb.not_before ho hys (hself b) a (hperm.mem_iff.1 ha.mem)
  exact hsame (hxs a ha.mem) (hys b hb.mem) hab hba

/-- A type of which values that are not below one another are the same, or that has no values that are
    below one another at all. -/
def DataType.IsExact (t : DataType) : Prop := t = .boolean ∨ t = .int32 ∨ t = .int64 ∨ t = .text

theorem Value.isNaN_of_isExact {v : Value} (ht : v.dataType.IsExact) : v.isNaN = false := by
  cases v with
  | float v => simp [DataType.IsExact, dataType] at ht
  | double v => simp [DataType.IsExact, dataType] at ht
  | _ => rfl

/-- Whole numbers of which neither is below the other are the same. -/
theorem Value.eq_of_not_below {n : NumberType} (ht : (DataType.fixed (.number n)).IsExact) {v w : Value}
    (hv : v.IsNumber (.fixed (.number n))) (hw : w.IsNumber (.fixed (.number n))) (hvw : ¬ v.Below w)
    (hwv : ¬ w.Below v) : v = w := by
  obtain ⟨hv, -⟩ := hv
  obtain ⟨hw, -⟩ := hw
  cases n with
  | int32 =>
    cases v <;> cases hv
    cases w <;> cases hw
    simp only [Value.below_int32, Int32.not_lt] at hvw hwv
    rw [Int32.le_antisymm hwv hvw]
  | int64 =>
    cases v <;> cases hv
    cases w <;> cases hw
    simp only [Value.below_int64, Int64.not_lt] at hvw hwv
    rw [Int64.le_antisymm hwv hvw]
  | float => simp [DataType.IsExact] at ht
  | double => simp [DataType.IsExact] at ht

/-- Whole numbers have the same bounds in whatever order they are. -/
theorem Bounds.eq_of_perm {n : NumberType} (ht : (DataType.fixed (.number n)).IsExact) {values others : List Value}
    (hvalues : ∀ v ∈ values, v.IsNumber (.fixed (.number n))) (hperm : values.Perm others) {b c : Bounds}
    (hb : b.Attained values) (hc : c.Attained others) : b = c := by
  have hlo : b.lo = c.lo := by
    refine Leads.eq_of_perm (orders_below _) Value.not_below_self ?_ hvalues hperm hb.lo hc.lo
    exact Value.eq_of_not_below ht
  have hhi : b.hi = c.hi := by
    refine Leads.eq_of_perm (orders_above _) Value.not_below_self ?_ hvalues hperm hb.hi hc.hi
    exact fun hv hw hvw hwv => Value.eq_of_not_below ht hv hw hwv hvw
  exact Bounds.ext hlo hhi

/-! ## Points in any order -/

namespace Points

variable {t : DataType} {xs ys : List (Int64 × Value)}

theorem total_perm (h : xs.Perm ys) : total xs = total ys := by
  induction h with
  | nil => rfl
  | cons p _ ih => simp only [total, ih]
  | swap p q points =>
    simp only [total]
    omega
  | trans _ _ ih ih' => exact ih.trans ih'

/-- Of points at different times in two orders the same is kept. -/
theorem alike_of_perm (ht : t.IsExact) (htype : ∀ p ∈ xs, p.2.dataType = t) (htimes : (xs.map Prod.fst).Nodup)
    (hperm : xs.Perm ys) : Alike t xs ys where
  length := hperm.length_eq
  first hp hq := by
    have hp' := hp.mem
    have hq' := hperm.mem_iff.2 hq.mem
    have htime := Int64.le_antisymm (hp.start_le _ hq') (hq.start_le _ (hperm.mem_iff.1 hp'))
    exact List.inj_on_of_nodup_map htimes hp' hq' htime
  last hp hq := by
    have hp' := hp.mem
    have hq' := hperm.mem_iff.2 hq.mem
    have htime := Int64.le_antisymm (hq.le_stop _ (hperm.mem_iff.1 hp')) (hp.le_stop _ hq')
    exact List.inj_on_of_nodup_map htimes hp' hq' htime
  bounds := by
    rintro n b c rfl hb hc
    refine Bounds.eq_of_perm ht ?_ (hperm.map Prod.snd) hb hc
    intro v hv
    obtain ⟨p, hp, rfl⟩ := List.mem_map.1 hv
    have hnumber := htype p hp
    exact ⟨hnumber, Value.isNaN_of_isExact (hnumber ▸ ht)⟩
  total := total_perm hperm

end Points

namespace MergeTree

variable {t : DataType} {tree tree' : MergeTree} {s o : Statistics}

theorem describes_of_isExact (ht : t.IsExact) (hs : tree.statistics t = .ok s) : s.Describes t tree.pages.flatten := by
  refine describes ?_ hs
  intro p hp
  exact Value.isNaN_of_isExact ((recounts hs).dataType_values p hp ▸ ht)

/-- The statistics of points at different times agree however these were ordered, cut into pages and
    merged. -/
theorem agrees_of_perm (ht : t.IsExact) (htimes : (tree.pages.flatten.map Prod.fst).Nodup)
    (hperm : tree.pages.flatten.Perm tree'.pages.flatten) (hs : tree.statistics t = .ok s)
    (ho : tree'.statistics t = .ok o) : s.Agrees o :=
  (describes_of_isExact ht hs).agrees_of_alike (describes_of_isExact ht ho)
    (Points.alike_of_perm ht (recounts hs).dataType_values htimes hperm)

end MergeTree

end Chronicle
