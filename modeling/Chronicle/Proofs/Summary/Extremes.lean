/-
  Chronicle.Proofs.Summary.Extremes — which element of a list is kept.

  The least number, the greatest one, the first point and the last one are all kept in the same way: what is
  kept gives way to an element that comes before it. The element that leads a list is before all those on its
  left, and none on its right is before it (`Leads`). With a strict order this is the leftmost of equal ones,
  with one that is not strict the rightmost, so the first of the points at one time and the last of them are
  two cases of the same.

  A list has at most one such element (`Leads.eq`), and where two lists are joined it is the one of either list
  that would be kept of the two (`Leads.append_left`, `Leads.append_right`). The order has to be one where of
  two elements of which one is before the other, a third is behind the first or before the second (`Orders`);
  numbers without NaNs are such.
-/

namespace Chronicle

variable {α : Type} {before : α → α → Prop} {P : α → Prop} {xs ys : List α} {a b : α}

/-- The element comes before every one on its left, and none on its right comes before it. -/
def Leads (before : α → α → Prop) (xs : List α) (a : α) : Prop :=
  ∃ left right, xs = left ++ a :: right ∧ (∀ x ∈ left, before a x) ∧ ∀ x ∈ right, ¬ before x a

/-- Of two elements of which one is before the other, a third one is behind the first or before
    the second. It is enough that this holds of the elements at hand. -/
structure Orders (before : α → α → Prop) (P : α → Prop) : Prop where
  trans : ∀ {x y z : α}, before x y → before y z → before x z
  split : ∀ {x y z : α}, P x → P z → before x y → before x z ∨ before z y

theorem leads_singleton (before : α → α → Prop) (a : α) : Leads before [a] a :=
  ⟨[], [], rfl, by simp, by simp⟩

theorem Leads.mem (h : Leads before xs a) : a ∈ xs := by
  obtain ⟨left, right, rfl, -, -⟩ := h
  simp

/-- No list is led by two elements. -/
theorem Leads.eq (ha : Leads before xs a) (hb : Leads before xs b) : a = b := by
  obtain ⟨left, right, rfl, hleft, hright⟩ := ha
  obtain ⟨left', right', heq, hleft', hright'⟩ := hb
  -- Whichever of the two is further left is behind the other one and not behind it.
  rcases List.append_eq_append_iff.1 heq with ⟨between, rfl, hrest⟩ | ⟨between, rfl, hrest⟩
  · cases between with
    | nil => exact (List.cons.inj hrest).1
    | cons x between =>
      obtain ⟨rfl, rfl⟩ := List.cons.inj hrest
      exact absurd (hleft' a (by simp)) (hright b (by simp))
  · cases between with
    | nil => exact (List.cons.inj hrest).1.symm
    | cons x between =>
      obtain ⟨rfl, rfl⟩ := List.cons.inj hrest
      exact absurd (hleft b (by simp)) (hright' a (by simp))

/-- An element that is before the one that leads a list is before all of it. -/
theorem Leads.before_all (ho : Orders before P) (hb : P b) (hxs : ∀ x ∈ xs, P x) (h : Leads before xs a)
    (hba : before b a) : ∀ x ∈ xs, before b x := by
  obtain ⟨left, right, rfl, hleft, hright⟩ := h
  intro x hx
  rcases List.mem_append.1 hx with hmem | hmem
  · exact ho.trans hba (hleft x hmem)
  · rcases List.mem_cons.1 hmem with rfl | hmem
    · exact hba
    · exact (ho.split hb (hxs x hx) hba).resolve_right (hright x hmem)

/-- Where the element that leads a list is not before another one, nothing in the list is. -/
theorem Leads.not_before (ho : Orders before P) (hys : ∀ y ∈ ys, P y) (h : Leads before ys b) (hba : ¬ before b a) :
    ∀ y ∈ ys, ¬ before y a := by
  have hb := hys b h.mem
  obtain ⟨left, right, rfl, hleft, hright⟩ := h
  intro y hy hya
  rcases List.mem_append.1 hy with hmem | hmem
  · exact hba (ho.trans (hleft y hmem) hya)
  · rcases List.mem_cons.1 hmem with rfl | hmem
    · exact hba hya
    · rcases ho.split (hys y hy) hb hya with hyb | h
      · exact hright y hmem hyb
      · exact hba h

/-- What leads the right one of two lists leads both if it is before what leads the left one. -/
theorem Leads.append_right (ho : Orders before P) (hxs : ∀ x ∈ xs, P x) (hys : ∀ y ∈ ys, P y) (ha : Leads before xs a)
    (hb : Leads before ys b) (hba : before b a) : Leads before (xs ++ ys) b := by
  have hbefore := ha.before_all ho (hys b hb.mem) hxs hba
  obtain ⟨left, right, rfl, hleft, hright⟩ := hb
  refine ⟨xs ++ left, right, by simp, ?_, hright⟩
  intro x hx
  rcases List.mem_append.1 hx with hx | hx
  · exact hbefore x hx
  · exact hleft x hx

/-- Otherwise it is what leads the left one. -/
theorem Leads.append_left (ho : Orders before P) (hys : ∀ y ∈ ys, P y) (ha : Leads before xs a)
    (hb : Leads before ys b) (hba : ¬ before b a) : Leads before (xs ++ ys) a := by
  have hbehind := hb.not_before ho hys hba
  obtain ⟨left, right, rfl, hleft, hright⟩ := ha
  refine ⟨left, right ++ ys, by simp, hleft, ?_⟩
  intro x hx
  rcases List.mem_append.1 hx with hx | hx
  · exact hright x hx
  · exact hbehind x hx

end Chronicle
