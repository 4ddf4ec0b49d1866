/-
  Chronicle.Proofs.Summary.Points — what statistics say of the points they were made of.

  (1) Statistics recount a list of points (`Recounts`): their number, the earliest and the latest of them, a
  sum of whole numbers. Of points without NaNs they also give the least and the greatest value, and so
  describe them (`Describes`).

  (2) A point more and the points of other statistics keep both, so they hold however the points were cut into
  pages and in whatever order the pages were merged (`MergeTree.keeps`). Which point is kept is a matter of
  which element leads the list of points (`Leads`), and lists are joined by a merge.

  (3) This leaves no choice but for a sum of doubles, which depends on the order of the additions. So all ways
  to the same points agree (`merged_pages_agree_with_folded_points`), and so do all ways to points that are
  alike (`Describes.agrees_of_alike`).
-/

import Chronicle.Proofs.Summary.Bounds
import Chronicle.Proofs.Summary.Extremes

namespace Chronicle

/-! ## Orders -/

/-- The earlier of two points comes before the other one. -/
def Earlier (p q : Int64 × Value) : Prop := p.1 < q.1

def NotEarlier (p q : Int64 × Value) : Prop := q.1 ≤ p.1

def Value.Above (v w : Value) : Prop := w.Below v

def Value.IsNumber (t : DataType) (v : Value) : Prop := v.dataType = t ∧ v.isNaN = false

theorem orders_earlier : Orders Earlier fun _ => True where
  trans := Int64.lt_trans
  split := by
    intro p q r _ _ h
    simp only [Earlier, Int64.lt_iff_toInt_lt] at h ⊢
    omega

theorem orders_notEarlier : Orders NotEarlier fun _ => True where
  trans h h' := Int64.le_trans h' h
  split := by
    intro p q r _ _ h
    simp only [NotEarlier, Int64.le_iff_toInt_le] at h ⊢
    omega

theorem Leads.start_le {points : List (Int64 × Value)} {p : Int64 × Value} (h : Leads Earlier points p) :
    ∀ q ∈ points, p.1 ≤ q.1 := by
  obtain ⟨left, right, rfl, hleft, hright⟩ := h
  intro q hq
  rcases List.mem_append.1 hq with hmem | hmem
  · exact Int64.le_of_lt (hleft q hmem)
  · rcases List.mem_cons.1 hmem with rfl | hmem
    · exact Int64.le_refl _
    · exact Int64.not_lt.1 (hright q hmem)

theorem Leads.le_stop {points : List (Int64 × Value)} {p : Int64 × Value} (h : Leads NotEarlier points p) :
    ∀ q ∈ points, q.1 ≤ p.1 := by
  obtain ⟨left, right, rfl, hleft, hright⟩ := h
  intro q hq
  rcases List.mem_append.1 hq with hmem | hmem
  · exact hleft q hmem
  · rcases List.mem_cons.1 hmem with rfl | hmem
    · exact Int64.le_refl _
    · exact Int64.le_of_lt (Int64.not_le.1 (hright q hmem))

theorem orders_below (t : DataType) : Orders Value.Below (Value.IsNumber t) where
  trans := Value.Below.trans
  split hx hz h := h.split (hz.1.trans hx.1.symm) hz.2

theorem orders_above (t : DataType) : Orders Value.Above (Value.IsNumber t) where
  trans h h' := Value.Below.trans h' h
  split := by
    intro v w x hv hx h
    have hw : x.dataType = w.dataType := by
      rw [hx.1, ← hv.1, h.dataType_eq]
    rcases Value.Below.split h hw hx.2 with h | h
    · exact .inr h
    · exact .inl h

/-! ## One summary -/

namespace Points

/-- The sum of the values of some points, if that is a sum of whole numbers. -/
def total : List (Int64 × Value) → Int
  | [] => 0
  | p :: points => p.2.addend + total points

theorem total_append (xs ys : List (Int64 × Value)) : total (xs ++ ys) = total xs + total ys := by
  induction xs with
  | nil => simp [total]
  | cons p xs ih => simp [total, ih, Int.add_assoc]

end Points

/-- Bounds that are values themselves: the leftmost one of the least and that of the greatest. -/
structure Bounds.Attained (b : Bounds) (values : List Value) : Prop where
  lo : Leads Value.Below values b.lo
  hi : Leads Value.Above values b.hi

/-- Lists of points of a type of which the same is kept: there are as many of them, the same points and
    bounds lead them, and their sums are the same. -/
structure Points.Alike (t : DataType) (xs ys : List (Int64 × Value)) : Prop where
  length : xs.length = ys.length
  first : ∀ {p q}, Leads Earlier xs p → Leads Earlier ys q → p = q
  last : ∀ {p q}, Leads NotEarlier xs p → Leads NotEarlier ys q → p = q
  bounds : ∀ {n : NumberType} {b c : Bounds}, t = .fixed (.number n) → b.Attained (xs.map Prod.snd) →
    c.Attained (ys.map Prod.snd) → b = c
  total : Points.total xs = Points.total ys

/-- Points leave no choice of what is kept of them. -/
theorem Points.Alike.refl (t : DataType) (xs : List (Int64 × Value)) : Alike t xs xs where
  length := rfl
  first := Leads.eq
  last := Leads.eq
  bounds _ hb hc := Bounds.ext (hb.lo.eq hc.lo) (hb.hi.eq hc.hi)
  total := rfl

theorem Points.Alike.symm {t : DataType} {xs ys : List (Int64 × Value)} (h : Alike t xs ys) : Alike t ys xs where
  length := h.length.symm
  first hp hq := (h.first hq hp).symm
  last hp hq := (h.last hq hp).symm
  bounds ht hb hc := (h.bounds ht hc hb).symm
  total := h.total.symm

/-- What a summary says of points of any values, NaNs among them: their number, their sum, of the
    earliest ones the first that was written and of the latest ones the last. -/
structure Summary.Recounts (u : Summary) (points : List (Int64 × Value)) : Prop where
  count : u.count.toNat = points.length
  first : Leads Earlier points (u.start, u.values.first)
  last : Leads NotEarlier points (u.stop, u.values.last)
  total : u.values.total = Points.total points

/-- What a summary says of some points. Of the earliest ones it has the first that was written,
    of the latest ones the last. -/
structure Summary.Describes (u : Summary) (points : List (Int64 × Value)) : Prop where
  count : u.count.toNat = points.length
  first : Leads Earlier points (u.start, u.values.first)
  last : Leads NotEarlier points (u.stop, u.values.last)
  bounds : ∀ b ∈ u.values.bounds?, b.Attained (points.map Prod.snd)
  total : u.values.total = Points.total points

theorem min_eq_of_lt {a b : Int64} (h : b < a) : min a b = b := if_neg (Int64.not_le.2 h)

theorem min_eq_of_not_lt {a b : Int64} (h : ¬ b < a) : min a b = a := if_pos (Int64.not_lt.1 h)

theorem max_eq_of_le {a b : Int64} (h : a ≤ b) : max a b = b := if_pos h

theorem max_eq_of_not_le {a b : Int64} (h : ¬ a ≤ b) : max a b = a := if_neg h

/-- Bounds of some numbers that give way to those of others are bounds of all of them. -/
theorem Bounds.Joined.attained {b c d : Bounds} {t : DataType} {xs ys : List Value} (h : b.Joined c d)
    (hxs : ∀ v ∈ xs, v.IsNumber t) (hys : ∀ v ∈ ys, v.IsNumber t) (hb : b.Attained xs) (hc : c.Attained ys) :
    d.Attained (xs ++ ys) where
  lo := by
    rcases h.lo with ⟨hlo, elo⟩ | ⟨hlo, elo⟩ <;> rw [elo]
    · exact hb.lo.append_right (orders_below t) hxs hys hc.lo hlo
    · exact hb.lo.append_left (orders_below t) hys hc.lo hlo
  hi := by
    rcases h.hi with ⟨hhi, ehi⟩ | ⟨hhi, ehi⟩ <;> rw [ehi]
    · exact hb.hi.append_right (orders_above t) hxs hys hc.hi hhi
    · exact hb.hi.append_left (orders_above t) hys hc.hi hhi

namespace Summary

variable {u p : Summary} {xs ys : List (Int64 × Value)} {t : DataType} {count : UInt64} {values : ValueSummary}

/-- The first value and the time it is of. -/
theorem Recounts.first_merge (hu : u.Recounts xs) (hp : p.Recounts ys)
    (h : values.first = if p.start < u.start then p.values.first else u.values.first) :
    Leads Earlier (xs ++ ys) (min u.start p.start, values.first) := by
  by_cases hlt : p.start < u.start
  · rw [h, if_pos hlt, min_eq_of_lt hlt]
    exact hu.first.append_right orders_earlier (by simp) (by simp) hp.first hlt
  · rw [h, if_neg hlt, min_eq_of_not_lt hlt]
    exact hu.first.append_left orders_earlier (by simp) hp.first hlt

/-- The last value and the time it is of. -/
theorem Recounts.last_merge (hu : u.Recounts xs) (hp : p.Recounts ys)
    (h : values.last = if u.stop ≤ p.stop then p.values.last else u.values.last) :
    Leads NotEarlier (xs ++ ys) (max u.stop p.stop, values.last) := by
  by_cases hle : u.stop ≤ p.stop
  · rw [h, if_pos hle, max_eq_of_le hle]
    exact hu.last.append_right orders_notEarlier (by simp) (by simp) hp.last hle
  · rw [h, if_neg hle, max_eq_of_not_le hle]
    exact hu.last.append_left orders_notEarlier (by simp) hp.last hle

/-- What a summary says that has taken another one in, it says of the points of both. -/
theorem Recounts.merge (hu : u.Recounts xs) (hp : p.Recounts ys)
    (hcount : Statistics.addCounts u.count p.count = .ok count)
    (hvalues : u.values.absorb p.values (p.start < u.start) (u.stop ≤ p.stop) = .ok values) :
    Recounts ⟨count, min u.start p.start, max u.stop p.stop, values⟩ (xs ++ ys) := by
  obtain ⟨-, -, hfirst, hlast, htotal⟩ := ValueSummary.absorb_eq_ok hvalues
  refine ⟨?_, hu.first_merge hp (by simpa using hfirst), hu.last_merge hp (by simpa using hlast), ?_⟩
  · rw [Statistics.toNat_of_addCounts hcount, hu.count, hp.count, List.length_append]
  · rw [htotal, hu.total, hp.total, Points.total_append]

theorem recounts_single (time : Int64) (v : Value) : Recounts ⟨1, time, time, .single v⟩ [(time, v)] := by
  refine ⟨rfl, ?_, ?_, ?_⟩
  · simpa using leads_singleton Earlier (time, v)
  · simpa using leads_singleton NotEarlier (time, v)
  · simp [Points.total]

theorem Recounts.dataType_values (hu : u.Recounts xs) (hxs : ∀ q ∈ xs, q.2.dataType = t) : u.values.dataType = t := by
  rw [← u.values.dataType_first]
  exact hxs _ hu.first.mem

theorem Describes.recounts (hu : u.Describes xs) : u.Recounts xs := ⟨hu.count, hu.first, hu.last, hu.total⟩

theorem Recounts.describes (hu : u.Recounts xs) (hbounds : ∀ b ∈ u.values.bounds?, b.Attained (xs.map Prod.snd)) :
    u.Describes xs := ⟨hu.count, hu.first, hu.last, hbounds, hu.total⟩

/-- Of points without NaNs it says too what their bounds are. -/
theorem Describes.merge (hu : u.Describes xs) (hp : p.Describes ys) (hxs : ∀ q ∈ xs, q.2.IsNumber t)
    (hys : ∀ q ∈ ys, q.2.IsNumber t) (hcount : Statistics.addCounts u.count p.count = .ok count)
    (hvalues : u.values.absorb p.values (p.start < u.start) (u.stop ≤ p.stop) = .ok values) :
    Describes ⟨count, min u.start p.start, max u.stop p.stop, values⟩ (xs ++ ys) := by
  refine (hu.recounts.merge hp.recounts hcount hvalues).describes ?_
  intro d hd
  obtain ⟨hother, htype, -⟩ := ValueSummary.absorb_eq_ok hvalues
  obtain ⟨number, hnumber⟩ := ValueSummary.exists_bounds_iff.1 ⟨d, hd⟩
  obtain ⟨b, hb⟩ := ValueSummary.exists_bounds_iff.2 ⟨number, htype.symm.trans hnumber⟩
  obtain ⟨c, hc⟩ := ValueSummary.exists_bounds_iff.2 ⟨number, hother.trans (htype.symm.trans hnumber)⟩
  obtain ⟨d', hd', hjoined⟩ := ValueSummary.bounds_absorb hvalues hb hc
  obtain rfl := Option.some.inj (hd'.symm.trans hd)
  rw [List.map_append]
  refine hjoined.attained (t := t) ?_ ?_ (hu.bounds b hb) (hp.bounds c hc)
  · simpa using fun v time hv => hxs (time, v) hv
  · simpa using fun v time hv => hys (time, v) hv

/-- Lists that are alike leave no choice of their bounds. -/
theorem Describes.bounds_eq_some (hu : u.Describes xs) (hp : p.Describes ys) (hsame : Points.Alike t xs ys)
    (htu : u.values.dataType = t) (htp : p.values.dataType = t) {b : Bounds} (hb : u.values.bounds? = some b) :
    p.values.bounds? = some b := by
  obtain ⟨number, hnumber⟩ := ValueSummary.exists_bounds_iff.1 ⟨b, hb⟩
  have ht : t = .fixed (.number number) := htu.symm.trans hnumber
  obtain ⟨c, hc⟩ := ValueSummary.exists_bounds_iff.2 ⟨number, htp.trans ht⟩
  rw [hc, hsame.bounds ht (hu.bounds b hb) (hp.bounds c hc)]

theorem describes_single (time : Int64) (v : Value) : Describes ⟨1, time, time, .single v⟩ [(time, v)] := by
  refine (recounts_single time v).describes ?_
  intro b hb
  obtain ⟨number, hnumber⟩ := ValueSummary.exists_bounds_iff.1 ⟨b, hb⟩
  rw [ValueSummary.bounds_single ((ValueSummary.dataType_single v).symm.trans hnumber)] at hb
  cases hb
  exact ⟨leads_singleton Value.Below v, leads_singleton Value.Above v⟩

end Summary

/-! ## Statistics -/

namespace Statistics

inductive Recounts (t : DataType) : List (Int64 × Value) → Statistics → Prop
  | empty : Recounts t [] (.empty t)
  | points {points : List (Int64 × Value)} {u : Summary} : (∀ p ∈ points, p.2.dataType = t) → u.Recounts points →
      Recounts t points ⟨t, some u⟩

inductive Describes (t : DataType) : List (Int64 × Value) → Statistics → Prop
  | empty : Describes t [] (.empty t)
  | points {points : List (Int64 × Value)} {u : Summary} : (∀ p ∈ points, p.2.dataType = t) → u.Describes points →
      Describes t points ⟨t, some u⟩

variable {t : DataType} {s o r : Statistics} {xs ys : List (Int64 × Value)} {time : Int64} {v : Value}

theorem Recounts.dataType_eq (h : s.Recounts t xs) : s.dataType = t := by
  cases h <;> rfl

theorem Recounts.dataType_values (h : s.Recounts t xs) : ∀ p ∈ xs, p.2.dataType = t := by
  cases h with
  | empty => simp
  | points hxs _ => exact hxs

theorem Describes.recounts (h : s.Describes t xs) : s.Recounts t xs := by
  cases h with
  | empty => exact .empty
  | points hxs hu => exact .points hxs hu.recounts

theorem recounts_ofPoint (time : Int64) (v : Value) : (ofPoint time v).Recounts v.dataType [(time, v)] :=
  .points (by simp) (Summary.recounts_single time v)

theorem describes_ofPoint (time : Int64) (v : Value) : (ofPoint time v).Describes v.dataType [(time, v)] :=
  .points (by simp) (Summary.describes_single time v)

/-- Statistics that take others in recount the points of both. -/
theorem Recounts.merge (hs : s.Recounts t xs) (ho : o.Recounts t ys) (h : s.merge o = .ok r) :
    r.Recounts t (xs ++ ys) := by
  cases ho with
  | empty =>
    obtain rfl := merge_of_none rfl h
    rw [List.append_nil]
    exact hs
  | @points ys p hys hp =>
    cases hs with
    | empty =>
      obtain rfl := merge_into_none rfl h
      exact .points hys hp
    | @points xs u hxs hu =>
      obtain ⟨-, count, values, hcount, hvalues, rfl⟩ := merge_eq_ok h
      exact .points (List.forall_mem_append.2 ⟨hxs, hys⟩) (hu.merge hp hcount hvalues)

/-- Statistics that take others in describe the points of both. -/
theorem Describes.merge (hs : s.Describes t xs) (ho : o.Describes t ys) (hnan : ∀ p ∈ xs ++ ys, p.2.isNaN = false)
    (h : s.merge o = .ok r) : r.Describes t (xs ++ ys) := by
  cases ho with
  | empty =>
    obtain rfl := merge_of_none rfl h
    rw [List.append_nil]
    exact hs
  | @points ys p hys hp =>
    cases hs with
    | empty =>
      obtain rfl := merge_into_none rfl h
      exact .points hys hp
    | @points xs u hxs hu =>
      obtain ⟨-, count, values, hcount, hvalues, rfl⟩ := merge_eq_ok h
      obtain ⟨hnanx, hnany⟩ := List.forall_mem_append.1 hnan
      refine .points (List.forall_mem_append.2 ⟨hxs, hys⟩) (hu.merge (t := t) hp ?_ ?_ hcount hvalues)
      · exact fun q hq => ⟨hxs q hq, hnanx q hq⟩
      · exact fun q hq => ⟨hys q hq, hnany q hq⟩

/-- Statistics that take a point in recount that point too. -/
theorem Recounts.update (hs : s.Recounts t xs) (h : s.update time v = .ok r) : r.Recounts t (xs ++ [(time, v)]) := by
  have ht := (update_eq_ok h).1.trans hs.dataType_eq
  have hpoint := recounts_ofPoint time v
  rw [ht] at hpoint
  exact hs.merge hpoint (merge_of_update h)

/-- Statistics that take a point in describe that point too. -/
theorem Describes.update (hs : s.Describes t xs) (hnan : ∀ p ∈ xs ++ [(time, v)], p.2.isNaN = false)
    (h : s.update time v = .ok r) : r.Describes t (xs ++ [(time, v)]) := by
  have ht := (update_eq_ok h).1.trans hs.recounts.dataType_eq
  have hpoint := describes_ofPoint time v
  rw [ht] at hpoint
  exact hs.merge hpoint hnan (merge_of_update h)

/-- What one more point keeps, all points of a fold keep. -/
theorem foldlM_keeps {P : List (Int64 × Value) → Statistics → Prop}
    (hstep : ∀ {xs s time v r}, P xs s → s.update time v = .ok r → P (xs ++ [(time, v)]) r)
    {points : List (Int64 × Value)} (hs : P xs s) (h : points.foldlM (fun s p => s.update p.1 p.2) s = .ok r) :
    P (xs ++ points) r := by
  induction points generalizing s xs with
  | nil =>
    cases h
    rw [List.append_nil]
    exact hs
  | cons p points ih =>
    rw [List.foldlM_cons] at h
    obtain ⟨next, hupdate, h⟩ := exists_of_bind_eq_ok h
    rw [List.append_cons]
    exact ih (hstep hs hupdate) h

/-- Statistics of some points recount them. -/
theorem recounts_ofPoints {points : List (Int64 × Value)} (h : ofPoints t points = .ok s) : s.Recounts t points :=
  foldlM_keeps Recounts.update Recounts.empty h

/-- Statistics of some points describe them. -/
theorem describes_ofPoints {points : List (Int64 × Value)} (hnan : ∀ p ∈ points, p.2.isNaN = false)
    (h : ofPoints t points = .ok s) : s.Describes t points := by
  refine foldlM_keeps (P := fun xs s => (∀ p ∈ xs, p.2.isNaN = false) → s.Describes t xs) ?_ (fun _ => Describes.empty) h hnan
  intro xs s time v r hs h hnan
  exact (hs (List.forall_mem_append.1 hnan).1).update hnan h

/-! ## Agreement -/

def start? (s : Statistics) : Option Int64 := s.summary?.map (·.start)

def stop? (s : Statistics) : Option Int64 := s.summary?.map (·.stop)

def first? (s : Statistics) : Option Value := s.summary?.map (·.values.first)

def last? (s : Statistics) : Option Value := s.summary?.map (·.values.last)

def total? (s : Statistics) : Option Int := s.summary?.map (·.values.total)

/-- Statistics that say the same, bit for bit, except for sums that are doubles. -/
structure Agrees (s o : Statistics) : Prop where
  dataType : s.dataType = o.dataType
  count : s.count = o.count
  start : s.start? = o.start?
  stop : s.stop? = o.stop?
  first : s.first? = o.first?
  last : s.last? = o.last?
  bounds : s.bounds? = o.bounds?
  total : s.total? = o.total?

theorem not_describes_nil (u : Summary) : ¬ u.Describes [] := by
  intro h
  exact absurd h.first.mem (by simp)

/-- Points that are alike leave no choice of what describes them. -/
theorem Describes.agrees_of_alike (hs : s.Describes t xs) (ho : o.Describes t ys) (hsame : Points.Alike t xs ys) :
    s.Agrees o := by
  cases hs with
  | empty =>
    obtain rfl := List.eq_nil_of_length_eq_zero hsame.length.symm
    cases ho with
    | empty => exact ⟨rfl, rfl, rfl, rfl, rfl, rfl, rfl, rfl⟩
    | points _ hp => exact absurd hp (not_describes_nil _)
  | @points xs u hxs hu =>
    cases ho with
    | empty =>
      obtain rfl := List.eq_nil_of_length_eq_zero hsame.length
      exact absurd hu (not_describes_nil u)
    | @points ys p hys hp =>
      obtain ⟨hstart, hfirst⟩ := Prod.mk.inj (hsame.first hu.first hp.first)
      obtain ⟨hstop, hlast⟩ := Prod.mk.inj (hsame.last hu.last hp.last)
      have hcount : u.count = p.count := UInt64.toNat_inj.1 (hu.count.trans (hsame.length.trans hp.count.symm))
      have htu := hu.recounts.dataType_values hxs
      have htp := hp.recounts.dataType_values hys
      have hbounds : u.values.bounds? = p.values.bounds? :=
        Option.ext fun b => ⟨hu.bounds_eq_some hp hsame htu htp, hp.bounds_eq_some hu hsame.symm htp htu⟩
      have htotal : u.values.total = p.values.total := hu.total.trans (hsame.total.trans hp.total.symm)
      exact ⟨rfl, hcount, congrArg some hstart, congrArg some hstop, congrArg some hfirst, congrArg some hlast, hbounds,
        congrArg some htotal⟩

/-- Points leave no choice of what describes them. -/
theorem Describes.agrees (hs : s.Describes t xs) (ho : o.Describes t xs) : s.Agrees o :=
  hs.agrees_of_alike ho (.refl t xs)

end Statistics

/-! ## Pages -/

/-- Pages of points, whose statistics are merged two by two from left to right. -/
inductive MergeTree
  | page (points : List (Int64 × Value))
  | merge (left right : MergeTree)

namespace MergeTree

def pages : MergeTree → List (List (Int64 × Value))
  | page points => [points]
  | merge left right => left.pages ++ right.pages

def statistics (t : DataType) : MergeTree → Except Halt Statistics
  | page points => Statistics.ofPoints t points
  | merge left right => do Halt.ofExcept ((← left.statistics t).merge (← right.statistics t))

/-- What holds of the statistics of every page and is kept by a merge holds of all pages. -/
theorem keeps {t : DataType} {P : List (Int64 × Value) → Statistics → Prop}
    (hpage : ∀ {points s}, Statistics.ofPoints t points = .ok s → P points s)
    (hmerge : ∀ {xs ys s o r}, P xs s → P ys o → s.merge o = .ok r → P (xs ++ ys) r) {tree : MergeTree} {s : Statistics}
    (h : tree.statistics t = .ok s) : P tree.pages.flatten s := by
  induction tree generalizing s with
  | page points =>
    have hpages : (page points).pages.flatten = points := by simp [pages]
    rw [hpages]
    exact hpage h
  | merge left right ihl ihr =>
    obtain ⟨l, hl, h⟩ := exists_of_bind_eq_ok h
    obtain ⟨r, hr, h⟩ := exists_of_bind_eq_ok h
    rw [pages, List.flatten_append]
    exact hmerge (ihl hl) (ihr hr) (Halt.ofExcept_eq_ok.1 h)

theorem recounts {t : DataType} {tree : MergeTree} {s : Statistics} (h : tree.statistics t = .ok s) :
    s.Recounts t tree.pages.flatten :=
  keeps Statistics.recounts_ofPoints Statistics.Recounts.merge h

theorem describes {t : DataType} {tree : MergeTree} {s : Statistics} (hnan : ∀ p ∈ tree.pages.flatten, p.2.isNaN = false)
    (h : tree.statistics t = .ok s) : s.Describes t tree.pages.flatten := by
  refine keeps (P := fun xs s => (∀ p ∈ xs, p.2.isNaN = false) → s.Describes t xs) ?_ ?_ h hnan
  · exact fun h hnan => Statistics.describes_ofPoints hnan h
  · intro xs ys s o r hs ho h hnan
    obtain ⟨hnanx, hnany⟩ := List.forall_mem_append.1 hnan
    exact (hs hnanx).merge (ho hnany) hnan h

end MergeTree

/-- However pages are merged, from left to right, their statistics agree with those of all
    their points, folded one by one. -/
theorem merged_pages_agree_with_folded_points {t : DataType} {pages : List (List (Int64 × Value))} {tree : MergeTree}
    (htree : tree.pages = pages) (hnan : ∀ page ∈ pages, ∀ p ∈ page, p.2.isNaN = false) {s folded : Statistics}
    (hs : tree.statistics t = .ok s) (hf : Statistics.ofPoints t pages.flatten = .ok folded) : s.Agrees folded := by
  have hnumbers : ∀ p ∈ pages.flatten, p.2.isNaN = false := by
    intro p hp
    obtain ⟨page, hpage, hp⟩ := List.mem_flatten.1 hp
    exact hnan page hpage p hp
  have htotal := Statistics.describes_ofPoints hnumbers hf
  rw [← htree] at hnumbers htotal
  exact (tree.describes hnumbers hs).agrees htotal

/-- Three pages, of which one is empty, with both zeros at one time and two points at the
    greatest. -/
theorem merged_pages_agree_with_folded_points_float :
    ∃ tree s folded, MergeTree.pages tree = [[(5, .float ⟨0⟩), (Int64.maxValue, .float ⟨0x3F800000⟩)], [],
        [(5, .float ⟨0x80000000⟩), (Int64.maxValue, .float ⟨0x40000000⟩)]] ∧
      tree.statistics .float = .ok s ∧ Statistics.ofPoints .float tree.pages.flatten = .ok folded ∧ s.Agrees folded := by
  obtain ⟨s, hs⟩ : ∃ s, (MergeTree.merge (.page [(5, .float ⟨0⟩), (Int64.maxValue, .float ⟨0x3F800000⟩)])
    (.merge (.page []) (.page [(5, .float ⟨0x80000000⟩), (Int64.maxValue, .float ⟨0x40000000⟩)]))).statistics .float =
      .ok s := ⟨_, rfl⟩
  refine ⟨_, s, _, rfl, hs, rfl, ?_⟩
  exact merged_pages_agree_with_folded_points rfl (by decide) hs rfl

end Chronicle
