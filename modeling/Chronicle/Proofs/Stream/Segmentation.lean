/-
  Chronicle.Proofs.Stream.Segmentation — there is one way to cut patterns into segments.

  `Canonical` says it without an algorithm: a list has maximal stretches of equal neighbours, a stretch of
  two or more becomes runs, and stretches of one in a row become literals; both have as many patterns as the
  cap allows, but for the last piece.

  Proved.
  - A list has no stretches but those that it is split into (`Stretches.splitBy_eq`), and a length no pieces
    but the ones that are full up to the last (`eq_chunks`).
  - So no list of segments but `segments` is canonical (`canonical_iff`).
  - No two neighbours of a segment of literals are equal (`Canonical.isChain_of_literals`).

  The scan that an encoder makes over its values is compared with this in
  `Chronicle.Proofs.Machine.RunLengthWriter`.
-/

import Mathlib.Algebra.GroupWithZero.Nat
import Mathlib.Data.List.SplitBy
import Chronicle.Proofs.Stream.RunLength

namespace Chronicle.RunLength

/-! ## Canonical segments -/

/-- Lengths that add up to `total`: each of them is `cap` but possibly the last, which is not 0. -/
structure Filled (cap total : Nat) (lengths : List Nat) : Prop where
  sum : lengths.sum = total
  count : lengths.length = (total + cap - 1) / cap
  bounds : ∀ n ∈ lengths, 1 ≤ n ∧ n ≤ cap
  full : ∀ n ∈ lengths.dropLast, n = cap

structure Stretch where
  value : Nat
  length : Nat

def Stretch.expand (s : Stretch) : List Nat := List.replicate s.length s.value

/-- The stretches of a list. None could be longer: those next to each other differ in value. -/
structure Stretches (patterns : List Nat) (stretches : List Stretch) : Prop where
  whole : stretches.flatMap Stretch.expand = patterns
  pos : ∀ s ∈ stretches, 1 ≤ s.length
  maximal : stretches.IsChain fun s next => s.value ≠ next.value

/-- The segments of stretches. Literals are as many stretches of one in a row as there are. -/
inductive Segmented (cap : Nat) : List Stretch → List Segment → Prop
  | nil : Segmented cap [] []
  | run {s : Stretch} {rest : List Stretch} {lengths : List Nat} {segments : List Segment}
    (htwo : 2 ≤ s.length) (hlengths : Filled cap s.length lengths) (hrest : Segmented cap rest segments) :
    Segmented cap (s :: rest) (lengths.map (.run s.value) ++ segments)
  | literals {values : List Nat} {rest : List Stretch} {pieces : List (List Nat)} {segments : List Segment}
    (hne : values ≠ []) (hmaximal : ∀ s ∈ rest.head?, 2 ≤ s.length) (hpieces : pieces.flatten = values)
    (hlengths : Filled cap values.length (pieces.map List.length)) (hrest : Segmented cap rest segments) :
    Segmented cap (values.map (⟨·, 1⟩) ++ rest) (pieces.map .literals ++ segments)

def Canonical (cap : Nat) (patterns : List Nat) (segments : List Segment) : Prop :=
  ∃ stretches, Stretches patterns stretches ∧ Segmented cap stretches segments

/-! ## Pieces -/

variable {α : Type} {cap : Nat}

/-- There are as few lengths as can be. -/
theorem length_of_full {lengths : List Nat} (hcap : 0 < cap) (hbounds : ∀ n ∈ lengths, 1 ≤ n ∧ n ≤ cap)
    (hfull : ∀ n ∈ lengths.dropLast, n = cap) : lengths.length = (lengths.sum + cap - 1) / cap := by
  induction lengths with
  | nil =>
    have hlt : 0 + cap - 1 < cap := by omega
    exact (Nat.div_eq_of_lt hlt).symm
  | cons n lengths ih =>
    obtain ⟨hn, hbounds⟩ := List.forall_mem_cons.1 hbounds
    cases lengths with
    | nil =>
      have hlast : [n].sum + cap - 1 = n - 1 + cap := by
        rw [List.sum_singleton]
        omega
      have hlt : n - 1 < cap := by omega
      rw [hlast, Nat.add_div_right _ hcap, Nat.div_eq_of_lt hlt]
      rfl
    | cons m lengths =>
      rw [List.dropLast_cons_cons] at hfull
      obtain ⟨hn', hfull⟩ := List.forall_mem_cons.1 hfull
      have hsum : (n :: m :: lengths).sum + cap - 1 = ((m :: lengths).sum + cap - 1) + cap := by
        rw [List.sum_cons, hn']
        omega
      rw [hsum, Nat.add_div_right _ hcap, ← ih hbounds hfull]
      rfl

theorem full_chunks (xs : List α) : ∀ piece ∈ (chunks cap xs).dropLast, piece.length = max cap 1 := by
  fun_induction chunks cap xs with
  | case1 => simp
  | case2 a rest ih =>
    cases hlater : chunks cap (rest.drop (cap - 1)) with
    | nil => simp
    | cons piece pieces =>
      rw [hlater] at ih
      have hlong : cap - 1 < rest.length := by
        apply Nat.lt_of_not_le
        intro hshort
        rw [List.drop_eq_nil_of_le hshort, chunks_nil] at hlater
        cases hlater
      rw [List.dropLast_cons_cons]
      refine List.forall_mem_cons.2 ⟨?_, ih⟩
      rw [List.length_cons, List.length_take]
      omega

theorem filled_chunks (hcap : 0 < cap) (xs : List α) : Filled cap xs.length ((chunks cap xs).map List.length) := by
  have hsum : ((chunks cap xs).map List.length).sum = xs.length := by
    rw [← List.length_flatten, flatten_chunks]
  have hbounds : ∀ n ∈ (chunks cap xs).map List.length, 1 ≤ n ∧ n ≤ cap := by
    intro n hn
    obtain ⟨piece, hp, rfl⟩ := List.mem_map.1 hn
    exact length_le_of_mem_chunks hcap hp
  have hfull : ∀ n ∈ ((chunks cap xs).map List.length).dropLast, n = cap := by
    intro n hn
    rw [← List.map_dropLast] at hn
    obtain ⟨piece, hp, rfl⟩ := List.mem_map.1 hn
    rw [full_chunks xs piece hp]
    exact Nat.max_eq_left hcap
  refine ⟨hsum, ?_, hbounds, hfull⟩
  have hcount := length_of_full hcap hbounds hfull
  rw [hsum] at hcount
  exact hcount

/-- Pieces that are full, but for the last one, are those that the list is cut into. -/
theorem eq_chunks {pieces : List (List α)} (hbounds : ∀ n ∈ pieces.map List.length, 1 ≤ n ∧ n ≤ cap)
    (hfull : ∀ n ∈ (pieces.map List.length).dropLast, n = cap) : pieces = chunks cap pieces.flatten := by
  induction pieces with
  | nil => rw [List.flatten_nil, chunks_nil]
  | cons piece pieces ih =>
    rw [List.map_cons] at hbounds hfull
    obtain ⟨hpiece, hlater⟩ := List.forall_mem_cons.1 hbounds
    cases piece with
    | nil =>
      rw [List.length_nil] at hpiece
      omega
    | cons a piece =>
      rw [List.length_cons] at hpiece
      rw [List.flatten_cons, List.cons_append, chunks_cons]
      cases pieces with
      | nil =>
        have hshort : piece.length ≤ cap - 1 := by omega
        rw [List.flatten_nil, List.append_nil, List.take_of_length_le hshort, List.drop_eq_nil_of_le hshort,
          chunks_nil]
      | cons next pieces =>
        rw [List.map_cons, List.dropLast_cons_cons] at hfull
        obtain ⟨hlength, hfull⟩ := List.forall_mem_cons.1 hfull
        rw [List.length_cons] at hlength
        have hsize : cap - 1 = piece.length := by omega
        rw [hsize, List.take_left, List.drop_left, ← ih hlater hfull]

/-! ## Stretches -/

/-- A stretch in front of something else is the first one that the list is split into. -/
theorem splitBy_replicate_append {v n : Nat} {rest : List Nat} (hn : 1 ≤ n) (hv : ∀ w ∈ rest.head?, v ≠ w) :
    (List.replicate n v ++ rest).splitBy (· == ·) = List.replicate n v :: rest.splitBy (· == ·) := by
  have hne : List.replicate n v ≠ [] := by
    rw [Ne, List.replicate_eq_nil_iff]
    omega
  have hsame : (List.replicate n v).splitBy (· == ·) = [List.replicate n v] := by
    apply List.splitBy_of_isChain hne
    apply List.isChain_replicate_of_rel
    exact beq_self_eq_true v
  have hsplit : (List.replicate n v ++ rest).splitBy (· == ·) =
      (List.replicate n v).splitBy (· == ·) ++ rest.splitBy (· == ·) := by
    apply List.splitBy_append
    intro x hx y hy
    have hlast : x = v := List.eq_of_mem_replicate (List.mem_of_mem_getLast? hx)
    rw [hlast]
    exact beq_false_of_ne (hv y hy)
  rw [hsplit, hsame]
  rfl

theorem Stretch.head?_expand {s : Stretch} (h : 1 ≤ s.length) (rest : List Nat) :
    (s.expand ++ rest).head? = some s.value := by
  obtain ⟨n, hn⟩ : ∃ n, s.length = n + 1 := ⟨s.length - 1, by omega⟩
  rw [Stretch.expand, hn]
  rfl

/-- A list has no stretches but those that it is split into. -/
theorem Stretches.splitBy_eq {patterns : List Nat} {stretches : List Stretch} (h : Stretches patterns stretches) :
    patterns.splitBy (· == ·) = stretches.map Stretch.expand := by
  obtain ⟨rfl, hpos, hmaximal⟩ := h
  induction stretches with
  | nil => rfl
  | cons s stretches ih =>
    obtain ⟨hs, hpos⟩ := List.forall_mem_cons.1 hpos
    obtain ⟨hnext, hmaximal⟩ := List.isChain_cons.1 hmaximal
    rw [List.flatMap_cons, List.map_cons, ← ih hpos hmaximal]
    apply splitBy_replicate_append hs
    cases stretches with
    | nil => simp
    | cons t stretches =>
      rw [List.flatMap_cons, Stretch.head?_expand (hpos t List.mem_cons_self)]
      intro w hw
      rw [Option.mem_some.1 hw.symm]
      exact hnext t rfl

theorem exists_stretches (patterns : List Nat) : ∃ stretches, Stretches patterns stretches := by
  induction patterns with
  | nil => exact ⟨[], rfl, by simp, .nil⟩
  | cons v patterns ih =>
    obtain ⟨stretches, rfl, hpos, hmaximal⟩ := ih
    cases stretches with
    | nil => exact ⟨[⟨v, 1⟩], rfl, by simp, .singleton _⟩
    | cons s stretches =>
      by_cases hv : v = s.value
      · refine ⟨⟨v, s.length + 1⟩ :: stretches, ?_, ?_, ?_⟩
        · rw [hv]
          rfl
        · exact List.forall_mem_cons.2 ⟨Nat.succ_pos _, (List.forall_mem_cons.1 hpos).2⟩
        · rw [List.isChain_cons] at hmaximal ⊢
          rw [hv]
          exact hmaximal
      · refine ⟨⟨v, 1⟩ :: s :: stretches, rfl, ?_, ?_⟩
        · exact List.forall_mem_cons.2 ⟨Nat.le_refl 1, hpos⟩
        · exact .cons_cons hv hmaximal

/-! ## One way to cut -/

theorem ofStretches_run {v n : Nat} (hn : 2 ≤ n) (rest : List (List Nat)) :
    ofStretches (List.replicate n v :: rest) = .run v n :: ofStretches rest := by
  obtain ⟨k, rfl⟩ : ∃ k, n = k + 2 := ⟨n - 2, by omega⟩
  rw [List.replicate_succ, List.replicate_succ, ofStretches, List.length_replicate]

/-- Stretches of one in a row, and then a longer one or nothing, begin with literals. -/
theorem ofStretches_singles {values : List Nat} {rest : List (List Nat)} (hne : values ≠ [])
    (hrest : ∀ s ∈ rest.head?, 2 ≤ s.length) :
    ofStretches (values.map ([·]) ++ rest) = .literals values :: ofStretches rest := by
  induction values with
  | nil => exact absurd rfl hne
  | cons v values ih =>
    cases values with
    | nil =>
      show ofStretches ([v] :: rest) = _
      match rest with
      | [] => rfl
      | [] :: rest => exact absurd (hrest [] rfl) (by decide)
      | [w] :: rest => exact absurd (hrest [w] rfl) (by simp)
      | (w :: x :: vs) :: rest => simp only [ofStretches]
    | cons w values =>
      have ih := ih (List.cons_ne_nil w values)
      show ofStretches ([v] :: ((w :: values).map ([·]) ++ rest)) = _
      rw [ofStretches, ih]

/-- Where there are no stretches of one, nothing is written for them. -/
theorem cut_ofStretches_singles (cap : Nat) (values : List Nat) {rest : List (List Nat)}
    (hrest : ∀ s ∈ rest.head?, 2 ≤ s.length) :
    (ofStretches (values.map ([·]) ++ rest)).flatMap (Segment.cut cap) =
      (Segment.literals values).cut cap ++ (ofStretches rest).flatMap (Segment.cut cap) := by
  by_cases hne : values = []
  · rw [hne, Segment.cut, chunks_nil]
    rfl
  · rw [ofStretches_singles hne hrest, List.flatMap_cons]

theorem head?_map_expand {stretches : List Stretch} (h : ∀ s ∈ stretches.head?, 2 ≤ s.length) :
    ∀ s ∈ (stretches.map Stretch.expand).head?, 2 ≤ s.length := by
  cases stretches with
  | nil => simp
  | cons s stretches =>
    intro values hvalues
    rw [← Option.mem_some.1 hvalues, Stretch.expand, List.length_replicate]
    exact h s rfl

theorem flatten_replicates (v : Nat) (lengths : List Nat) :
    (lengths.map (List.replicate · v)).flatten = List.replicate lengths.sum v := by
  induction lengths with
  | nil => rfl
  | cons n lengths ih =>
    rw [List.map_cons, List.flatten_cons, ih, List.sum_cons, List.replicate_append_replicate]

/-- Stretches become no segments but those of `ofStretches`. -/
theorem Segmented.eq {stretches : List Stretch} {segments : List Segment} (h : Segmented cap stretches segments) :
    segments = (ofStretches (stretches.map Stretch.expand)).flatMap (Segment.cut cap) := by
  induction h with
  | nil => rfl
  | @run s rest lengths segments htwo hlengths _ ih =>
    have hmap : (lengths.map (List.replicate · s.value)).map List.length = lengths := by
      rw [List.map_map]
      simp [Function.comp_def]
    have hpieces : lengths.map (List.replicate · s.value) = chunks cap (List.replicate s.length s.value) := by
      rw [← hlengths.sum, ← flatten_replicates]
      apply eq_chunks
      · rw [hmap]
        exact hlengths.bounds
      · rw [hmap]
        exact hlengths.full
    have hcut : (Segment.run s.value s.length).cut cap = lengths.map (.run s.value) := by
      rw [Segment.cut, ← hpieces, List.map_map]
      simp [Function.comp_def]
    rw [List.map_cons, Stretch.expand, ofStretches_run htwo, List.flatMap_cons, ← ih, hcut]
  | @literals values rest pieces segments hne hmaximal hpieces hlengths _ ih =>
    have hsingles : (values.map fun v => Stretch.mk v 1).map Stretch.expand = values.map ([·]) := by
      rw [List.map_map]
      rfl
    have hcut : (Segment.literals values).cut cap = pieces.map .literals := by
      rw [Segment.cut, ← hpieces, ← eq_chunks hlengths.bounds hlengths.full]
    rw [List.map_append, hsingles, cut_ofStretches_singles cap values (head?_map_expand hmaximal), ← ih, hcut]

/-- Stretches of one in front of others that have their segments. -/
theorem Segmented.singles (hcap : 0 < cap) {rest : List Stretch} {segments : List Segment} (values : List Nat)
    (hmaximal : ∀ s ∈ rest.head?, 2 ≤ s.length) (h : Segmented cap rest segments) :
    ∃ segments, Segmented cap (values.map (⟨·, 1⟩) ++ rest) segments := by
  by_cases hne : values = []
  · subst hne
    exact ⟨segments, h⟩
  · exact ⟨_, .literals hne hmaximal (flatten_chunks cap values) (filled_chunks hcap values) h⟩

theorem exists_segmented (hcap : 0 < cap) {stretches : List Stretch} (hpos : ∀ s ∈ stretches, 1 ≤ s.length) :
    ∃ segments, Segmented cap stretches segments := by
  -- the stretches of one at the front wait for all that follow them
  have hfront : ∃ (values : List Nat) (rest : List Stretch) (segments : List Segment),
      stretches = values.map (⟨·, 1⟩) ++ rest ∧ (∀ s ∈ rest.head?, 2 ≤ s.length) ∧ Segmented cap rest segments := by
    induction stretches with
    | nil => exact ⟨[], [], [], rfl, by simp, .nil⟩
    | cons s stretches ih =>
      obtain ⟨hs, hpos⟩ := List.forall_mem_cons.1 hpos
      obtain ⟨values, rest, segments, rfl, hmaximal, h⟩ := ih hpos
      by_cases hone : s.length = 1
      · refine ⟨s.value :: values, rest, segments, ?_, hmaximal, h⟩
        rw [List.map_cons, ← hone]
        rfl
      · have htwo : 2 ≤ s.length := by omega
        obtain ⟨later, hlater⟩ := h.singles hcap values hmaximal
        have hlengths := filled_chunks hcap s.expand
        rw [Stretch.expand, List.length_replicate] at hlengths
        refine ⟨[], s :: (values.map (⟨·, 1⟩) ++ rest), _, rfl, ?_, .run htwo hlengths hlater⟩
        intro t ht
        rw [← Option.mem_some.1 ht]
        exact htwo
  obtain ⟨values, rest, segments, rfl, hmaximal, h⟩ := hfront
  exact h.singles hcap values hmaximal

/-- There is one canonical list of segments. -/
theorem canonical_iff (hcap : 0 < cap) {patterns : List Nat} {segments : List Segment} :
    Canonical cap patterns segments ↔ segments = RunLength.segments cap patterns := by
  have hunique : ∀ {others}, Canonical cap patterns others → others = RunLength.segments cap patterns := by
    intro others h
    obtain ⟨stretches, hstretches, hsegmented⟩ := h
    rw [RunLength.segments, hstretches.splitBy_eq]
    exact hsegmented.eq
  refine ⟨hunique, ?_⟩
  intro h
  rw [h]
  obtain ⟨stretches, hstretches⟩ := exists_stretches patterns
  obtain ⟨segments, hsegments⟩ := exists_segmented hcap hstretches.pos
  have hcanonical : Canonical cap patterns segments := ⟨stretches, hstretches, hsegments⟩
  rw [← hunique hcanonical]
  exact hcanonical

/-! ## What canonical segments have -/

theorem Canonical.length_bounds {patterns : List Nat} {segments : List Segment} (h : Canonical cap patterns segments)
    {s : Segment} (hs : s ∈ segments) : 1 ≤ s.expand.length ∧ s.expand.length ≤ cap := by
  obtain ⟨stretches, -, h⟩ := h
  induction h with
  | nil => cases hs
  | run htwo hlengths _ ih =>
    rcases List.mem_append.1 hs with hs | hs
    · obtain ⟨n, hn, rfl⟩ := List.mem_map.1 hs
      rw [Segment.expand, List.length_replicate]
      exact hlengths.bounds n hn
    · exact ih hs
  | literals hne hmaximal hpieces hlengths _ ih =>
    rcases List.mem_append.1 hs with hs | hs
    · obtain ⟨piece, hp, rfl⟩ := List.mem_map.1 hs
      exact hlengths.bounds _ (List.mem_map_of_mem hp)
    · exact ih hs

/-- The patterns of a segment of literals are parts of a row of stretches of one. -/
theorem Canonical.isChain_of_literals {patterns : List Nat} {segments : List Segment}
    (h : Canonical cap patterns segments) {values : List Nat} (hs : .literals values ∈ segments) :
    values.IsChain (· ≠ ·) := by
  obtain ⟨stretches, ⟨-, -, hmaximal⟩, h⟩ := h
  induction h with
  | nil => cases hs
  | run htwo hlengths _ ih =>
    rcases List.mem_append.1 hs with hs | hs
    · obtain ⟨n, -, hn⟩ := List.mem_map.1 hs
      cases hn
    · exact ih hs hmaximal.tail
  | @literals row rest pieces segments hne _ hpieces hlengths _ ih =>
    rcases List.mem_append.1 hs with hs | hs
    · obtain ⟨piece, hp, heq⟩ := List.mem_map.1 hs
      cases heq
      have hrow : row.IsChain (· ≠ ·) := by
        have hfront := hmaximal.left_of_append
        rw [List.isChain_map] at hfront
        exact hfront
      rw [← hpieces] at hrow
      exact hrow.infix (List.infix_of_mem_flatten hp)
    · exact ih hs hmaximal.right_of_append

end Chronicle.RunLength
