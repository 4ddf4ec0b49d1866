/-
  Chronicle.Proofs.Stream.RunLength — what RLE writes is read back.

  (1) Cutting a list of patterns into segments loses nothing (`expand_segments`) and leaves none that the
  length field cannot say (`fits_of_mem_segments`).

  (2) A group is a packing of signed numbers, and its reader adds an unsigned offset to the pattern of the
  base. Modulo the word size that makes the literals (`members_groupOf`).

  (3) As they are written, the segments are legal and stand for the same patterns (`spells_segments`). What
  is read from legal segments is known (`Chronicle.Proofs.Stream.RunLengthGrammar`), so a payload gives the
  patterns it was made of (`run_payload`).
-/

import Mathlib.Data.List.SplitBy
import Chronicle.Proofs.Stream.RunLengthGrammar

namespace Chronicle.RunLength

open Reading

/-! ## Cutting into segments -/

structure Segment.Fits (width : Nat) (s : Segment) : Prop where
  pos : 0 < s.expand.length
  le_maxCap : s.expand.length ≤ maxCap
  lt : ∀ v ∈ s.expand, v < 2 ^ width

theorem expand_ofStretches {stretches : List (List Nat)} (h : ∀ s ∈ stretches, ∀ a ∈ s, ∀ b ∈ s, a = b) :
    (ofStretches stretches).flatMap Segment.expand = stretches.flatten := by
  fun_induction ofStretches stretches with
  | case1 => rfl
  | case2 rest ih => exact ih (List.forall_mem_cons.1 h).2
  | case3 v rest vs more hm ih =>
    have ih := ih (List.forall_mem_cons.1 h).2
    rw [hm, List.flatMap_cons] at ih
    rw [List.flatMap_cons, List.flatten_cons, ← ih]
    rfl
  | case4 v rest _ ih =>
    have ih := ih (List.forall_mem_cons.1 h).2
    rw [List.flatMap_cons, List.flatten_cons, ih]
    rfl
  | case5 v w vs rest ih =>
    obtain ⟨hsame, h⟩ := List.forall_mem_cons.1 h
    have ih := ih h
    have e : List.replicate (vs.length + 2) v = v :: w :: vs := by
      symm
      rw [List.eq_replicate_iff]
      refine ⟨rfl, ?_⟩
      intro a ha
      exact hsame a ha v (List.mem_cons_self ..)
    rw [List.flatMap_cons, List.flatten_cons, ih, Segment.expand, e]

/-- Neighbours in a stretch are equal, so all of it is. -/
theorem eq_of_mem_splitBy {values s : List Nat} (hs : s ∈ values.splitBy (· == ·)) :
    ∀ a ∈ s, ∀ b ∈ s, a = b := by
  have hc := List.isChain_of_mem_splitBy hs
  have hp : s.Pairwise (· = ·) := by
    rw [← List.isChain_iff_pairwise]
    exact hc.imp fun a b h => by simpa using h
  intro a ha b hb
  exact hp.forall_of_forall (fun _ _ => rfl) ha hb

theorem expand_cut (cap : Nat) (s : Segment) : (s.cut cap).flatMap Segment.expand = s.expand := by
  cases s with
  | literals values =>
    rw [Segment.cut, List.flatMap_map]
    show (chunks cap values).flatMap id = values
    rw [List.flatMap_id, flatten_chunks]
  | run value length =>
    have e : ∀ piece ∈ chunks cap (List.replicate length value), List.replicate piece.length value = piece := by
      intro piece hp
      symm
      rw [List.eq_replicate_iff]
      refine ⟨rfl, ?_⟩
      intro a ha
      have hm := List.mem_flatten_of_mem hp ha
      rw [flatten_chunks] at hm
      exact List.eq_of_mem_replicate hm
    rw [Segment.cut, List.flatMap_map]
    show (chunks cap (List.replicate length value)).flatMap (fun piece => List.replicate piece.length value) =
      List.replicate length value
    rw [List.flatMap_def, List.map_congr_left e, List.map_id', flatten_chunks]

/-- Nothing is lost. -/
theorem expand_segments (cap : Nat) (values : List Nat) : (segments cap values).flatMap Segment.expand = values := by
  have e : (segments cap values).flatMap Segment.expand =
      (ofStretches (values.splitBy (· == ·))).flatMap Segment.expand := by
    rw [segments, List.flatMap_assoc]
    simp only [expand_cut]
  have hsame : ∀ s ∈ values.splitBy (· == ·), ∀ a ∈ s, ∀ b ∈ s, a = b := by
    intro s hs
    exact eq_of_mem_splitBy hs
  rw [e, expand_ofStretches hsame, List.flatten_splitBy]

theorem length_of_mem_cut {cap : Nat} (hcap : 0 < cap) {s piece : Segment} (h : piece ∈ s.cut cap) :
    0 < piece.expand.length ∧ piece.expand.length ≤ cap := by
  cases s with
  | literals values =>
    obtain ⟨vs, hvs, rfl⟩ := List.mem_map.1 h
    exact length_le_of_mem_chunks hcap hvs
  | run value length =>
    obtain ⟨vs, hvs, rfl⟩ := List.mem_map.1 h
    rw [Segment.expand, List.length_replicate]
    exact length_le_of_mem_chunks hcap hvs

theorem fits_of_mem_segments {width cap : Nat} (hpos : 0 < cap) (hcap : cap ≤ maxCap) {values : List Nat}
    (hv : ∀ v ∈ values, v < 2 ^ width) {s : Segment} (hs : s ∈ segments cap values) : s.Fits width := by
  obtain ⟨whole, -, hcut⟩ := List.mem_flatMap.1 hs
  obtain ⟨h1, h2⟩ := length_of_mem_cut hpos hcut
  refine ⟨h1, Nat.le_trans h2 hcap, ?_⟩
  intro v hm
  apply hv
  rw [← expand_segments cap values]
  exact List.mem_flatMap.2 ⟨s, hs, hm⟩

/-! ## Segments as they are written -/

variable {width : Nat}

def packing (width : Nat) (values : List Nat) : Packing := .of (values.map (signedOf width))

theorem packing_width_le {values : List Nat} (hv : ∀ v ∈ values, v < 2 ^ width) :
    (packing width values).width ≤ width := by
  have hbounds : ∀ v ∈ values.map (signedOf width), leastSigned width ≤ v ∧ v < leastSigned width + 2 ^ width := by
    intro v hm
    obtain ⟨n, hn, rfl⟩ := List.mem_map.1 hm
    exact signedOf_bounds (hv n hn)
  exact Packing.width_le hbounds

def groupOf (width : Nat) (values : List Nat) : Grammar.Group :=
  let p := packing width values
  ⟨p.width, patternOf width p.base, p.offsets⟩

theorem bits_groupOf (width : Nat) (values : List Nat) :
    (groupOf width values).bits width = groupBits width values := by
  rw [Grammar.Group.bits, ← List.append_assoc]
  rfl

theorem length_offsets_groupOf (width : Nat) (values : List Nat) :
    (groupOf width values).offsets.length = values.length := by
  show ((values.map (signedOf width)).map _).length = _
  rw [List.length_map, List.length_map]

theorem legal_groupOf {values : List Nat} (hv : ∀ v ∈ values, v < 2 ^ width) : (groupOf width values).Legal width := by
  refine ⟨packing_width_le hv, patternOf_lt width _, ?_⟩
  intro offset ho
  obtain ⟨v, hm, rfl⟩ := List.mem_map.1 ho
  exact Packing.offset_lt hm

/-- Modulo the word size the base and the offsets make the literals. -/
theorem members_groupOf {values : List Nat} (hv : ∀ v ∈ values, v < 2 ^ width) :
    (groupOf width values).members width = values := by
  let base := (packing width values).base
  have hmember : ∀ v ∈ values, (patternOf width base + (signedOf width v - base).toNat) % 2 ^ width = v := by
    intro v hm
    have hbase := Packing.base_le (List.mem_map_of_mem (f := signedOf width) hm)
    exact (patternOf_base_add_offset width hbase).trans (patternOf_signedOf (hv v hm))
  show ((values.map (signedOf width)).map _).map _ = values
  rw [List.map_map, List.map_map]
  exact (List.map_congr_left hmember).trans (List.map_id' values)

def Segment.grouped (width : Nat) : Segment → Grammar.Segment
  | run value length => .run length value
  | literals values => .literals values.length ((chunks groupSize values).map (groupOf width))

theorem bits_grouped (width : Nat) (s : Segment) : (s.grouped width).bits width = s.bits width := by
  cases s with
  | run value length => rfl
  | literals values =>
    rw [Segment.grouped, Grammar.Segment.bits, List.flatMap_map]
    simp only [bits_groupOf]
    rfl

theorem takes_groups {values : List Nat} (hv : ∀ v ∈ values, v < 2 ^ width) :
    Grammar.Takes width values.length ((chunks groupSize values).map (groupOf width)) 0 := by
  fun_induction chunks groupSize values with
  | case1 => rfl
  | case2 v rest ih =>
    have hgroup : ∀ w ∈ v :: rest.take (groupSize - 1), w < 2 ^ width := by
      intro w hm
      rw [← List.take_succ_cons] at hm
      exact hv w (List.mem_of_mem_take hm)
    have hlater : ∀ w ∈ rest.drop (groupSize - 1), w < 2 ^ width := by
      intro w hm
      exact hv w (List.mem_cons_of_mem v (List.mem_of_mem_drop hm))
    refine ⟨Nat.succ_pos _, legal_groupOf hgroup, ?_, ?_⟩
    · rw [length_offsets_groupOf, List.length_cons, List.length_cons, List.length_take]
      unfold groupSize
      omega
    · have hlen : (v :: rest).length - 8 = (rest.drop (groupSize - 1)).length := by
        rw [List.length_cons, List.length_drop]
        unfold groupSize
        omega
      rw [hlen]
      exact ih hlater

theorem expand_grouped {s : Segment} (hs : s.Fits width) : (s.grouped width).expand width = s.expand := by
  cases s with
  | run value length => rfl
  | literals values =>
    have hmembers : ∀ piece ∈ chunks groupSize values, (groupOf width piece).members width = piece := by
      intro piece hp
      exact members_groupOf fun v hm => hs.lt v (mem_of_mem_chunks hp hm)
    rw [Segment.grouped, Grammar.Segment.expand, List.flatMap_map, List.flatMap_def, List.map_congr_left hmembers,
      List.map_id', flatten_chunks]
    rfl

theorem legal_grouped {s : Segment} (hs : s.Fits width) : (s.grouped width).Legal width := by
  obtain ⟨hpos, hlen, hlt⟩ := hs
  unfold maxCap at hlen
  cases s with
  | run value length =>
    rw [Segment.expand, List.length_replicate] at hpos hlen
    exact ⟨hpos, by omega, hlt value (List.mem_replicate.2 ⟨by omega, rfl⟩)⟩
  | literals values =>
    rw [Segment.expand] at hpos hlen
    exact ⟨hpos, by omega, takes_groups hlt⟩

theorem spells_segments {segments : List Segment} (hs : ∀ s ∈ segments, s.Fits width) :
    Grammar.Spells width (segments.map (Segment.grouped width))
      (segments.flatMap fun s => packBits (s.bits width)) := by
  induction segments with
  | nil => exact .nil
  | cons s segments ih =>
    obtain ⟨hfits, hs⟩ := List.forall_mem_cons.1 hs
    rw [List.map_cons, List.flatMap_cons, ← bits_grouped]
    refine .cons (legal_grouped hfits) (toBits_packBits _) ?_ (ih hs)
    rw [List.length_replicate]
    exact Nat.mod_lt _ (by decide)

/-- A payload gives the patterns it was made of. -/
theorem run_payload (hw : width < 2 ^ 7) {cap : Nat} (hpos : 0 < cap) (hcap : cap ≤ maxCap) {values : List Nat}
    (hv : ∀ v ∈ values, v < 2 ^ width) {reader : BitReader} (hr : reader.refill = .onDemand) (rest : Bytes) :
    ∃ after : BitReader, after.refill = .onDemand ∧
      Run (next width) more ⟨none, reader, payload width cap values ++ rest⟩ values ⟨none, after, rest⟩ := by
  have hfits : ∀ s ∈ segments cap values, s.Fits width := by
    intro s hs
    exact fits_of_mem_segments hpos hcap hv hs
  have h := run_spelled hw (spells_segments hfits) hr rest
  have hexpand :
      ((segments cap values).map (Segment.grouped width)).flatMap (Grammar.Segment.expand width) = values := by
    rw [List.flatMap_map, List.flatMap_def, List.map_congr_left fun s hs => expand_grouped (hfits s hs),
      ← List.flatMap_def, expand_segments]
  rw [hexpand] at h
  exact h

end Chronicle.RunLength
