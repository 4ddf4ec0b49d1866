/-
  Chronicle.Proofs.Summary.Layout — what holds of all statistics, and how they are read back.

  (1) Soundness. Statistics without points have no values; with points they have a count that is not zero, a
  range that is not inverted and values of the type of the column (`Sound`). Reading checks this
  (`Statistics.sound_of_pull`), points and other statistics that are taken in keep it. So it holds of all
  statistics that calls lead to, whatever bytes some of them were read from (`Statistics.Reached`).

  (2) Bytes. Every field ends by itself or has a fixed size, so what follows the statistics is left. What the
  reader asks of a summary is that it is sound; sound statistics are read back as they are
  (`pull_toBytes_append`). Texts have to have lengths that can be read, which those that were taken in from
  memory have as well.
-/

import Chronicle.Proofs.Summary.Statistics
import Chronicle.Summary.Statistics

namespace Chronicle

open Reading

/-! ## Summaries -/

namespace Summary

/-- What is known of at least one point of a type. Texts have lengths of 64 bits. -/
structure Sound (t : DataType) (u : Summary) : Prop where
  count : u.count ≠ 0
  range : ¬ u.stop < u.start
  type : u.values.dataType = t
  sized : u.values.Sized

variable {t : DataType} {u p : Summary}

theorem sound_single (time : Int64) {v : Value} (hv : v.Sized) : Sound v.dataType ⟨1, time, time, .single v⟩ :=
  ⟨(by decide : (1 : UInt64) ≠ 0), Int64.lt_irrefl, ValueSummary.dataType_single v, ValueSummary.sized_single hv⟩

/-- Two summaries that are made one, of which each gives the first and the last value or does
    not. -/
theorem Sound.join (hu : u.Sound t) (hp : p.Sound t) {count : UInt64} {values : ValueSummary} {isFirst isLast : Bool}
    (hcount : count.toNat = u.count.toNat + p.count.toNat) (htype : values.dataType = u.values.dataType)
    (hfirst : values.first = if isFirst then p.values.first else u.values.first)
    (hlast : values.last = if isLast then p.values.last else u.values.last) :
    Sound t ⟨count, min u.start p.start, max u.stop p.stop, values⟩ := by
  refine ⟨?_, Statistics.not_max_lt_min hu.range p.start p.stop, htype.trans hu.type, ?_⟩
  · intro hzero
    have hsum : (0 : UInt64).toNat = u.count.toNat + p.count.toNat := hzero ▸ hcount
    exact hu.count (UInt64.toNat_inj.1 (Nat.eq_zero_of_add_eq_zero_right hsum.symm))
  · obtain ⟨hufirst, hulast⟩ := ValueSummary.sized_iff.1 hu.sized
    obtain ⟨hpfirst, hplast⟩ := ValueSummary.sized_iff.1 hp.sized
    refine ValueSummary.sized_iff.2 ⟨?_, ?_⟩
    · rw [hfirst]
      split
      · exact hpfirst
      · exact hufirst
    · rw [hlast]
      split
      · exact hplast
      · exact hulast

end Summary

/-! ## Statistics -/

namespace Statistics

structure Sound (t : DataType) (s : Statistics) : Prop where
  dataType : s.dataType = t
  summary : ∀ u ∈ s.summary?, u.Sound t

variable {t : DataType} {s o r : Statistics} {time : Int64} {v : Value}

theorem sound_empty (t : DataType) : (empty t).Sound t :=
  ⟨rfl, by simp [empty]⟩

/-- Statistics that have been counted are sound. -/
theorem Counts.sound {n : Nat} (h : s.Counts t n) (hs : s.Sized) : s.Sound t := by
  obtain ⟨htype, h⟩ := h
  refine ⟨htype, ?_⟩
  intro u (hu : s.summary? = some u)
  rw [hu] at h
  obtain ⟨hpos, hcount, hrange, hvalues, -⟩ := h
  refine ⟨?_, hrange, hvalues, hs u hu⟩
  intro hzero
  rw [hzero] at hcount
  exact absurd hcount (Nat.ne_of_lt hpos)

theorem Sound.update (hs : s.Sound t) (hv : v.Sized) (h : s.update time v = .ok r) : r.Sound t := by
  obtain ⟨own, summary?⟩ := s
  obtain ⟨htype, h⟩ := update_eq_ok h
  have hown : own = t := hs.dataType
  have hpoint := Summary.sound_single time hv
  rw [htype, hown] at hpoint
  rcases summary? with _ | u
  · obtain rfl := h
    exact ⟨hs.dataType, by simpa using hpoint⟩
  · obtain ⟨count, values, hcount, hvalues, rfl⟩ := h
    obtain ⟨-, hsame, hfirst, hlast⟩ := ValueSummary.observe_eq_ok hvalues
    have hjoined := (hs.summary u rfl).join hpoint (toNat_of_addCounts hcount) hsame hfirst hlast
    exact ⟨hs.dataType, by simpa using hjoined⟩

theorem Sound.merge (hs : s.Sound t) (ho : o.Sound t) (h : s.merge o = .ok r) : r.Sound t := by
  obtain ⟨own, summary?⟩ := s
  obtain ⟨other, others?⟩ := o
  obtain ⟨-, h⟩ := merge_eq_ok h
  rcases others? with _ | p
  · rcases summary? with _ | u <;> exact h ▸ hs
  · rcases summary? with _ | u
    · obtain rfl := h
      exact ⟨hs.dataType, ho.summary⟩
    · obtain ⟨count, values, hcount, hvalues, rfl⟩ := h
      obtain ⟨-, hsame, hfirst, hlast, -⟩ := ValueSummary.absorb_eq_ok hvalues
      have hjoined := (hs.summary u rfl).join (ho.summary p rfl) (toNat_of_addCounts hcount) hsame hfirst hlast
      exact ⟨hs.dataType, by simpa using hjoined⟩

end Statistics

/-! ## What has been read -/

theorem Bytes.length_of_pull {count : Nat} {bytes taken rest : Bytes} (h : pull count bytes = .ok taken rest) :
    taken.length = count := by
  unfold pull at h
  split at h
  · next hle =>
    cases h
    exact List.length_take_of_le hle
  · cases h

theorem Plain.length_lt_of_pullText {bytes text rest : Bytes} (h : pullText bytes = .ok text rest) :
    text.length < 2 ^ 64 := by
  obtain ⟨length, left, hlength, h⟩ := ok_of_bind h
  rw [Bytes.length_of_pull h]
  exact Varint.lt_of_pull hlength

theorem ValueSummary.sound_of_pull {t : DataType} {bytes rest : Bytes} {s : ValueSummary} (h : pull t bytes = .ok s rest) :
    s.dataType = t ∧ s.Sized := by
  rcases t with (_ | (_ | _ | _ | _)) | _
  · obtain ⟨_, left₀, -, h⟩ := ok_of_bind h
    obtain ⟨first, left₁, -, h⟩ := ok_of_bind h
    obtain ⟨last, left₂, -, h⟩ := ok_of_bind h
    obtain ⟨trues, left₃, -, h⟩ := ok_of_bind h
    cases h
    exact ⟨rfl, trivial⟩
  · obtain ⟨s, left, -, h⟩ := ok_of_bind h
    cases h
    exact ⟨rfl, trivial⟩
  · obtain ⟨s, left, -, h⟩ := ok_of_bind h
    cases h
    exact ⟨rfl, trivial⟩
  · obtain ⟨s, left, -, h⟩ := ok_of_bind h
    cases h
    exact ⟨rfl, trivial⟩
  · obtain ⟨s, left, -, h⟩ := ok_of_bind h
    cases h
    exact ⟨rfl, trivial⟩
  · obtain ⟨first, left₀, hfirst, h⟩ := ok_of_bind h
    obtain ⟨last, left₁, hlast, h⟩ := ok_of_bind h
    cases h
    exact ⟨rfl, Plain.length_lt_of_pullText hfirst, Plain.length_lt_of_pullText hlast⟩

theorem Summary.sound_of_pull {t : DataType} {count : UInt64} (hcount : count ≠ 0) {bytes rest : Bytes} {u : Summary}
    (h : pull t count bytes = .ok u rest) : u.Sound t := by
  obtain ⟨_, left₀, -, h⟩ := ok_of_bind h
  obtain ⟨start, left₁, -, h⟩ := ok_of_bind h
  obtain ⟨stop, left₂, -, h⟩ := ok_of_bind h
  split at h
  · cases h
  · next hrange =>
    obtain ⟨values, left₃, hvalues, h⟩ := ok_of_bind h
    cases h
    obtain ⟨htype, hsized⟩ := ValueSummary.sound_of_pull hvalues
    exact ⟨hcount, hrange, htype, hsized⟩

/-- Whatever is accepted as statistics is sound. -/
theorem Statistics.sound_of_pull {t : DataType} {bytes rest : Bytes} {s : Statistics} (h : pull t bytes = .ok s rest) :
    s.Sound t := by
  obtain ⟨count, left, hcount, h⟩ := ok_of_bind h
  by_cases hzero : count = 0
  · rw [if_pos hzero] at h
    cases h
    exact sound_empty t
  · rw [if_neg hzero] at h
    obtain ⟨u, left', hu, h⟩ := ok_of_bind h
    cases h
    refine ⟨rfl, ?_⟩
    intro p hp
    cases hp
    refine Summary.sound_of_pull ?_ hu
    intro hword
    have hlt := Varint.lt_of_pull hcount
    have htoNat : (UInt64.ofNat count).toNat = 0 := by rw [hword]; rfl
    rw [UInt64.toNat_ofNat_of_lt' hlt] at htoNat
    exact hzero htoNat

/-! ## Reached statistics -/

/-- The statistics of a column that calls lead to. A call that fails leads nowhere else. -/
inductive Statistics.Reached (t : DataType) : Statistics → Prop
  | empty : Reached t (.empty t)
  | read {bytes rest : Bytes} {s : Statistics} : pull t bytes = .ok s rest → Reached t s
  | update {s r : Statistics} {time : Int64} {v : Value} : Reached t s → v.Sized → s.update time v = .ok r → Reached t r
  | merge {s o r : Statistics} : Reached t s → Reached t o → s.merge o = .ok r → Reached t r

theorem Statistics.Reached.sound {t : DataType} {s : Statistics} (h : s.Reached t) : s.Sound t := by
  induction h with
  | empty => exact sound_empty t
  | read h => exact sound_of_pull h
  | update _ hv h ih => exact ih.update hv h
  | merge _ _ h ihs iho => exact ihs.merge iho h

/-! ## Bytes -/

theorem Bytes.need_of_le {count : Nat} {bytes : Bytes} (h : count ≤ bytes.length) : need count bytes = .ok () bytes :=
  if_pos h

theorem NumericSummary.pull_toBytes_append {α σ : Type} [BigEndian α] [BigEndian σ] (s : NumericSummary α σ)
    (rest : Bytes) : pull (s.toBytes ++ rest) = .ok s rest := by
  have e : s.toBytes ++ rest = BigEndian.toBytes s.min ++ (BigEndian.toBytes s.max ++ (BigEndian.toBytes s.first ++
      (BigEndian.toBytes s.last ++ (BigEndian.toBytes s.sum ++ rest)))) := by
    simp [toBytes]
  have hneed : 4 * BigEndian.size α + BigEndian.size σ ≤ (s.toBytes ++ rest).length := by
    rw [e]
    simp only [List.length_append, BigEndian.length_toBytes]
    omega
  unfold pull
  rw [bind_of_eq (Bytes.need_of_le hneed), e]
  simp only [bind_of_eq (BigEndian.pull_toBytes_append _ _)]
  rfl

namespace ValueSummary

theorem pullBoolean_append (first last : Bool) (trues : UInt64) (rest : Bytes) :
    pullBoolean ((boolean first last trues).toBytes ++ rest) = .ok (boolean first last trues) rest := by
  have e : (boolean first last trues).toBytes ++ rest =
      Plain.ofBool first ++ (Plain.ofBool last ++ (Varint.encode trues.toNat ++ rest)) := by
    simp [toBytes]
  have hneed : 2 ≤ ((boolean first last trues).toBytes ++ rest).length := by
    rw [e]
    simp [Plain.ofBool]
  unfold pullBoolean
  rw [bind_of_eq (Bytes.need_of_le hneed), e, bind_of_eq (Plain.pullBool_ofBool_append _ _ _),
    bind_of_eq (Plain.pullBool_ofBool_append _ _ _), map_of_eq (Varint.pull_encode_append trues.toNat_lt rest)]
  simp

theorem pull_toBytes_append {s : ValueSummary} (h : s.Sized) (rest : Bytes) :
    pull s.dataType (s.toBytes ++ rest) = .ok s rest := by
  cases s with
  | boolean first last trues => exact pullBoolean_append first last trues rest
  | int32 s => exact map_of_eq (s.pull_toBytes_append rest)
  | int64 s => exact map_of_eq (s.pull_toBytes_append rest)
  | float s => exact map_of_eq (s.pull_toBytes_append rest)
  | double s => exact map_of_eq (s.pull_toBytes_append rest)
  | text first last =>
    show pullText (Plain.ofText first ++ Plain.ofText last ++ rest) = _
    rw [List.append_assoc, pullText, bind_of_eq (Plain.pullText_ofText_append h.1 _),
      map_of_eq (Plain.pullText_ofText_append h.2 rest)]

end ValueSummary

namespace Statistics

/-- Sound statistics are read back, whatever follows them. -/
theorem pull_toBytes_append {t : DataType} {s : Statistics} (h : s.Sound t) (rest : Bytes) :
    pull t (s.toBytes ++ rest) = .ok s rest := by
  obtain ⟨own, summary?⟩ := s
  obtain ⟨rfl, h⟩ := h
  cases summary? with
  | none =>
    show (Varint.pull >>= _) (Varint.encode 0 ++ rest) = _
    rw [bind_of_eq (Varint.pull_encode_append (by decide) rest)]
    rfl
  | some u =>
    obtain ⟨hcount, hrange, htype, hsized⟩ := h u rfl
    have e : (Statistics.mk own (some u)).toBytes ++ rest = Varint.encode u.count.toNat ++
        (BigEndian.toBytes u.start ++ (BigEndian.toBytes u.stop ++ (u.values.toBytes ++ rest))) := by
      simp [toBytes, Summary.toBytes]
    have hneed : 16 ≤ (BigEndian.toBytes u.start ++ (BigEndian.toBytes u.stop ++ (u.values.toBytes ++ rest))).length := by
      simp only [List.length_append, BigEndian.length_toBytes]
      show 16 ≤ 8 + (8 + _)
      omega
    have hsummary : Summary.pull own u.count
        (BigEndian.toBytes u.start ++ (BigEndian.toBytes u.stop ++ (u.values.toBytes ++ rest))) = .ok u rest := by
      have hvalues := ValueSummary.pull_toBytes_append hsized rest
      rw [htype] at hvalues
      simp only [Summary.pull, bind_of_eq (Bytes.need_of_le hneed), bind_of_eq (BigEndian.pull_toBytes_append _ _),
        if_neg hrange]
      rw [map_of_eq hvalues]
    have hne : ¬ u.count.toNat = 0 := fun hzero => hcount (UInt64.toNat_inj.1 hzero)
    rw [e]
    show (Varint.pull >>= _) _ = _
    rw [bind_of_eq (Varint.pull_encode_append u.count.toNat_lt _)]
    simp only [if_neg hne, UInt64.ofNat_toNat]
    rw [map_of_eq hsummary]

end Statistics

end Chronicle
