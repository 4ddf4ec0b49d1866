/-
  Chronicle.Proofs.Machine.Delta — TS_2DIFF on machine words gives the values that TS_2DIFF gives.

  Of the words of a block only those are looked at that are filled and have not been given out. So neither a block
  that was broken off nor one that a reset left behind can be told from an empty one (`State.Views`,
  `reset_views`). A word is the one before it, the base and an offset, added modulo 2^64 and cut down, which makes
  the same as adding modulo the word size (`toNat_step`).

  A block that has been given out is followed by another one when a value is asked for (`matches_unpack`). The
  mode is read in front of the first one, and is remembered only if it was accepted.
-/

import Chronicle.Machine.Delta
import Chronicle.Proofs.Machine.Feed

namespace Chronicle

namespace Delta

open BitSource

theorem pullWords_eq (width base offsetWidth previous count : Nat) :
    pullWords width base offsetWidth previous count =
      pullEach offsetWidth (fun previous offset => (previous + base + offset) % 2 ^ width) previous count := by
  induction count generalizing previous with
  | zero => rfl
  | succ count ih =>
    unfold pullWords pullEach
    simp only [ih]

def pullOthers (width first count : Nat) : Reading BitSource (Nat × List Nat) := do
  let base ← pullBits width
  let offsetWidth ← pullBits 7
  if width < offsetWidth then throw (.malformed (.blockWidth offsetWidth width))
  return (first, ← pullEach offsetWidth (fun previous offset => (previous + base + offset) % 2 ^ width) first count)

theorem pullBlock_eq (width : Nat) :
    pullBlock width = (do
      align
      let count ← pullBits 4
      if count = 0 ∨ blockSize < count then throw (.malformed (.blockCount count))
      let first ← pullBits width
      if count = 1 then return (first, [])
      pullOthers width first (count - 1)) := by
  unfold pullBlock pullOthers
  simp only [pullWords_eq]

end Delta

namespace Machine.Delta

open Chronicle.Delta (Domain hasMode isScale ofWord pullBlock_eq)
open Guarded (minus_eq signExtend_eq lowBits64_eq require_eq toNat_and_mask toNat_add_mod toNat_mod_of_toInt)

variable {frame : Frame} {width : UInt8}

/-! ## Blocks -/

/-- A word and the one before it. -/
theorem toNat_step {base : Int64} {previous bits offset mask : UInt64} {width : Nat} (hw : width ≤ 64)
    (hbase : base.toUInt64.toNat % 2 ^ width = bits.toNat) (hmask : mask.toNat = 2 ^ width - 1) :
    ((previous + (base + offset.toInt64).toUInt64) &&& mask).toNat = (previous.toNat + bits.toNat + offset.toNat) % 2 ^ width := by
  rw [toNat_and_mask hmask, toNat_add_mod hw, Int64.toUInt64_add, UInt64.toUInt64_toInt64, ← Nat.add_mod_mod, toNat_add_mod hw,
    Nat.add_mod_mod, ← hbase, Nat.add_right_comm, Nat.add_mod_mod, Nat.add_right_comm, Nat.add_assoc]

theorem matches_readOthers (hw : width.toNat ≤ 64) {f : Feed Words} {s : Chronicle.BitSource} {first : UInt64} {count : Nat}
    (hcount : 1 < count) (hle : count ≤ 8) (hfirst : (f.state.toList.take 1).map UInt64.toNat = [first.toNat])
    (h : f.source.Views frame s) :
    Matches (fun _ p f' s' => (f'.state.toList.take count).map UInt64.toNat = p.1 :: p.2 ∧ f'.source.Views frame s')
      (fun f' s' => f'.source.Views frame s') (readOthers width first count f)
      (Chronicle.Delta.pullOthers width.toNat first.toNat (count - 1) s) := by
  refine (Feed.matches_onBits_words (BitSource.matches_readBits _ hw h)).bind ?_
  rintro bits _ x t ⟨⟨rfl, hbits, ht⟩, hx⟩
  obtain ⟨base, hbase, hsigned⟩ := signExtend_eq (s := x) hw hbits
  have hmod := toNat_mod_of_toInt hw hbits hsigned
  rw [bind_of_eq hbase]
  refine (Feed.matches_onBits_words (BitSource.matches_readBits 7 (by decide) ht)).bind ?_
  rintro w _ y u ⟨⟨rfl, hlt, hu⟩, hy⟩
  have hoffset : w.toUInt8.toNat = w.toNat := by
    rw [UInt64.toNat_toUInt8]
    exact Nat.mod_eq_of_lt (Nat.lt_trans hlt (by decide))
  dsimp only
  refine .ite (by rw [UInt8.lt_iff_toNat_lt, hoffset]) ?_ ?_
  · intro _
    rw [hoffset]
    exact .error hu
  · intro hnot
    have hwidth : w.toUInt8.toNat ≤ 64 := Nat.le_trans (Nat.le_of_not_lt fun hlt => hnot (UInt8.lt_iff_toNat_lt.mpr hlt)) hw
    obtain ⟨mask, hmask, hlow⟩ := lowBits64_eq (s := y) hw
    rw [bind_of_eq hlow, bind_of_eq (require_eq ⟨Nat.le_of_lt hcount, hle⟩)]
    have hfill := Feed.matches_fill hwidth
      (fun previous offset => (previous + (base + offset.toInt64).toUInt64) &&& mask)
      (fun previous offset => (previous + bits.toNat + offset) % 2 ^ width.toNat)
      (fun _ _ => toNat_step hw hmod hmask) first 1 (count - 1) (by omega) hu
    rw [hoffset, Nat.add_sub_cancel' (Nat.le_of_lt hcount), hy, hx, hfirst] at hfill
    refine hfill.map_right ?_
    rintro _ words f' s' ⟨hwords, -, hs'⟩
    exact ⟨hwords, hs'⟩

theorem matches_readBlock (hw : width.toNat ≤ 64) {f : Feed Words} {s : Chronicle.BitSource} (h : f.source.Views frame s) :
    Matches (fun count p f' s' => count ≤ 8 ∧ (f'.state.toList.take count).map UInt64.toNat = p.1 :: p.2 ∧ f'.source.Views frame s')
      (fun f' s' => f'.source.Views frame s') (readBlock width f) (Chronicle.Delta.pullBlock width.toNat s) := by
  rw [pullBlock_eq]
  refine (Feed.matches_onBits_words (BitSource.matches_align h)).bind ?_
  rintro _ _ x t ⟨ht, -⟩
  refine (Feed.matches_onBits_words (BitSource.matches_readBits 4 (by decide) ht)).bind ?_
  rintro w _ y u ⟨⟨rfl, -, hu⟩, -⟩
  dsimp only
  refine .ite Iff.rfl ?_ ?_
  · intro _
    exact .error hu
  · intro hcount
    have hle : w.toNat ≤ 8 := Nat.le_of_not_lt fun hlt => hcount (.inr hlt)
    refine (Feed.matches_onBits_words (BitSource.matches_readBits _ hw hu)).bind ?_
    rintro first _ z v ⟨⟨rfl, -, hv⟩, -⟩
    rw [bind_of_eq (Feed.store_eq (by decide) first)]
    have hfirst : ((Vector.set z.state 0 first (by decide)).toList.take 1).map UInt64.toNat = [first.toNat] := by
      rw [Words.take_set]
      rfl
    by_cases hone : w.toNat = 1
    · rw [if_pos hone, if_neg (by omega)]
      refine .ok ⟨hle, ?_, hv⟩
      rw [hone]
      exact hfirst
    · rw [if_neg hone, if_pos (by omega)]
      have hothers := matches_readOthers hw (f := ⟨Vector.set z.state 0 first (by decide), z.reader, z.bytes⟩)
        (by omega) hle hfirst hv
      refine hothers.bind_left ?_
      rintro _ p f' s' ⟨hwords, hs'⟩
      exact ⟨w.toNat, f', rfl, hle, hwords, hs'⟩

/-! ## Domains -/

theorem toNat_natural (t : NumberType) : (natural t).toNat = t.width := by
  cases t <;> rfl

theorem toNat_width (t : NumberType) (d : Domain) : (Delta.width t d).toNat = d.width t := by
  cases d with
  | pattern => exact toNat_natural t
  | fixedPoint scale => rfl

theorem width_le (t : NumberType) (d : Domain) : (Delta.width t d).toNat ≤ 64 := by
  rw [toNat_width]
  cases d with
  | pattern => cases t <;> decide
  | fixedPoint scale => exact Nat.le_refl 64

theorem matches_readDomain (t : NumberType) {s : BitSource} {s' : Chronicle.BitSource} (h : s.Views frame s') :
    Matches (fun d d' x x' => d = d' ∧ x.Views frame x') (BitSource.Views frame) (readDomain t s)
      (Chronicle.Delta.pullDomain t s') := by
  unfold readDomain Chronicle.Delta.pullDomain
  cases hmode : hasMode t with
  | false => exact .ok ⟨rfl, h⟩
  | true =>
    rw [if_pos rfl, if_neg (by decide)]
    refine (BitSource.matches_readBits 8 (by decide) h).bind ?_
    rintro mode _ x x' ⟨rfl, -, hx⟩
    by_cases hzero : mode = 0
    · subst hzero
      exact .ok ⟨rfl, hx⟩
    · by_cases hone : mode = 1
      · subst hone
        rw [if_neg hzero, if_pos rfl]
        refine (BitSource.matches_readBits 64 (by decide) hx).bind ?_
        rintro bits _ y y' ⟨rfl, -, hy⟩
        rw [UInt64.ofNat_toNat]
        refine .ite Iff.rfl ?_ ?_
        · intro _
          exact matches_pure ⟨rfl, hy⟩
        · intro _
          exact .error hy
      · rw [if_neg hzero, if_neg hone]
        rcases hn : mode.toNat with _ | _ | n
        · exact absurd (UInt64.toNat_inj.mp hn) hzero
        · exact absurd (UInt64.toNat_inj.mp hn) hone
        · exact .error hx

/-! ## Values -/

/-- What is known of the stream, and the words that have not been given out. -/
structure State.Views (t : NumberType) (s : State) (s' : Chronicle.Delta.State) : Prop where
  domain_eq : s'.domain? = s.domain?
  width_eq : ∀ d, s.domain? = some d → s.width = Delta.width t d
  place_le : s.place ≤ s.length
  length_le : s.length ≤ 8
  ready_eq : s'.ready = s.block.unread s.length s.place

variable {t : NumberType} {f : Feed State} {g : Chronicle.Feed Chronicle.Delta.State}

theorem initial_views (t : NumberType) : (State.initial t).Views t {} := by
  refine ⟨rfl, ?_, Nat.le_refl 0, Nat.zero_le 8, ?_⟩
  · intro d hd
    cases hd
  · exact (Words.unread_self _ 0).symm

/-- The words that a reset leaves behind are not looked at. -/
theorem reset_views (t : NumberType) (s : State) : (s.reset t).Views t {} := by
  refine ⟨rfl, ?_, Nat.le_refl 0, Nat.zero_le 8, ?_⟩
  · intro d hd
    cases hd
  · exact (Words.unread_self _ 0).symm

theorem matches_domain (h : f.Views (State.Views t) frame g) :
    Matches (fun d d' f' g' => d = d' ∧ f'.state.domain? = some d ∧ f'.Views (State.Views t) frame g')
      (Feed.Views (State.Views t) frame) (domain t f) (Chronicle.Delta.domain t g) := by
  unfold domain Chronicle.Delta.domain
  rw [get_bind, get_bind, h.state.domain_eq]
  cases hd : f.state.domain? with
  | some d => exact matches_pure ⟨rfl, hd, h⟩
  | none =>
    refine (Feed.matches_onBits h (matches_readDomain t h.source)).bind ?_
    rintro d _ f' g' ⟨⟨rfl, hs'⟩, hf', hg'⟩
    refine .ok ⟨rfl, rfl, ⟨rfl, ?_, ?_, ?_, ?_⟩, hs'⟩
    · intro d' hd'
      cases hd'
      rfl
    · show f'.state.place ≤ f'.state.length
      rw [hf']
      exact h.state.place_le
    · show f'.state.length ≤ 8
      rw [hf']
      exact h.state.length_le
    · show g'.state.ready = f'.state.block.unread f'.state.length f'.state.place
      rw [hf', hg']
      exact h.state.ready_eq

theorem takeValue_eq {d : Domain} (hplace : f.state.place < f.state.length) (hlength : f.state.length ≤ 8) :
    takeValue t d f = .ok (ofWord t d f.state.block[f.state.place].toNat)
      { f with state := { f.state with place := f.state.place + 1 } } := by
  have hlt : f.state.place < 8 := by omega
  unfold takeValue
  rw [get_bind, bind_of_eq (Words.get_eq hlt f), bind_of_eq (Words.next_eq hlt f)]
  rfl

theorem unpack_of_lt (hplace : f.state.place < f.state.length) : unpack f = .ok () f := by
  unfold unpack
  rw [get_bind, if_neg (Nat.ne_of_lt hplace)]
  rfl

/-- A block that has been given out is followed by another one. -/
theorem matches_unpack {d : Domain} (hd : f.state.domain? = some d) (hplace : f.state.place = f.state.length)
    (h : f.Views (State.Views t) frame g) :
    Matches (fun _ p f' g' => f'.state.domain? = some d ∧ f'.state.width = f.state.width ∧ f'.state.length ≤ 8 ∧
          f'.state.place = 0 ∧ f'.state.block.unread f'.state.length 0 = p.1 :: p.2 ∧ f'.source.Views frame g'.source)
      (Feed.Views (State.Views t) frame) (unpack f) (Chronicle.Feed.onBits (Chronicle.Delta.pullBlock (d.width t)) g) := by
  have hwidth : f.state.width.toNat = d.width t := by rw [h.state.width_eq d hd, toNat_width]
  have hempty : ∀ block, State.Views t { f.state with block := block } g.state := by
    intro block
    refine ⟨h.state.domain_eq, h.state.width_eq, h.state.place_le, h.state.length_le, ?_⟩
    rw [h.state.ready_eq, hplace, Words.unread_self, Words.unread_self]
  have hblock := matches_readBlock (f := ⟨f.state.block, f.reader, f.bytes⟩)
    (show f.state.width.toNat ≤ 64 by rw [h.state.width_eq d hd]; exact width_le t d) h.source
  rw [hwidth] at hblock
  unfold unpack
  rw [get_bind, if_pos hplace]
  refine (Feed.matches_within_onBits hempty hblock).bind_left ?_
  rintro count p f' g' ⟨i, ⟨hle, hwords, hs'⟩, hf', -⟩
  refine ⟨_, _, rfl, ?_, ?_, hle, rfl, ?_, hs'⟩
  · show f'.state.domain? = some d
    rw [hf']
    exact hd
  · show f'.state.width = f.state.width
    rw [hf']
  · show f'.state.block.unread count 0 = _
    rw [hf']
    exact hwords

theorem matches_next (h : f.Views (State.Views t) frame g) :
    Matches (fun v v' f' g' => v = v' ∧ f'.Views (State.Views t) frame g') (Feed.Views (State.Views t) frame) (next t f)
      (Chronicle.Delta.next t g) := by
  refine (matches_domain h).bind ?_
  rintro d _ x y ⟨rfl, hd, hxy⟩
  rw [get_bind]
  by_cases hplace : x.state.place < x.state.length
  · rw [bind_of_eq (unpack_of_lt hplace), takeValue_eq hplace hxy.state.length_le, hxy.state.ready_eq,
      Words.unread_of_lt hplace hxy.state.length_le]
    refine .ok ⟨rfl, ⟨?_, hxy.state.width_eq, hplace, hxy.state.length_le, rfl⟩, hxy.source⟩
    exact hd.symm
  · have hplace : x.state.place = x.state.length := Nat.le_antisymm hxy.state.place_le (Nat.le_of_not_lt hplace)
    rw [hxy.state.ready_eq, hplace, Words.unread_self]
    refine (matches_unpack hd hplace hxy).bind ?_
    rintro _ ⟨word, rest⟩ f' g' ⟨hd', hwidth, hlength, hplace', hunread, hs'⟩
    have hpos : f'.state.place < f'.state.length := by
      rw [hplace']
      apply Nat.pos_of_ne_zero
      intro hzero
      rw [hzero, Words.unread_self] at hunread
      cases hunread
    rw [← hplace', Words.unread_of_lt hpos hlength] at hunread
    obtain ⟨hword, hrest⟩ := List.cons.inj hunread
    rw [takeValue_eq hpos hlength, hword]
    refine .ok ⟨rfl, ⟨hd'.symm, ?_, hpos, hlength, hrest.symm⟩, hs'⟩
    intro d' hd''
    cases hd'.symm.trans hd''
    exact hwidth.trans (hxy.state.width_eq d hd)

theorem hasNext_eq (h : f.Views (State.Views t) frame g) :
    hasNext f.state f.bytes = Chronicle.Delta.hasNext g.state g.bytes := by
  have hready : (!g.state.ready.isEmpty) = decide (f.state.place < f.state.length) := by
    rw [h.state.ready_eq]
    by_cases hplace : f.state.place < f.state.length
    · rw [Words.unread_of_lt hplace h.state.length_le, decide_eq_true hplace]
      rfl
    · have hplace' : f.state.place = f.state.length := Nat.le_antisymm h.state.place_le (Nat.le_of_not_lt hplace)
      rw [decide_eq_false hplace, hplace', Words.unread_self]
      rfl
  unfold hasNext Chronicle.Delta.hasNext
  rw [hready, h.bytes.1]

end Machine.Delta

end Chronicle
