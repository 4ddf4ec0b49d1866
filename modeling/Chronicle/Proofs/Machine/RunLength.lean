/-
  Chronicle.Proofs.Machine.RunLength — RLE on machine words gives the patterns that RLE gives.

  `Segment.Views` says which pending patterns a segment stands for. Of the words of a group only those are
  looked at that are filled and have not been given out, so a group that was broken off leaves nothing behind. A
  word of a group is the base and an offset modulo the word size (`toNat_member`).

  A segment that has been read has a pattern, and so the second round is the last one (`matches_next`): in the
  first one what is pending is given out (`matches_give`), or there is nothing and a segment is read
  (`nextWithin_of_none`). What is pending is counted without overflow (`pending_eq`), a length having 31 bits.
-/

import Chronicle.Machine.RunLength
import Chronicle.Proofs.Machine.Feed

namespace Chronicle

namespace RunLength

open BitSource

/-- A group is read as offsets, each of which makes its word by itself. -/
theorem times_pullMember (width base offsetWidth previous count : Nat) :
    (pullMember width base offsetWidth).times count =
      pullEach offsetWidth (fun _ offset => (base + offset) % 2 ^ width) previous count := by
  induction count generalizing previous with
  | zero => rfl
  | succ count ih =>
    show (pullMember width base offsetWidth >>= fun a => do
      return a :: (← (pullMember width base offsetWidth).times count) : Reading BitSource (List Nat)) = _
    unfold pullEach
    simp only [pullMember, bind_assoc, pure_bind]
    congr 1
    funext offset
    rw [← ih]
    rfl

theorem pullMembers_eq (width base offsetWidth more : Nat) :
    (do
      let first ← pullMember width base offsetWidth
      return (first, ← (pullMember width base offsetWidth).times more)) =
    (do
      let words ← pullEach offsetWidth (fun _ offset => (base + offset) % 2 ^ width) 0 (more + 1)
      return (words.headD 0, words.tail)) := by
  show ((do return (base + (← pullBits offsetWidth)) % 2 ^ width) >>= fun first => do
    return (first, ← (pullMember width base offsetWidth).times more) : Reading BitSource (Nat × List Nat)) = _
  unfold pullEach
  simp only [bind_assoc, pure_bind]
  congr 1
  funext offset
  rw [times_pullMember width base offsetWidth ((base + offset) % 2 ^ width)]
  rfl

theorem pullGroup_eq (width more : Nat) :
    pullGroup width more = (do
      let offsetWidth ← pullBits 7
      if width < offsetWidth then throw (.malformed (.groupWidth offsetWidth width))
      let base ← pullBits width
      let words ← pullEach offsetWidth (fun _ offset => (base + offset) % 2 ^ width) 0 (more + 1)
      return (words.headD 0, words.tail)) := by
  unfold pullGroup
  simp only [pullMembers_eq]

def give (width : Nat) : Pending → Reading (Feed State) Nat
  | .run value 0 => do
    Feed.setState none
    return value
  | .run value (more + 1) => do
    Feed.setState (some (.run value more))
    return value
  | .packed more => do
    let others := min more (groupSize - 1)
    let (value, rest) ← Feed.onBits (pullGroup width others)
    Feed.setState (.ofLiterals rest (more - others))
    return value
  | .group value rest packed => do
    Feed.setState (.ofLiterals rest packed)
    return value

theorem next_eq (width : Nat) : next width = pending width >>= give width := by
  unfold next
  congr 1

end RunLength

namespace Machine.RunLength

open Chronicle.RunLength (Pending give next_eq pullGroup_eq)
open Guarded (minus_eq signExtend_eq lowBits64_eq toNat_and_mask toNat_add_mod toNat_mod_of_toInt)

variable {frame : Frame} {width : UInt8}

/-! ## Groups -/

/-- A word of a group. -/
theorem toNat_member {base : Int64} {bits offset mask : UInt64} {width : Nat} (hw : width ≤ 64)
    (hbase : base.toUInt64.toNat % 2 ^ width = bits.toNat) (hmask : mask.toNat = 2 ^ width - 1) :
    ((base + offset.toInt64).toUInt64 &&& mask).toNat = (bits.toNat + offset.toNat) % 2 ^ width := by
  rw [toNat_and_mask hmask, Int64.toUInt64_add, UInt64.toUInt64_toInt64, toNat_add_mod hw, ← hbase, Nat.mod_add_mod]

theorem matches_readGroup (hw : width.toNat ≤ 64) {f : Feed Words} {s : Chronicle.BitSource} {more : Nat} (hmore : more + 1 ≤ 8)
    (h : f.source.Views frame s) :
    Matches (fun _ p f' s' => (f'.state.toList.take (more + 1)).map UInt64.toNat = p.1 :: p.2 ∧ f'.source.Views frame s')
      (fun f' s' => f'.source.Views frame s') (readGroup width (more + 1) f) (Chronicle.RunLength.pullGroup width.toNat more s) := by
  rw [pullGroup_eq]
  refine (Feed.matches_onBits_words (BitSource.matches_readBits 7 (by decide) h)).bind ?_
  rintro w _ x t ⟨⟨rfl, hlt, ht⟩, -⟩
  have hoffset : w.toUInt8.toNat = w.toNat := by
    rw [UInt64.toNat_toUInt8]
    exact Nat.mod_eq_of_lt (Nat.lt_trans hlt (by decide))
  dsimp only
  refine .ite (by rw [UInt8.lt_iff_toNat_lt, hoffset]) ?_ ?_
  · intro _
    rw [hoffset]
    exact .error ht
  · intro hle
    have hle : w.toUInt8.toNat ≤ width.toNat := Nat.le_of_not_lt fun hlt => hle (UInt8.lt_iff_toNat_lt.mpr hlt)
    refine (Feed.matches_onBits_words (BitSource.matches_readBits _ hw ht)).bind ?_
    rintro bits _ y u ⟨⟨rfl, hbits, hu⟩, -⟩
    obtain ⟨base, hbase, hsigned⟩ := signExtend_eq (s := y) hw hbits
    have hmod := toNat_mod_of_toInt hw hbits hsigned
    obtain ⟨mask, hmask, hlow⟩ := lowBits64_eq (s := y) hw
    rw [bind_of_eq hbase, bind_of_eq hlow]
    have hfill := Feed.matches_fill (Nat.le_trans hle hw) (fun _ offset => (base + offset.toInt64).toUInt64 &&& mask)
      (fun _ offset => (bits.toNat + offset) % 2 ^ width.toNat) (fun _ _ => toNat_member hw hmod hmask)
      0 0 (more + 1) (by omega) hu
    rw [hoffset, Nat.zero_add] at hfill
    refine hfill.map_right ?_
    rintro _ words f' s' ⟨hwords, hlength, hs'⟩
    refine ⟨?_, hs'⟩
    cases words with
    | nil => cases hlength
    | cons first rest => simpa using hwords

/-! ## Segments -/

inductive Segment.Views : Segment → Chronicle.RunLength.State → Prop
  | idle : Views .idle none
  | ended (value : UInt64) : Views (.run value 0) none
  | run (value : UInt64) {remaining : UInt32} {more : Nat} (h : remaining.toNat = more + 1) :
      Views (.run value remaining) (some (.run value.toNat more))
  | literal (l : Literals) {s : Chronicle.RunLength.State} (hplace : l.place ≤ l.length) (hlength : l.length ≤ 8)
      (hs : s = .ofLiterals (l.group.unread l.length l.place) l.remaining.toNat) : Views (.literal l) s

variable {f : Feed Segment} {g : Chronicle.Feed Chronicle.RunLength.State}

theorem matches_readSegment (hw : width.toNat ≤ 64) {s : BitSource} {s' : Chronicle.BitSource} (h : s.Views frame s') :
    Matches (fun segment p t t' => segment.Views (some p) ∧ t.Views frame t') (BitSource.Views frame) (readSegment width s)
      (Chronicle.RunLength.pullSegment width.toNat s') := by
  refine (BitSource.matches_align h).bind ?_
  intro _ _ x x' hx
  refine (BitSource.matches_readBit hx).bind ?_
  rintro isRun _ y y' ⟨rfl, hy⟩
  refine (BitSource.matches_readBits 31 (by decide) hy).bind ?_
  rintro w n z z' ⟨rfl, hlt, hz⟩
  have hlength : w.toUInt32.toNat = w.toNat := by
    rw [UInt64.toNat_toUInt32]
    exact Nat.mod_eq_of_lt (Nat.lt_trans hlt (by decide))
  dsimp only
  rcases hn : w.toNat with _ | more
  · have hzero : w.toUInt32 = 0 := UInt32.toNat_inj.mp (hlength.trans hn)
    rw [if_pos hzero]
    exact .error hz
  · have hne : w.toUInt32 ≠ 0 := by
      intro hzero
      rw [hzero, hn] at hlength
      cases hlength
    rw [if_neg hne]
    dsimp only
    refine .ite Iff.rfl ?_ ?_
    · intro _
      refine (BitSource.matches_readBits _ hw hz).bind ?_
      rintro value _ u u' ⟨rfl, -, hu⟩
      exact matches_pure ⟨.run value (hlength.trans hn), hu⟩
    · intro _
      refine matches_pure ⟨.literal _ (Nat.le_refl 0) (Nat.zero_le 8) ?_, hz⟩
      rw [Words.unread_self, hlength, hn]
      rfl

/-! ## Patterns -/

theorem takeLiteral_of_lt {l : Literals} (hplace : l.place < l.length) (hlength : l.length ≤ 8) (f : Feed Segment) :
    takeLiteral width l f = .ok l.group[l.place] { f with state := .literal { l with place := l.place + 1 } } := by
  have hunpack : unpack width l f = .ok l f := by
    unfold unpack
    rw [if_pos (Nat.ne_of_lt hplace)]
    rfl
  have hlt : l.place < 8 := by omega
  unfold takeLiteral
  rw [bind_of_eq hunpack, Feed.setState_bind, bind_of_eq (Words.get_eq hlt _), bind_of_eq (Words.next_eq hlt _)]
  rfl

theorem toNat_min32 (a b : UInt32) : (min a b).toNat = min a.toNat b.toNat := by
  show (if a ≤ b then a else b).toNat = _
  split
  · next h => exact (Nat.min_eq_left (UInt32.le_iff_toNat_le.mp h)).symm
  · next h => exact (Nat.min_eq_right (Nat.le_of_not_le fun h' => h (UInt32.le_iff_toNat_le.mpr h'))).symm

/-- A group that has been given out is followed by another one. -/
theorem matches_takeLiteral_packed (hw : width.toNat ≤ 64) {l : Literals} {more : Nat} (hplace : l.place = l.length)
    (hlength : l.length ≤ 8) (hmore : l.remaining.toNat = more + 1) (hg : g.state = some (.packed more))
    (h : f.Views Segment.Views frame g) :
    Matches (fun v n f' g' => v.toNat = n ∧ f'.Views Segment.Views frame g') (Feed.Views Segment.Views frame)
      (takeLiteral width l f) (give width.toNat (.packed more) g) := by
  obtain ⟨others, hothers⟩ : ∃ others, others = min more (Chronicle.RunLength.groupSize - 1) := ⟨_, rfl⟩
  have hsmall : others = min more 7 := hothers
  have hcount : (min l.remaining 8).toNat = others + 1 := by
    rw [toNat_min32, hmore]
    show min (more + 1) 8 = others + 1
    omega
  have hgroup : Matches (fun group p x s' => group = x.state ∧ (x.state.toList.take (others + 1)).map UInt64.toNat = p.1 :: p.2 ∧
        x.source.Views frame s') (fun x s' => x.source.Views frame s')
      ((do readGroup width (others + 1); return (← get).state : Guarded (Feed Words) Words) ⟨l.group, f.reader, f.bytes⟩)
      (Chronicle.RunLength.pullGroup width.toNat others g.source) := by
    refine (matches_readGroup hw (by omega) h.source).bind_left ?_
    rintro _ p x s' ⟨hwords, hs'⟩
    exact ⟨x.state, x, rfl, rfl, hwords, hs'⟩
  -- Whatever is stored in the group, nothing of it is to be given out.
  have hempty : ∀ group, Segment.Views (.literal { l with group := group }) g.state := by
    intro group
    refine .literal _ (Nat.le_of_eq hplace) hlength ?_
    rw [hplace, Words.unread_self, hmore, hg]
    rfl
  have hle : min l.remaining 8 ≤ l.remaining := by
    rw [UInt32.le_iff_toNat_le, hcount, hmore]
    omega
  unfold takeLiteral unpack give
  dsimp only
  rw [if_neg (not_not.mpr hplace), hcount, ← hothers]
  simp only [bind_assoc, pure_bind]
  refine (Feed.matches_within_onBits hempty hgroup).bind ?_
  rintro group ⟨value, rest⟩ f' g' ⟨_, ⟨rfl, hwords, hs'⟩, -, -⟩
  have hleft : (l.remaining - min l.remaining 8).toNat = more - others := by
    rw [UInt32.toNat_sub_of_le _ _ hle, hmore, hcount]
    omega
  have hunread : group.unread (others + 1) 0 = value :: rest := hwords
  rw [Words.unread_of_lt (Nat.succ_pos others) (by omega)] at hunread
  obtain ⟨hvalue, hrest⟩ := List.cons.inj hunread
  rw [bind_of_eq (minus_eq hle), Feed.setState_bind, bind_of_eq (Words.get_eq (by decide) _),
    bind_of_eq (Words.next_eq (by decide) _), Feed.setState_bind]
  refine .ok ⟨hvalue, .literal _ (Nat.le_add_left 1 others) (by show others + 1 ≤ 8; omega) ?_, hs'⟩
  rw [hleft, ← hrest]

/-- A segment that has a pattern gives it out. -/
theorem matches_give (hw : width.toNat ≤ 64) (rounds : Nat) {p : Pending} (hp : g.state = some p)
    (h : f.Views Segment.Views frame g) :
    Matches (fun v n f' g' => v.toNat = n ∧ f'.Views Segment.Views frame g') (Feed.Views Segment.Views frame)
      (nextWithin width (rounds + 1) f) (give width.toNat p g) := by
  have hstate := h.state
  rw [hp] at hstate
  generalize hf : f.state = segment at hstate
  generalize hs : some p = state at hstate
  unfold nextWithin
  rw [get_bind, hf]
  cases hstate with
  | idle => cases hs
  | ended value => cases hs
  | @run value remaining more hmore =>
    cases hs
    have hone : 1 ≤ remaining := UInt32.le_iff_toNat_le.mpr (by rw [hmore]; exact Nat.le_add_left 1 more)
    have hpos : 0 < remaining := UInt32.lt_iff_toNat_lt.mpr (by rw [hmore]; exact Nat.succ_pos more)
    have hleft : (remaining - 1).toNat = more := by
      rw [UInt32.toNat_sub_of_le _ _ hone, hmore]
      rfl
    dsimp only
    rw [if_pos hpos, bind_of_eq (minus_eq hone), Feed.setState_bind]
    cases more with
    | zero =>
      refine .ok ⟨rfl, ?_, h.source⟩
      rw [show remaining - 1 = 0 from UInt32.toNat_inj.mp hleft]
      exact .ended value
    | succ more => exact .ok ⟨rfl, .run value hleft, h.source⟩
  | literal l hplace hlength hview =>
    dsimp only
    by_cases hlt : l.place < l.length
    · rw [Words.unread_of_lt hlt hlength] at hview
      cases hs.trans hview
      rw [if_pos (Or.inl hlt), takeLiteral_of_lt hlt hlength]
      exact .ok ⟨rfl, .literal _ hlt hlength rfl, h.source⟩
    · have hplace : l.place = l.length := by omega
      rw [hplace, Words.unread_self] at hview
      rcases hmore : l.remaining.toNat with _ | more
      · rw [hmore] at hview
        cases hs.trans hview
      · rw [hmore] at hview
        cases hs.trans hview
        have hpos : 0 < l.remaining := UInt32.lt_iff_toNat_lt.mpr (by rw [hmore]; exact Nat.succ_pos more)
        rw [if_pos (Or.inr hpos)]
        exact matches_takeLiteral_packed hw hplace hlength hmore hp h

/-- A segment that has no pattern left is followed by another one. -/
theorem nextWithin_of_none (rounds : Nat) (h : f.state.Views none) :
    nextWithin width (rounds + 1) f =
      (do
        let segment ← Feed.onBits (readSegment width)
        Feed.setState segment
        nextWithin width rounds) f := by
  rw [nextWithin, get_bind]
  rcases f with ⟨segment, reader, bytes⟩
  cases h with
  | idle => rfl
  | ended value => rfl
  | literal l hplace hlength hview =>
    dsimp only
    rw [if_neg]
    rintro (hlt | hpos)
    · rw [Words.unread_of_lt hlt hlength] at hview
      cases hview
    · have hpos : 0 < l.remaining.toNat := UInt32.lt_iff_toNat_lt.mp hpos
      cases hunread : l.group.unread l.length l.place with
      | cons v rest =>
        rw [hunread] at hview
        cases hview
      | nil =>
        obtain ⟨more, hmore⟩ : ∃ more, l.remaining.toNat = more + 1 := ⟨l.remaining.toNat - 1, by omega⟩
        rw [hunread, hmore] at hview
        cases hview

theorem matches_next (hw : width.toNat ≤ 64) (h : f.Views Segment.Views frame g) :
    Matches (fun v n f' g' => v.toNat = n ∧ f'.Views Segment.Views frame g') (Feed.Views Segment.Views frame)
      (next width f) (Chronicle.RunLength.next width.toNat g) := by
  rw [Chronicle.RunLength.next_eq]
  cases hg : g.state with
  | some p =>
    have hpending : Chronicle.RunLength.pending width.toNat g = .ok p g := by
      unfold Chronicle.RunLength.pending
      rw [get_bind, hg]
      rfl
    rw [bind_of_eq hpending]
    exact matches_give hw 1 hg h
  | none =>
    have hnone : f.state.Views none := hg ▸ h.state
    have hpending : Chronicle.RunLength.pending width.toNat g = (do
        let p ← Chronicle.Feed.onBits (Chronicle.RunLength.pullSegment width.toNat)
        Chronicle.Feed.setState (some p)
        return p) g := by
      unfold Chronicle.RunLength.pending
      rw [get_bind, hg]
    rw [bind_congr_left _ hpending]
    simp only [bind_assoc, pure_bind]
    unfold next
    rw [nextWithin_of_none 1 hnone]
    refine (Feed.matches_onBits h (matches_readSegment hw h.source)).bind ?_
    rintro segment p f' g' ⟨⟨hsegment, hs'⟩, -, -⟩
    exact matches_give (f := { f' with state := segment }) (g := { g' with state := some p }) hw 0 rfl ⟨hsegment, hs'⟩

theorem isSome_ofLiterals (rest : List Nat) (packed : Nat) :
    (Chronicle.RunLength.State.ofLiterals rest packed).isSome = decide (0 < packed + rest.length) := by
  cases rest with
  | cons v rest =>
    rw [decide_eq_true (by rw [List.length_cons]; omega)]
    rfl
  | nil => cases packed <;> rfl

/-- What is pending is counted without overflow, and not zero as long as there is a pattern. -/
theorem pending_eq {segment : Segment} {s : Chronicle.RunLength.State} (h : segment.Views s) {σ : Type} (t : σ) :
    ∃ n, segment.pending t = .ok n t ∧ decide (0 < n) = s.isSome := by
  cases h with
  | idle => exact ⟨0, rfl, rfl⟩
  | ended value => exact ⟨0, rfl, rfl⟩
  | @run value remaining more hmore =>
    refine ⟨remaining.toUInt64, rfl, decide_eq_true (UInt64.lt_iff_toNat_lt.mpr ?_)⟩
    rw [UInt32.toNat_toUInt64, hmore]
    exact Nat.succ_pos more
  | literal l hplace hlength hview =>
    subst hview
    have hunread : (l.group.unread l.length l.place).length = l.length - l.place := by
      unfold Words.unread
      rw [List.length_map, List.length_drop, List.length_take, Vector.length_toList, Nat.min_eq_left hlength]
    have hcount : (UInt64.ofNat (l.length - l.place)).toNat = l.length - l.place :=
      Nat.mod_eq_of_lt (Nat.lt_of_le_of_lt (show l.length - l.place ≤ 8 by omega) (by decide))
    have hbound : l.remaining.toUInt64.toNat + (UInt64.ofNat (l.length - l.place)).toNat < 2 ^ 64 := by
      have := l.remaining.toNat_lt
      rw [UInt32.toNat_toUInt64, hcount]
      omega
    refine ⟨l.remaining.toUInt64 + UInt64.ofNat (l.length - l.place), ?_, ?_⟩
    · unfold Segment.pending
      dsimp only
      rw [bind_of_eq (minus_eq hplace)]
      exact Guarded.plus64_eq hbound
    · rw [isSome_ofLiterals, hunread]
      have hsum : (l.remaining.toUInt64 + UInt64.ofNat (l.length - l.place)).toNat = l.remaining.toNat + (l.length - l.place) := by
        rw [UInt64.toNat_add, Nat.mod_eq_of_lt hbound, UInt32.toNat_toUInt64, hcount]
      rw [decide_eq_decide, UInt64.lt_iff_toNat_lt, hsum]
      rfl

theorem hasNext_eq (h : f.Views Segment.Views frame g) :
    hasNext f = .ok (Chronicle.RunLength.hasNext g.state g.bytes) f := by
  obtain ⟨n, hn, hsome⟩ := pending_eq h.state f
  unfold hasNext Chronicle.RunLength.hasNext
  rw [get_bind, bind_of_eq hn, hsome, h.bytes.1]
  rfl

end Machine.RunLength

end Chronicle
