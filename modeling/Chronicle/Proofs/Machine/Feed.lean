/-
  Chronicle.Proofs.Machine.Feed — readings of bits and bytes on machine words as readings of a feed.

  Two feeds stand for the same if their states do, and their readers and bytes are the same (`Views`). What is
  known of a reading of a part is lifted to the whole: to the bits and bytes of a feed, and to a state that is
  stored inside another one (`matches_within`).

  The loop that fills a block gives the list of its words (`matches_fill`). What it has stored when a word is
  missing is not looked at, so nothing is said of it; without words there is no such block, and a list that is
  not complete is not given.
-/

import Chronicle.Machine.Bytes
import Chronicle.Proofs.Machine.Bytes
import Chronicle.Proofs.Stream.Feed

namespace Chronicle

/-- Reads `count` offsets, each of which makes a word of the one before it. -/
def BitSource.pullEach (offsetWidth : Nat) (word : Nat → Nat → Nat) (previous : Nat) : (count : Nat) → Reading BitSource (List Nat)
  | 0 => return []
  | count + 1 => do
    let offset ← pullBits offsetWidth
    return word previous offset :: (← pullEach offsetWidth word (word previous offset) count)

namespace Machine


/-! ## Words of a block -/

namespace Words

def unread (words : Words) (length place : Nat) : List Nat := ((words.toList.take length).drop place).map UInt64.toNat

theorem unread_self (words : Words) (length : Nat) : words.unread length length = [] := by
  unfold unread
  rw [List.drop_eq_nil_of_le, List.map_nil]
  rw [List.length_take]
  exact Nat.min_le_left _ _

theorem length_unread_le (words : Words) (length place : Nat) : (words.unread length place).length ≤ 8 := by
  rw [unread, List.length_map, List.length_drop, List.length_take, Vector.length_toList]
  omega

theorem unread_of_lt {words : Words} {length place : Nat} (h : place < length) (hlength : length ≤ 8) :
    words.unread length place = words[place].toNat :: words.unread length (place + 1) := by
  have hplace : place < (words.toList.take length).length := by
    rw [List.length_take, Vector.length_toList]
    omega
  unfold unread
  rw [List.drop_eq_getElem_cons hplace, List.map_cons, List.getElem_take, Vector.getElem_toList]

theorem get_eq {σ : Type} {words : Words} {place : Nat} (h : place < 8) (s : σ) : words.get place s = .ok words[place] s := by
  unfold get
  rw [dif_pos h]
  rfl

theorem next_eq {σ : Type} {place : Nat} (h : place < 8) (s : σ) : next place s = .ok (place + 1) s :=
  Guarded.require_eq (Nat.lt_trans (Nat.succ_lt_succ h) (by decide))

theorem set_eq {σ : Type} {words : Words} {place : Nat} (h : place < 8) (word : UInt64) (s : σ) :
    words.set place word s = .ok (Vector.set words place word h) s := by
  unfold set
  rw [dif_pos h]
  rfl

theorem take_set (words : Words) {place : Nat} (h : place < 8) (word : UInt64) :
    (Vector.set words place word h).toList.take (place + 1) = words.toList.take place ++ [word] := by
  have hlength : place < words.toList.length := by
    rw [Vector.length_toList]
    exact h
  rw [Vector.toList_set, List.take_add_one, List.take_set_of_le (Nat.le_refl _), List.getElem?_set_self hlength]
  rfl

end Words

namespace Feed

variable {σ τ σ' τ' α β : Type} {V : σ → τ → Prop} {V' : σ' → τ' → Prop} {frame : Frame} {f : Feed σ} {g : Chronicle.Feed τ}

def source (f : Feed σ) : BitSource := ⟨f.reader, f.bytes⟩

/-- Feeds with states that stand for the same, and with the same bits and bytes. -/
structure Views (V : σ → τ → Prop) (frame : Frame) (f : Feed σ) (g : Chronicle.Feed τ) : Prop where
  state : V f.state g.state
  source : f.source.Views frame g.source

theorem Views.bytes (h : f.Views V frame g) : SameBytes frame.room f.bytes g.bytes := by
  refine ⟨?_, h.source.length_le⟩
  exact congrArg Chronicle.BitSource.bytes h.source.view_eq

theorem setState_bind (s : σ) (k : Unit → Guarded (Feed σ) α) (f : Feed σ) :
    (setState s >>= k) f = k () { f with state := s } := rfl

/-! ## Parts of a feed -/

theorem matches_onBits {m : Guarded BitSource α} {n : Reading Chronicle.BitSource β}
    {Q : α → β → BitSource → Chronicle.BitSource → Prop} (h : f.Views V frame g)
    (hm : Matches Q (BitSource.Views frame) (m f.source) (n g.source)) :
    Matches (fun a b f' g' => Q a b f'.source g'.source ∧ f'.state = f.state ∧ g'.state = g.state) (Views V frame) (onBits m f)
      (Chronicle.Feed.onBits n g) := by
  unfold onBits Chronicle.Feed.onBits
  change Matches Q _ (m ⟨f.reader, f.bytes⟩) (n ⟨g.reader, g.bytes⟩) at hm
  generalize m ⟨f.reader, f.bytes⟩ = r at hm
  generalize n ⟨g.reader, g.bytes⟩ = r' at hm
  cases hm with
  | ok hq => exact .ok ⟨hq, rfl, rfl⟩
  | error hs => exact .error ⟨h.state, hs⟩

theorem matches_onBytes {m : Guarded Bytes α} {n : Reading Bytes β} {R : α → β → Prop} (h : f.Views V frame g)
    (hm : Matches (fun a b t t' => R a b ∧ SameBytes frame.room t t') (SameBytes frame.room) (m f.bytes) (n g.bytes)) :
    Matches (fun a b f' g' => R a b ∧ f'.state = f.state ∧ g'.state = g.state ∧ f'.Views V frame g') (Views V frame)
      (onBytes m f) (Chronicle.Feed.onBytes n g) := by
  have hsource {bytes bytes' : Bytes} (hb : SameBytes frame.room bytes bytes') :
      BitSource.Views frame ⟨f.reader, bytes⟩ ⟨g.reader, bytes'⟩ := by
    obtain ⟨rfl, hlength⟩ := hb
    refine ⟨h.source.left_le, h.source.refill_eq, hlength, ?_⟩
    have hreader : g.reader = f.reader.view := congrArg Chronicle.BitSource.reader h.source.view_eq
    rw [hreader]
    rfl
  unfold onBytes Chronicle.Feed.onBytes
  generalize m f.bytes = r at hm
  generalize n g.bytes = r' at hm
  cases hm with
  | ok hq => exact .ok ⟨hq.1, rfl, rfl, h.state, hsource hq.2⟩
  | error hb => exact .error ⟨h.state, hsource hb⟩

/-- A state inside another one. -/
theorem matches_within {wrap : σ' → σ} {wrap' : τ' → τ} {inner : σ'} {inner' : τ'} {m : Guarded (Feed σ') α}
    {n : Reading (Chronicle.Feed τ') β} {R : α → β → Prop} (hV : ∀ i i', V' i i' → V (wrap i) (wrap' i'))
    (hm : Matches (fun a b f' g' => R a b ∧ f'.Views V' frame g') (Views V' frame) (m ⟨inner, f.reader, f.bytes⟩)
      (n ⟨inner', g.reader, g.bytes⟩)) :
    Matches (fun a b f' g' => R a b ∧ f'.Views V frame g') (Views V frame) (within wrap inner m f)
      (Chronicle.Feed.within wrap' inner' n g) := by
  unfold within Chronicle.Feed.within
  generalize m ⟨inner, f.reader, f.bytes⟩ = r at hm
  generalize n ⟨inner', g.reader, g.bytes⟩ = r' at hm
  cases hm with
  | ok hq => exact .ok ⟨hq.1, hV _ _ hq.2.state, hq.2.source⟩
  | error hv => exact .error ⟨hV _ _ hv.state, hv.source⟩

/-- A block that is filled inside a state, whatever it holds. -/
theorem matches_within_onBits {wrap : σ' → σ} {inner : σ'} {m : Guarded (Feed σ') α} {n : Reading Chronicle.BitSource β}
    {Q : α → β → Feed σ' → Chronicle.BitSource → Prop} (hV : ∀ i, V (wrap i) g.state)
    (hm : Matches Q (fun x s => x.source.Views frame s) (m ⟨inner, f.reader, f.bytes⟩) (n g.source)) :
    Matches (fun a b f' g' => ∃ i, Q a b ⟨i, f'.reader, f'.bytes⟩ g'.source ∧ f'.state = wrap i ∧ g'.state = g.state)
      (Views V frame) (within wrap inner m f) (Chronicle.Feed.onBits n g) := by
  unfold within Chronicle.Feed.onBits
  change Matches Q _ _ (n ⟨g.reader, g.bytes⟩) at hm
  generalize m ⟨inner, f.reader, f.bytes⟩ = r at hm
  generalize n ⟨g.reader, g.bytes⟩ = r' at hm
  cases hm with
  | ok hq => exact .ok ⟨_, hq, rfl, rfl⟩
  | error hs => exact .error ⟨hV _, hs⟩

/-! ## Filling a block -/

section Fill

variable {f : Feed Words} {s : Chronicle.BitSource}

/-- Reading bits leaves a block as it is. -/
theorem matches_onBits_words {m : Guarded BitSource α} {n : Reading Chronicle.BitSource β}
    {Q : α → β → BitSource → Chronicle.BitSource → Prop}
    (hm : Matches Q (BitSource.Views frame) (m f.source) (n s)) :
    Matches (fun a b f' s' => Q a b f'.source s' ∧ f'.state = f.state) (fun f' s' => f'.source.Views frame s') (onBits m f)
      (n s) := by
  unfold onBits
  change Matches Q _ (m ⟨f.reader, f.bytes⟩) _ at hm
  generalize m ⟨f.reader, f.bytes⟩ = r at hm
  generalize n s = r' at hm
  cases hm with
  | ok hq => exact .ok ⟨hq, rfl⟩
  | error hs => exact .error hs

theorem store_eq {place : Nat} (h : place < 8) (word : UInt64) :
    store place word f = .ok () ⟨Vector.set f.state place word h, f.reader, f.bytes⟩ := by
  unfold store
  rw [get_bind, bind_of_eq (Words.set_eq h word f)]
  rfl

/-- The places from `place` on get the words of a list, those in front of them stay. -/
theorem matches_fill {offsetWidth : UInt8} (hwidth : offsetWidth.toNat ≤ 64) (word : UInt64 → UInt64 → UInt64)
    (word' : Nat → Nat → Nat) (hword : ∀ p o, (word p o).toNat = word' p.toNat o.toNat) (previous : UInt64)
    (place count : Nat) (hplace : place + count ≤ 8) (h : f.source.Views frame s) :
    Matches (fun _ words f' s' => (f'.state.toList.take (place + count)).map UInt64.toNat =
          (f.state.toList.take place).map UInt64.toNat ++ words ∧ words.length = count ∧ f'.source.Views frame s')
      (fun f' s' => f'.source.Views frame s') (fill offsetWidth word previous place count f)
      (Chronicle.BitSource.pullEach offsetWidth.toNat word' previous.toNat count s) := by
  induction count generalizing previous place f s with
  | zero => exact .ok ⟨(List.append_nil _).symm, rfl, h⟩
  | succ count ih =>
    refine (matches_onBits_words (BitSource.matches_readBits _ hwidth h)).bind ?_
    rintro offset _ x t ⟨⟨rfl, -, ht⟩, hstate⟩
    have hlt : place < 8 := by omega
    rw [bind_of_eq (store_eq hlt _)]
    have hrest := ih (word previous offset) (place + 1)
      (f := ⟨Vector.set x.state place (word previous offset) hlt, x.reader, x.bytes⟩) (by omega) ht
    rw [hword] at hrest
    refine hrest.map_right ?_
    rintro _ words f' s' ⟨hwords, hlength, hs'⟩
    refine ⟨?_, congrArg Nat.succ hlength, hs'⟩
    rw [show place + (count + 1) = place + 1 + count by omega, hwords, Words.take_set, hstate, List.map_append, List.append_assoc,
      List.map_cons, hword]
    rfl

end Fill

end Feed

end Machine

end Chronicle
