/-
  Chronicle.Proofs.Stream.Feed — readings of bits and bytes as readings of a feed.

  What is known of a reading of bits is known of it as a reading of a feed: its state is not touched, and
  the bits that are unread are those of its reader and its bytes (`Feed.Stands`). The same is said for each
  way to know something of a reading: what it gives and leaves, what it keeps, and what parser it follows.
  A feed whose state is stored inside another one does the same on what is stored (`wrapped`).
-/

import Chronicle.Proofs.Wire.Parser
import Chronicle.Wire.BitReader

namespace Chronicle.Feed

open Reading

variable {σ τ α : Type}

def source (f : Feed σ) : BitSource := ⟨f.reader, f.bytes⟩

theorem onBits_of_eq {m : Reading BitSource α} {f : Feed σ} {a : α} {t : BitSource} (h : m f.source = .ok a t) :
    onBits m f = .ok a ⟨f.state, t.reader, t.bytes⟩ := by
  have h : m ⟨f.reader, f.bytes⟩ = .ok a t := h
  unfold onBits
  rw [h]

theorem ok_of_onBits {m : Reading BitSource α} {f g : Feed σ} {a : α} (h : onBits m f = .ok a g) :
    ∃ t, m f.source = .ok a t ∧ g = ⟨f.state, t.reader, t.bytes⟩ := by
  unfold onBits at h
  cases hm : m ⟨f.reader, f.bytes⟩ with
  | ok b t =>
    rw [hm] at h
    cases h
    exact ⟨t, hm, rfl⟩
  | error e t =>
    rw [hm] at h
    cases h

theorem onBits_of_error {m : Reading BitSource α} {f : Feed σ} {e : CodecError} {t : BitSource}
    (h : m f.source = .error e t) : onBits m f = .error e ⟨f.state, t.reader, t.bytes⟩ := by
  have h : m ⟨f.reader, f.bytes⟩ = .error e t := h
  unfold onBits
  rw [h]

theorem onBytes_of_eq {m : Reading Bytes α} {f : Feed σ} {a : α} {rest : Bytes} (h : m f.bytes = .ok a rest) :
    onBytes m f = .ok a ⟨f.state, f.reader, rest⟩ := by
  unfold onBytes
  rw [h]

theorem onBytes_of_error {m : Reading Bytes α} {f : Feed σ} {e : CodecError} {rest : Bytes}
    (h : m f.bytes = .error e rest) : onBytes m f = .error e ⟨f.state, f.reader, rest⟩ := by
  unfold onBytes
  rw [h]

theorem ok_of_onBytes {m : Reading Bytes α} {f g : Feed σ} {a : α} (h : onBytes m f = .ok a g) :
    ∃ rest, m f.bytes = .ok a rest ∧ g = ⟨f.state, f.reader, rest⟩ := by
  unfold onBytes at h
  cases hm : m f.bytes with
  | ok b rest =>
    rw [hm] at h
    cases h
    exact ⟨rest, rfl, rfl⟩
  | error e rest =>
    rw [hm] at h
    cases h

/-- A feed between two readings stands for the bits that it has still to give. -/
def Stands (refill : Refill) (f : Feed σ) (bits : List Bool) : Prop := f.source.Unread refill bits

theorem follows_onBits {refill : Refill} {m : Reading BitSource α} {p : Parser (List Bool) α}
    (h : Follows (BitParser.Stands refill) m p) : Follows (Stands (σ := σ) refill) (onBits m) p where
  ok := by
    intro f bits a rest hf hp
    obtain ⟨t, ht, hrest⟩ := h.ok hf hp
    exact ⟨_, onBits_of_eq ht, hrest⟩
  error := by
    intro f bits e hf hp
    obtain ⟨t, ht⟩ := h.error hf hp
    exact ⟨_, onBits_of_error ht⟩

/-- The state of a feed is no part of what it stands for. -/
theorem follows_setState (refill : Refill) (state : σ) : Follows (Stands refill) (setState state) (pure ()) where
  ok := by
    intro f bits a rest hf hp
    cases hp
    exact ⟨_, rfl, hf⟩
  error := by
    intro f bits e _ hp
    cases hp

def wrapped (wrap : τ → σ) (f : Feed τ) : Feed σ := ⟨wrap f.state, f.reader, f.bytes⟩

theorem within_of_eq (wrap : τ → σ) {m : Reading (Feed τ) α} {f g : Feed τ} {a : α} (h : m f = .ok a g) :
    within wrap f.state m (f.wrapped wrap) = .ok a (g.wrapped wrap) := by
  unfold within wrapped
  rw [h]

theorem within_of_error (wrap : τ → σ) {m : Reading (Feed τ) α} {f g : Feed τ} {e : CodecError} (h : m f = .error e g) :
    within wrap f.state m (f.wrapped wrap) = .error e (g.wrapped wrap) := by
  unfold within wrapped
  rw [h]

theorem ok_of_within {wrap : τ → σ} {inner : τ} {m : Reading (Feed τ) α} {f g : Feed σ} {a : α}
    (h : within wrap inner m f = .ok a g) :
    ∃ t, m ⟨inner, f.reader, f.bytes⟩ = .ok a t ∧ g = ⟨wrap t.state, t.reader, t.bytes⟩ := by
  unfold within at h
  cases hm : m ⟨inner, f.reader, f.bytes⟩ with
  | ok b t =>
    rw [hm] at h
    cases h
    exact ⟨t, rfl, rfl⟩
  | error e t =>
    rw [hm] at h
    cases h

end Chronicle.Feed
