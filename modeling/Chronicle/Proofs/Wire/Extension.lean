/-
  Chronicle.Proofs.Wire.Extension — readings of a source that goes on.

  More bytes behind a source do not change what a reading makes of the ones it had (`Stable`): a result
  stays the same, with the new bytes behind what is left, and so does an error, unless it is the one that
  says that the source ended too early. Whatever is put together of such readings is such a reading, so it
  is proved of a decoder along its definition; a step that looks at how much is left would break it, and
  may only look at what does not grow (`Stable.get_bind`).

  From the other side: what takes a whole byte string runs out of bytes on all that have lost their end
  (`Reading.underflow_of_cut`), since with the bytes that are missing it would have gone on.
-/

import Chronicle.Proofs.Wire.Reading
import Chronicle.Wire.Bytes
import Chronicle.Wire.BitReader
import Chronicle.Wire.Varint

namespace Chronicle

namespace Reading

variable {σ α β : Type}

/-- Where the source has grown, the reading has the same outcome and leaves as much more.
    Only an underflow may become something else. -/
structure Stable (grow : σ → σ) (m : Reading σ α) : Prop where
  ok : ∀ {s a t}, m s = .ok a t → m (grow s) = .ok a (grow t)
  error : ∀ {s e t}, m s = .error e t → e ≠ .underflow → m (grow s) = .error e (grow t)

variable {grow : σ → σ} {m : Reading σ α} {f : α → Reading σ β}

theorem stable_pure (a : α) : Stable grow (pure a) := by
  refine ⟨?_, ?_⟩
  · intro s b t h
    cases h
    rfl
  · intro s e t h
    cases h

theorem stable_throw (e : CodecError) : Stable grow (throw e : Reading σ α) := by
  refine ⟨?_, ?_⟩
  · intro s b t h
    cases h
  · intro s fault t h _
    cases h
    rfl

theorem Stable.bind (hm : Stable grow m) (hf : ∀ a, Stable grow (f a)) : Stable grow (m >>= f) := by
  refine ⟨?_, ?_⟩
  · intro s b u h
    obtain ⟨a, t, ha, hb⟩ := ok_of_bind h
    rw [bind_of_eq (hm.ok ha), (hf a).ok hb]
  · intro s e u h he
    cases hs : m s with
    | ok a t =>
      rw [bind_of_eq hs] at h
      rw [bind_of_eq (hm.ok hs), (hf a).error h he]
    | error fault t =>
      rw [bind_of_error hs] at h
      cases h
      exact bind_of_error (hm.error hs he)

theorem Stable.ite {c : Prop} [Decidable c] {m' : Reading σ α} (h : Stable grow m) (h' : Stable grow m') :
    Stable grow (if c then m else m') := by
  split
  · exact h
  · exact h'

/-- A reading may look at the part of its source that does not grow. -/
theorem Stable.get_bind {f : σ → Reading σ β} (hsame : ∀ s, f (grow s) = f s) (hf : ∀ s, Stable grow (f s)) :
    Stable grow (get >>= f) := by
  refine ⟨?_, ?_⟩
  · intro s b t h
    rw [Chronicle.get_bind] at h ⊢
    rw [hsame]
    exact (hf s).ok h
  · intro s e t h he
    rw [Chronicle.get_bind] at h ⊢
    rw [hsame]
    exact (hf s).error h he

theorem stable_modify {g : σ → σ} (hg : ∀ s, g (grow s) = grow (g s)) :
    Stable grow (modify g : Reading σ Unit) := by
  refine ⟨?_, ?_⟩
  · intro s _ t h
    cases h
    show EStateM.Result.ok _ (g (grow s)) = _
    rw [hg]
  · intro s e t h
    cases h

theorem stable_ofExcept (a : Except CodecError α) : Stable grow (ofExcept a) := by
  cases a with
  | ok a => exact stable_pure a
  | error e => exact stable_throw e

theorem Stable.discard (h : Stable grow m) : Stable grow (discard m) :=
  h.bind fun _ => stable_pure ()

theorem Stable.times (h : Stable grow m) (count : Nat) : Stable grow (m.times count) := by
  induction count with
  | zero => exact stable_pure _
  | succ count ih => exact h.bind fun _ => ih.bind fun _ => stable_pure _

/-- A run goes the same way where its source has grown, if there is no less to read. -/
theorem Run.of_stable {more : σ → Bool} {s t : σ} {items : List α} (hm : Stable grow m)
    (hmore : ∀ s, more s = true → more (grow s) = true) (h : Run m more s items t) :
    Run m more (grow s) items (grow t) := by
  have h := h.map (n := m) grow id hmore fun _ _ _ => hm.ok
  rwa [List.map_id] at h

end Reading

open Reading

/-! ## Bytes -/

section Bytes

variable (extra : Bytes)

/-- What takes a whole byte string runs out of bytes on all that have lost their end. -/
theorem Reading.underflow_of_cut {α : Type} {m : Reading Bytes α} {cut missing : Bytes} {a : α}
    (hm : Stable (· ++ missing) m) (h : m (cut ++ missing) = .ok a []) (hmissing : missing ≠ []) :
    ∃ left, m cut = .error .underflow left := by
  cases hcut : m cut with
  | ok b left =>
    have hwhole : m (cut ++ missing) = .ok b (left ++ missing) := hm.ok hcut
    rw [h] at hwhole
    injection hwhole with _ hleft
    exact absurd (List.append_eq_nil_iff.1 hleft.symm).2 hmissing
  | error e left =>
    by_cases he : e = .underflow
    · exact ⟨left, by rw [he]⟩
    · have hwhole : m (cut ++ missing) = .error e (left ++ missing) := hm.error hcut he
      rw [h] at hwhole
      cases hwhole

theorem Bytes.stable_need (count : Nat) : Stable (· ++ extra) (need count) := by
  refine ⟨?_, ?_⟩
  · intro bytes _ rest h
    unfold need at h ⊢
    by_cases hc : count ≤ bytes.length
    · rw [if_pos hc] at h
      cases h
      exact if_pos (Nat.le_trans hc (by simp))
    · rw [if_neg hc] at h
      cases h
  · intro bytes e rest h he
    unfold need at h
    split at h
    · cases h
    · cases h
      exact absurd rfl he

theorem Bytes.stable_pullByte : Stable (· ++ extra) pullByte := by
  refine ⟨?_, ?_⟩
  · intro bytes b rest h
    cases bytes with
    | nil => cases h
    | cons x bytes =>
      cases h
      rfl
  · intro bytes e rest h he
    cases bytes with
    | nil =>
      cases h
      exact absurd rfl he
    | cons x bytes => cases h

theorem Bytes.stable_pull (count : Nat) : Stable (· ++ extra) (pull count) := by
  refine ⟨?_, ?_⟩
  · intro bytes taken rest h
    unfold pull at h ⊢
    by_cases hc : count ≤ bytes.length
    · rw [if_pos hc] at h
      cases h
      rw [if_pos (Nat.le_trans hc (by simp)), List.take_append_of_le_length hc, List.drop_append_of_le_length hc]
    · rw [if_neg hc] at h
      cases h
  · intro bytes e rest h he
    unfold pull at h
    split at h
    · cases h
    · cases h
      exact absurd rfl he

theorem Bytes.stable_pullNat (count : Nat) : Stable (· ++ extra) (pullNat count) :=
  (stable_pull extra count).bind fun _ => stable_pure _

theorem BigEndian.stable_pull {α : Type} [BigEndian α] : Stable (· ++ extra) (pull (α := α)) :=
  (Bytes.stable_pullNat extra _).bind fun _ => stable_pure _

theorem Varint.stable_pullWithin (more : Nat) : Stable (· ++ extra) (pullWithin more) := by
  induction more with
  | zero =>
    apply (Bytes.stable_pullByte extra).bind
    intro b
    exact .ite (stable_throw _) (stable_pure _)
  | succ more ih =>
    apply (Bytes.stable_pullByte extra).bind
    intro b
    exact .ite (stable_pure _) (ih.bind fun _ => stable_pure _)

theorem Varint.stable_pull : Stable (· ++ extra) pull := stable_pullWithin extra 9

theorem Varint.stable_pull32 : Stable (· ++ extra) pull32 := by
  apply (stable_pull extra).bind
  intro n
  exact .ite (stable_throw _) (stable_pure _)

theorem Zigzag.stable_pull : Stable (· ++ extra) pull :=
  (Varint.stable_pull32 extra).bind fun _ => stable_pure _

end Bytes

/-! ## Bits -/

namespace BitSource

def grow (extra : Bytes) (s : BitSource) : BitSource := { s with bytes := s.bytes ++ extra }

variable (extra : Bytes)

theorem stable_fill : Stable (grow extra) fill := by
  refine ⟨?_, ?_⟩
  · rintro ⟨⟨refill, byte, left⟩, bytes⟩ _ t h
    cases left with
    | succ left =>
      cases h
      rfl
    | zero =>
      cases bytes with
      | nil => cases h
      | cons b bytes =>
        cases h
        rfl
  · rintro ⟨⟨refill, byte, left⟩, bytes⟩ e t h he
    cases left with
    | succ left => cases h
    | zero =>
      cases bytes with
      | nil =>
        cases h
        exact absurd rfl he
      | cons b bytes => cases h

theorem stable_takeBit : Stable (grow extra) takeBit := by
  refine ⟨?_, ?_⟩
  · intro s bit t h
    cases h
    rfl
  · intro s e t h
    cases h

theorem stable_pullBit : Stable (grow extra) pullBit := by
  apply (stable_fill extra).bind
  intro _
  apply (stable_takeBit extra).bind
  intro bit
  refine Stable.get_bind ?_ ?_
  · intro s
    rfl
  · intro s
    exact .ite ((stable_fill extra).bind fun _ => stable_pure _) (stable_pure _)

theorem stable_pullBits (count : Nat) : Stable (grow extra) (pullBits count) := by
  induction count with
  | zero => exact stable_pure _
  | succ count ih => exact (stable_pullBit extra).bind fun _ => ih.bind fun _ => stable_pure _

theorem stable_align : Stable (grow extra) align := stable_modify fun _ => rfl

end BitSource

end Chronicle
