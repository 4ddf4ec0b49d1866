/-
  Chronicle.Proofs.Stream.Extension — decoders whose bytes go on.

  Every reading of every codec is stable (`Stable`): with more bytes behind it, it has the same result, or
  fails with the same error, and leaves as much more; only where it has run out of bytes can it become
  something else. That is proved along the definition of each reading, as what is put together of stable
  readings is stable.

  So with more bytes behind it a decoder reads the same values, and meets the same faults, until it would
  have run out (`Decoder.stable_next`, `Decoder.run_grow`). More bytes are more to read from
  (`hasNext_grow`), which is the one thing that a decoder looks at beside its readings.
-/

import Chronicle.Proofs.Stream.Feed
import Chronicle.Proofs.Wire.Extension
import Chronicle.Stream.Decoder

namespace Chronicle

open Reading

namespace Feed

variable {σ τ α : Type} (extra : Bytes)

def grow (f : Feed σ) : Feed σ := { f with bytes := f.bytes ++ extra }

theorem stable_setState (state : σ) : Stable (grow extra) (setState state) := stable_modify fun _ => rfl

theorem stable_onBits {m : Reading BitSource α} (h : Stable (BitSource.grow extra) m) :
    Stable (grow (σ := σ) extra) (onBits m) := by
  refine ⟨?_, ?_⟩
  · intro f a g hf
    obtain ⟨t, ht, rfl⟩ := ok_of_onBits hf
    exact onBits_of_eq (f := f.grow extra) (h.ok ht)
  · intro f e g hf he
    unfold onBits at hf
    cases hm : m ⟨f.reader, f.bytes⟩ with
    | ok a t =>
      rw [hm] at hf
      cases hf
    | error fault t =>
      rw [hm] at hf
      cases hf
      have hgrown : m ⟨f.reader, f.bytes ++ extra⟩ = .error e (t.grow extra) := h.error hm he
      simp only [onBits, grow, hgrown, BitSource.grow]

theorem stable_onBytes {m : Reading Bytes α} (h : Stable (· ++ extra) m) : Stable (grow (σ := σ) extra) (onBytes m) := by
  refine ⟨?_, ?_⟩
  · intro f a g hf
    obtain ⟨rest, hrest, rfl⟩ := ok_of_onBytes hf
    exact onBytes_of_eq (h.ok hrest)
  · intro f e g hf he
    unfold onBytes at hf
    cases hm : m f.bytes with
    | ok a rest =>
      rw [hm] at hf
      cases hf
    | error fault rest =>
      rw [hm] at hf
      cases hf
      have hgrown : m (f.bytes ++ extra) = .error e (rest ++ extra) := h.error hm he
      simp only [onBytes, grow, hgrown]

theorem stable_within {wrap : τ → σ} {inner : τ} {m : Reading (Feed τ) α} (h : Stable (grow extra) m) :
    Stable (grow extra) (within wrap inner m) := by
  refine ⟨?_, ?_⟩
  · intro f a g hf
    obtain ⟨t, ht, rfl⟩ := ok_of_within hf
    exact within_of_eq wrap (h.ok ht)
  · intro f e g hf he
    unfold within at hf
    cases hm : m ⟨inner, f.reader, f.bytes⟩ with
    | ok a t =>
      rw [hm] at hf
      cases hf
    | error fault t =>
      rw [hm] at hf
      cases hf
      have hgrown : m ⟨inner, f.reader, f.bytes ++ extra⟩ = .error e (t.grow extra) := h.error hm he
      simp only [within, grow, hgrown]

end Feed

section Codecs

variable (extra : Bytes)

/-! ## PLAIN -/

namespace Plain

theorem stable_pullBool (fault : UInt8 → FormatFault) : Stable (· ++ extra) (pullBool fault) := by
  apply (Bytes.stable_pullByte extra).bind
  intro b
  split
  · exact stable_pure _
  · exact stable_pure _
  · exact stable_throw _

theorem stable_pullText : Stable (· ++ extra) pullText :=
  (Varint.stable_pull extra).bind fun n => Bytes.stable_pull extra n

theorem stable_pull (t : DataType) : Stable (· ++ extra) (pull t) := by
  rcases t with (_ | (_ | _ | _ | _)) | _
  · exact (stable_pullBool extra _).bind fun _ => stable_pure _
  · exact (Zigzag.stable_pull extra).bind fun _ => stable_pure _
  · exact (BigEndian.stable_pull extra).bind fun _ => stable_pure _
  · exact (BigEndian.stable_pull extra).bind fun _ => stable_pure _
  · exact (BigEndian.stable_pull extra).bind fun _ => stable_pure _
  · exact (stable_pullText extra).bind fun _ => stable_pure _

end Plain

open BitSource

/-! ## RLE -/

namespace RunLength

variable (width : Nat)

theorem stable_pullSegment : Stable (grow extra) (pullSegment width) := by
  apply (stable_align extra).bind
  intro _
  apply (stable_pullBit extra).bind
  intro isRun
  apply (stable_pullBits extra 31).bind
  intro length
  cases length with
  | zero => exact stable_throw _
  | succ more => exact .ite ((stable_pullBits extra width).bind fun _ => stable_pure _) (stable_pure _)

theorem stable_pullMember (base offsetWidth : Nat) : Stable (grow extra) (pullMember width base offsetWidth) :=
  (stable_pullBits extra offsetWidth).bind fun _ => stable_pure _

theorem stable_pullGroup (more : Nat) : Stable (grow extra) (pullGroup width more) := by
  apply (stable_pullBits extra 7).bind
  intro offsetWidth
  apply Stable.ite (stable_throw _)
  apply (stable_pullBits extra width).bind
  intro base
  have hmember := stable_pullMember extra width base offsetWidth
  exact hmember.bind fun _ => (hmember.times more).bind fun _ => stable_pure _

theorem stable_pending : Stable (Feed.grow extra) (pending width) := by
  refine Stable.get_bind ?_ ?_
  · intro f
    rfl
  · intro f
    split
    · exact stable_pure _
    · apply (Feed.stable_onBits extra (stable_pullSegment extra width)).bind
      intro p
      exact (Feed.stable_setState extra _).bind fun _ => stable_pure _

theorem stable_next : Stable (Feed.grow extra) (next width) := by
  apply (stable_pending extra width).bind
  intro p
  split
  · exact (Feed.stable_setState extra _).bind fun _ => stable_pure _
  · exact (Feed.stable_setState extra _).bind fun _ => stable_pure _
  · apply (Feed.stable_onBits extra (stable_pullGroup extra width _)).bind
    intro group
    exact (Feed.stable_setState extra _).bind fun _ => stable_pure _
  · exact (Feed.stable_setState extra _).bind fun _ => stable_pure _

end RunLength

/-! ## TS_2DIFF -/

namespace Delta

theorem stable_pullDomain (t : NumberType) : Stable (grow extra) (pullDomain t) := by
  refine Stable.ite ?_ (stable_pure _)
  apply (stable_pullBits extra 8).bind
  intro mode
  split
  · exact stable_pure _
  · apply (stable_pullBits extra 64).bind
    intro bits
    exact .ite (stable_pure _) (stable_throw _)
  · exact stable_throw _

theorem stable_pullWords (width base offsetWidth previous count : Nat) :
    Stable (grow extra) (pullWords width base offsetWidth previous count) := by
  induction count generalizing previous with
  | zero => exact stable_pure _
  | succ count ih => exact (stable_pullBits extra offsetWidth).bind fun _ => (ih _).bind fun _ => stable_pure _

theorem stable_pullBlock (width : Nat) : Stable (grow extra) (pullBlock width) := by
  apply (stable_align extra).bind
  intro _
  apply (stable_pullBits extra 4).bind
  intro count
  apply Stable.ite (stable_throw _)
  apply (stable_pullBits extra width).bind
  intro first
  apply Stable.ite (stable_pure _)
  apply (stable_pullBits extra width).bind
  intro base
  apply (stable_pullBits extra 7).bind
  intro offsetWidth
  apply Stable.ite (stable_throw _)
  exact (stable_pullWords extra width base offsetWidth first _).bind fun _ => stable_pure _

theorem stable_domain (t : NumberType) : Stable (Feed.grow extra) (domain t) := by
  refine Stable.get_bind ?_ ?_
  · intro f
    rfl
  · intro f
    split
    · exact stable_pure _
    · apply (Feed.stable_onBits extra (stable_pullDomain extra t)).bind
      intro d
      refine Stable.bind ?_ fun _ => stable_pure _
      exact stable_modify fun _ => rfl

theorem stable_next (t : NumberType) : Stable (Feed.grow extra) (next t) := by
  apply (stable_domain extra t).bind
  intro d
  have hlast (word : Nat) (rest : List Nat) : Stable (Feed.grow extra) (do
      Feed.setState { domain? := some d, ready := rest }
      return ofWord t d word : Reading (Feed State) Value) :=
    (Feed.stable_setState extra _).bind fun _ => stable_pure _
  refine Stable.get_bind ?_ ?_
  · intro f
    rfl
  · intro f
    split
    · exact hlast _ _
    · exact (Feed.stable_onBits extra (stable_pullBlock extra _)).bind fun block => hlast _ _

end Delta

/-! ## GORILLA -/

namespace Gorilla

variable (version : GorillaVersion) (width : Nat)

theorem stable_pullCount : Stable (· ++ extra) (pullCount version) := by
  have hlast (count : Nat) : Stable (· ++ extra) (do
      if count = 0 then throw (.malformed .zeroCount)
      return count : Reading Bytes Nat) :=
    .ite (stable_throw _) (stable_pure _)
  cases version with
  | v1 => exact (Bytes.stable_pullNat extra 4).bind hlast
  | v2 => exact (Varint.stable_pull extra).bind hlast

theorem stable_pullWindow : Stable (grow extra) (pullWindow version width) := by
  apply (stable_pullBits extra _).bind
  intro leading
  apply (stable_pullBits extra _).bind
  intro field
  exact .ite (stable_throw _) (stable_pure _)

theorem stable_pullDifference (window : Window) : Stable (grow extra) (pullDifference width window) :=
  (stable_pullBits extra _).bind fun _ => stable_pure _

theorem stable_pullFollowing (left previous : Nat) (window? : Option Window) :
    Stable (Feed.grow extra) (pullFollowing version width left previous window?) := by
  have hbit : Stable (Feed.grow (σ := State) extra) (Feed.onBits pullBit) :=
    Feed.stable_onBits extra (stable_pullBit extra)
  have hdifference (window : Window) : Stable (Feed.grow extra) (do
      return (previous ^^^ (← Feed.onBits (pullDifference width window)), some window) :
        Reading (Feed State) (Nat × Option Window)) :=
    (Feed.stable_onBits extra (stable_pullDifference extra width window)).bind fun _ => stable_pure _
  apply hbit.bind
  intro differs
  apply Stable.ite (stable_pure _)
  apply hbit.bind
  intro isFresh
  refine Stable.ite ?_ ?_
  · apply (Feed.stable_onBits extra (stable_pullWindow extra version width)).bind
    intro window
    exact (Feed.stable_setState extra _).bind fun _ => hdifference window
  · cases window? with
    | some window => exact hdifference window
    | none => exact stable_throw _

theorem stable_start : Stable (Feed.grow extra) (start version) := by
  refine Stable.get_bind ?_ ?_
  · intro f
    rfl
  · intro f
    split
    · apply (Feed.stable_onBytes extra (stable_pullCount extra version)).bind
      intro count
      exact Feed.stable_setState extra _
    · exact stable_pure _

theorem stable_next : Stable (Feed.grow extra) (next version width) := by
  apply (stable_start extra version).bind
  intro _
  refine Stable.get_bind ?_ ?_
  · intro f
    rfl
  · intro f
    split
    · apply (Feed.stable_onBits extra (stable_pullBits extra width)).bind
      intro value
      exact (Feed.stable_setState extra _).bind fun _ => stable_pure _
    · apply (stable_pullFollowing extra version width _ _ _).bind
      intro following
      exact (Feed.stable_setState extra _).bind fun _ => stable_pure _
    · exact stable_throw _

end Gorilla

end Codecs

/-! ## Any codec -/

namespace Decoder

variable (extra : Bytes)

theorem stable_next : Stable (Feed.grow extra) next := by
  refine Stable.get_bind ?_ ?_
  · intro d
    rfl
  · intro d
    split
    · exact Feed.stable_onBytes extra (Plain.stable_pull extra _)
    · exact (Feed.stable_within extra (RunLength.stable_next extra _)).bind fun _ => stable_pure _
    · exact Feed.stable_within extra (Delta.stable_next extra _)
    · exact (Feed.stable_within extra (Gorilla.stable_next extra _ _)).bind fun _ => stable_pure _

/-- More bytes are more to read from. -/
theorem hasNext_grow {d : Decoder} (h : d.hasNext = true) : hasNext (d.grow extra) = true := by
  have hbytes : (!d.bytes.isEmpty) = true → (!(d.bytes ++ extra).isEmpty) = true := by
    cases d.bytes <;> simp
  rcases d with ⟨t | ⟨t, s⟩ | ⟨t, s⟩ | ⟨version, t, s⟩, reader, bytes⟩
  · exact hbytes h
  · exact (Bool.or_eq_true ..).mpr (((Bool.or_eq_true ..).mp h).imp_right hbytes)
  · exact (Bool.or_eq_true ..).mpr (((Bool.or_eq_true ..).mp h).imp_right hbytes)
  · cases s with
    | start => exact hbytes h
    | counted left => exact h
    | following left previous window? => exact h

/-- A run goes the same way with more bytes behind it. -/
theorem run_grow {d d' : Decoder} {values : List Value} (h : Run next hasNext d values d') :
    Run next hasNext (d.grow extra) values (d'.grow extra) :=
  h.of_stable (stable_next extra) fun _ => hasNext_grow extra

end Decoder

end Chronicle
