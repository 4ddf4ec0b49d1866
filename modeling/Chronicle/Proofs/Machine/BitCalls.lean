/-
  Chronicle.Proofs.Machine.BitCalls — calls on a reader that takes its bits in pieces.

  (1) Whatever has been called, a reader has no more than eight unread bits (`Reachable.left_le`), so any
  further calls are answered as without words (`matches_answers`), and none of them is trapped.

  (2) What is known of single bits then holds of machine words: which bits a number needs under either refill,
  and what is left of them (`Takes`). A number of no bits needs none, also from an eager reader that has
  nothing.

  (3) Both refills read the same as long as a bit is left (`AnswerAlike`). `reader_is_list_of_bits` says all of
  this of a reader that any calls led to, on any bytes.
-/

import Chronicle.Proofs.Machine.BitReader
import Chronicle.Proofs.Wire.BitCalls

namespace Chronicle.Machine

open Chronicle.BitSource (Call)

namespace BitSource

variable {frame : Frame} {s : BitSource} {s' : Chronicle.BitSource}

/-! ## One call and many -/

/-- A byte makes room for a bit, and the first one falls out. -/
theorem toNat_shift_one (code : UInt8) : (code <<< 1).toNat = 2 * code.toNat % 256 := by
  rw [UInt8.toNat_shiftLeft, Nat.shiftLeft_eq]
  show code.toNat * 2 % 256 = _
  rw [Nat.mul_comm]

theorem toNat_shift_or_one (code : UInt8) : (code <<< 1 ||| 1).toNat = (2 * code.toNat + 1) % 256 := by
  have hshift : (code <<< 1).toNat = (code.toNat % 128) <<< 1 := by
    rw [toNat_shift_one, Nat.shiftLeft_eq]
    omega
  rw [UInt8.toNat_or, hshift, UInt8.toNat_one, ← Nat.shiftLeft_add_eq_or_of_lt (by decide), Nat.shiftLeft_eq]
  omega

theorem matches_readToClearBit (code : UInt8) (limit : Nat) (h : Views frame s s') :
    Matches (fun n n' t t' => n.toNat = n' ∧ Views frame t t') (Views frame) (readToClearBit code limit s)
      (Chronicle.BitSource.pullToClearBit code.toNat limit s') := by
  induction limit generalizing code s s' with
  | zero => exact .ok ⟨rfl, h⟩
  | succ limit ih =>
    refine (matches_readBit h).bind ?_
    rintro bit _ t t' ⟨rfl, ht⟩
    cases bit with
    | true =>
      have hrest := ih (code <<< 1 ||| 1) ht
      rw [toNat_shift_or_one] at hrest
      exact hrest
    | false => exact .ok ⟨toNat_shift_one code, ht⟩

theorem matches_call (c : Call) (h : Views frame s s') :
    Matches (fun n n' t t' => n.toNat = n' ∧ Views frame t t') (Views frame) (call c s) (Chronicle.BitSource.call c s') := by
  cases c with
  | bit =>
    refine (matches_readBit h).map ?_
    rintro bit _ t t' ⟨rfl, ht⟩
    exact ⟨by cases bit <;> rfl, ht⟩
  | bits count hcount =>
    refine (matches_readBits count (UInt8.le_iff_toNat_le.mp hcount) h).mono ?_ fun _ _ => id
    rintro n n' t t' ⟨hn, -, ht⟩
    exact ⟨hn, ht⟩
  | toClearBit limit =>
    refine (matches_readToClearBit 0 limit.toNat h).bind_left ?_
    rintro n n' t t' ⟨hn, ht⟩
    exact ⟨n.toUInt64, t, rfl, (UInt8.toNat_toUInt64 n).trans hn, ht⟩

theorem matches_answers (calls : List Call) (h : Views frame s s') :
    Matches (fun values numbers t t' => values.map UInt64.toNat = numbers ∧ Views frame t t') (Views frame)
      (answers calls s) (Chronicle.BitSource.answers calls s') := by
  induction calls generalizing s s' with
  | nil => exact .ok ⟨rfl, h⟩
  | cons c calls ih =>
    refine (matches_call c h).bind ?_
    rintro n _ t t' ⟨rfl, ht⟩
    refine (ih ht).map ?_
    rintro values _ u u' ⟨rfl, hu⟩
    exact ⟨rfl, hu⟩

end BitSource

/-! ## Readers that calls lead to -/

namespace BitReader

/-- The readers that calls lead to, each call on any bytes, whether it succeeds or fails. -/
inductive Reachable : BitReader → Prop
  | new (refill : Refill) : Reachable { refill := refill }
  | call {r : BitReader} {bytes : Bytes} {c : Call} {outcome : Except CodecError UInt64} {s : BitSource} : Reachable r →
      Guarded.answer (BitSource.call c ⟨r, bytes⟩) = .ok (outcome, s) → Reachable s.reader
  | align {r : BitReader} : Reachable r → Reachable r.align
  | reset {r : BitReader} : Reachable r → Reachable r.reset

variable {r : BitReader}

theorem Reachable.left_le (h : r.Reachable) : r.left.toNat ≤ 8 := by
  induction h with
  | new refill => exact Nat.zero_le 8
  | @call r bytes c outcome s _ hcall ih =>
    have hviews : BitSource.Views ⟨r.refill, bytes.length⟩ ⟨r, bytes⟩ (BitSource.view ⟨r, bytes⟩) :=
      ⟨ih, rfl, Nat.le_refl _, rfl⟩
    have hmatches := (BitSource.matches_call c hviews).mono (fun _ _ _ _ h => h.2) fun _ _ h => h
    exact (hmatches.of_answer hcall).left_le
  | align | reset => exact Nat.zero_le 8

theorem Reachable.views (h : r.Reachable) (bytes : Bytes) :
    BitSource.Views ⟨r.refill, bytes.length⟩ ⟨r, bytes⟩ (BitSource.view ⟨r, bytes⟩) :=
  ⟨h.left_le, rfl, Nat.le_refl _, rfl⟩

end BitReader

namespace BitSource

/-! ## How many bits a number needs -/

/-- From `needed` bits on, a number of `count` bits is read, and the others are left. With fewer
    bits there is an error, and nothing is left. -/
structure Takes (s : BitSource) (count : UInt8) (needed : Nat) : Prop where
  enough : needed ≤ s.toBits.length → ∃ n t, readBits count s = .ok n t ∧
    n.toNat = numberOf (s.toBits.take count.toNat) ∧ t.toBits = s.toBits.drop count.toNat ∧ t.reader.refill = s.reader.refill
  short : s.toBits.length < needed → ∃ t, readBits count s = .error (.failed .underflow) t ∧ t.reader.left = 0 ∧ t.bytes = []

/-- The bits in view are the bits. -/
theorem toBits_view (s : BitSource) : s.view.toBits = s.toBits := rfl

theorem takes_of_views (h : Views frame s s.view) {count : UInt8} (hpos : 1 ≤ count) (hcount : count ≤ 64) :
    Takes s count (count.toNat + s.reader.refill.ahead) where
  enough henough := by
    obtain ⟨t', ht', hunread⟩ :=
      Chronicle.BitSource.pullBits_of_enough (s := s.view) (UInt8.le_iff_toNat_le.mp hpos) h.left_le henough
    have hmatches := matches_readBits count (UInt8.le_iff_toNat_le.mp hcount) h
    rw [ht'] at hmatches
    obtain ⟨n, t, hread, hn, -, ht⟩ := hmatches.exists_ok
    refine ⟨n, t, hread, hn, ?_, ht.refill_eq.trans h.refill_eq.symm⟩
    rw [← toBits_view, ← ht.view_eq]
    exact hunread.toBits_eq
  short hshort := by
    obtain ⟨t', ht'⟩ :=
      Chronicle.BitSource.pullBits_of_short (s := s.view) (UInt8.le_iff_toNat_le.mp hpos) h.left_le hshort
    have hspent := Chronicle.BitSource.spends_pullBits _ _ _ _ ht'
    have hmatches := matches_readBits count (UInt8.le_iff_toNat_le.mp hcount) h
    rw [ht'] at hmatches
    obtain ⟨t, hread, ht⟩ := hmatches.exists_error
    rw [ht.view_eq] at hspent
    exact ⟨t, hread, UInt8.toNat_inj.mp hspent.left_eq, hspent.bytes_eq⟩

/-- No bits are read from whatever there is. -/
theorem takes_zero (s : BitSource) : Takes s 0 0 where
  enough _ := ⟨0, s, rfl, rfl, rfl, rfl⟩
  short h := absurd h (Nat.not_lt_zero _)

/-! ## One bit as a number, and either refill -/

theorem view_injective {s t : BitSource} (h : s.view = t.view) : s = t := by
  rcases s with ⟨⟨refill, byte, left⟩, bytes⟩
  rcases t with ⟨⟨refill', byte', left'⟩, bytes'⟩
  simp only [view, BitReader.view, Chronicle.BitSource.mk.injEq, Chronicle.BitReader.mk.injEq, UInt8.toNat_inj] at h
  obtain ⟨⟨rfl, rfl, rfl⟩, rfl⟩ := h
  rfl

/-- Outcomes that stand for the same one are the same. -/
theorem eq_of_matches {r u : EStateM.Result Halt BitSource UInt64} {r' : EStateM.Result CodecError Chronicle.BitSource Nat}
    (h : Matches (fun n n' t t' => n.toNat = n' ∧ Views frame t t') (Views frame) r r')
    (h' : Matches (fun n n' t t' => n.toNat = n' ∧ Views frame t t') (Views frame) u r') : r = u := by
  cases h with
  | ok h =>
    obtain ⟨n, t, rfl, hn, ht⟩ := h'.exists_ok
    rw [UInt64.toNat_inj.mp (h.1.trans hn.symm), view_injective (h.2.view_eq.symm.trans ht.view_eq)]
  | error h =>
    obtain ⟨t, rfl, ht⟩ := h'.exists_error
    rw [view_injective (h.view_eq.symm.trans ht.view_eq)]

theorem readBits_one (h : Views frame s s') : readBits 1 s = (do return (← readBit).toUInt64) s := by
  have hbit := matches_call .bit h
  rw [← Chronicle.BitSource.call_bits_one (by decide)] at hbit
  exact eq_of_matches (matches_call (.bits 1 (by decide)) h) hbit

/-- What the lazy source answers the eager one answers as long as a bit is left, and the other way
    round in any case. -/
structure AnswerAlike (lazy eager : BitSource) (calls : List Call) : Prop where
  eager_of_lazy {values : List UInt64} {t : BitSource} : answers calls lazy = .ok values t → t.toBits ≠ [] →
    ∃ u, answers calls eager = .ok values u ∧ u.toBits = t.toBits
  lazy_of_eager {values : List UInt64} {u : BitSource} : answers calls eager = .ok values u →
    ∃ t, answers calls lazy = .ok values t ∧ t.toBits = u.toBits

/-- What is answered on words is answered without them, and what is left is the same. -/
theorem answers_ok_iff (h : Views frame s s') {calls : List Call} {values : List UInt64} {bits : List Bool} :
    (∃ t, answers calls s = .ok values t ∧ t.toBits = bits) ↔
      ∃ t', Chronicle.BitSource.answers calls s' = .ok (values.map UInt64.toNat) t' ∧ t'.toBits = bits := by
  have hmatches := matches_answers calls h
  constructor
  · rintro ⟨t, hrun, rfl⟩
    rw [hrun] at hmatches
    obtain ⟨_, t', hplain, rfl, ht⟩ := hmatches.exists_ok_right
    exact ⟨t', hplain, by rw [ht.view_eq, toBits_view]⟩
  · rintro ⟨t', hplain, rfl⟩
    rw [hplain] at hmatches
    obtain ⟨others, t, hrun, hvalues, ht⟩ := hmatches.exists_ok
    rw [List.map_inj_right fun _ _ => UInt64.toNat_inj.mp] at hvalues
    subst hvalues
    exact ⟨t, hrun, by rw [ht.view_eq, toBits_view]⟩

theorem answerAlike_of_beside {lazyFrame eagerFrame : Frame} {lazy eager : BitSource} (hlazy : Views lazyFrame lazy lazy.view)
    (heager : Views eagerFrame eager eager.view) (h : Chronicle.BitSource.Beside lazy.view eager.view) (calls : List Call) :
    AnswerAlike lazy eager calls where
  eager_of_lazy {values t} hrun hmore := by
    obtain ⟨t', hplain, ht⟩ := (answers_ok_iff hlazy).mp ⟨t, hrun, rfl⟩
    obtain ⟨u', hplain', hbeside⟩ := (Chronicle.BitSource.agrees_answers calls).eager_of_lazy h hplain (ht ▸ hmore)
    exact (answers_ok_iff heager).mpr ⟨u', hplain', hbeside.toBits_eq.symm.trans ht⟩
  lazy_of_eager {values u} hrun := by
    obtain ⟨u', hplain, hu⟩ := (answers_ok_iff heager).mp ⟨u, hrun, rfl⟩
    obtain ⟨t', hplain', hbeside⟩ := (Chronicle.BitSource.agrees_answers calls).lazy_of_eager h hplain
    exact (answers_ok_iff hlazy).mpr ⟨t', hplain', hbeside.toBits_eq.trans hu⟩

/-- A reader that calls led to, on any bytes, is a list of bits. A lazy one reads as many as there
    are, an eager one leaves one at least; beyond that there is an error and nothing is left. A
    single bit is a number of one bit. As long as a bit is left both read the same, whatever is
    called, and on words any calls are answered as without them. -/
theorem reader_is_list_of_bits {r : BitReader} (hr : r.Reachable) (bytes : Bytes) :
    (r.refill = .onDemand → ∀ count, count ≤ 64 → Takes ⟨r, bytes⟩ count count.toNat) ∧
    (r.refill = .eager → ∀ count, 1 ≤ count → count ≤ 64 → Takes ⟨r, bytes⟩ count (count.toNat + 1)) ∧
    readBits 1 ⟨r, bytes⟩ = (do return (← readBit).toUInt64) ⟨r, bytes⟩ ∧
    (r.refill = .onDemand → ∀ eager : BitSource, eager.reader.Reachable → eager.reader.refill = .eager →
      eager.toBits = toBits ⟨r, bytes⟩ → ∀ calls, AnswerAlike ⟨r, bytes⟩ eager calls) ∧
    ∀ calls, Matches (fun values numbers t t' => values.map UInt64.toNat = numbers ∧ t' = t.view) (fun t t' => t' = t.view)
      (answers calls ⟨r, bytes⟩) (Chronicle.BitSource.answers calls (view ⟨r, bytes⟩)) := by
  have hviews := hr.views bytes
  refine ⟨fun hlazy count hcount => ?_, fun heager count hpos hcount => ?_, readBits_one hviews, ?_, fun calls => ?_⟩
  · by_cases hzero : count = 0
    · subst hzero
      exact takes_zero _
    · have hpos : 1 ≤ count := UInt8.le_iff_toNat_le.mpr (Nat.pos_of_ne_zero fun h => hzero (UInt8.toNat_inj.mp h))
      have htakes := takes_of_views hviews hpos hcount
      rwa [hlazy] at htakes
  · have htakes := takes_of_views hviews hpos hcount
    rwa [heager] at htakes
  · intro hlazy eager hreachable heager hbits calls
    exact answerAlike_of_beside hviews (hreachable.views eager.bytes)
      ⟨hlazy, heager, hr.left_le, hreachable.left_le, hbits.symm⟩ calls
  · exact (matches_answers calls hviews).mono (fun _ _ _ _ h => ⟨h.1, h.2.view_eq⟩) fun _ _ h => h.view_eq

/-- An eager reader gives seven bits of a byte, and not the eighth one. -/
theorem reader_is_list_of_bits_eager :
    (∃ n t, readBits 7 ⟨{ refill := .eager }, [0xA5]⟩ = .ok n t ∧ n.toNat = 0x52 ∧ t.toBits = [true]) ∧
    ∃ t, readBits 8 ⟨{ refill := .eager }, [0xA5]⟩ = .error (.failed .underflow) t ∧ t.reader.left = 0 ∧ t.bytes = [] := by
  have htakes := (reader_is_list_of_bits (.new .eager) [0xA5]).2.1 rfl
  obtain ⟨n, t, hread, hn, ht, -⟩ := (htakes 7 (by decide) (by decide)).enough (by decide)
  exact ⟨⟨n, t, hread, hn, ht⟩, (htakes 8 (by decide) (by decide)).short (by decide)⟩

end BitSource

end Chronicle.Machine
