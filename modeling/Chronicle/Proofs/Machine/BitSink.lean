/-
  Chronicle.Proofs.Machine.BitSink — words written in pieces are lists of bits.

  Between two calls the free bits of the current byte are zeros, and there is one at least (`Holds`). So a piece
  is added to the byte by setting its bits (`Packed.set`), no difference of counts is below zero, no shift is
  too long, and as many rounds as bits are enough: every round fills the byte or is the last one
  (`holds_writePieces`). A piece is cut out of its word by a shift and a mask, whatever bits the word has above.

  To its caller the sink is a list of bits, as the writer without words is (`sink_is_list_of_bits`). This holds of
  any calls in any order, the bytes being taken out among them.
-/

import Chronicle.Machine.BitSink
import Chronicle.Proofs.Machine.Guarded
import Chronicle.Proofs.Wire.BitCalls

namespace Chronicle

namespace Machine.BitSink

open BitWriter (Call Answer)
open Guarded (minus_eq shiftLeft8_eq shiftRight64_eq lowBits8_eq require_eq)

variable {w : BitSink} {bits : List Bool}

/-- Some bits have been written, and the free bits of the current byte are zeros. -/
structure Packed (w : BitSink) (bits : List Bool) : Prop where
  free_le : w.free.toNat ≤ 8
  dvd : 2 ^ w.free.toNat ∣ w.byte.toNat
  bits_eq : Bytes.toBits w.full.toList ++ bitsOf (8 - w.free.toNat) (w.byte.toNat / 2 ^ w.free.toNat) = bits

/-- Between two calls the current byte is not full. -/
structure Holds (w : BitSink) (bits : List Bool) : Prop extends Packed w bits where
  free_pos : 0 < w.free.toNat

theorem holds_empty : Holds empty [] where
  free_le := Nat.le_refl 8
  dvd := Nat.dvd_zero _
  bits_eq := rfl
  free_pos := Nat.succ_pos 7

/-! ## Pieces -/

/-- A piece that is set at the upper end of the free bits comes behind the bits that are there. -/
theorem Packed.set (h : Packed w bits) (piece : UInt8) {free : UInt8} {count n : Nat} (hfree : w.free.toNat = count + free.toNat)
    (hn : n < 2 ^ count) (hpiece : piece.toNat = n * 2 ^ free.toNat) :
    Packed ((w.setBits piece).setFree free) (bits ++ bitsOf count n) := by
  obtain ⟨high, hhigh⟩ := h.dvd
  have hle := h.free_le
  have hlow : n * 2 ^ free.toNat < 2 ^ w.free.toNat := by
    rw [hfree, Nat.pow_add]
    exact Nat.mul_lt_mul_of_pos_right hn (Nat.two_pow_pos _)
  have hbyte : (w.byte ||| piece).toNat = (high * 2 ^ count + n) * 2 ^ free.toNat := by
    rw [UInt8.toNat_or, hhigh, hpiece, Nat.mul_comm, ← Nat.shiftLeft_eq high, ← Nat.shiftLeft_add_eq_or_of_lt hlow,
      Nat.shiftLeft_eq, hfree, Nat.pow_add, Nat.add_mul, Nat.mul_assoc]
  have hdiv : w.byte.toNat / 2 ^ w.free.toNat = high := by
    rw [hhigh, Nat.mul_div_cancel_left _ (Nat.two_pow_pos _)]
  have hlast : (high * 2 ^ count + n) / 2 ^ count = high := by
    rw [Nat.mul_comm, Nat.mul_add_div (Nat.two_pow_pos _), Nat.div_eq_of_lt hn, Nat.add_zero]
  have hmod : (high * 2 ^ count + n) % 2 ^ count = n := by
    rw [Nat.mul_comm, Nat.mul_add_mod, Nat.mod_eq_of_lt hn]
  have hroom : 8 - free.toNat = 8 - w.free.toNat + count := by omega
  refine ⟨by show free.toNat ≤ 8; omega, ?_, ?_⟩
  · show 2 ^ free.toNat ∣ (w.byte ||| piece).toNat
    rw [hbyte]
    exact Nat.dvd_mul_left _ _
  · show Bytes.toBits w.full.toList ++ bitsOf (8 - free.toNat) ((w.byte ||| piece).toNat / 2 ^ free.toNat) = _
    rw [hbyte, Nat.mul_div_cancel _ (Nat.two_pow_pos _), hroom, bitsOf_add, hlast,
      ← bitsOf_mod (Nat.le_refl count) (high * 2 ^ count + n), hmod, ← h.bits_eq, hdiv, List.append_assoc]

/-- Free bits that are passed over are zeros. -/
theorem Packed.setFree (h : Packed w bits) {free : UInt8} {count : Nat} (hfree : w.free.toNat = count + free.toNat) :
    Packed (w.setFree free) (bits ++ List.replicate count false) := by
  have hset := h.set 0 hfree (Nat.two_pow_pos count) (Nat.zero_mul _).symm
  have hsame : w.setBits 0 = w := by
    rw [setBits, UInt8.or_zero]
  rwa [hsame, bitsOf_zero_right] at hset

theorem Packed.flip (h : Packed w bits) : Holds w.flip bits := by
  unfold BitSink.flip
  by_cases hfull : w.free = 0
  · rw [if_pos hfull]
    refine ⟨⟨Nat.le_refl 8, Nat.dvd_zero _, ?_⟩, Nat.succ_pos 7⟩
    have hbits := h.bits_eq
    rw [hfull] at hbits
    rw [← hbits, Array.toList_push, Bytes.toBits_append, Bytes.toBits_cons, Bytes.toBits_nil]
    simp
  · rw [if_neg hfull]
    exact ⟨h, Nat.pos_of_ne_zero fun hzero => hfull (UInt8.toNat_inj.mp hzero)⟩

/-! ## Bits and words -/

theorem toNat_shiftLeft8 {a places : UInt8} (hplaces : places.toNat < 8) (hroom : a.toNat * 2 ^ places.toNat < 2 ^ 8) :
    (a <<< places).toNat = a.toNat * 2 ^ places.toNat := by
  rw [UInt8.toNat_shiftLeft, Nat.mod_eq_of_lt hplaces, Nat.shiftLeft_eq, Nat.mod_eq_of_lt hroom]

theorem holds_writeBit (h : Holds w bits) (b : Bool) : ∃ t, writeBit b w = .ok () t ∧ Holds t (bits ++ [b]) := by
  have hone : (1 : UInt8) ≤ w.free := UInt8.le_iff_toNat_le.mpr h.free_pos
  have hfree : w.free.toNat = 1 + (w.free - 1).toNat := by
    rw [UInt8.toNat_sub_of_le _ _ hone, UInt8.toNat_one]
    have := h.free_pos
    omega
  have hplaces : (w.free - 1).toNat < 8 := by
    have := h.free_le
    omega
  unfold writeBit
  rw [get_bind]
  cases b with
  | false =>
    refine ⟨_, ?_, (h.toPacked.setFree hfree).flip⟩
    show (Guarded.minus w.free 1 >>= _ : Guarded BitSink Unit) w = _
    rw [bind_of_eq (minus_eq hone)]
    rfl
  | true =>
    have hpiece : ((1 : UInt8) <<< (w.free - 1)).toNat = 1 * 2 ^ (w.free - 1).toNat := by
      apply toNat_shiftLeft8 hplaces
      rw [UInt8.toNat_one, Nat.one_mul]
      exact Nat.pow_lt_pow_right (by decide) hplaces
    refine ⟨_, ?_, (h.toPacked.set _ hfree (n := 1) (by decide) hpiece).flip⟩
    show (Guarded.minus w.free 1 >>= _ : Guarded BitSink Unit) w = _
    rw [bind_of_eq (minus_eq hone), bind_of_eq (shiftLeft8_eq hplaces), modify_bind]
    show (Guarded.minus w.free 1 >>= _ : Guarded BitSink Unit) (w.setBits (1 <<< (w.free - 1))) = _
    rw [bind_of_eq (minus_eq hone)]
    rfl

/-- The low bits of a byte that is cut out of a word. -/
theorem toNat_toUInt8_and (word : UInt64) {mask : UInt8} {count : Nat} (hcount : count ≤ 8)
    (hmask : mask.toNat = 2 ^ count - 1) : (word.toUInt8 &&& mask).toNat = word.toNat % 2 ^ count := by
  rw [UInt8.toNat_and, hmask, Nat.and_two_pow_sub_one_eq_mod, UInt64.toNat_toUInt8,
    Nat.mod_mod_of_dvd _ (Nat.pow_dvd_pow 2 hcount)]

theorem writePieces_zero (word : UInt64) (rounds : Nat) (w : BitSink) : writePieces word 0 rounds w = .ok () w := by
  cases rounds <;> rfl

/-- A round that fills the byte. -/
theorem Holds.fill (h : Holds w bits) (word : UInt64) {remaining : UInt8} (hfull : w.free ≤ remaining)
    (hall : remaining.toNat ≤ 64) :
    ∃ u, Holds u (bits ++ bitsOf w.free.toNat (word.toNat / 2 ^ (remaining - w.free).toNat)) ∧
      ∀ rounds, writePieces word remaining (rounds + 1) w = writePieces word (remaining - w.free) rounds u := by
  have hpos := h.free_pos
  have hfull' : w.free.toNat ≤ remaining.toNat := UInt8.le_iff_toNat_le.mp hfull
  have hbehind : (remaining - w.free).toNat = remaining.toNat - w.free.toNat := UInt8.toNat_sub_of_le _ _ hfull
  have hplaces : (remaining - w.free).toNat < 64 := by omega
  have hzero : remaining ≠ 0 := by
    rintro rfl
    exact absurd hfull' (Nat.not_le_of_lt hpos)
  obtain ⟨mask, hmask, hlow⟩ := lowBits8_eq (s := w) h.free_le
  have habove : (word >>> (remaining - w.free).toUInt64).toNat = word.toNat / 2 ^ (remaining - w.free).toNat := by
    rw [UInt64.toNat_shiftRight, UInt8.toNat_toUInt64, Nat.mod_eq_of_lt hplaces, Nat.shiftRight_eq_div_pow]
  have hpiece := toNat_toUInt8_and (word >>> (remaining - w.free).toUInt64) h.free_le hmask
  rw [habove] at hpiece
  have hfilled : w.free.toNat = w.free.toNat + (0 : UInt8).toNat := (Nat.add_zero _).symm
  have hset := (h.toPacked.set _ hfilled (Nat.mod_lt _ (Nat.two_pow_pos _)) (hpiece.trans (Nat.mul_one _).symm)).flip
  rw [bitsOf_mod (Nat.le_refl _)] at hset
  refine ⟨_, hset, fun rounds => ?_⟩
  rw [writePieces, if_neg hzero, get_bind, if_pos hfull, bind_of_eq (minus_eq hfull), bind_of_eq (shiftRight64_eq hplaces),
    bind_of_eq hlow, bind_of_eq (minus_eq hfull), modify_bind]

/-- A round that leaves some of the byte free. There is nothing left to write. -/
theorem Holds.fit (h : Holds w bits) (word : UInt64) {remaining : UInt8} (hpos : 0 < remaining.toNat)
    (hfull : ¬ w.free ≤ remaining) :
    ∃ u, Holds u (bits ++ bitsOf remaining.toNat word.toNat) ∧
      ∀ rounds, writePieces word remaining (rounds + 1) w = .ok () u := by
  have hle := h.free_le
  have hroom : remaining ≤ w.free := UInt8.le_of_lt (UInt8.not_le.mp hfull)
  have hroom' : remaining.toNat ≤ w.free.toNat := UInt8.le_iff_toNat_le.mp hroom
  have hleft : (w.free - remaining).toNat = w.free.toNat - remaining.toNat := UInt8.toNat_sub_of_le _ _ hroom
  have hplaces : (w.free - remaining).toNat < 8 := by omega
  have hzero : remaining ≠ 0 := by
    rintro rfl
    cases hpos
  obtain ⟨mask, hmask, hlow⟩ := lowBits8_eq (s := w) (show remaining.toNat ≤ 8 by omega)
  have hpiece := toNat_toUInt8_and word (show remaining.toNat ≤ 8 by omega) hmask
  have hlt : word.toNat % 2 ^ remaining.toNat < 2 ^ remaining.toNat := Nat.mod_lt _ (Nat.two_pow_pos _)
  have hshift : ((word.toUInt8 &&& mask) <<< (w.free - remaining)).toNat =
      word.toNat % 2 ^ remaining.toNat * 2 ^ (w.free - remaining).toNat := by
    rw [toNat_shiftLeft8 hplaces, hpiece]
    rw [hpiece]
    calc word.toNat % 2 ^ remaining.toNat * 2 ^ (w.free - remaining).toNat
        < 2 ^ remaining.toNat * 2 ^ (w.free - remaining).toNat := Nat.mul_lt_mul_of_pos_right hlt (Nat.two_pow_pos _)
      _ = 2 ^ (remaining.toNat + (w.free - remaining).toNat) := (Nat.pow_add ..).symm
      _ ≤ 2 ^ 8 := Nat.pow_le_pow_right (by decide) (by omega)
  have hkept : w.free.toNat = remaining.toNat + (w.free - remaining).toNat := by omega
  have hset := (h.toPacked.set _ hkept hlt hshift).flip
  rw [bitsOf_mod (Nat.le_refl _)] at hset
  refine ⟨_, hset, fun rounds => ?_⟩
  rw [writePieces, if_neg hzero, get_bind, if_neg hfull, bind_of_eq (minus_eq hroom), bind_of_eq hlow,
    bind_of_eq (shiftLeft8_eq hplaces), modify_bind, writePieces_zero]

/-- Every round fills the byte, which has room for a bit at least, or is the last one. -/
theorem holds_writePieces (word : UInt64) {remaining : UInt8} {rounds : Nat} (h : Holds w bits)
    (hrounds : remaining.toNat ≤ rounds) (hall : remaining.toNat ≤ 64) :
    ∃ t, writePieces word remaining rounds w = .ok () t ∧ Holds t (bits ++ bitsOf remaining.toNat word.toNat) := by
  induction rounds generalizing remaining w bits with
  | zero =>
    obtain rfl : remaining = 0 := UInt8.toNat_inj.mp (Nat.le_zero.mp hrounds)
    exact ⟨w, rfl, by rw [UInt8.toNat_zero, bitsOf_zero, List.append_nil]; exact h⟩
  | succ rounds ih =>
    by_cases hzero : remaining = 0
    · subst hzero
      exact ⟨w, rfl, by rw [UInt8.toNat_zero, bitsOf_zero, List.append_nil]; exact h⟩
    by_cases hfull : w.free ≤ remaining
    · have hpos := h.free_pos
      have hfull' : w.free.toNat ≤ remaining.toNat := UInt8.le_iff_toNat_le.mp hfull
      have hbehind : (remaining - w.free).toNat = remaining.toNat - w.free.toNat := UInt8.toNat_sub_of_le _ _ hfull
      have hsplit : remaining.toNat = w.free.toNat + (remaining - w.free).toNat := by omega
      obtain ⟨u, hu, hround⟩ := h.fill word hfull hall
      obtain ⟨t, ht, hbits⟩ := ih hu (show (remaining - w.free).toNat ≤ rounds by omega) (by omega)
      refine ⟨t, (hround rounds).trans ht, ?_⟩
      rwa [List.append_assoc, ← bitsOf_add, ← hsplit] at hbits
    · have hpos : 0 < remaining.toNat := Nat.pos_of_ne_zero fun h0 => hzero (UInt8.toNat_inj.mp h0)
      obtain ⟨t, ht, hround⟩ := h.fit word hpos hfull
      exact ⟨t, hround rounds, ht⟩

theorem holds_writeBits (h : Holds w bits) (word : UInt64) {count : UInt8} (hcount : count ≤ 64) :
    ∃ t, writeBits word count w = .ok () t ∧ Holds t (bits ++ bitsOf count.toNat word.toNat) := by
  unfold writeBits
  rw [bind_of_eq (require_eq hcount)]
  exact holds_writePieces word h (Nat.le_refl _) (UInt8.le_iff_toNat_le.mp hcount)

/-! ## Whole bytes -/

theorem Packed.length_eq (h : Packed w bits) : bits.length = w.full.size * 8 + (8 - w.free.toNat) := by
  rw [← h.bits_eq, List.length_append, Bytes.length_toBits, length_bitsOf, Array.length_toList, Nat.mul_comm]

/-- The byte that is being filled is closed, even if it has no bit yet. -/
theorem Holds.close (h : Holds w bits) : Holds (w.setFree 0).flip (BitWriter.terminated bits) := by
  have hzeros : 8 - bits.length % 8 = w.free.toNat := by
    have := h.length_eq
    have := h.free_pos
    have := h.free_le
    omega
  rw [BitWriter.terminated_eq, hzeros]
  exact (h.toPacked.setFree (Nat.add_zero _).symm).flip

theorem Holds.align (h : Holds w bits) :
    ∃ t, BitSink.align w = .ok () t ∧ Holds t (BitWriter.padded bits) ∧ t.free = 8 := by
  have hlength := h.length_eq
  by_cases haligned : w.free = 8
  · refine ⟨w, ?_, ?_, haligned⟩
    · show EStateM.Result.ok () (if w.isAligned then w else (w.setFree 0).flip) = _
      rw [isAligned, haligned]
      rfl
    · have hzeros : (8 - bits.length % 8) % 8 = 0 := by
        rw [haligned] at hlength
        have : bits.length = w.full.size * 8 + (8 - 8) := hlength
        omega
      rw [BitWriter.padded_eq, hzeros, List.replicate_zero, List.append_nil]
      exact h
  · have hne : w.free.toNat ≠ 8 := fun h8 => haligned (UInt8.toNat_inj.mp h8)
    refine ⟨(w.setFree 0).flip, ?_, ?_, rfl⟩
    · have hopen : w.isAligned = false := beq_eq_false_iff_ne.mpr haligned
      show EStateM.Result.ok () (if w.isAligned then w else (w.setFree 0).flip) = _
      rw [hopen]
      rfl
    · have hzeros : (8 - bits.length % 8) % 8 = 8 - bits.length % 8 := by
        have := h.free_pos
        have := h.free_le
        omega
      rw [BitWriter.padded_eq, hzeros, ← BitWriter.terminated_eq]
      exact h.close

/-- Full bytes are taken out, and leave nothing. -/
theorem Holds.split (h : Holds w bits) (haligned : w.free = 8) :
    ∃ b t, BitSink.split w = .ok b t ∧ Bytes.toBits b = bits ∧ Holds t [] := by
  have hbits := h.bits_eq
  rw [haligned] at hbits
  refine ⟨w.full.toList, _, rfl, ?_, ⟨h.free_le, h.dvd, ?_⟩, h.free_pos⟩
  · rw [← hbits]
    exact (List.append_nil _).symm
  · show [] ++ bitsOf (8 - w.free.toNat) _ = []
    rw [haligned]
    rfl

theorem Holds.finish (h : Holds w bits) :
    ∃ b t, BitSink.finish w = .ok b t ∧ Bytes.toBits b = BitWriter.padded bits ∧ Holds t [] := by
  obtain ⟨u, hu, hpadded, haligned⟩ := h.align
  obtain ⟨b, t, ht, hb, hempty⟩ := hpadded.split haligned
  exact ⟨b, t, (bind_of_eq hu).trans ht, hb, hempty⟩

theorem Holds.finishWithTerminator (h : Holds w bits) :
    ∃ b t, BitSink.finishWithTerminator w = .ok b t ∧ Bytes.toBits b = BitWriter.terminated bits ∧ Holds t [] :=
  h.close.split rfl

/-! ## Questions -/

theorem Holds.length (h : Holds w bits) : BitSink.length w = .ok bits.length w := by
  have hle : w.free ≤ 8 := UInt8.le_iff_toNat_le.mpr h.free_le
  have hused : ((8 : UInt8) - w.free).toNat = 8 - w.free.toNat := UInt8.toNat_sub_of_le _ _ hle
  unfold BitSink.length
  rw [get_bind, bind_of_eq (minus_eq hle), hused, h.length_eq]
  rfl

theorem Holds.isEmpty (h : Holds w bits) : BitSink.isEmpty w = .ok bits.isEmpty w := by
  unfold BitSink.isEmpty
  rw [bind_of_eq h.length]
  cases bits <;> rfl

theorem Holds.isAligned (h : Holds w bits) : w.isAligned = (bits.length % 8 == 0) := by
  have hlength := h.length_eq
  have hpos := h.free_pos
  have hle := h.free_le
  rw [BitSink.isAligned, Bool.eq_iff_iff, beq_iff_eq, beq_iff_eq, ← UInt8.toNat_inj]
  show w.free.toNat = 8 ↔ _
  omega

/-! ## Calls -/

/-- A sink answers like the list of its bits, and none of its steps is trapped. -/
theorem Holds.call (h : Holds w bits) (c : Call) :
    ∃ a t, BitSink.call c w = .ok a t ∧ a.map Bytes.toBits = (c.onBits bits).1 ∧ Holds t (c.onBits bits).2 := by
  cases c with
  | bit b =>
    obtain ⟨t, ht, hbits⟩ := holds_writeBit h b
    exact ⟨.done, t, bind_of_eq ht, rfl, hbits⟩
  | bits word count hcount =>
    obtain ⟨t, ht, hbits⟩ := holds_writeBits h word hcount
    exact ⟨.done, t, bind_of_eq ht, rfl, hbits⟩
  | align =>
    obtain ⟨t, ht, hbits, -⟩ := h.align
    exact ⟨.done, t, bind_of_eq ht, rfl, hbits⟩
  | clear => exact ⟨.done, empty, rfl, rfl, holds_empty⟩
  | finish =>
    obtain ⟨b, t, ht, hb, hempty⟩ := h.finish
    exact ⟨.bytes b, t, bind_of_eq ht, congrArg Answer.bytes hb, hempty⟩
  | terminate =>
    obtain ⟨b, t, ht, hb, hempty⟩ := h.finishWithTerminator
    exact ⟨.bytes b, t, bind_of_eq ht, congrArg Answer.bytes hb, hempty⟩
  | length => exact ⟨.number bits.length, w, bind_of_eq h.length, rfl, h⟩
  | isEmpty => exact ⟨.truth bits.isEmpty, w, bind_of_eq h.isEmpty, rfl, h⟩
  | isAligned => exact ⟨.truth w.isAligned, w, rfl, congrArg Answer.truth h.isAligned, h⟩

theorem Holds.answers (h : Holds w bits) (calls : List Call) :
    ∃ answers t, BitSink.answers calls w = .ok answers t ∧
      answers.map (Answer.map Bytes.toBits) = Call.answersOnBits bits calls := by
  induction calls generalizing w bits with
  | nil => exact ⟨[], w, rfl, rfl⟩
  | cons c calls ih =>
    obtain ⟨a, u, hcall, ha, hu⟩ := h.call c
    obtain ⟨answers, t, hrest, hanswers⟩ := ih hu
    refine ⟨a :: answers, t, ?_, ?_⟩
    · unfold BitSink.answers
      rw [bind_of_eq hcall, bind_of_eq hrest]
      rfl
    · rw [List.map_cons, Call.answersOnBits, ha, hanswers]

end Machine.BitSink

open BitWriter (Call Answer)

/-- Whatever is called, one after the other: a sink that starts empty answers as the list of the
    bits that have been written, and so does a writer without words. -/
theorem Machine.sink_is_list_of_bits (calls : List Call) :
    ∃ answers sink, BitSink.answers calls .empty = .ok answers sink ∧
      answers.map (Answer.map Bytes.toBits) = Call.answersOnBits [] calls ∧ BitWriter.empty.answers calls = answers := by
  obtain ⟨answers, sink, hrun, hanswers⟩ := BitSink.holds_empty.answers calls
  refine ⟨answers, sink, hrun, hanswers, ?_⟩
  -- answers are the same if the bytes in them have the same bits
  have hplain := BitWriter.empty.map_answers calls
  rw [BitWriter.toBits_empty, ← hanswers] at hplain
  have hsame (a b : Answer Bytes) (h : a.map Bytes.toBits = b.map Bytes.toBits) : a = b :=
    BitWriter.Answer.map_injective (fun _ _ => Bytes.toBits_injective) h
  exact (List.map_inj_right hsame).mp hplain

/-- The high bits of a word are not written. -/
example : ∃ sink, Machine.BitSink.answers [.bits 0xFFFFFFFFFFFFFF05 4 (by decide), .length, .finish] .empty =
    .ok [.done, .number 4, .bytes [0x50]] sink :=
  ⟨_, rfl⟩

end Chronicle
