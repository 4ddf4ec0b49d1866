/-
  Chronicle.Proofs.Machine.BitReader — numbers read in pieces are numbers read bit by bit.

  A source on machine words stands for one without if it has the same bytes and the same unread bits (`Views`).
  A reader never has more than eight unread bits, and each piece is at least one of them, so no difference of
  counts is below zero, no shift is too long, and as many rounds as bits are enough (`matches_readPieces`,
  `matches_readBits`). The bits that were read leave room for those to come: a piece is put behind them by a
  shift, and nothing falls out.

  The moments at which bytes are taken are the same, so a reading that fails leaves the same too. How many bytes
  are left is kept as well, as no reading adds to them (`Frame`); sums of such numbers are then in range.
-/

import Chronicle.Machine.BitReader
import Chronicle.Proofs.Machine.Guarded
import Chronicle.Proofs.Stream.Capacity

namespace Chronicle

/-! ## Bits of the byte that a reader is in -/

namespace BitSource

open Reading

def fillEagerly : Reading BitSource Unit := do
  if (← get).reader.refill = .eager then fill

def withLeft (s : BitSource) (left : Nat) : BitSource := { s with reader := { s.reader with left := left } }

/-- A reader that has a bit left takes no byte. -/
theorem fill_of_left_pos {s : BitSource} (h : 0 < s.reader.left) : fill s = .ok () s := by
  unfold fill
  rw [if_pos (by omega)]

theorem fillEagerly_of_left_pos {s : BitSource} (h : 0 < s.reader.left) : fillEagerly s = .ok () s := by
  show (if s.reader.refill = .eager then fill else pure () : Reading BitSource Unit) s = _
  by_cases he : s.reader.refill = .eager
  · rw [if_pos he, fill_of_left_pos h]
  · rw [if_neg he]
    rfl

/-- A bit of a byte that has one, and then perhaps another byte. -/
theorem pullBit_of_left_pos {s : BitSource} (h : 0 < s.reader.left) :
    pullBit s = (do fillEagerly; return s.reader.byte.toNat.testBit (s.reader.left - 1)) (s.withLeft (s.reader.left - 1)) := by
  unfold pullBit
  rw [bind_of_eq (fill_of_left_pos h)]
  show (if s.reader.refill = .eager then fill >>= fun _ => pure _ else pure _ : Reading BitSource Bool) _ = _
  show _ = ((if s.reader.refill = .eager then fill else pure ()) >>= fun _ => pure _ : Reading BitSource Bool) _
  split
  · rfl
  · rfl

/-- Where there is a bit to read, a byte may be taken beforehand. -/
theorem pullBit_of_fill (s : BitSource) : pullBit s = (do fill; pullBit) s := by
  cases hfill : fill s with
  | error e t =>
    rw [bind_of_error hfill]
    exact bind_of_error hfill
  | ok u t =>
    rw [bind_of_eq hfill]
    unfold pullBit
    rw [bind_of_eq hfill, bind_of_eq (fill_of_left_pos (fill_ok hfill).1)]

theorem pullBits_of_fill {count : Nat} (h : 0 < count) (s : BitSource) :
    pullBits count s = (do fill; pullBits count) s := by
  obtain ⟨count, rfl⟩ : ∃ k, count = k + 1 := ⟨count - 1, by omega⟩
  show (pullBit >>= fun bit => return bit.toNat * 2 ^ count + (← pullBits count)) s = _
  rw [bind_congr_left _ (pullBit_of_fill s), bind_assoc]
  rfl

/-- Bits that the current byte has are a piece of it. -/
theorem pullBits_piece {take : Nat} (htake : 0 < take) (more : Nat) {s : BitSource} (hle : take ≤ s.reader.left) :
    pullBits (take + more) s =
      (do
        fillEagerly
        return s.reader.byte.toNat / 2 ^ (s.reader.left - take) % 2 ^ take * 2 ^ more + (← pullBits more))
        (s.withLeft (s.reader.left - take)) := by
  induction take, htake using Nat.le_induction generalizing s with
  | base =>
    rw [Nat.add_comm]
    show (pullBit >>= fun bit => return bit.toNat * 2 ^ more + (← pullBits more)) s = _
    rw [bind_congr_left _ (pullBit_of_left_pos hle)]
    simp only [bind_assoc, pure_bind, Nat.toNat_testBit]
    rfl
  | succ take htake ih =>
    -- The reader keeps a bit, so the first bit takes no byte.
    have hpos : 0 < (s.withLeft (s.reader.left - 1)).reader.left := by
      show 0 < s.reader.left - 1
      omega
    have hbit : pullBit s = .ok (s.reader.byte.toNat.testBit (s.reader.left - 1)) (s.withLeft (s.reader.left - 1)) := by
      rw [pullBit_of_left_pos (by omega), bind_of_eq (fillEagerly_of_left_pos hpos)]
      rfl
    have hrest := ih (s := s.withLeft (s.reader.left - 1)) (by show take ≤ s.reader.left - 1; omega)
    have hleft : s.reader.left - 1 - take = s.reader.left - (take + 1) := by omega
    have hpiece : s.reader.byte.toNat / 2 ^ (s.reader.left - (take + 1)) % 2 ^ (take + 1) =
        (s.reader.byte.toNat.testBit (s.reader.left - 1)).toNat * 2 ^ take +
          s.reader.byte.toNat / 2 ^ (s.reader.left - (take + 1)) % 2 ^ take := by
      have hlow : take + (s.reader.left - (take + 1)) = s.reader.left - 1 := by omega
      rw [Nat.mod_pow_succ, ← Nat.toNat_testBit, Nat.testBit_div_two_pow, hlow, Nat.mul_comm, Nat.add_comm (_ % _)]
    rw [Nat.add_right_comm]
    show (pullBit >>= fun bit => return bit.toNat * 2 ^ (take + more) + (← pullBits (take + more))) s = _
    rw [bind_of_eq hbit, bind_congr_left _ hrest, hpiece]
    simp only [bind_assoc, pure_bind, withLeft, hleft, Nat.add_mul, Nat.mul_assoc, ← Nat.pow_add, Nat.add_assoc]

end BitSource

/-! ## Sources on machine words -/

namespace Machine

open Guarded (minus_eq shiftRight8_eq shiftLeft64_eq lowBits8_eq require_eq)

def BitReader.view (r : BitReader) : Chronicle.BitReader := { refill := r.refill, byte := r.byte, left := r.left.toNat }

/-- What no reading changes: when a reader takes its bytes, and how many bytes there can be. -/
structure Frame where
  refill : Refill
  room : Nat

namespace BitSource

def view (s : BitSource) : Chronicle.BitSource := ⟨s.reader.view, s.bytes⟩

/-- A source between two steps. -/
structure Views (frame : Frame) (s : BitSource) (s' : Chronicle.BitSource) : Prop where
  left_le : s.reader.left.toNat ≤ 8
  refill_eq : s.reader.refill = frame.refill
  length_le : s.bytes.length ≤ frame.room
  view_eq : s' = s.view

variable {frame : Frame} {s : BitSource} {s' : Chronicle.BitSource}

theorem left_pos {s : BitSource} (h : s.reader.left ≠ 0) : 0 < s.reader.left.toNat :=
  Nat.pos_of_ne_zero fun hzero => h (UInt8.toNat_inj.mp hzero)

theorem matches_flip (h : Views frame s s') :
    Matches (fun _ _ t t' => Views frame t t' ∧ 0 < t.reader.left.toNat) (Views frame) (flip s)
      (Chronicle.BitSource.fill s') := by
  obtain ⟨hleft, hrefill, hlength, rfl⟩ := h
  by_cases hzero : s.reader.left = 0
  · rcases s with ⟨⟨refill, byte, left⟩, bytes⟩
    cases hzero
    cases bytes with
    | nil => exact .error ⟨hleft, hrefill, hlength, rfl⟩
    | cons b bytes => exact .ok ⟨⟨Nat.le_refl 8, hrefill, Nat.le_of_succ_le hlength, rfl⟩, Nat.succ_pos 7⟩
  · have hpos := left_pos hzero
    have hflip : flip s = .ok () s := by
      unfold flip
      rw [get_bind, if_pos hzero]
      rfl
    rw [hflip, Chronicle.BitSource.fill_of_left_pos hpos]
    exact .ok ⟨⟨hleft, hrefill, hlength, rfl⟩, hpos⟩

theorem matches_flipEagerly (h : Views frame s s') :
    Matches (fun _ _ t t' => Views frame t t') (Views frame) (flipEagerly s) (Chronicle.BitSource.fillEagerly s') := by
  have hrefill : s'.reader.refill = s.reader.refill := by
    rw [h.view_eq]
    rfl
  unfold flipEagerly Chronicle.BitSource.fillEagerly
  rw [get_bind, get_bind, hrefill]
  refine .ite Iff.rfl ?_ ?_
  · intro _
    exact (matches_flip h).mono (fun _ _ _ _ h => h.1) fun _ _ => id
  · intro _
    exact matches_pure h

/-- Giving out some of the bits of a byte. -/
theorem Views.withLeft (h : Views frame s s') {left : UInt8} {n : Nat} (hn : left.toNat = n) (hle : left ≤ s.reader.left) :
    Views frame (s.withLeft left) (s'.withLeft n) := by
  obtain ⟨hleft, hrefill, hlength, rfl⟩ := h
  subst hn
  exact ⟨Nat.le_trans (UInt8.le_iff_toNat_le.mp hle) hleft, hrefill, hlength, rfl⟩

theorem Views.left_eq (h : Views frame s s') : s'.reader.left = s.reader.left.toNat := by
  rw [h.view_eq]
  rfl

theorem Views.byte_eq (h : Views frame s s') : s'.reader.byte = s.reader.byte := by
  rw [h.view_eq]
  rfl

/-! ## One bit -/

/-- The lowest bit of a shifted byte. -/
theorem and_one_eq_testBit (byte places : UInt8) (h : places.toNat < 8) :
    (byte >>> places &&& 1 == 1) = byte.toNat.testBit places.toNat := by
  have hbit : (byte >>> places &&& 1).toNat = (byte.toNat.testBit places.toNat).toNat := by
    rw [UInt8.toNat_and, UInt8.toNat_shiftRight, Nat.mod_eq_of_lt h, UInt8.toNat_one, Nat.and_one_is_mod,
      Nat.toNat_testBit, Nat.shiftRight_eq_div_pow]
  cases hb : byte.toNat.testBit places.toNat with
  | false =>
    rw [hb] at hbit
    have hzero : byte >>> places &&& 1 = 0 := UInt8.toNat_inj.mp hbit
    rw [hzero]
    rfl
  | true =>
    rw [hb] at hbit
    have hone : byte >>> places &&& 1 = 1 := UInt8.toNat_inj.mp hbit
    rw [hone]
    rfl

theorem matches_readBit (h : Views frame s s') :
    Matches (fun bit bit' t t' => bit = bit' ∧ Views frame t t') (Views frame) (readBit s)
      (Chronicle.BitSource.pullBit s') := by
  rw [Chronicle.BitSource.pullBit_of_fill s']
  refine (matches_flip h).bind ?_
  rintro _ _ t t' ⟨ht, hpos⟩
  have hone : (1 : UInt8) ≤ t.reader.left := UInt8.le_iff_toNat_le.mpr hpos
  have hleft : (t.reader.left - 1).toNat = t.reader.left.toNat - 1 := UInt8.toNat_sub_of_le _ _ hone
  have hplaces : (t.reader.left - 1).toNat < 8 := by
    have := ht.left_le
    omega
  have hle : t.reader.left - 1 ≤ t.reader.left := by
    rw [UInt8.le_iff_toNat_le, hleft]
    exact Nat.sub_le _ _
  rw [get_bind, bind_of_eq (minus_eq hone), bind_of_eq (shiftRight8_eq hplaces), bind_of_eq (minus_eq hone),
    setLeft, modify_bind, Chronicle.BitSource.pullBit_of_left_pos (by rw [ht.left_eq]; exact hpos), ht.left_eq, ht.byte_eq]
  refine (matches_flipEagerly (ht.withLeft hleft hle)).bind ?_
  intro _ _ u u' hu
  refine matches_pure ⟨?_, hu⟩
  rw [and_one_eq_testBit _ _ hplaces, hleft]

/-! ## Many bits -/

theorem readPiece_eq {take : UInt8} (htake : 0 < take.toNat) (hle : take ≤ s.reader.left) (hleft : s.reader.left.toNat ≤ 8) :
    ∃ piece : UInt8, piece.toNat = s.reader.byte.toNat / 2 ^ (s.reader.left.toNat - take.toNat) % 2 ^ take.toNat ∧
      readPiece take s = .ok piece (s.withLeft (s.reader.left - take)) := by
  have hle' : take.toNat ≤ s.reader.left.toNat := UInt8.le_iff_toNat_le.mp hle
  have hplaces : (s.reader.left - take).toNat = s.reader.left.toNat - take.toNat := UInt8.toNat_sub_of_le _ _ hle
  obtain ⟨mask, hmask, hlow⟩ := lowBits8_eq (s := s) (show take.toNat ≤ 8 by omega)
  refine ⟨s.reader.byte >>> (s.reader.left - take) &&& mask, ?_, ?_⟩
  · rw [UInt8.toNat_and, hmask, Nat.and_two_pow_sub_one_eq_mod, UInt8.toNat_shiftRight, hplaces,
      Nat.mod_eq_of_lt (show s.reader.left.toNat - take.toNat < 8 by omega), Nat.shiftRight_eq_div_pow]
  · unfold readPiece
    rw [get_bind, bind_of_eq (minus_eq hle), bind_of_eq (shiftRight8_eq (by omega)), bind_of_eq hlow,
      bind_of_eq (minus_eq hle)]
    rfl

/-- A piece behind the bits that are there already. -/
theorem toNat_or_piece (value : UInt64) {piece take : UInt8} (htake : take.toNat < 64) (hpiece : piece.toNat < 2 ^ take.toNat)
    (hvalue : value.toNat * 2 ^ take.toNat < 2 ^ 64) :
    (value <<< take.toUInt64 ||| piece.toUInt64).toNat = value.toNat * 2 ^ take.toNat + piece.toNat := by
  rw [UInt64.toNat_or, UInt64.toNat_shiftLeft, UInt8.toNat_toUInt64, UInt8.toNat_toUInt64, Nat.mod_eq_of_lt htake,
    Nat.shiftLeft_eq, Nat.mod_eq_of_lt hvalue, ← Nat.shiftLeft_eq, ← Nat.shiftLeft_add_eq_or_of_lt hpiece]

theorem toNat_min (a b : UInt8) : (min a b).toNat = min a.toNat b.toNat := by
  show (if a ≤ b then a else b).toNat = _
  split
  · next h => exact (Nat.min_eq_left (UInt8.le_iff_toNat_le.mp h)).symm
  · next h => exact (Nat.min_eq_right (Nat.le_of_not_le fun h' => h (UInt8.le_iff_toNat_le.mpr h'))).symm

theorem readPieces_zero (value : UInt64) (rounds : Nat) (s : BitSource) : readPieces value 0 rounds s = .ok value s := by
  cases rounds <;> rfl

/-- The bits that are there leave room for those to come, and each round takes one at least. -/
theorem matches_readPieces {value : UInt64} {remaining : UInt8} {rounds : Nat} (h : Views frame s s')
    (hrounds : remaining.toNat ≤ rounds) (hall : remaining.toNat ≤ 64) (hvalue : value.toNat < 2 ^ (64 - remaining.toNat)) :
    Matches (fun w n t t' => w.toNat = value.toNat * 2 ^ remaining.toNat + n ∧ Views frame t t') (Views frame)
      (readPieces value remaining rounds s) (Chronicle.BitSource.pullBits remaining.toNat s') := by
  induction rounds generalizing value remaining s s' with
  | zero =>
    obtain rfl : remaining = 0 := UInt8.toNat_inj.mp (Nat.le_zero.mp hrounds)
    rw [readPieces_zero]
    exact .ok ⟨(Nat.mul_one _).symm, h⟩
  | succ rounds ih =>
    by_cases hzero : remaining = 0
    · subst hzero
      rw [readPieces_zero]
      exact .ok ⟨(Nat.mul_one _).symm, h⟩
    have hremaining : 0 < remaining.toNat := Nat.pos_of_ne_zero fun h0 => hzero (UInt8.toNat_inj.mp h0)
    unfold readPieces
    rw [if_neg hzero, Chronicle.BitSource.pullBits_of_fill hremaining]
    refine (matches_flip h).bind ?_
    rintro _ _ t t' ⟨ht, hpos⟩
    rw [get_bind]
    -- The piece of this round, and what is to be read behind it.
    obtain ⟨take, htake⟩ : ∃ take, take = min remaining t.reader.left := ⟨_, rfl⟩
    have hmin : take.toNat = min remaining.toNat t.reader.left.toNat := htake ▸ toNat_min remaining t.reader.left
    obtain ⟨more, hmore⟩ : ∃ more, remaining.toNat = take.toNat + more := ⟨remaining.toNat - take.toNat, by omega⟩
    have hleft := ht.left_le
    have hle : take ≤ t.reader.left := UInt8.le_iff_toNat_le.mpr (by omega)
    have hlerem : take ≤ remaining := UInt8.le_iff_toNat_le.mpr (by omega)
    have hrem : (remaining - take).toNat = more := by
      rw [UInt8.toNat_sub_of_le _ _ hlerem]
      omega
    obtain ⟨piece, hpiece, hread⟩ := readPiece_eq (s := t) (by omega) hle hleft
    rw [← htake, bind_of_eq hread, bind_of_eq (shiftLeft64_eq (by omega)), bind_of_eq (minus_eq hlerem), hmore,
      Chronicle.BitSource.pullBits_piece (by omega) more (by rw [ht.left_eq]; omega), ht.left_eq, ht.byte_eq]
    -- It fits in front of what is to be read.
    have hplaces : (t.reader.left - take).toNat = t.reader.left.toNat - take.toNat := UInt8.toNat_sub_of_le _ _ hle
    have hpiecelt : piece.toNat < 2 ^ take.toNat := by
      rw [hpiece]
      exact Nat.mod_lt _ (Nat.two_pow_pos _)
    have hroom : 2 ^ (64 - more) = 2 ^ (64 - remaining.toNat) * 2 ^ take.toNat := by
      rw [← Nat.pow_add]
      congr 1
      omega
    have hbelow : value.toNat * 2 ^ take.toNat + piece.toNat < 2 ^ (64 - more) := by
      have := Nat.mul_le_mul_right (2 ^ take.toNat) hvalue
      rw [Nat.succ_mul] at this
      omega
    have hsum := toNat_or_piece value (by omega) hpiecelt
      (Nat.lt_of_lt_of_le (by omega) (Nat.pow_le_pow_right (by decide) (Nat.sub_le 64 more)))
    refine (matches_flipEagerly (ht.withLeft hplaces (by rw [UInt8.le_iff_toNat_le, hplaces]; exact Nat.sub_le _ _))).bind ?_
    intro _ _ u u' hu
    have hrest := ih hu (show (remaining - take).toNat ≤ rounds by omega) (by omega) (by rw [hrem, hsum]; exact hbelow)
    rw [hrem, hsum, hpiece] at hrest
    refine hrest.map_right ?_
    rintro w n v v' ⟨hw, hv⟩
    refine ⟨?_, hv⟩
    rw [hw, Nat.pow_add, Nat.add_mul, Nat.mul_assoc, Nat.add_assoc]

theorem matches_readBits (count : UInt8) (hcount : count.toNat ≤ 64) (h : Views frame s s') :
    Matches (fun w n t t' => w.toNat = n ∧ n < 2 ^ count.toNat ∧ Views frame t t') (Views frame) (readBits count s)
      (Chronicle.BitSource.pullBits count.toNat s') := by
  have hpieces := matches_readPieces h (Nat.le_refl count.toNat) hcount (show (0 : UInt64).toNat < _ from Nat.two_pow_pos _)
  unfold readBits
  rw [bind_of_eq (require_eq (UInt8.le_iff_toNat_le.mpr hcount))]
  refine hpieces.with_right.mono ?_ fun _ _ => id
  rintro w n t t' ⟨⟨hw, ht⟩, hn⟩
  rw [UInt64.toNat_zero, Nat.zero_mul, Nat.zero_add] at hw
  exact ⟨hw, Chronicle.BitSource.pullBits_lt hn, ht⟩

theorem matches_align (h : Views frame s s') :
    Matches (fun _ _ t t' => Views frame t t') (Views frame) (align s) (Chronicle.BitSource.align s') := by
  obtain ⟨-, hrefill, hlength, rfl⟩ := h
  exact .ok ⟨Nat.zero_le 8, hrefill, hlength, rfl⟩

end BitSource

end Machine

end Chronicle
