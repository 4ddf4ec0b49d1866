/-
  Chronicle.Proofs.Wire.BitSource — what a source gives is the list of its unread bits.

  The statements hold for both ways to take bytes. An eager reader wants one more bit behind those that it
  reads (`Refill.ahead`), which is why `pullBits` asks for one, and is left with at least one between two
  readings; a lazy one may be left with none (`Refill.Leaves`).

  - If the bits are enough a number is read (`pullBits_of_enough`), and otherwise there is none
    (`pullBits_of_short`). Reading as many bits as a list has gives its number and leaves what follows it
    (`Unread.pullBits`).
  - Once something has been read, the bits left of the current byte say where the bytes behind it begin
    (`bytes_eq`): a pad that is the end of a byte is all that a reader is in the middle of.
  - A reader that is sent to the next whole byte reads what has been packed there (`unread_align`).
  - A lazy reader that starts on a whole byte and reads whole bytes stays on one, also where the bytes end
    (`keeps_atByte_pullBits`).
-/

import Chronicle.Proofs.Wire.Bits
import Chronicle.Proofs.Wire.Reading
import Chronicle.Wire.BitReader

namespace Chronicle

/-- How many bits of its byte a reader can be left with after a reading. -/
def Refill.Leaves : Refill → Nat → Prop
  | onDemand, left => left < 8
  | eager, left => 0 < left ∧ left ≤ 8

theorem Refill.Leaves.le {refill : Refill} {left : Nat} (h : refill.Leaves left) : left ≤ 8 := by
  cases refill with
  | onDemand => exact Nat.le_of_lt h
  | eager => exact h.2

/-- There is only one such number of bits up to whole bytes. -/
theorem Refill.Leaves.eq {refill : Refill} {a b : Nat} (ha : refill.Leaves a) (hb : refill.Leaves b)
    (h : a % 8 = b % 8) : a = b := by
  cases refill with
  | onDemand =>
    have : a < 8 := ha
    have : b < 8 := hb
    omega
  | eager =>
    have := ha.1
    have := ha.2
    have := hb.1
    have := hb.2
    omega

/-- How many bits have to lie behind those that are read. An eager reader takes the next byte as
    soon as one is used up. -/
def Refill.ahead : Refill → Nat
  | onDemand => 0
  | eager => 1

namespace BitSource

open Reading

/-- A source between two readings, and the bits that it has still to give. -/
structure Unread (s : BitSource) (refill : Refill) (bits : List Bool) : Prop where
  refill_eq : s.reader.refill = refill
  leaves : refill.Leaves s.reader.left
  toBits_eq : s.toBits = bits

/-- A reader that takes its bytes on demand may stand at the start of a byte. -/
theorem unread_of_left_eq_zero {s : BitSource} (hr : s.reader.refill = .onDemand) (hl : s.reader.left = 0) :
    s.Unread .onDemand s.bytes.toBits := by
  refine ⟨hr, ?_, ?_⟩
  · show s.reader.left < 8
    omega
  · rw [toBits, hl, bitsOf_zero, List.nil_append]

/-! ## One bit and many -/

theorem pullBit_of_toBits {s : BitSource} {b : Bool} {bits : List Bool} (hl : s.reader.left ≤ 8)
    (h : s.toBits = b :: bits) (he : s.reader.refill = .eager → bits ≠ []) :
    ∃ t, pullBit s = .ok b t ∧ t.Unread s.reader.refill bits := by
  cases hr : s.reader.refill with
  | onDemand =>
    rcases s with ⟨⟨refill, byte, left⟩, bytes⟩
    cases hr
    cases left with
    | succ left =>
      simp only [toBits, bitsOf, List.cons_append, List.cons.injEq] at h
      exact ⟨⟨⟨.onDemand, byte, left⟩, bytes⟩, by rw [← h.1]; rfl, rfl, (hl : left < 8), h.2⟩
    | zero =>
      cases bytes with
      | nil => simp [toBits] at h
      | cons next bytes =>
        simp only [toBits, List.nil_append, Bytes.toBits_cons, bitsOf, List.cons_append, List.cons.injEq] at h
        exact ⟨⟨⟨.onDemand, next, 7⟩, bytes⟩, by rw [← h.1]; rfl, rfl, (by decide : 7 < 8), h.2⟩
  | eager =>
    have hne := he hr
    rcases s with ⟨⟨refill, byte, left⟩, bytes⟩
    cases hr
    rcases left with _ | _ | left
    · cases bytes with
      | nil => simp [toBits] at h
      | cons next bytes =>
        simp only [toBits, List.nil_append, Bytes.toBits_cons, bitsOf, List.cons_append, List.cons.injEq] at h
        exact ⟨⟨⟨.eager, next, 7⟩, bytes⟩, by rw [← h.1]; rfl, rfl, (by decide : 0 < 7 ∧ 7 ≤ 8), h.2⟩
    · simp only [toBits, bitsOf, List.cons_append, List.nil_append, List.cons.injEq] at h
      cases bytes with
      | nil => exact absurd h.2.symm hne
      | cons next bytes =>
        exact ⟨⟨⟨.eager, next, 8⟩, bytes⟩, by rw [← h.1]; rfl, rfl, (by decide : 0 < 8 ∧ 8 ≤ 8), h.2⟩
    · simp only [toBits, bitsOf, List.cons_append, List.cons.injEq] at h
      exact ⟨⟨⟨.eager, byte, left + 1⟩, bytes⟩, by rw [← h.1]; rfl, rfl, ⟨Nat.succ_pos left, Nat.le_of_lt hl⟩, h.2⟩

variable {s : BitSource} {refill : Refill} {bits rest : List Bool}

theorem Unread.pullBit {b : Bool} (h : s.Unread refill (b :: bits)) (he : refill = .eager → bits ≠ []) :
    ∃ t, pullBit s = .ok b t ∧ t.Unread refill bits := by
  have hr := h.refill_eq
  subst hr
  exact pullBit_of_toBits h.leaves.le h.toBits_eq he

/-- Reading as many bits as a list has gives its number, and leaves what follows it. -/
theorem Unread.pullBits (h : s.Unread refill (bits ++ rest)) (he : refill = .eager → rest ≠ []) :
    ∃ t, pullBits bits.length s = .ok (numberOf bits) t ∧ t.Unread refill rest := by
  induction bits generalizing s with
  | nil => exact ⟨s, rfl, h⟩
  | cons b bits ih =>
    obtain ⟨t, ht, h⟩ := h.pullBit fun hr => List.append_ne_nil_of_right_ne_nil bits (he hr)
    obtain ⟨u, hu, h⟩ := ih h
    refine ⟨u, ?_, h⟩
    rw [List.length_cons, BitSource.pullBits, bind_of_eq ht, map_of_eq hu, numberOf_cons]

/-- A number is read back from a pattern that is wide enough. -/
theorem Unread.pullNumber {count n : Nat} (h : s.Unread refill (bitsOf count n ++ rest)) (hn : n < 2 ^ count)
    (he : refill = .eager → rest ≠ []) : ∃ t, BitSource.pullBits count s = .ok n t ∧ t.Unread refill rest := by
  obtain ⟨t, ht, h⟩ := h.pullBits he
  rw [length_bitsOf, numberOf_bitsOf_of_lt hn] at ht
  exact ⟨t, ht, h⟩

/-! ## Enough bits, or not -/

variable {count : Nat}

/-- An eager reader does not give a bit that nothing follows. -/
theorem pullBit_of_last {b : Bool} (hr : s.reader.refill = .eager) (h : s.toBits = [b]) :
    ∃ t, pullBit s = .error .underflow t := by
  rcases s with ⟨⟨refill, byte, left⟩, bytes⟩
  cases hr
  have hlen := congrArg List.length h
  simp only [toBits, List.length_append, length_bitsOf, Bytes.length_toBits, List.length_singleton] at hlen
  obtain rfl : left = 1 := by omega
  obtain rfl : bytes = [] := List.eq_nil_of_length_eq_zero (by omega)
  exact ⟨_, rfl⟩

/-- Reading ends where the bits do, or where no further byte can be taken. -/
theorem pullBits_of_short (hpos : 0 < count) (hl : s.reader.left ≤ 8)
    (h : s.toBits.length < count + s.reader.refill.ahead) : ∃ t, pullBits count s = .error .underflow t := by
  induction count generalizing s with
  | zero => cases hpos
  | succ count ih =>
    cases hb : s.toBits with
    | nil => exact ⟨s, bind_of_error (pullBit_of_toBits_eq_nil hb)⟩
    | cons b bits =>
      rw [hb, List.length_cons] at h
      by_cases hlast : s.reader.refill = .eager ∧ bits = []
      · obtain ⟨hr, rfl⟩ := hlast
        obtain ⟨t, ht⟩ := pullBit_of_last hr hb
        exact ⟨t, bind_of_error ht⟩
      · obtain ⟨t, ht, hu⟩ := pullBit_of_toBits hl hb fun hr hnil => hlast ⟨hr, hnil⟩
        have hmore : 0 < count := by
          cases hr : s.reader.refill with
          | onDemand =>
            rw [hr] at h
            exact Nat.lt_of_le_of_lt (Nat.zero_le _) (Nat.lt_of_succ_lt_succ h)
          | eager =>
            rw [hr] at h
            have hne := List.length_pos_iff.2 fun hnil => hlast ⟨hr, hnil⟩
            have h : bits.length + 1 < count + 1 + 1 := h
            omega
        have hshort : t.toBits.length < count + t.reader.refill.ahead := by
          rw [hu.toBits_eq, hu.refill_eq]
          omega
        obtain ⟨u, hu⟩ := ih hmore hu.leaves.le hshort
        refine ⟨u, ?_⟩
        rw [pullBits, bind_of_eq ht, bind_of_error hu]

/-- What a number needs and what it leaves, for a reader that may be at the start of its bytes. -/
theorem pullBits_of_enough (hpos : 0 < count) (hl : s.reader.left ≤ 8)
    (h : count + s.reader.refill.ahead ≤ s.toBits.length) :
    ∃ t, pullBits count s = .ok (numberOf (s.toBits.take count)) t ∧
      t.Unread s.reader.refill (s.toBits.drop count) := by
  obtain ⟨count, rfl⟩ : ∃ k, count = k + 1 := ⟨count - 1, by omega⟩
  cases hb : s.toBits with
  | nil =>
    rw [hb, List.length_nil] at h
    omega
  | cons b bits =>
    rw [hb, List.length_cons] at h
    have hahead : s.reader.refill = .eager → bits.drop count ≠ [] := by
      intro hr hnil
      rw [hr] at h
      have h : count + 1 + 1 ≤ bits.length + 1 := h
      have := List.drop_eq_nil_iff.1 hnil
      omega
    have hne : s.reader.refill = .eager → bits ≠ [] := by
      rintro hr rfl
      exact hahead hr (List.drop_nil ..)
    obtain ⟨t, ht, hu⟩ := pullBit_of_toBits hl hb hne
    rw [← List.take_append_drop count bits] at hu
    obtain ⟨u, hbits, hu⟩ := hu.pullBits hahead
    have hlen : (bits.take count).length = count := by
      rw [List.length_take]
      omega
    rw [hlen] at hbits
    refine ⟨u, ?_, hu⟩
    rw [pullBits, bind_of_eq ht, map_of_eq hbits, List.take_succ_cons, numberOf_cons, hlen]

theorem Unread.pullBits_of_short (h : s.Unread .onDemand bits) (hshort : bits.length < count) :
    ∃ t, BitSource.pullBits count s = .error .underflow t := by
  have hpos : 0 < count := Nat.lt_of_le_of_lt (Nat.zero_le _) hshort
  have hless : s.toBits.length < count + s.reader.refill.ahead := by
    rw [h.toBits_eq, h.refill_eq]
    exact hshort
  exact BitSource.pullBits_of_short hpos h.leaves.le hless

/-- The first number of a source whose reader has no byte yet. -/
theorem pullNumber_of_left_eq_zero {n : Nat} (hl : s.reader.left = 0) (hc : 0 < count) (hn : n < 2 ^ count)
    (h : s.bytes.toBits = bitsOf count n ++ rest) (he : s.reader.refill = .eager → rest ≠ []) :
    ∃ t, BitSource.pullBits count s = .ok n t ∧ t.Unread s.reader.refill rest := by
  have hbits : s.toBits = bitsOf count n ++ rest := by rw [toBits, hl, bitsOf_zero, List.nil_append, h]
  have henough : count + s.reader.refill.ahead ≤ s.toBits.length := by
    rw [hbits, List.length_append, length_bitsOf]
    cases hr : s.reader.refill with
    | onDemand => exact Nat.le_add_right ..
    | eager => exact Nat.add_le_add_left (List.length_pos_iff.2 (he hr)) count
  obtain ⟨t, ht, hu⟩ := pullBits_of_enough hc (by omega) henough
  rw [hbits, List.take_left' (length_bitsOf count n), numberOf_bitsOf_of_lt hn] at ht
  rw [hbits, List.drop_left' (length_bitsOf count n)] at hu
  exact ⟨t, ht, hu⟩

/-! ## Where the bytes begin -/

/-- Behind the bits of a stream there is only the rest of its last byte. -/
theorem Unread.bytes_eq {bytes : Bytes} (h : s.Unread refill (bits ++ bytes.toBits)) (hp : refill.Leaves bits.length) :
    s.bytes = bytes := by
  have hb := h.toBits_eq
  have hlen := congrArg List.length hb
  rw [toBits, List.length_append, List.length_append, length_bitsOf, Bytes.length_toBits, Bytes.length_toBits] at hlen
  have e : s.reader.left = bits.length := h.leaves.eq hp (by omega)
  rw [toBits] at hb
  exact Bytes.toBits_injective (List.append_inj hb (by rw [length_bitsOf, e])).2

/-- Bits that are whole bytes are those behind the reader. -/
theorem Unread.bytes_eq_of_whole {bytes : Bytes} (h : s.Unread .onDemand bytes.toBits) : s.bytes = bytes := by
  rw [← List.nil_append bytes.toBits] at h
  exact h.bytes_eq (by decide : 0 < 8)

/-- A reader that is sent to the next whole byte reads what has been packed there. -/
theorem unread_align {bytes : Bytes} (hr : s.reader.refill = .onDemand) (hb : s.bytes = packBits bits ++ bytes) :
    ∃ pad, Refill.onDemand.Leaves pad.length ∧
      ({ s with reader := s.reader.align } : BitSource).Unread .onDemand (bits ++ (pad ++ bytes.toBits)) := by
  refine ⟨List.replicate ((8 - bits.length % 8) % 8) false, ?_, ?_⟩
  · rw [List.length_replicate]
    exact Nat.mod_lt _ (by decide)
  · have h := unread_of_left_eq_zero (s := { s with reader := s.reader.align }) hr rfl
    have e : s.bytes.toBits = bits ++ (List.replicate ((8 - bits.length % 8) % 8) false ++ bytes.toBits) := by
      rw [hb, Bytes.toBits_append, toBits_packBits, List.append_assoc]
    rw [← e]
    exact h

/-! ## Where the bits end -/

theorem pullBits_of_toBits_eq_nil (hpos : 0 < count) (h : s.toBits = []) : BitSource.pullBits count s = .error .underflow s := by
  obtain ⟨count, rfl⟩ : ∃ k, count = k + 1 := ⟨count - 1, by omega⟩
  rw [BitSource.pullBits, bind_of_error (pullBit_of_toBits_eq_nil h)]

/-- A source without bytes has no bits but those of its reader. -/
theorem toBits_align_of_nil {r : BitReader} : toBits ⟨r.align, []⟩ = [] := rfl

variable {t : BitSource} {e : CodecError}

/-- A lazy reader fails only where nothing is left. -/
theorem pullBit_error (hr : s.reader.refill = .onDemand) (h : BitSource.pullBit s = .error e t) :
    t = s ∧ s.reader.left = 0 := by
  rcases s with ⟨⟨refill, byte, left⟩, bytes⟩
  cases hr
  cases left with
  | succ left => cases h
  | zero =>
    cases bytes with
    | nil =>
      cases h
      exact ⟨rfl, rfl⟩
    | cons b bytes => cases h

/-- No reading changes how a reader takes its bytes. -/
theorem keeps_refill_pullBit (refill : Refill) : Keeps (fun s => s.reader.refill = refill) BitSource.pullBit := by
  rintro ⟨⟨refill', byte, left⟩, bytes⟩ rfl
  rcases left with _ | _ | left <;> rcases bytes with _ | ⟨b, bytes⟩ <;> cases refill' <;> rfl

theorem keeps_refill_pullBits (refill : Refill) (count : Nat) :
    Keeps (fun s => s.reader.refill = refill) (BitSource.pullBits count) := by
  induction count with
  | zero => exact keeps_pure _
  | succ count ih => exact (keeps_refill_pullBit refill).bind fun _ => ih.bind fun _ => keeps_pure _

theorem keeps_refill_align (refill : Refill) : Keeps (fun s => s.reader.refill = refill) BitSource.align := fun _ h => h

theorem pullBits_error (hr : s.reader.refill = .onDemand) (h : BitSource.pullBits count s = .error e t) :
    t.reader.refill = .onDemand ∧ t.reader.left = 0 := by
  induction count generalizing s with
  | zero => cases h
  | succ count ih =>
    rw [BitSource.pullBits] at h
    cases hbit : BitSource.pullBit s with
    | error e' u =>
      rw [bind_of_error hbit] at h
      cases h
      obtain ⟨rfl, hleft⟩ := pullBit_error hr hbit
      exact ⟨hr, hleft⟩
    | ok b u =>
      have hu := (keeps_refill_pullBit .onDemand).ok hr hbit
      rw [bind_of_eq hbit] at h
      cases hbits : BitSource.pullBits count u with
      | error e' x =>
        rw [bind_of_error hbits] at h
        cases h
        exact ih hu hbits
      | ok n x =>
        rw [bind_of_eq hbits] at h
        cases h

def AtByte (s : BitSource) : Prop := s.reader.refill = .onDemand ∧ s.reader.left = 0

theorem keeps_atByte_pullBits (count : Nat) : Keeps AtByte (BitSource.pullBits (8 * count)) := by
  rintro s ⟨hr, hl⟩
  cases h : BitSource.pullBits (8 * count) s with
  | error e t => exact pullBits_error hr h
  | ok n t =>
    cases count with
    | zero =>
      cases h
      exact ⟨hr, hl⟩
    | succ count =>
      have hlen : s.toBits.length = 8 * s.bytes.length := by
        rw [toBits, hl, bitsOf_zero, List.nil_append, Bytes.length_toBits]
      by_cases henough : 8 * (count + 1) + s.reader.refill.ahead ≤ s.toBits.length
      · obtain ⟨u, hu, hunread⟩ := pullBits_of_enough (by omega) (by omega) henough
        rw [h] at hu
        cases hu
        have hbits := congrArg List.length hunread.toBits_eq
        have hlt := hunread.leaves
        rw [hr] at hlt henough
        have hlt : t.reader.left < 8 := hlt
        have henough : 8 * (count + 1) ≤ s.toBits.length := henough
        rw [toBits, List.length_append, length_bitsOf, Bytes.length_toBits, List.length_drop, hlen] at hbits
        exact ⟨hunread.refill_eq.trans hr, by show t.reader.left = 0; omega⟩
      · obtain ⟨u, hu⟩ := BitSource.pullBits_of_short (by omega) (by omega) (Nat.lt_of_not_le henough)
        rw [h] at hu
        cases hu

end BitSource

end Chronicle
