/-
  Chronicle.Proofs.Machine.Bytes — byte strings read on machine words.

  What takes bytes stands behind a check that they are there, so it is never trapped
  (`matches_ensure_takeBytes`). A varint that is put together with shifts is the number that its bytes write: the
  groups that are there are below those to come, so `|||` adds them (`toNat_or_group`). Its tenth byte ends it,
  whatever the bytes are, so that ten rounds are enough (`Varint.matches_read`).

  The sign of a zigzag number is a single bit, which is never the signed word that has no negative
  (`low_bit_ne_minValue`). PLAIN is put together of these.
-/

import Chronicle.Machine.Bytes
import Chronicle.Proofs.Machine.BitReader

namespace Chronicle

/-- Each byte of a number makes it 256 times as great at most. -/
theorem Bytes.foldl_lt (bytes : Bytes) (n : Nat) :
    bytes.foldl (fun n b => n * 256 + b.toNat) n < (n + 1) * 256 ^ bytes.length := by
  induction bytes generalizing n with
  | nil => simp
  | cons b bytes ih =>
    have hb := b.toNat_lt
    calc bytes.foldl (fun n b => n * 256 + b.toNat) (n * 256 + b.toNat)
        < (n * 256 + b.toNat + 1) * 256 ^ bytes.length := ih _
      _ ≤ (n + 1) * 256 * 256 ^ bytes.length := Nat.mul_le_mul_right _ (by omega)
      _ = (n + 1) * 256 ^ (b :: bytes).length := by rw [Nat.mul_assoc, ← Nat.pow_succ', List.length_cons]

theorem Bytes.toNat_lt (bytes : Bytes) : bytes.toNat < 256 ^ bytes.length := by
  have h := foldl_lt bytes 0
  rwa [Nat.zero_add, Nat.one_mul] at h

namespace Machine

open Guarded (shiftLeft64_eq negate32_eq)

/-- The same bytes, and no more than `bound` of them. -/
def SameBytes (bound : Nat) (bytes bytes' : Bytes) : Prop := bytes' = bytes ∧ bytes.length ≤ bound

variable {bound : Nat} {s s' : Bytes}

/-! ## Single bytes, and some of them -/

theorem takeByte_matches (h : SameBytes bound s s') (hpos : 0 < s.length) {E : Bytes → Bytes → Prop} :
    Matches (fun b b' t t' => b = b' ∧ t.length + 1 = s.length ∧ SameBytes bound t t') E (takeByte s) (Bytes.pullByte s') := by
  obtain ⟨rfl, hlength⟩ := h
  cases s' with
  | nil => cases hpos
  | cons b bytes => exact .ok ⟨rfl, rfl, rfl, Nat.le_of_succ_le hlength⟩

theorem takeBytes_matches {count : Nat} (h : SameBytes bound s s') (hcount : count ≤ s.length)
    {E : Bytes → Bytes → Prop} :
    Matches (fun b b' t t' => b = b' ∧ b.length = count ∧ t.length + count = s.length ∧ SameBytes bound t t') E (takeBytes count s)
      (Bytes.pull count s') := by
  obtain ⟨rfl, hlength⟩ := h
  unfold takeBytes Bytes.pull
  rw [if_pos hcount, if_pos hcount]
  refine .ok ⟨rfl, ?_, ?_, rfl, ?_⟩
  · rw [List.length_take, Nat.min_eq_left hcount]
  · rw [List.length_drop]
    omega
  · rw [List.length_drop]
    omega

theorem ensure_of_le {count : Nat} (h : count ≤ s.length) : ensure count s = .ok () s := by
  unfold ensure
  rw [get_bind, if_neg (Nat.not_lt.mpr h)]
  rfl

theorem ensure_of_lt {count : Nat} (h : s.length < count) : ensure count s = .error (.failed .underflow) s := by
  unfold ensure
  rw [get_bind, if_pos h]
  rfl

theorem matches_ensure {count : Nat} (h : SameBytes bound s s') :
    Matches (fun _ _ t t' => count ≤ t.length ∧ SameBytes bound t t') (SameBytes bound) (ensure count s) (Bytes.need count s') := by
  obtain ⟨rfl, hlength⟩ := h
  unfold Bytes.need
  by_cases hcount : count ≤ s'.length
  · rw [if_pos hcount, ensure_of_le hcount]
    exact .ok ⟨hcount, rfl, hlength⟩
  · rw [if_neg hcount, ensure_of_lt (Nat.lt_of_not_le hcount)]
    exact .error ⟨rfl, hlength⟩

/-- A check in front of what takes as many bytes. -/
theorem matches_ensure_takeBytes (count : Nat) (h : SameBytes bound s s') :
    Matches (fun b b' t t' => b = b' ∧ b.length = count ∧ SameBytes bound t t') (SameBytes bound)
      ((do ensure count; takeBytes count : Guarded Bytes Bytes) s) (Bytes.pull count s') := by
  by_cases hcount : count ≤ s.length
  · rw [bind_of_eq (ensure_of_le hcount)]
    exact (takeBytes_matches h hcount).mono (fun _ _ _ _ h => ⟨h.1, h.2.1, h.2.2.2⟩) fun _ _ => id
  · obtain ⟨rfl, hlength⟩ := h
    have hensure := ensure_of_lt (Nat.lt_of_not_le hcount)
    rw [bind_of_error hensure]
    unfold Bytes.pull
    rw [if_neg hcount]
    exact .error ⟨rfl, hlength⟩

/-! ## Words -/

section Words

variable {α : Type} [BigEndian α]

theorem pull_eq : (BigEndian.pull : Reading Bytes α) =
    (do return BigEndian.ofWord (Bytes.toNat (← Bytes.pull (BigEndian.size α)))) := by
  simp only [BigEndian.pull, Bytes.pullNat, bind_assoc, pure_bind]

theorem takeWord_matches (h : SameBytes bound s s') (hcount : BigEndian.size α ≤ s.length) {E : Bytes → Bytes → Prop} :
    Matches (fun w w' t t' => w = w' ∧ t.length + BigEndian.size α = s.length ∧ SameBytes bound t t') E
      (takeWord (α := α) s) (BigEndian.pull s') := by
  rw [pull_eq]
  refine (takeBytes_matches h hcount).map ?_
  rintro b _ t t' ⟨rfl, -, ht⟩
  exact ⟨rfl, ht⟩

theorem matches_readWord (h : SameBytes bound s s') :
    Matches (fun w w' t t' => w = w' ∧ SameBytes bound t t') (SameBytes bound) (readWord (α := α) s)
      (BigEndian.pull s') := by
  have hread : (readWord : Guarded Bytes α) =
      (do return BigEndian.ofWord (Bytes.toNat (← (do ensure (BigEndian.size α); takeBytes (BigEndian.size α))))) := by
    simp only [readWord, takeWord, bind_assoc]
  rw [pull_eq, hread]
  refine (matches_ensure_takeBytes (BigEndian.size α) h).map ?_
  rintro b _ t t' ⟨rfl, -, ht⟩
  exact ⟨rfl, ht⟩

end Words

/-! ## Numbers of variable length -/

theorem and_low7 (b : UInt8) : (b &&& 0x7F).toNat = b.toNat % 128 := by
  rw [UInt8.toNat_and]
  exact Nat.and_two_pow_sub_one_eq_mod b.toNat 7

theorem and_top_eq_zero_iff (b : UInt8) : b &&& 0x80 = 0 ↔ b < 128 := by
  have hall : ∀ n < 256, n &&& 128 = 0 ↔ n < 128 := by decide +kernel
  rw [← UInt8.toNat_inj, UInt8.toNat_and, UInt8.lt_iff_toNat_lt]
  exact hall b.toNat b.toNat_lt

namespace Varint

theorem toNat_places {i : UInt8} (hi : i.toNat ≤ 9) : (7 * i).toNat = 7 * i.toNat := by
  rw [UInt8.toNat_mul]
  exact Nat.mod_eq_of_lt (show 7 * i.toNat < 256 by omega)

/-- A group of bits in front of those that are there. -/
theorem toNat_or_group {value : UInt64} {b i : UInt8} (hi : i.toNat ≤ 9) (hvalue : value.toNat < 2 ^ (7 * i.toNat))
    (hroom : b.toNat % 128 * 2 ^ (7 * i.toNat) < 2 ^ 64) :
    (value ||| (b &&& 0x7F).toUInt64 <<< (7 * i).toUInt64).toNat = value.toNat + 2 ^ (7 * i.toNat) * (b.toNat % 128) := by
  rw [UInt64.toNat_or, UInt64.toNat_shiftLeft, UInt8.toNat_toUInt64, UInt8.toNat_toUInt64, toNat_places hi, and_low7,
    Nat.mod_eq_of_lt (show 7 * i.toNat < 64 by omega), Nat.shiftLeft_eq, Nat.mod_eq_of_lt hroom, Nat.or_comm,
    ← Nat.shiftLeft_eq, ← Nat.shiftLeft_add_eq_or_of_lt hvalue, Nat.shiftLeft_eq, Nat.mul_comm, Nat.add_comm]

/-- A number goes on as long as bytes have their top bit. -/
theorem readFrom_cons {value : UInt64} {i b : UInt8} {more : Nat} {bytes : Bytes} (hi : i.toNat ≤ 9)
    (hb : ¬ (i = 9 ∧ 1 < b)) :
    readFrom value i (more + 1) (b :: bytes) =
      (if b < 128 then pure (value ||| (b &&& 0x7F).toUInt64 <<< (7 * i).toUInt64)
        else readFrom (value ||| (b &&& 0x7F).toUInt64 <<< (7 * i).toUInt64) (i + 1) more) bytes := by
  have hplaces : (7 * i).toNat < 64 := by
    rw [toNat_places hi]
    omega
  show (if i = 9 ∧ 1 < b then _ else (Guarded.shiftLeft64 _ _ >>= _ : Guarded Bytes UInt64)) bytes = _
  rw [if_neg hb, bind_of_eq (shiftLeft64_eq hplaces)]
  simp only [and_top_eq_zero_iff]

/-- The groups of seven bits that are there are below those to come. -/
theorem matches_readFrom (value : UInt64) (i : UInt8) {more : Nat} (hi : i.toNat + more = 9)
    (hvalue : value.toNat < 2 ^ (7 * i.toNat)) (h : SameBytes bound s s') :
    Matches (fun w n t t' => w.toNat = value.toNat + 2 ^ (7 * i.toNat) * n ∧ SameBytes bound t t') (SameBytes bound)
      (readFrom value i (more + 1) s) (Chronicle.Varint.pullWithin more s') := by
  induction more generalizing value i s s' with
  | zero =>
    obtain ⟨rfl, hlength⟩ := h
    cases s' with
    | nil => exact .error ⟨rfl, hlength⟩
    | cons b bytes =>
      obtain rfl : i = 9 := UInt8.toNat_inj.mp hi
      have hbytes : SameBytes bound bytes bytes := ⟨rfl, Nat.le_of_succ_le hlength⟩
      show Matches _ _ _ ((if 1 < b then throw _ else pure b.toNat : Reading Bytes Nat) bytes)
      by_cases hb : 1 < b
      · rw [if_pos hb]
        show Matches _ _ ((if (9 : UInt8) = 9 ∧ 1 < b then _ else _ : Guarded Bytes UInt64) bytes) _
        rw [if_pos ⟨rfl, hb⟩]
        exact .error hbytes
      · have hle : b.toNat ≤ 1 := Nat.le_of_not_lt fun h => hb (UInt8.lt_iff_toNat_lt.mpr h)
        have hsmall : b < 128 := UInt8.lt_iff_toNat_lt.mpr (Nat.lt_of_le_of_lt hle (by decide))
        have hmod : b.toNat % 128 = b.toNat := Nat.mod_eq_of_lt (by omega)
        rw [if_neg hb, readFrom_cons (by decide) fun h => hb h.2, if_pos hsmall]
        refine matches_pure ⟨?_, hbytes⟩
        rw [toNat_or_group (by decide) hvalue, hmod]
        rw [hmod]
        show b.toNat * 2 ^ 63 < 2 ^ 64
        omega
  | succ more ih =>
    obtain ⟨rfl, hlength⟩ := h
    cases s' with
    | nil => exact .error ⟨rfl, hlength⟩
    | cons b bytes =>
      have hbytes : SameBytes bound bytes bytes := ⟨rfl, Nat.le_of_succ_le hlength⟩
      have hnot : i ≠ 9 := by
        rintro rfl
        have hi : 9 + (more + 1) = 9 := hi
        omega
      have hpow : 2 ^ (7 * i.toNat) ≤ 2 ^ 56 := Nat.pow_le_pow_right (by decide) (by omega)
      have hroom : b.toNat % 128 * 2 ^ (7 * i.toNat) < 2 ^ 64 := by
        have := Nat.mul_le_mul (Nat.le_of_lt (Nat.mod_lt b.toNat (by decide : 0 < 128))) hpow
        omega
      have hsum := toNat_or_group (by omega) hvalue hroom
      have hsucc : (i + 1).toNat = i.toNat + 1 := by
        rw [UInt8.toNat_add]
        exact Nat.mod_eq_of_lt (show i.toNat + 1 < 256 by omega)
      have hshift : 2 ^ (7 * (i.toNat + 1)) = 2 ^ (7 * i.toNat) * 128 := by rw [Nat.mul_add, Nat.pow_add]
      rw [readFrom_cons (by omega) fun h => hnot h.1]
      show Matches _ _ _ ((if b < 128 then pure b.toNat else _ : Reading Bytes Nat) bytes)
      refine .ite Iff.rfl ?_ ?_
      · intro hb
        refine matches_pure ⟨?_, hbytes⟩
        have hb : b.toNat < 128 := UInt8.lt_iff_toNat_lt.mp hb
        rw [hsum, Nat.mod_eq_of_lt hb]
      · intro hb
        have hb : ¬ b.toNat < 128 := fun h => hb (UInt8.lt_iff_toNat_lt.mpr h)
        have hlow : b.toNat % 128 = b.toNat - 128 := by
          have := b.toNat_lt
          omega
        have hnext : (value ||| (b &&& 0x7F).toUInt64 <<< (7 * i).toUInt64).toNat < 2 ^ (7 * (i + 1).toNat) := by
          have := Nat.mul_le_mul_left (2 ^ (7 * i.toNat)) (show b.toNat % 128 ≤ 127 by omega)
          rw [hsum, hsucc, hshift]
          omega
        have hrest := ih (value ||| (b &&& 0x7F).toUInt64 <<< (7 * i).toUInt64) (i + 1) (by omega) hnext hbytes
        refine hrest.map_right ?_
        rintro w n t t' ⟨hw, ht⟩
        refine ⟨?_, ht⟩
        rw [hw, hsum, hsucc, hshift, hlow, Nat.mul_add, Nat.mul_assoc, Nat.add_assoc]

theorem matches_read (h : SameBytes bound s s') :
    Matches (fun w n t t' => w.toNat = n ∧ SameBytes bound t t') (SameBytes bound) (read s) (Chronicle.Varint.pull s') := by
  refine (matches_readFrom 0 0 (show (0 : UInt8).toNat + 9 = 9 from rfl) (by decide) h).mono ?_ fun _ _ => id
  rintro w n t t' ⟨hw, ht⟩
  refine ⟨?_, ht⟩
  simpa using hw

theorem matches_read32 (h : SameBytes bound s s') :
    Matches (fun w n t t' => w.toNat = n ∧ SameBytes bound t t') (SameBytes bound) (read32 s) (Chronicle.Varint.pull32 s') := by
  refine (matches_read h).bind ?_
  rintro w _ t t' ⟨rfl, ht⟩
  refine .ite Iff.rfl ?_ ?_
  · intro _
    exact .error ht
  · intro hsmall
    refine matches_pure ⟨?_, ht⟩
    rw [UInt64.toNat_toUInt32]
    exact Nat.mod_eq_of_lt (Nat.lt_of_not_le hsmall)

end Varint

/-- The sign of a zigzag number is its lowest bit. -/
theorem zigzag_eq (n : UInt32) : (n >>> 1).toInt32 ^^^ -(n &&& 1).toInt32 = Zigzag.decode n.toNat := by
  have hlow : (n &&& 1).toNat = n.toNat % 2 := by
    rw [UInt32.toNat_and, UInt32.toNat_one, Nat.and_one_is_mod]
  have hhalf : (n >>> 1).toBitVec.toNat = n.toNat / 2 := by
    show (n >>> 1).toNat = _
    rw [UInt32.toNat_shiftRight, UInt32.toNat_one]
    exact Nat.shiftRight_eq_div_pow n.toNat 1
  have hlt := n.toNat_lt
  unfold Zigzag.decode
  by_cases heven : n.toNat % 2 = 0
  · have hzero : n &&& 1 = 0 := UInt32.toNat_inj.mp (hlow.trans heven)
    rw [if_pos heven, hzero]
    apply Int32.toBitVec_inj.mp
    apply BitVec.eq_of_toNat_eq
    show ((n >>> 1).toBitVec ^^^ 0#32).toNat = (BitVec.ofInt 32 (n.toNat / 2)).toNat
    rw [BitVec.xor_zero, hhalf, BitVec.toNat_ofInt]
    omega
  · have hone : n &&& 1 = 1 := UInt32.toNat_inj.mp (hlow.trans (by rw [UInt32.toNat_one]; omega))
    rw [if_neg heven, hone]
    apply Int32.toBitVec_inj.mp
    apply BitVec.eq_of_toNat_eq
    show ((n >>> 1).toBitVec ^^^ BitVec.allOnes 32).toNat = (BitVec.ofInt 32 (-(n.toNat / 2) - 1)).toNat
    rw [BitVec.xor_allOnes, BitVec.toNat_not, hhalf, BitVec.toNat_ofInt]
    omega

/-- A single bit is not the number that has no negative. -/
theorem low_bit_ne_minValue (n : UInt32) : (n &&& 1).toInt32 ≠ Int32.minValue := by
  intro h
  have hbits : (n &&& 1).toNat = Int32.minValue.toUInt32.toNat := congrArg (fun v : Int32 => v.toUInt32.toNat) h
  rw [UInt32.toNat_and, UInt32.toNat_one, Nat.and_one_is_mod] at hbits
  have : n.toNat % 2 = 2 ^ 31 := hbits
  omega

theorem matches_readZigzag (h : SameBytes bound s s') :
    Matches (fun v v' t t' => v = v' ∧ SameBytes bound t t') (SameBytes bound) (readZigzag s) (Zigzag.pull s') := by
  refine (Varint.matches_read32 h).bind ?_
  rintro n _ t t' ⟨rfl, ht⟩
  rw [bind_of_eq (negate32_eq (low_bit_ne_minValue n))]
  exact matches_pure ⟨zigzag_eq n, ht⟩

theorem matches_readText (h : SameBytes bound s s') :
    Matches (fun b b' t t' => b = b' ∧ SameBytes bound t t') (SameBytes bound) (readText s) (Plain.pullText s') := by
  refine (Varint.matches_read h).bind ?_
  rintro n _ t t' ⟨rfl, ht⟩
  exact (matches_ensure_takeBytes n.toNat ht).mono (fun _ _ _ _ h => ⟨h.1, h.2.2⟩) fun _ _ => id

/-- A byte that is there and has to be 0 or 1. -/
theorem takeBool_matches (fault : UInt8 → FormatFault) (h : SameBytes bound s s') (hpos : 0 < s.length) :
    Matches (fun b b' t t' => b = b' ∧ t.length + 1 = s.length ∧ SameBytes bound t t') (SameBytes bound) (takeBool fault s)
      (Plain.pullBool fault s') := by
  refine (takeByte_matches h hpos).bind ?_
  rintro b _ t t' ⟨rfl, hlength, ht⟩
  by_cases hzero : b = 0
  · subst hzero
    exact .ok ⟨rfl, hlength, ht⟩
  · by_cases hone : b = 1
    · subst hone
      exact .ok ⟨rfl, hlength, ht⟩
    · rw [if_neg hzero, if_neg hone]
      split
      · next h => exact absurd rfl hzero
      · next h => exact absurd rfl hone
      · exact .error ht

namespace Plain

theorem matches_readBool (h : SameBytes bound s s') :
    Matches (fun b b' t t' => b = b' ∧ SameBytes bound t t') (SameBytes bound)
      ((do ensure 1; takeBool .booleanByte : Guarded Bytes Bool) s) (Chronicle.Plain.pullBool .booleanByte s') := by
  cases s with
  | nil =>
    obtain ⟨rfl, hlength⟩ := h
    exact .error ⟨rfl, hlength⟩
  | cons b bytes =>
    rw [bind_of_eq (ensure_of_le (Nat.le_add_left 1 bytes.length))]
    exact (takeBool_matches _ h (Nat.succ_pos _)).mono (fun _ _ _ _ h => ⟨h.1, h.2.2⟩) fun _ _ => id

theorem matches_read (t : DataType) (h : SameBytes bound s s') :
    Matches (fun v v' t t' => v = v' ∧ SameBytes bound t t') (SameBytes bound) (read t s) (Chronicle.Plain.pull t s') := by
  rcases t with (_ | (_ | _ | _ | _)) | _
  · have hread : read .boolean = (do return .boolean (← (do ensure 1; takeBool .booleanByte))) := by
      simp only [bind_assoc]
      rfl
    rw [hread]
    exact (matches_readBool h).map fun _ _ _ _ h => ⟨congrArg Value.boolean h.1, h.2⟩
  · exact (matches_readZigzag h).map fun _ _ _ _ h => ⟨congrArg Value.int32 h.1, h.2⟩
  · exact (matches_readWord h).map fun _ _ _ _ h => ⟨congrArg Value.int64 h.1, h.2⟩
  · exact (matches_readWord h).map fun _ _ _ _ h => ⟨congrArg Value.float h.1, h.2⟩
  · exact (matches_readWord h).map fun _ _ _ _ h => ⟨congrArg Value.double h.1, h.2⟩
  · exact (matches_readText h).map fun _ _ _ _ h => ⟨congrArg Value.text h.1, h.2⟩

end Plain

end Machine

end Chronicle
