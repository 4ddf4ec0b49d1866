/-
  Chronicle.Proofs.Column.Value — values of fixed width and their patterns, and PLAIN.

  A list of values of a type of fixed width is a list of patterns of its width (`exists_patterns`), and
  what the encoders ask a value for is that pattern (`requireBits_ofBits`). So what is known of patterns is
  known of values, and a statement about values begins by turning to their patterns.

  PLAIN is read back value by value (`Plain.pull_encode_append`). Every value ends by itself, so what
  follows it is left. Only a text needs a bound: its length has to fit the 64 bits that a length is read
  with (`Value.Sized`).
-/

import Chronicle.Column.Value
import Chronicle.Proofs.Wire.Varint

namespace Chronicle

open Reading

theorem FixedType.width_le (t : FixedType) : t.width ≤ 64 := by
  rcases t with _ | (_ | _ | _ | _) <;> decide

namespace Value

theorem bits?_ofBits {t : FixedType} {n : Nat} (h : n < 2 ^ t.width) : (ofBits t n).bits? = some n := by
  rcases t with _ | (_ | _ | _ | _)
  · have hn : n < 2 := h
    rcases Nat.le_one_iff_eq_zero_or_eq_one.1 (Nat.le_of_lt_succ hn) with rfl | rfl <;> rfl
  · have hn : n < 4294967296 := h
    simp [ofBits, bits?, hn]
  · have hn : n < 18446744073709551616 := h
    simp [ofBits, bits?, hn]
  · have hn : n < 4294967296 := h
    simp [ofBits, bits?, hn]
  · have hn : n < 18446744073709551616 := h
    simp [ofBits, bits?, hn]

theorem map_bits?_ofBits {t : FixedType} {patterns : List Nat} (h : ∀ n ∈ patterns, n < 2 ^ t.width) :
    (patterns.map (ofBits t)).map bits? = patterns.map some := by
  rw [List.map_map]
  exact List.map_congr_left fun n hn => bits?_ofBits (h n hn)

theorem requireBits_ofBits {t : FixedType} {n : Nat} (h : n < 2 ^ t.width) (expected : DataType) :
    (ofBits t n).requireBits expected = .ok n := by
  rw [requireBits, bits?_ofBits h]

theorem dataType_ofBits (t : FixedType) (n : Nat) : (ofBits t n).dataType = .fixed t := by
  rcases t with _ | (_ | _ | _ | _) <;> rfl

theorem dataType_of_mem_map_ofBits (t : FixedType) {patterns : List Nat} :
    ∀ v ∈ patterns.map (ofBits t), v.dataType = .fixed t := by
  intro v hv
  obtain ⟨n, -, rfl⟩ := List.mem_map.1 hv
  exact dataType_ofBits t n

/-- Every value of fixed width has a pattern of that width. -/
theorem exists_pattern {v : Value} {t : FixedType} (h : v.dataType = .fixed t) :
    ∃ n, n < 2 ^ t.width ∧ ofBits t n = v := by
  cases v with
  | boolean v =>
    cases h
    exact ⟨v.toNat, v.toNat_lt, ofBits_bits rfl rfl⟩
  | int32 v =>
    cases h
    exact ⟨v.toUInt32.toNat, v.toUInt32.toNat_lt, ofBits_bits rfl rfl⟩
  | int64 v =>
    cases h
    exact ⟨v.toUInt64.toNat, v.toUInt64.toNat_lt, ofBits_bits rfl rfl⟩
  | float v =>
    cases h
    exact ⟨v.bits.toNat, v.bits.toNat_lt, ofBits_bits rfl rfl⟩
  | double v =>
    cases h
    exact ⟨v.bits.toNat, v.bits.toNat_lt, ofBits_bits rfl rfl⟩
  | text bytes => cases h

theorem exists_patterns {values : List Value} {t : FixedType} (h : ∀ v ∈ values, v.dataType = .fixed t) :
    ∃ patterns : List Nat, (∀ n ∈ patterns, n < 2 ^ t.width) ∧ patterns.map (ofBits t) = values := by
  induction values with
  | nil => exact ⟨[], by simp, rfl⟩
  | cons v values ih =>
    obtain ⟨hv, hvalues⟩ := List.forall_mem_cons.1 h
    obtain ⟨n, hn, rfl⟩ := exists_pattern hv
    obtain ⟨patterns, hp, rfl⟩ := ih hvalues
    exact ⟨n :: patterns, List.forall_mem_cons.2 ⟨hn, hp⟩, rfl⟩

end Value

/-! ## PLAIN -/

/-- A text whose length is a number of 64 bits; the other values have no length. -/
def Value.Sized : Value → Prop
  | .text bytes => bytes.length < 2 ^ 64
  | _ => True

namespace Plain

theorem pullBool_ofBool_append (fault : UInt8 → FormatFault) (b : Bool) (rest : Bytes) :
    pullBool fault (ofBool b ++ rest) = .ok b rest := by
  cases b <;> rfl

theorem pullText_ofText_append {bytes : Bytes} (h : bytes.length < 2 ^ 64) (rest : Bytes) :
    pullText (ofText bytes ++ rest) = .ok bytes rest := by
  rw [ofText, List.append_assoc, pullText, bind_of_eq (Varint.pull_encode_append h _)]
  exact Bytes.pull_append bytes rest

theorem pull_encode_append {v : Value} (h : v.Sized) (rest : Bytes) :
    pull v.dataType (encode v ++ rest) = .ok v rest := by
  cases v with
  | boolean b => exact map_of_eq (pullBool_ofBool_append _ b rest)
  | int32 v => exact map_of_eq (Zigzag.pull_encode_append v rest)
  | int64 v => exact map_of_eq (BigEndian.pull_toBytes_append v rest)
  | float v => exact map_of_eq (BigEndian.pull_toBytes_append v rest)
  | double v => exact map_of_eq (BigEndian.pull_toBytes_append v rest)
  | text bytes => exact map_of_eq (pullText_ofText_append h rest)

theorem encode_ne_nil (v : Value) : encode v ≠ [] := by
  have hword {α : Type} [BigEndian α] (a : α) (hpos : 0 < BigEndian.size α) : BigEndian.toBytes a ≠ [] :=
    List.ne_nil_of_length_pos (by rw [BigEndian.length_toBytes]; exact hpos)
  cases v with
  | boolean b => exact List.cons_ne_nil _ _
  | int32 v => exact Varint.encode_ne_nil _
  | int64 v => exact hword v (by decide)
  | float v => exact hword v (by decide)
  | double v => exact hword v (by decide)
  | text bytes => exact List.append_ne_nil_of_left_ne_nil (Varint.encode_ne_nil _) _

end Plain

end Chronicle
