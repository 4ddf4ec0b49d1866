/-
  Chronicle.Proofs.Machine.Varint — numbers of variable length on machine words.

  Reading with shifts is reading without (`read_eq_ok_iff`, `read_eq_error_iff`) and writing with shifts is
  writing without (`write_eq`, `writeZigzag_eq`), so what is known of the forms of a number says what becomes of
  any bytes (`varint_is_exact`).
  - A number is read exactly if a form of ten bytes or less, and of a number of 64 bits, is in front.
  - Bytes are lacking exactly if all that there are go on, and they are fewer than ten.
  - In any other case the bytes are malformed, and ten of them have been taken.
  - What is written is the shortest form of its number, and signed numbers are written as their zigzag number.
-/

import Chronicle.Proofs.Machine.Bytes
import Chronicle.Proofs.Wire.VarintForms

namespace Chronicle.Machine

/-- Of sources that are the same bytes only that is known. -/
theorem Matches.of_sameBytes {α β : Type} {R : α → β → Prop} {bound : Nat} {r : EStateM.Result Halt Bytes α}
    {r' : EStateM.Result CodecError Bytes β} (h : Matches (fun a b t t' => R a b ∧ SameBytes bound t t') (SameBytes bound) r r') :
    Matches (fun a b t t' => R a b ∧ t' = t) (fun t t' => t' = t) r r' :=
  h.mono (fun _ _ _ _ h => ⟨h.1, h.2.1⟩) fun _ _ h => h.1

namespace Varint

open Chronicle.Varint (IsForm total total_eq_weigh)

variable {bytes rest left : Bytes} {v : UInt64} {e : CodecError}

/-! ## Reading -/

/-- On words and without them the same is read and left. -/
theorem matches_pull (bytes : Bytes) :
    Matches (fun v n t t' => v.toNat = n ∧ t' = t) (fun t t' => t' = t) (read bytes) (Chronicle.Varint.pull bytes) :=
  (matches_read ⟨rfl, Nat.le_refl bytes.length⟩).of_sameBytes

theorem read_eq_ok_iff : read bytes = .ok v rest ↔ Chronicle.Varint.pull bytes = .ok v.toNat rest := by
  have hmatches := matches_pull bytes
  constructor
  · intro h
    rw [h] at hmatches
    obtain ⟨_, _, hpull, rfl, rfl⟩ := hmatches.exists_ok_right
    exact hpull
  · intro h
    rw [h] at hmatches
    obtain ⟨w, _, hread, hw, rfl⟩ := hmatches.exists_ok
    rw [hread, UInt64.toNat_inj.mp hw]

theorem read_eq_error_iff : read bytes = .error (.failed e) left ↔ Chronicle.Varint.pull bytes = .error e left := by
  have hmatches := matches_pull bytes
  constructor
  · intro h
    rw [h] at hmatches
    obtain ⟨_, hpull, rfl⟩ := hmatches.exists_error_right
    exact hpull
  · intro h
    rw [h] at hmatches
    obtain ⟨_, hread, rfl⟩ := hmatches.exists_error
    exact hread

theorem read_eq_ok_iff_form :
    read bytes = .ok v rest ↔
      ∃ form, IsForm form ∧ form.length ≤ 10 ∧ total form < 2 ^ 64 ∧ bytes = form ++ rest ∧ v.toNat = total form := by
  rw [read_eq_ok_iff]
  constructor
  · intro h
    obtain ⟨form, hform, hlength, rfl, hv⟩ := Chronicle.Varint.exists_form_of_pullWithin h
    rw [← total_eq_weigh] at hv
    exact ⟨form, hform, hlength, hv ▸ v.toNat_lt, rfl, hv⟩
  · rintro ⟨form, hform, hlength, hsmall, rfl, hv⟩
    rw [total_eq_weigh] at hsmall hv
    rw [hv]
    exact Chronicle.Varint.pullWithin_form_append hform hlength hsmall rest

theorem read_underflow_iff :
    (∃ left, read bytes = .error (.failed .underflow) left) ↔ bytes.length < 10 ∧ ∀ b ∈ bytes, 128 ≤ b := by
  simp only [read_eq_error_iff]
  constructor
  · rintro ⟨left, h⟩
    rcases Chronicle.Varint.pullWithin_error h with ⟨-, hunfinished⟩ | ⟨he, -⟩
    · exact hunfinished
    · cases he
  · rintro ⟨hlength, hall⟩
    exact ⟨[], Chronicle.Varint.pullWithin_of_unfinished hlength hall⟩

/-- What is no number, and not the beginning of one either, is refused behind ten bytes. -/
theorem read_cases (bytes : Bytes) :
    (∃ v rest, read bytes = .ok v rest) ∨ (∃ left, read bytes = .error (.failed .underflow) left) ∨
      ∃ front left, front.length = 10 ∧ bytes = front ++ left ∧
        read bytes = .error (.failed (.malformed .varintTooLarge)) left := by
  have hmatches := matches_pull bytes
  cases hpull : Chronicle.Varint.pull bytes with
  | ok n rest =>
    rw [hpull] at hmatches
    obtain ⟨v, rest, hread, -⟩ := hmatches.exists_ok
    exact .inl ⟨v, rest, hread⟩
  | error e left =>
    rcases Chronicle.Varint.pullWithin_error hpull with ⟨rfl, -⟩ | ⟨rfl, front, hlength, hbytes⟩
    · exact .inr (.inl ⟨left, read_eq_error_iff.mpr hpull⟩)
    · exact .inr (.inr ⟨front, left, hlength, hbytes, read_eq_error_iff.mpr hpull⟩)

/-! ## Writing -/

/-- The lowest digit, with the bit that says that another one follows. -/
theorem toNat_or_top (v : UInt64) : (v.toUInt8 ||| 0x80).toNat = v.toNat % 128 + 128 := by
  have htop : (v.toUInt8 ||| 0x80).toNat = v.toNat % 256 ||| 128 := by
    rw [UInt8.toNat_or, UInt64.toNat_toUInt8]
    rfl
  have hall : ∀ n < 256, n ||| 128 = n % 128 + 128 := by decide +kernel
  rw [htop, hall _ (Nat.mod_lt _ (by decide)), Nat.mod_mod_of_dvd _ (by decide)]

theorem toNat_shiftRight_seven (v : UInt64) : (v >>> 7).toNat = v.toNat / 128 := by
  rw [UInt64.toNat_shiftRight]
  exact Nat.shiftRight_eq_div_pow v.toNat 7

theorem write_eq (v : UInt64) : write v = Chronicle.Varint.encode v.toNat := by
  induction v using write.induct with
  | case1 v h ih =>
    have hlarge : 128 ≤ v.toNat := UInt64.le_iff_toNat_le.mp h
    have hlow : v.toUInt8 ||| 0x80 = UInt8.ofNat (v.toNat % 128 + 128) := by
      apply UInt8.toNat_inj.mp
      rw [toNat_or_top, Chronicle.Varint.toNat_ofNat_digit]
    rw [write, Chronicle.Varint.encode, if_pos h, if_neg (Nat.not_lt.mpr hlarge), ih, toNat_shiftRight_seven, hlow]
  | case2 v h =>
    have hsmall : v.toNat < 128 := Nat.lt_of_not_le fun hle => h (UInt64.le_iff_toNat_le.mpr hle)
    rw [write, Chronicle.Varint.encode, if_neg h, if_pos hsmall]
    rfl

/-- What is written is a form of the number, and every other one is longer. -/
theorem write_shortest (v : UInt64) :
    IsForm (write v) ∧ total (write v) = v.toNat ∧
      ∀ form, IsForm form → total form = v.toNat → form = write v ∨ (write v).length < form.length := by
  rw [write_eq]
  refine ⟨Chronicle.Varint.isForm_encode _, ?_, ?_⟩
  · rw [total_eq_weigh, Chronicle.Varint.weigh_encode]
  · intro form hform htotal
    rw [← htotal, total_eq_weigh]
    exact Chronicle.Varint.shortest_encode hform

theorem read_write_append (v : UInt64) (rest : Bytes) : read (write v ++ rest) = .ok v rest := by
  rw [read_eq_ok_iff, write_eq]
  exact Chronicle.Varint.pull_encode_append v.toNat_lt rest

end Varint

/-! ## Numbers with a sign -/

/-- What the sign of a number is shifted to. -/
theorem toInt_shiftRight_all (v : Int32) : (v >>> 31).toInt = if v.toInt < 0 then -1 else 0 := by
  have hplaces : (31 : Int32).toBitVec.smod 32 = 31#32 := by decide
  have hlow := v.le_toInt
  have hhigh := v.toInt_lt
  rw [← Int32.toInt_toBitVec, Int32.toBitVec_shiftRight, hplaces, BitVec.toInt_sshiftRight', Int.shiftRight_eq_div_pow,
    Int32.toInt_toBitVec]
  show v.toInt / 2 ^ 31 = _
  split <;> omega

theorem toNat_shiftLeft_one (v : Int32) : (v <<< 1).toBitVec.toNat = 2 * v.toBitVec.toNat % 2 ^ 32 := by
  have hplaces : (1 : Int32).toBitVec.smod 32 = 1#32 := by decide
  rw [Int32.toBitVec_shiftLeft, hplaces, BitVec.shiftLeft_eq', BitVec.toNat_shiftLeft, Nat.shiftLeft_eq, Nat.mul_comm]
  rfl

theorem toNat_zigzag (v : Int32) : (zigzag v).toNat = Zigzag.encode v := by
  have hsign := toInt_shiftRight_all v
  have hdouble := toNat_shiftLeft_one v
  have hv := BitVec.toInt_eq_toNat_cond v.toBitVec
  rw [Int32.toInt_toBitVec] at hv
  have hlt := v.toBitVec.isLt
  show ((v <<< 1).toBitVec ^^^ (v >>> 31).toBitVec).toNat = _
  unfold Zigzag.encode
  by_cases hneg : v.toInt < 0
  · rw [if_pos hneg] at hsign
    have hall : v >>> 31 = -1 := Int32.toInt_inj.mp hsign
    rw [hall, if_pos hneg]
    show ((v <<< 1).toBitVec ^^^ BitVec.allOnes 32).toNat = _
    rw [BitVec.xor_allOnes, BitVec.toNat_not, hdouble]
    split at hv <;> omega
  · rw [if_neg hneg] at hsign
    have hnone : v >>> 31 = 0 := Int32.toInt_inj.mp hsign
    rw [hnone, if_neg hneg]
    show ((v <<< 1).toBitVec ^^^ 0#32).toNat = _
    rw [BitVec.xor_zero, hdouble]
    split at hv <;> omega

theorem writeZigzag_eq (v : Int32) : writeZigzag v = Chronicle.Varint.encode (Zigzag.encode v) := by
  rw [writeZigzag, Varint.write_eq, UInt32.toNat_toUInt64, toNat_zigzag]

theorem matches_pull_zigzag (bytes : Bytes) :
    Matches (fun w w' t t' => w = w' ∧ t' = t) (fun t t' => t' = t) (readZigzag bytes) (Zigzag.pull bytes) :=
  (matches_readZigzag ⟨rfl, Nat.le_refl bytes.length⟩).of_sameBytes

theorem readZigzag_writeZigzag_append (v : Int32) (rest : Bytes) : readZigzag (writeZigzag v ++ rest) = .ok v rest := by
  have hmatches := matches_pull_zigzag (writeZigzag v ++ rest)
  rw [writeZigzag_eq, Zigzag.pull_encode_append] at hmatches
  obtain ⟨_, _, hread, rfl, rfl⟩ := hmatches.exists_ok
  rw [writeZigzag_eq, hread]

open Chronicle.Varint (IsForm total)

/-- Whatever the bytes are: a number is read exactly if a form of ten bytes or less and of a number
    below `2 ^ 64` is in front, bytes are lacking exactly if there are less than ten and all of them
    go on, and anything else is refused behind ten bytes. What is written is read back, and it is the
    shortest form of its number. On words and without them the same is read and written. -/
theorem varint_is_exact :
    (∀ bytes v rest, Varint.read bytes = .ok v rest ↔
      ∃ form, IsForm form ∧ form.length ≤ 10 ∧ total form < 2 ^ 64 ∧ bytes = form ++ rest ∧ v.toNat = total form) ∧
    (∀ bytes, (∃ left, Varint.read bytes = .error (.failed .underflow) left) ↔ bytes.length < 10 ∧ ∀ b ∈ bytes, 128 ≤ b) ∧
    (∀ bytes, (∃ v rest, Varint.read bytes = .ok v rest) ∨
      (∃ left, Varint.read bytes = .error (.failed .underflow) left) ∨
      ∃ front left, front.length = 10 ∧ bytes = front ++ left ∧
        Varint.read bytes = .error (.failed (.malformed .varintTooLarge)) left) ∧
    (∀ v rest, Varint.read (Varint.write v ++ rest) = .ok v rest) ∧
    (∀ v, IsForm (Varint.write v) ∧ total (Varint.write v) = v.toNat ∧
      ∀ form, IsForm form → total form = v.toNat → form = Varint.write v ∨ (Varint.write v).length < form.length) ∧
    (∀ w rest, readZigzag (writeZigzag w ++ rest) = .ok w rest) ∧
    (∀ bytes, Matches (fun v n t t' => v.toNat = n ∧ t' = t) (fun t t' => t' = t) (Varint.read bytes)
      (Chronicle.Varint.pull bytes)) ∧
    (∀ bytes, Matches (fun w w' t t' => w = w' ∧ t' = t) (fun t t' => t' = t) (readZigzag bytes) (Zigzag.pull bytes)) ∧
    (∀ v, Varint.write v = Chronicle.Varint.encode v.toNat) ∧
    ∀ w, writeZigzag w = Chronicle.Varint.encode (Zigzag.encode w) :=
  ⟨fun _ _ _ => Varint.read_eq_ok_iff_form, fun _ => Varint.read_underflow_iff, Varint.read_cases, Varint.read_write_append,
    Varint.write_shortest, readZigzag_writeZigzag_append, Varint.matches_pull, matches_pull_zigzag, Varint.write_eq,
    writeZigzag_eq⟩

end Chronicle.Machine
