/-
  Chronicle.Proofs.Wire.VarintForms — which bytes are a number of variable length.

  A form is bytes that each but the last say that another one follows (`IsForm`); its number is the sum of
  its digits to the base 128 (`total`). A number has many forms, as zeros can be written at its end.

  Proved, for any number of bytes that are allowed.
  - Reading succeeds on the forms that are short and small enough (`pullWithin_form_append`), and on nothing
    else (`exists_form_of_pullWithin`).
  - It runs out of bytes where all that there are go on (`pullWithin_of_unfinished`), and otherwise fails
    behind the last byte allowed (`pullWithin_error`).
  - What is written is the shortest form of its number, and no other one is as short (`shortest_encode`).
-/

import Mathlib.Algebra.GroupWithZero.Nat
import Chronicle.Proofs.Wire.Parser

namespace Chronicle.Varint

open Reading

/-- The bytes of a number: each but the last one says that another one follows. -/
inductive IsForm : Bytes → Prop
  | last {b : UInt8} : b < 128 → IsForm [b]
  | cons {b : UInt8} {bytes : Bytes} : 128 ≤ b → IsForm bytes → IsForm (b :: bytes)

/-- The number that a form writes, the low seven bits of each byte being a digit. -/
def total (form : Bytes) : Nat := (form.mapIdx fun i b => b.toNat % 128 * 128 ^ i).sum

variable {b : UInt8} {bytes rest left form : Bytes} {more n : Nat} {e : CodecError}

theorem sum_mapIdx_eq_weigh (form : Bytes) (k : Nat) :
    (form.mapIdx fun i b => b.toNat % 128 * 128 ^ (i + k)).sum = weigh form * 128 ^ k := by
  induction form generalizing k with
  | nil => exact (Nat.zero_mul _).symm
  | cons b bytes ih =>
    have hrest := ih (k + 1)
    simp only [List.mapIdx_cons, List.sum_cons, Nat.zero_add, weigh, Nat.add_right_comm _ 1 k, Nat.add_assoc] at hrest ⊢
    rw [hrest, Nat.add_mul, Nat.pow_succ', ← Nat.mul_assoc, Nat.mul_comm (weigh bytes)]

theorem total_eq_weigh (form : Bytes) : total form = weigh form := by
  have h := sum_mapIdx_eq_weigh form 0
  rwa [Nat.pow_zero, Nat.mul_one] at h

theorem IsForm.length_pos (h : IsForm form) : 0 < form.length := by
  cases h with
  | last => exact Nat.one_pos
  | cons => exact Nat.succ_pos _

theorem weigh_last (h : b < 128) : weigh [b] = b.toNat := by
  have h : b.toNat < 128 := UInt8.lt_iff_toNat_lt.mp h
  show b.toNat % 128 + 128 * 0 = b.toNat
  rw [Nat.mul_zero, Nat.add_zero, Nat.mod_eq_of_lt h]

/-- The digit of a byte that another one follows. -/
theorem digit_of_le (h : 128 ≤ b) : b.toNat % 128 = b.toNat - 128 := by
  have : 128 ≤ b.toNat := UInt8.le_iff_toNat_le.mp h
  have := b.toNat_lt
  omega

/-! ## Reading byte by byte -/

theorem pullWithin_zero_of_le (h : b ≤ 1) : pullWithin 0 (b :: bytes) = .ok b.toNat bytes := by
  show (if 1 < b then throw _ else pure b.toNat : Reading Bytes Nat) bytes = _
  rw [if_neg (UInt8.not_lt.mpr h)]
  rfl

theorem pullWithin_zero_of_lt (h : 1 < b) : pullWithin 0 (b :: bytes) = .error (.malformed .varintTooLarge) bytes := by
  show (if 1 < b then throw _ else pure b.toNat : Reading Bytes Nat) bytes = _
  rw [if_pos h]
  rfl

theorem pullWithin_last (h : b < 128) : pullWithin (more + 1) (b :: bytes) = .ok b.toNat bytes := by
  show (if b < 128 then pure b.toNat else _ : Reading Bytes Nat) bytes = _
  rw [if_pos h]
  rfl

theorem pullWithin_cons (h : 128 ≤ b) :
    pullWithin (more + 1) (b :: bytes) = (do return b.toNat - 128 + 128 * (← pullWithin more)) bytes := by
  show (if b < 128 then pure b.toNat else _ : Reading Bytes Nat) bytes = _
  rw [if_neg (UInt8.not_lt.mpr h)]

/-- A form that is short and small enough is read, whatever follows it. -/
theorem pullWithin_form_append (h : IsForm form) (hlength : form.length ≤ more + 1) (hsmall : weigh form < 2 * 128 ^ more)
    (rest : Bytes) : pullWithin more (form ++ rest) = .ok (weigh form) rest := by
  induction more generalizing form with
  | zero =>
    cases h with
    | @last b hb =>
      rw [weigh_last hb] at hsmall ⊢
      exact pullWithin_zero_of_le (UInt8.le_iff_toNat_le.mpr (Nat.le_of_lt_succ hsmall))
    | cons _ h =>
      have := h.length_pos
      rw [List.length_cons] at hlength
      omega
  | succ more ih =>
    cases h with
    | @last b hb =>
      rw [weigh_last hb]
      exact pullWithin_last hb
    | @cons b bytes hb h =>
      rw [weigh, Nat.pow_succ] at hsmall
      have hread := ih h (Nat.le_of_succ_le_succ hlength) (by omega)
      rw [List.cons_append, pullWithin_cons hb, map_of_eq hread, weigh, digit_of_le hb]

theorem exists_form_of_pullWithin (h : pullWithin more bytes = .ok n rest) :
    ∃ form, IsForm form ∧ form.length ≤ more + 1 ∧ bytes = form ++ rest ∧ n = weigh form := by
  induction more generalizing bytes n with
  | zero =>
    cases bytes with
    | nil => cases h
    | cons b bytes =>
      by_cases hb : 1 < b
      · rw [pullWithin_zero_of_lt hb] at h
        cases h
      · have hle := UInt8.not_lt.mp hb
        have hlt : b < 128 := UInt8.lt_of_le_of_lt hle (by decide)
        rw [pullWithin_zero_of_le hle] at h
        cases h
        exact ⟨[b], .last hlt, Nat.le_refl 1, rfl, (weigh_last hlt).symm⟩
  | succ more ih =>
    cases bytes with
    | nil => cases h
    | cons b bytes =>
      by_cases hb : b < 128
      · rw [pullWithin_last hb] at h
        cases h
        exact ⟨[b], .last hb, Nat.succ_le_succ (Nat.zero_le _), rfl, (weigh_last hb).symm⟩
      · have hle := UInt8.not_lt.mp hb
        rw [pullWithin_cons hle] at h
        obtain ⟨high, left, hhigh, h⟩ := ok_of_bind h
        cases h
        obtain ⟨form, hform, hlength, rfl, rfl⟩ := ih hhigh
        exact ⟨b :: form, .cons hle hform, Nat.succ_le_succ hlength, rfl, by rw [weigh, digit_of_le hle]⟩

/-- Where every byte says that another one follows, and more are allowed, bytes are lacking. -/
theorem pullWithin_of_unfinished (hlength : bytes.length < more + 1) (hbytes : ∀ b ∈ bytes, 128 ≤ b) :
    pullWithin more bytes = .error .underflow [] := by
  induction more generalizing bytes with
  | zero =>
    obtain rfl : bytes = [] := List.eq_nil_of_length_eq_zero (Nat.lt_one_iff.mp hlength)
    rfl
  | succ more ih =>
    cases bytes with
    | nil => rfl
    | cons b bytes =>
      have hrest := ih (Nat.lt_of_succ_lt_succ hlength) fun b hb => hbytes b (List.mem_cons_of_mem _ hb)
      rw [pullWithin_cons (hbytes b List.mem_cons_self), map_of_error hrest]

/-- Reading fails for want of bytes, or behind as many as are allowed. -/
theorem pullWithin_error (h : pullWithin more bytes = .error e left) :
    (e = .underflow ∧ bytes.length < more + 1 ∧ ∀ b ∈ bytes, 128 ≤ b) ∨
      (e = .malformed .varintTooLarge ∧ ∃ front, front.length = more + 1 ∧ bytes = front ++ left) := by
  induction more generalizing bytes with
  | zero =>
    cases bytes with
    | nil =>
      cases h
      exact .inl ⟨rfl, Nat.one_pos, fun _ hb => nomatch hb⟩
    | cons b bytes =>
      by_cases hb : 1 < b
      · rw [pullWithin_zero_of_lt hb] at h
        cases h
        exact .inr ⟨rfl, [b], rfl, rfl⟩
      · rw [pullWithin_zero_of_le (UInt8.not_lt.mp hb)] at h
        cases h
  | succ more ih =>
    cases bytes with
    | nil =>
      cases h
      exact .inl ⟨rfl, Nat.succ_pos _, fun _ hb => nomatch hb⟩
    | cons b bytes =>
      by_cases hb : b < 128
      · rw [pullWithin_last hb] at h
        cases h
      · have hle := UInt8.not_lt.mp hb
        rw [pullWithin_cons hle] at h
        cases hrest : pullWithin more bytes with
        | ok high left' =>
          rw [map_of_eq hrest] at h
          cases h
        | error e' left' =>
          rw [map_of_error hrest] at h
          cases h
          rcases ih hrest with ⟨rfl, hlength, hall⟩ | ⟨rfl, front, hlength, rfl⟩
          · exact .inl ⟨rfl, Nat.succ_lt_succ hlength, List.forall_mem_cons.mpr ⟨hle, hall⟩⟩
          · exact .inr ⟨rfl, b :: front, congrArg Nat.succ hlength, rfl⟩

/-! ## The shortest form -/

theorem toNat_ofNat_last {n : Nat} (h : n < 128) : (UInt8.ofNat n).toNat = n := by
  rw [UInt8.toNat_ofNat']
  exact Nat.mod_eq_of_lt (by omega)

theorem toNat_ofNat_digit (n : Nat) : (UInt8.ofNat (n % 128 + 128)).toNat = n % 128 + 128 := by
  rw [UInt8.toNat_ofNat']
  exact Nat.mod_eq_of_lt (by omega)

theorem isForm_encode (n : Nat) : IsForm (encode n) := by
  induction n using encode.induct with
  | case1 n h =>
    rw [encode, if_pos h]
    exact .last (UInt8.lt_iff_toNat_lt.mpr (by rw [toNat_ofNat_last h]; exact h))
  | case2 n h ih =>
    rw [encode, if_neg h]
    exact .cons (UInt8.le_iff_toNat_le.mpr (by rw [toNat_ofNat_digit]; exact Nat.le_add_left ..)) ih

theorem weigh_encode (n : Nat) : weigh (encode n) = n := by
  induction n using encode.induct with
  | case1 n h =>
    rw [encode, if_pos h, weigh_last (UInt8.lt_iff_toNat_lt.mpr (by rw [toNat_ofNat_last h]; exact h)), toNat_ofNat_last h]
  | case2 n h ih =>
    rw [encode, if_neg h, weigh, ih, toNat_ofNat_digit]
    omega

/-- Every other form of a number is longer. -/
theorem shortest_encode (h : IsForm form) : form = encode (weigh form) ∨ (encode (weigh form)).length < form.length := by
  induction h with
  | @last b hb =>
    have hsmall : b.toNat < 128 := UInt8.lt_iff_toNat_lt.mp hb
    left
    rw [weigh_last hb, encode, if_pos hsmall, UInt8.ofNat_toNat]
  | @cons b bytes hb h ih =>
    have hdigit := digit_of_le hb
    have hb : 128 ≤ b.toNat := UInt8.le_iff_toNat_le.mp hb
    by_cases hsmall : weigh (b :: bytes) < 128
    · right
      rw [encode, if_pos hsmall]
      exact Nat.succ_lt_succ h.length_pos
    · have hhigh : weigh (b :: bytes) / 128 = weigh bytes := by
        rw [weigh]
        omega
      have hlow : UInt8.ofNat (weigh (b :: bytes) % 128 + 128) = b := by
        apply UInt8.toNat_inj.mp
        rw [toNat_ofNat_digit, weigh]
        omega
      rw [encode, if_neg hsmall, hhigh, hlow]
      exact ih.imp (congrArg (b :: ·)) Nat.succ_lt_succ

end Chronicle.Varint
