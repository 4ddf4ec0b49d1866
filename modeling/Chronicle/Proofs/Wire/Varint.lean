/-
  Chronicle.Proofs.Wire.Varint — the smaller forms of a varint, read back, and its size.

  A number takes a byte for every seven bits that it has (`length_encode_le`), and one that is read has 64
  bits whatever its bytes were (`lt_of_pull`), as the tenth byte has room for one of them only. Numbers of
  32 bits, with and without a sign, are read back as they were written.
-/

import Chronicle.Proofs.Wire.Reading
import Chronicle.Wire.Varint

namespace Chronicle

open Reading

namespace Varint

theorem encode_ne_nil (n : Nat) : encode n ≠ [] := by
  rw [encode]
  split <;> exact List.cons_ne_nil _ _

/-- A byte more than seven bits each need. -/
theorem length_encode_le {k n : Nat} (h : n < 128 ^ (k + 1)) : (encode n).length ≤ k + 1 := by
  induction k generalizing n with
  | zero =>
    rw [encode, if_pos (by omega)]
    exact Nat.le_refl 1
  | succ k ih =>
    rw [encode]
    by_cases small : n < 128
    · rw [if_pos small, List.length_singleton]
      omega
    · rw [Nat.pow_succ] at h
      rw [if_neg small, List.length_cons]
      exact Nat.succ_le_succ (ih (by omega))

theorem lt_of_pullWithin {more n : Nat} {bytes rest : Bytes} (h : pullWithin more bytes = .ok n rest) :
    n < 2 * 128 ^ more := by
  induction more generalizing bytes n with
  | zero =>
    obtain ⟨b, left, -, h⟩ := ok_of_bind h
    split at h
    · cases h
    · next hle =>
      cases h
      have : b.toNat ≤ 1 := UInt8.le_iff_toNat_le.1 (UInt8.not_lt.1 hle)
      omega
  | succ more ih =>
    obtain ⟨b, left, -, h⟩ := ok_of_bind h
    have hb := b.toNat_lt
    rw [Nat.pow_succ]
    split at h
    · next hlt =>
      cases h
      have : b.toNat < 128 := UInt8.lt_iff_toNat_lt.1 hlt
      have : 0 < 128 ^ more := Nat.pow_pos (by decide)
      omega
    · obtain ⟨high, left', hhigh, h⟩ := ok_of_bind h
      cases h
      have := ih hhigh
      omega

/-- A number that is read has 64 bits. -/
theorem lt_of_pull {n : Nat} {bytes rest : Bytes} (h : pull bytes = .ok n rest) : n < 2 ^ 64 :=
  lt_of_pullWithin h

theorem pull32_encode_append {n : Nat} (h : n < 2 ^ 32) (rest : Bytes) :
    pull32 (encode n ++ rest) = .ok n rest := by
  have hp := pull_encode_append (Nat.lt_trans h (by decide)) rest
  simp only [pull32, bind_of_eq hp, if_neg (Nat.not_le.2 h)]
  rfl

end Varint

theorem Zigzag.pull_encode_append (v : Int32) (rest : Bytes) :
    pull (Varint.encode (encode v) ++ rest) = .ok v rest := by
  rw [pull, map_of_eq (Varint.pull32_encode_append (encode_lt v) rest), decode_encode]

end Chronicle
