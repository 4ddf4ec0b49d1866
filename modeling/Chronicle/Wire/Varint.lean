/-
  Chronicle.Wire.Varint — whole numbers of variable length.

  Seven bits to a byte, the low ones first; the top bit of a byte says that another follows. A number
  has 64 bits, so there are at most ten bytes and the tenth is 0 or 1. A tenth byte that is neither is
  refused once it has been taken. Where 32 bits are asked for, the number is read first and then
  refused if it is too large.

  Signed numbers of 32 bits go through `zigzag`, which puts 0, -1, 1, -2, … in a row. Both are read
  back as they were written, whatever follows (`pull_encode_append`, `decode_encode`). Nothing asks a
  reader for the shortest form; what is written is the shortest one (`shortest_encode` in
  `Chronicle.Proofs.Wire.VarintForms`).
-/

import Chronicle.Wire.Bytes

namespace Chronicle.Varint

def encode (n : Nat) : Bytes :=
  if n < 128 then [UInt8.ofNat n] else UInt8.ofNat (n % 128 + 128) :: encode (n / 128)

/-- Reads the rest of a number, of which `more + 1` bytes are still allowed. -/
def pullWithin : (more : Nat) → Reading Bytes Nat
  | 0 => do
    let b ← Bytes.pullByte
    if 1 < b then throw (.malformed .varintTooLarge)
    return b.toNat
  | more + 1 => do
    let b ← Bytes.pullByte
    if b < 128 then return b.toNat
    return (b.toNat - 128) + 128 * (← pullWithin more)

/-- Reads a number below `2 ^ 64`. -/
def pull : Reading Bytes Nat := pullWithin 9

def pull32 : Reading Bytes Nat := do
  let n ← pull
  if 2 ^ 32 ≤ n then throw (.malformed (.lengthTooLarge n))
  return n

/-! ## What has been written is read back -/

theorem pullWithin_encode_append {more n : Nat} (h : n < 2 * 128 ^ more) (rest : Bytes) :
    pullWithin more (encode n ++ rest) = .ok n rest := by
  induction more generalizing n with
  | zero =>
    have small : n < 128 := by simp at h; omega
    have e : (UInt8.ofNat n).toNat = n := by simp; omega
    have le : ¬ (1 < UInt8.ofNat n) := by rw [UInt8.lt_iff_toNat_lt, e]; simp at h ⊢; omega
    rw [encode, if_pos small]
    simp only [pullWithin, bind, EStateM.bind, List.cons_append, List.nil_append, Bytes.pullByte, if_neg le,
      pure, EStateM.pure, e]
  | succ more ih =>
    rw [encode]
    by_cases small : n < 128
    · have e : (UInt8.ofNat n).toNat = n := by simp; omega
      have lt : UInt8.ofNat n < 128 := by rw [UInt8.lt_iff_toNat_lt, e]; exact small
      rw [if_pos small]
      simp only [pullWithin, bind, EStateM.bind, List.cons_append, List.nil_append, Bytes.pullByte, if_pos lt,
        pure, EStateM.pure, e]
    · have e : (UInt8.ofNat (n % 128 + 128)).toNat = n % 128 + 128 := by simp; omega
      have lt : ¬ UInt8.ofNat (n % 128 + 128) < 128 := by
        rw [UInt8.lt_iff_toNat_lt, e]
        show ¬ n % 128 + 128 < 128
        omega
      have hn : n / 128 < 2 * 128 ^ more := by rw [Nat.pow_succ] at h; omega
      rw [if_neg small]
      simp only [pullWithin, bind, EStateM.bind, List.cons_append, Bytes.pullByte, if_neg lt,
        pure, EStateM.pure, e, ih hn]
      congr 1
      omega

/-- A number of 64 bits that has been written is read back, whatever follows. -/
theorem pull_encode_append {n : Nat} (h : n < 2 ^ 64) (rest : Bytes) :
    pull (encode n ++ rest) = .ok n rest :=
  pullWithin_encode_append (by omega) rest

end Chronicle.Varint

namespace Chronicle.Zigzag

def encode (v : Int32) : Nat :=
  if v.toInt < 0 then (-2 * v.toInt - 1).toNat else (2 * v.toInt).toNat

def decode (n : Nat) : Int32 :=
  if n % 2 = 0 then Int32.ofInt (n / 2) else Int32.ofInt (-(n / 2) - 1)

theorem decode_encode (v : Int32) : decode (encode v) = v := by
  have e : Int32.ofInt v.toInt = v := by simp
  unfold decode encode
  by_cases h : v.toInt < 0
  · rw [if_pos h, if_neg (by omega)]
    rw [show -((((-2 * v.toInt - 1).toNat : Nat) : Int) / 2) - 1 = v.toInt by omega, e]
  · rw [if_neg h, if_pos (by omega)]
    rw [show (((2 * v.toInt).toNat : Nat) : Int) / 2 = v.toInt by omega, e]

theorem encode_lt (v : Int32) : encode v < 2 ^ 32 := by
  have lo := v.le_toInt
  have hi := v.toInt_lt
  unfold encode
  split <;> omega

def pull : Reading Bytes Int32 := return decode (← Varint.pull32)

end Chronicle.Zigzag
