/-
  Chronicle.Wire.Bytes — byte strings, and reading from the front of one.

  Numbers are big-endian. What takes a fixed number of bytes checks the length first, and takes nothing
  if it fails: an end of input inside a word leaves the bytes of the word where they were.

  Values that are words of a fixed size (`BigEndian`) are read back from what they are written as, and
  what follows them is left (`pull_toBytes_append`).
-/

import Chronicle.Wire.Bits
import Chronicle.Wire.Reading

namespace Chronicle

open Ieee

abbrev Bytes := List UInt8

namespace Bytes

def toNat (bytes : Bytes) : Nat := bytes.foldl (fun n b => n * 256 + b.toNat) 0

def ofNat : (count : Nat) → Nat → Bytes
  | 0, _ => []
  | count + 1, n => ofNat count (n / 256) ++ [UInt8.ofNat n]

/-- The bits of some bytes, the high bit of each byte first. -/
def toBits (bytes : Bytes) : List Bool := bytes.flatMap fun b => bitsOf 8 b.toNat

@[simp] theorem toBits_nil : toBits [] = [] := rfl

@[simp] theorem toBits_cons (b : UInt8) (bytes : Bytes) : toBits (b :: bytes) = bitsOf 8 b.toNat ++ toBits bytes := rfl

@[simp] theorem toBits_append (a b : Bytes) : toBits (a ++ b) = toBits a ++ toBits b := List.flatMap_append

@[simp] theorem length_toBits (bytes : Bytes) : (toBits bytes).length = 8 * bytes.length := by
  induction bytes with
  | nil => rfl
  | cons b bytes ih =>
    rw [toBits_cons, List.length_append, length_bitsOf, ih, List.length_cons]
    omega

def need (count : Nat) : Reading Bytes Unit := fun bytes =>
  if count ≤ bytes.length then .ok () bytes else .error .underflow bytes

def pullByte : Reading Bytes UInt8
  | [] => .error .underflow []
  | b :: rest => .ok b rest

/-- Takes the first `count` bytes, or nothing if there are fewer. -/
def pull (count : Nat) : Reading Bytes Bytes := fun bytes =>
  if count ≤ bytes.length then .ok (bytes.take count) (bytes.drop count)
  else .error .underflow bytes

def pullNat (count : Nat) : Reading Bytes Nat := return toNat (← pull count)

/-! ## What has been written is read back -/

@[simp] theorem length_ofNat (count n : Nat) : (ofNat count n).length = count := by
  induction count generalizing n with
  | zero => rfl
  | succ count ih => simp [ofNat, ih]

/-- What some bytes write is the number, up to the bytes that are lacking. -/
theorem toNat_ofNat (count n : Nat) : toNat (ofNat count n) = n % 256 ^ count := by
  induction count generalizing n with
  | zero => simp [ofNat, toNat, Nat.mod_one]
  | succ count ih =>
    have h := ih (n / 256)
    unfold toNat at h ⊢
    simp only [ofNat, List.foldl_append, List.foldl_cons, List.foldl_nil, h]
    have e : (UInt8.ofNat n).toNat = n % 256 := by simp
    rw [e, Nat.pow_succ, Nat.mul_comm (256 ^ count), Nat.mod_mul]
    omega

theorem pull_append (bytes rest : Bytes) : pull bytes.length (bytes ++ rest) = .ok bytes rest := by
  simp [pull]

theorem pullNat_ofNat_append {count n : Nat} (h : n < 256 ^ count) (rest : Bytes) :
    pullNat count (ofNat count n ++ rest) = .ok n rest := by
  have p := pull_append (ofNat count n) rest
  rw [length_ofNat] at p
  simp only [pullNat, bind, EStateM.bind, p, toNat_ofNat, Nat.mod_eq_of_lt h, pure, EStateM.pure]

end Bytes

/-! ## Words -/

/-- A type whose values are words of a fixed number of bytes. -/
class BigEndian (α : Type) where
  size : Nat
  toWord : α → Nat
  ofWord : Nat → α
  toWord_lt (a : α) : toWord a < 256 ^ size
  ofWord_toWord (a : α) : ofWord (toWord a) = a

namespace BigEndian

variable {α : Type} [BigEndian α]

def toBytes (a : α) : Bytes := Bytes.ofNat (size α) (toWord a)

def pull : Reading Bytes α := return ofWord (← Bytes.pullNat (size α))

@[simp] theorem length_toBytes (a : α) : (toBytes a).length = size α := Bytes.length_ofNat _ _

theorem pull_toBytes_append (a : α) (rest : Bytes) : pull (toBytes a ++ rest) = .ok a rest := by
  have h := Bytes.pullNat_ofNat_append (toWord_lt a) rest
  simp only [pull, toBytes, bind, EStateM.bind, h, pure, EStateM.pure, ofWord_toWord]

instance : BigEndian Int32 where
  size := 4
  toWord v := v.toUInt32.toNat
  ofWord n := (UInt32.ofNat n).toInt32
  toWord_lt v := v.toUInt32.toNat_lt
  ofWord_toWord v := by simp

instance : BigEndian Int64 where
  size := 8
  toWord v := v.toUInt64.toNat
  ofWord n := (UInt64.ofNat n).toInt64
  toWord_lt v := v.toUInt64.toNat_lt
  ofWord_toWord v := by simp

instance : BigEndian Binary32 where
  size := 4
  toWord v := v.bits.toNat
  ofWord n := ⟨UInt32.ofNat n⟩
  toWord_lt v := v.bits.toNat_lt
  ofWord_toWord v := by simp

instance : BigEndian Binary64 where
  size := 8
  toWord v := v.bits.toNat
  ofWord n := ⟨UInt64.ofNat n⟩
  toWord_lt v := v.bits.toNat_lt
  ofWord_toWord v := by simp

end BigEndian

end Chronicle
