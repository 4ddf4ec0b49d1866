/-
  Chronicle.Wire.Bits — numbers as bit patterns, and small lists of numbers as offsets.

  Model.
  - `bitsOf count n` is the pattern of the `count` low bits of `n`, the highest first, and `numberOf`
    reads a pattern back (`numberOf_bitsOf`). Higher bits have no effect (`bitsOf_mod`).
  - A pattern of some width stands for a number without a sign, or for one in two's complement
    (`signedOf`); a single bit has no sign.
  - A `Packing` is a few integers as offsets from the least of them. Every offset takes as many bits
    as the largest one needs, so equal integers take none at all.
  - Long lists are packed in pieces of a fixed size (`chunks`), of which only the last one may be
    shorter and none is empty (`flatten_chunks`, `length_le_of_mem_chunks`).
-/

namespace Chronicle

/-- Powers are those of the core library, whatever others are in scope. -/
@[default_instance 20000]
instance (priority := high) corePow {α : Type} [NatPow α] : Pow α Nat := instPowNat

/-- The number of binary digits of a number; zero has none. -/
def bitLength (n : Nat) : Nat := if n = 0 then 0 else n.log2 + 1

/-- The `count` low bits of a number, the highest first. -/
def bitsOf : (count : Nat) → Nat → List Bool
  | 0, _ => []
  | count + 1, n => n.testBit count :: bitsOf count n

def numberOf (bits : List Bool) : Nat := bits.foldl (fun n b => 2 * n + b.toNat) 0

def leadingZeros (width n : Nat) : Nat := width - bitLength n

def trailingZeros : (width : Nat) → Nat → Nat
  | 0, _ => 0
  | width + 1, n => if n % 2 = 1 then 0 else 1 + trailingZeros width (n / 2)

/-- The number that a pattern of `width` bits stands for in two's complement. A single bit
    has no sign. -/
def signedOf (width n : Nat) : Int := if width ≤ 1 then n else (n : Int).bmod (2 ^ width)

def patternOf (width : Nat) (v : Int) : Nat := (v % 2 ^ width).toNat

/-! ## Bits of a number -/

@[simp] theorem bitsOf_zero (n : Nat) : bitsOf 0 n = [] := rfl

@[simp] theorem length_bitsOf (count n : Nat) : (bitsOf count n).length = count := by
  induction count with
  | zero => rfl
  | succ count ih => simp [bitsOf, ih]

/-- Only the low bits matter. -/
theorem bitsOf_mod {count k : Nat} (h : count ≤ k) (n : Nat) : bitsOf count (n % 2 ^ k) = bitsOf count n := by
  induction count with
  | zero => rfl
  | succ count ih =>
    have hk : count < k := h
    simp only [bitsOf, Nat.testBit_mod_two_pow, hk, decide_true, Bool.true_and]
    rw [ih (Nat.le_of_lt hk)]

/-- A bit that is shifted in from below is the last one. -/
theorem bitsOf_double (count n : Nat) (b : Bool) :
    bitsOf (count + 1) (2 * n + b.toNat) = bitsOf count n ++ [b] := by
  have half : (2 * n + b.toNat) / 2 = n := by
    have := b.toNat_lt
    omega
  induction count with
  | zero => cases b <;> simp [bitsOf]
  | succ count ih =>
    show (2 * n + b.toNat).testBit (count + 1) :: bitsOf (count + 1) (2 * n + b.toNat) = _
    rw [ih, Nat.testBit_succ, half]
    rfl

/-- Shifting to the left adds zeros at the end. -/
theorem bitsOf_mul_two_pow (count k n : Nat) :
    bitsOf (count + k) (n * 2 ^ k) = bitsOf count n ++ List.replicate k false := by
  induction k with
  | zero => simp
  | succ k ih =>
    have h := bitsOf_double (count + k) (n * 2 ^ k) false
    have e : 2 * (n * 2 ^ k) + false.toNat = n * 2 ^ (k + 1) := by
      rw [Nat.pow_succ, Bool.toNat_false, Nat.add_zero, Nat.mul_comm 2, Nat.mul_assoc]
    rw [e] at h
    rw [← Nat.add_assoc, h, ih, List.append_assoc, ← List.replicate_succ']

theorem bitsOf_zero_right (count : Nat) : bitsOf count 0 = List.replicate count false := by
  have h := bitsOf_mul_two_pow 0 count 0
  rwa [Nat.zero_mul, Nat.zero_add, bitsOf_zero, List.nil_append] at h

theorem numberOf_append (bits : List Bool) (b : Bool) : numberOf (bits ++ [b]) = 2 * numberOf bits + b.toNat := by
  simp [numberOf]

/-- The number that bits write behind those of `n`. -/
theorem foldl_bits (bits : List Bool) (n : Nat) :
    bits.foldl (fun n b => 2 * n + b.toNat) n = n * 2 ^ bits.length + numberOf bits := by
  induction bits generalizing n with
  | nil => simp [numberOf]
  | cons b bits ih =>
    rw [numberOf, List.foldl_cons, List.foldl_cons, ih, ih (2 * 0 + b.toNat), List.length_cons, Nat.pow_succ]
    rw [Nat.add_mul, Nat.add_mul, Nat.mul_comm 2 n, Nat.mul_assoc, Nat.mul_comm 2, Nat.mul_zero, Nat.zero_mul,
      Nat.zero_add, Nat.add_assoc]

/-- The first bit has the greatest weight. -/
theorem numberOf_cons (b : Bool) (bits : List Bool) :
    numberOf (b :: bits) = b.toNat * 2 ^ bits.length + numberOf bits := by
  rw [numberOf, List.foldl_cons, foldl_bits, Nat.mul_zero, Nat.zero_add]

/-- What a pattern writes is the number, up to the bits that the pattern lacks. -/
theorem numberOf_bitsOf (count n : Nat) : numberOf (bitsOf count n) = n % 2 ^ count := by
  induction count generalizing n with
  | zero => simp [bitsOf, numberOf, Nat.mod_one]
  | succ count ih =>
    have low : (n.testBit 0).toNat = n % 2 := by rw [Nat.toNat_testBit, Nat.pow_zero, Nat.div_one]
    have e : n = 2 * (n / 2) + (n.testBit 0).toNat := by omega
    have hb : bitsOf (count + 1) n = bitsOf count (n / 2) ++ [n.testBit 0] := by
      rw [← bitsOf_double, ← e]
    rw [hb, numberOf_append, ih, low, Nat.pow_succ, Nat.mul_comm (2 ^ count) 2, Nat.mod_mul]
    omega

/-! ## Packings -/

structure Packing where
  base : Int
  width : Nat
  offsets : List Nat

namespace Packing

def of (values : List Int) : Packing :=
  let base := values.min?.getD 0
  let offsets := values.map fun v => (v - base).toNat
  ⟨base, (offsets.map bitLength).max?.getD 0, offsets⟩

def offsetBits (p : Packing) : List Bool := p.offsets.flatMap (bitsOf p.width)

end Packing

/-- A list cut into pieces of `size` elements, of which the last may be shorter. -/
def chunks {α : Type} (size : Nat) : List α → List (List α)
  | [] => []
  | a :: rest => (a :: rest.take (size - 1)) :: chunks size (rest.drop (size - 1))
termination_by xs => xs.length
decreasing_by simp only [List.length_drop, List.length_cons]; omega

/-- Nothing is lost. -/
theorem flatten_chunks {α : Type} (size : Nat) (xs : List α) : (chunks size xs).flatten = xs := by
  fun_induction chunks size xs with
  | case1 => rfl
  | case2 a rest ih => rw [List.flatten_cons, ih, List.cons_append, List.take_append_drop]

/-- No piece is longer than the size. -/
theorem length_le_of_mem_chunks {α : Type} {size : Nat} (hs : 0 < size) {xs piece : List α}
    (h : piece ∈ chunks size xs) : 0 < piece.length ∧ piece.length ≤ size := by
  fun_induction chunks size xs with
  | case1 => cases h
  | case2 a rest ih =>
    rcases List.mem_cons.1 h with rfl | h
    · simp only [List.length_cons, List.length_take]
      omega
    · exact ih h

end Chronicle
