/-
  Chronicle.Ieee.Binary — floating-point numbers as bit patterns, and their decimal text.

  (1) Formats. A pattern is a sign bit above a magnitude. Magnitudes are ordered like the numbers they
  stand for: the finite ones come first, then infinity, then the NaNs. A finite magnitude is
  `m · 2 ^ e` for the pair `(m, e)` that `significand` gives, and `nearest` goes the other way: it
  rounds any `m · 2 ^ e` to the format, ties to even.

  (2) The two formats in use. `Binary32` and `Binary64` hold the pattern itself, so that a NaN keeps
  its payload and `-0.0` its sign. `=` compares patterns; `x < y` and `x.Equal y` compare numbers.
  Arithmetic on `Binary64` is that of IEEE 754, rounding to nearest. Only sums, products and quotients
  are left to the machine; order, conversion and rounding are definitions on patterns.

  (3) Decimal text. In messages a finite number is written with the fewest decimal digits that read
  back as it, in positional notation whatever its size. `shortest` walks the decimal grids from coarse
  to fine; the first grid with a point among the reals that round to the number wins, and of two such
  points the nearer one, of two equally near the larger.
-/

import Chronicle.Wire.Bits

namespace Chronicle.Ieee

/-- `m / 2 ^ s` to the nearest whole number, a tie to the even one. -/
def shiftRoundEven (m s : Nat) : Nat :=
  let q := m / 2 ^ s
  let r := m % 2 ^ s
  if 2 * r < 2 ^ s then q else if 2 ^ s < 2 * r then q + 1 else q + q % 2

/-- A binary format: the width of its exponent field and the number of significant
    bits of a normal number, the leading one included. -/
structure Format where
  exponentBits : Nat
  precision : Nat
  deriving DecidableEq

namespace Format

def single : Format := ⟨8, 24⟩

def double : Format := ⟨11, 53⟩

def signWeight (f : Format) : Nat := 2 ^ (f.exponentBits + f.precision - 1)

/-- The magnitude of the infinities; every larger magnitude is a NaN. -/
def infinity (f : Format) : Nat := (2 ^ f.exponentBits - 1) * 2 ^ (f.precision - 1)

def quietNaN (f : Format) : Nat := f.infinity + 2 ^ (f.precision - 2)

/-- The exponent of the least positive number, which is `2` to that power. -/
def leastExponent (f : Format) : Int := 3 - 2 ^ (f.exponentBits - 1) - f.precision

def magnitude (f : Format) (bits : Nat) : Nat := bits % f.signWeight

def isNegative (f : Format) (bits : Nat) : Bool := decide (f.signWeight ≤ bits)

def isNaN (f : Format) (bits : Nat) : Bool := decide (f.infinity < f.magnitude bits)

def isFinite (f : Format) (bits : Nat) : Bool := decide (f.magnitude bits < f.infinity)

/-- Where a pattern that is no NaN stands in the order of the numbers; both zeros stand at 0. -/
def rank (f : Format) (bits : Nat) : Int :=
  if f.isNegative bits then -(f.magnitude bits : Int) else f.magnitude bits

/-- The order of the numbers. A NaN is below nothing and above nothing. -/
def Less (f : Format) (a b : Nat) : Prop :=
  f.isNaN a = false ∧ f.isNaN b = false ∧ f.rank a < f.rank b

instance (f : Format) (a b : Nat) : Decidable (f.Less a b) :=
  inferInstanceAs (Decidable (_ ∧ _ ∧ _))

def Equal (f : Format) (a b : Nat) : Prop :=
  f.isNaN a = false ∧ f.isNaN b = false ∧ f.rank a = f.rank b

instance (f : Format) (a b : Nat) : Decidable (f.Equal a b) :=
  inferInstanceAs (Decidable (_ ∧ _ ∧ _))

/-- The pair `(m, e)` with `m · 2 ^ e` the number that a finite magnitude stands for. -/
def significand (f : Format) (magnitude : Nat) : Nat × Int :=
  let unit := 2 ^ (f.precision - 1)
  let field := magnitude / unit
  if field = 0 then (magnitude, f.leastExponent)
  else (unit + magnitude % unit, f.leastExponent + (field - 1))

/-- The magnitude nearest to `m · 2 ^ e`, a tie going to the even one. What is too large is
    infinity. Consecutive magnitudes are consecutive numbers, so a carry out of the
    significand needs no case of its own. -/
def nearest (f : Format) (m : Nat) (e : Int) : Nat :=
  if m = 0 then 0
  else
    let ulp := max (e + bitLength m - f.precision) f.leastExponent
    let q := if ulp ≤ e then m * 2 ^ (e - ulp).toNat else shiftRoundEven m (ulp - e).toNat
    min f.infinity ((ulp - f.leastExponent).toNat * 2 ^ (f.precision - 1) + q)

def convert (source target : Format) (bits : Nat) : Nat :=
  let mag := source.magnitude bits
  let sign := if source.isNegative bits then target.signWeight else 0
  if source.infinity < mag then target.quietNaN
  else if mag = source.infinity then sign + target.infinity
  else
    let (m, e) := source.significand mag
    sign + target.nearest m e

end Format

/-! ## The two formats in use -/

structure Binary32 where
  bits : UInt32
  deriving DecidableEq

structure Binary64 where
  bits : UInt64
  deriving DecidableEq

namespace Binary64

instance : LT Binary64 := ⟨fun x y => Format.double.Less x.bits.toNat y.bits.toNat⟩

instance (x y : Binary64) : Decidable (x < y) :=
  inferInstanceAs (Decidable (Format.double.Less _ _))

def Equal (x y : Binary64) : Prop := Format.double.Equal x.bits.toNat y.bits.toNat

instance (x y : Binary64) : Decidable (x.Equal y) :=
  inferInstanceAs (Decidable (Format.double.Equal _ _))

def isNaN (x : Binary64) : Bool := Format.double.isNaN x.bits.toNat

def isFinite (x : Binary64) : Bool := Format.double.isFinite x.bits.toNat

def isNegative (x : Binary64) : Bool := Format.double.isNegative x.bits.toNat

def zero : Binary64 := ⟨0⟩

def toFloat (x : Binary64) : Float := Float.ofBits x.bits

def ofFloat (x : Float) : Binary64 := ⟨x.toBits⟩

instance : Add Binary64 := ⟨fun x y => ofFloat (x.toFloat + y.toFloat)⟩

instance : Mul Binary64 := ⟨fun x y => ofFloat (x.toFloat * y.toFloat)⟩

instance : Div Binary64 := ⟨fun x y => ofFloat (x.toFloat / y.toFloat)⟩

instance : Neg Binary64 := ⟨fun x => ⟨x.bits ^^^ 0x8000000000000000⟩⟩

def ofInt (i : Int) : Binary64 :=
  let sign := if i < 0 then Format.double.signWeight else 0
  ⟨UInt64.ofNat (sign + Format.double.nearest i.natAbs 0)⟩

/-- The whole number nearest to a finite double, a half going away from zero. -/
def round? (x : Binary64) : Option Int :=
  if x.isFinite then
    let (m, e) := Format.double.significand (Format.double.magnitude x.bits.toNat)
    let n := if 0 ≤ e then m * 2 ^ e.toNat else (2 * m + 2 ^ (-e).toNat) / 2 ^ ((-e).toNat + 1)
    some (if x.isNegative then -(n : Int) else n)
  else none

def narrow (x : Binary64) : Binary32 :=
  ⟨UInt32.ofNat (Format.double.convert Format.single x.bits.toNat)⟩

end Binary64

namespace Binary32

instance : LT Binary32 := ⟨fun x y => Format.single.Less x.bits.toNat y.bits.toNat⟩

instance (x y : Binary32) : Decidable (x < y) :=
  inferInstanceAs (Decidable (Format.single.Less _ _))

def Equal (x y : Binary32) : Prop := Format.single.Equal x.bits.toNat y.bits.toNat

instance (x y : Binary32) : Decidable (x.Equal y) :=
  inferInstanceAs (Decidable (Format.single.Equal _ _))

def widen (x : Binary32) : Binary64 :=
  ⟨UInt64.ofNat (Format.single.convert Format.double x.bits.toNat)⟩

end Binary32

/-! ## Decimal texts -/

/-- The reals that round to `m · 2 ^ e`, in quarters of `2 ^ e`. The step below a power of
    two is half the step above it. The ends round to the number iff `m` is even. -/
structure RoundingInterval where
  low : Nat
  value : Nat
  high : Nat
  closed : Bool

def RoundingInterval.of (f : Format) (magnitude : Nat) : RoundingInterval :=
  let m := (f.significand magnitude).1
  let unit := 2 ^ (f.precision - 1)
  let below := if magnitude % unit = 0 ∧ unit < magnitude then 1 else 2
  ⟨4 * m - below, 4 * m, 4 * m + 2, m % 2 == 0⟩

def RoundingInterval.holds (i : RoundingInterval) (a b : Nat) : Bool :=
  if i.closed then decide (i.low * b ≤ a ∧ a ≤ i.high * b)
  else decide (i.low * b < a ∧ a < i.high * b)

/-- The number `c` for which `c · 10 ^ k` is the best point of that decimal grid, if a point
    of it rounds to the number. -/
def pointOnGrid? (i : RoundingInterval) (e k : Int) : Option Nat :=
  let ten := 10 ^ k.toNat * 2 ^ (2 - e).toNat
  let two := 10 ^ (-k).toNat * 2 ^ (e - 2).toNat
  let c := i.value * two / ten
  match i.holds (c * ten) two, i.holds ((c + 1) * ten) two with
  | true, true => some (if i.value * two - c * ten < (c + 1) * ten - i.value * two then c else c + 1)
  | true, false => some c
  | false, true => some (c + 1)
  | false, false => none

def shortestFrom (i : RoundingInterval) (e : Int) : Nat → Int → Nat × Int
  | 0, k => (0, k)
  | tries + 1, k =>
    match pointOnGrid? i e k with
    | some c => (c, k)
    | none => shortestFrom i e tries (k - 1)

/-- The pair `(c, k)` with `c · 10 ^ k` the shortest decimal of a positive finite magnitude.
    The first grid is coarser than the number, and seventeen digits always suffice. -/
def shortest (f : Format) (magnitude : Nat) : Nat × Int :=
  let (m, e) := f.significand magnitude
  shortestFrom (.of f magnitude) e 24 ((e + bitLength m) * 30103 / 100000 + 2)

def digitsToWidth (n width : Nat) : List Char :=
  let digits := Nat.toDigits 10 n
  List.replicate (width - digits.length) '0' ++ digits

/-- `c · 10 ^ k` in positional notation, without zeros at the end of the fraction. -/
def positional (c : Nat) (k : Int) : String :=
  if 0 ≤ k then toString (c * 10 ^ k.toNat)
  else
    let places := (-k).toNat
    let fraction := digitsToWidth (c % 10 ^ places) places
    let kept := (fraction.reverse.dropWhile (· == '0')).reverse
    let whole := toString (c / 10 ^ places)
    if kept.isEmpty then whole else whole ++ "." ++ String.ofList kept

def Binary64.text (x : Binary64) : String :=
  if x.isNaN then "NaN"
  else
    let mag := Format.double.magnitude x.bits.toNat
    let sign := if x.isNegative then "-" else ""
    if Format.double.infinity ≤ mag then sign ++ "inf"
    else if mag = 0 then sign ++ "0"
    else
      let (c, k) := shortest Format.double mag
      sign ++ positional c k

end Chronicle.Ieee
