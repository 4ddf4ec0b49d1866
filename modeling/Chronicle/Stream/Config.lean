/-
  Chronicle.Stream.Config — the options of encoders and page writers, and the texts they come from.

  (1) Names. Types, encodings and compressors are named in options. A given text is trimmed of Unicode
  white space and compared without regard to the case of ASCII letters. An error holds the text as it
  was given, blanks included.

  (2) Options. There are three: the most values that an RLE segment counts, the scale at which TS_2DIFF
  writes floating-point numbers, and the encoding of timestamps. All are looked at before anything is
  built with them, in that order (`Config.validate`).

  (3) Texts. Options can be given as JSON: as the members of an object, or in their order as the items
  of an array. What is missing keeps its default; other members are ignored; an option that is given
  twice, or with a value of another kind, refuses the text. A scale is read with 64 bits of its digits,
  to which the power of ten is applied afterwards, so that not every numeral gives the nearest double.
-/

import Chronicle.Block.Compressor
import Chronicle.Error
import Chronicle.Stream.Delta
import Chronicle.Stream.RunLength
import Chronicle.Text.Json

namespace Chronicle

open Ieee

/-! ## Names -/

/-- The code points with the Unicode property White_Space. -/
def isBlank (c : Char) : Bool :=
  let n := c.toNat
  (0x09 ≤ n && n ≤ 0x0D) || n == 0x20 || n == 0x85 || n == 0xA0 || n == 0x1680 ||
    (0x2000 ≤ n && n ≤ 0x200A) || n == 0x2028 || n == 0x2029 || n == 0x202F || n == 0x205F ||
    n == 0x3000

def trimBlanks (cs : List Char) : List Char :=
  ((cs.dropWhile isBlank).reverse.dropWhile isBlank).reverse

/-- Whether a given text names what is called `name`, which is all upper case. -/
def isNameFor (name given : String) : Bool :=
  (trimBlanks given.toList).map Char.toUpper == name.toList

def DataType.ofName (given : String) : Except CodecError DataType :=
  match DataType.all.find? fun t => isNameFor t.name given with
  | some t => .ok t
  | none => .error (.unknownDataType given)

/-- The first Gorilla layout answers to a second name too. -/
def Encoding.ofName (given : String) : Except CodecError Encoding :=
  if isNameFor "GORILLA_V1" given then .ok (.gorilla .v1)
  else
    match Encoding.all.find? fun e => isNameFor e.name given with
    | some e => .ok e
    | none => .error (.unknownEncoding given)

def Compressor.ofName (given : String) : Except CodecError Compressor :=
  match Compressor.all.find? fun c => isNameFor c.name given with
  | some c => .ok c
  | none => .error (.unknownCompressor given)

/-! ## Options -/

structure Config where
  /-- The most values that one RLE segment counts. -/
  maxRunLength : Nat := RunLength.maxCap
  /-- The scale at which TS_2DIFF writes floating-point numbers; without one it writes
      their bit patterns. -/
  scale? : Option Binary64 := none
  /-- The encoding of the timestamps next to the values. -/
  timeEncoding : String := Encoding.delta.name
  deriving DecidableEq

/-- Fails unless every option can be worked with. The first fault in the order of the
    fields is reported. -/
def Config.validate (c : Config) : Except CodecError Unit := do
  if c.maxRunLength = 0 then throw (.invalidConfig .runLengthCapZero)
  if RunLength.maxCap < c.maxRunLength then throw (.overflow (.runLengthCap c.maxRunLength))
  if let some scale := c.scale? then
    if !Delta.isScale scale then throw (.invalidConfig (.fixedPointScale scale))
  discard (Encoding.ofName c.timeEncoding)

end Chronicle

namespace Chronicle.Config

open Ieee

/-- The digits of a number as far as they fit 64 bits, and the power of ten for the rest. -/
structure Significand where
  digits : Nat
  exponent : Int

/-- Adds whole digits. From the first one that does not fit, they only count. -/
def Significand.addWhole (s : Significand) : List Nat → Significand
  | [] => s
  | d :: rest =>
    if 10 * s.digits + d < 2 ^ 64 then addWhole { s with digits := 10 * s.digits + d } rest
    else { s with exponent := s.exponent + (rest.length + 1) }

def Significand.addFraction (s : Significand) : List Nat → Significand
  | [] => s
  | d :: rest =>
    if 10 * s.digits + d < 2 ^ 64 then addFraction ⟨10 * s.digits + d, s.exponent - 1⟩ rest
    else s

def maxTen : Nat := 308

def tenTo (k : Nat) : Binary64 := .ofInt (10 ^ k)

/-- Applies a power of ten, in steps of `10 ^ 308` when it is smaller than one division can
    apply. Refuses what is too large. -/
def applyTen (f : Binary64) (exponent : Int) : (steps : Nat) → Option Binary64
  | 0 => some f
  | steps + 1 =>
    if exponent.natAbs ≤ maxTen then
      if 0 ≤ exponent then
        let product := f * tenTo exponent.natAbs
        if product.isFinite then some product else none
      else some (f / tenTo exponent.natAbs)
    else if f = .zero then some f
    else if 0 ≤ exponent then none
    else applyTen (f / tenTo maxTen) (exponent + maxTen) steps

/-- The size of the number that a numeral stands for. An exponent beyond 31 bits makes it
    zero or too large. -/
def sizeOf? (n : Numeral) : Option Binary64 :=
  let s := (Significand.addWhole ⟨0, 0⟩ n.whole).addFraction n.fraction
  let f := Binary64.ofInt s.digits
  match n.exponent? with
  | none => applyTen f s.exponent (s.exponent.natAbs / maxTen + 1)
  | some (negative, digits) =>
    let e := ofDigits digits
    if 2 ^ 31 ≤ e then
      if s.digits ≠ 0 ∧ !negative then none else some .zero
    else
      let exponent := if negative then s.exponent - e else s.exponent + e
      applyTen f exponent (exponent.natAbs / maxTen + 1)

def numberOf? (n : Numeral) : Option Binary64 := do
  let size ← sizeOf? n
  return if n.negative then -size else size

def runLengthOf? : Json → Option Nat
  | .number n =>
    if n.isWhole && !n.negative && ofDigits n.whole < 2 ^ 32 then some (ofDigits n.whole) else none
  | _ => none

def scaleOf? : Json → Option (Option Binary64)
  | .null => some none
  | .number n => some <$> numberOf? n
  | _ => none

def timeEncodingOf? : Json → Option String
  | .string text? => text?
  | _ => none

/-- The value of the only member with a given name, or the default if there is none. -/
def member? {α : Type} (members : List (Option String × Json)) (name : String) (read : Json → Option α)
    (default : α) : Option α :=
  match members.filter fun m => m.1 == some name with
  | [] => some default
  | [(_, value)] => read value
  | _ => none

def item? {α : Type} (items : List Json) (place : Nat) (read : Json → Option α) (default : α) : Option α :=
  match items[place]? with
  | some value => read value
  | none => some default

def ofJson? : Json → Option Config
  | .object members => do
    if members.any fun m => m.1.isNone then none
    let config : Config := {}
    return {
      maxRunLength := ← member? members "max_run_length" runLengthOf? config.maxRunLength
      scale? := ← member? members "fixed_point_scale" scaleOf? config.scale?
      timeEncoding := ← member? members "time_encoding" timeEncodingOf? config.timeEncoding }
  | .array items => do
    if 3 < items.length then none
    let config : Config := {}
    return {
      maxRunLength := ← item? items 0 runLengthOf? config.maxRunLength
      scale? := ← item? items 1 scaleOf? config.scale?
      timeEncoding := ← item? items 2 timeEncodingOf? config.timeEncoding }
  | _ => none

def ofText? (text : String) : Option Config := do ofJson? (← Json.parse? text)

end Chronicle.Config
