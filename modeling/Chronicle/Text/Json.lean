/-
  Chronicle.Text.Json — JSON texts.

  Model.
  - A text is read as a whole or refused; nothing may stand behind the value but blanks.
  - Numbers keep their digits (`Numeral`), so that whoever uses one decides what it has to be: a whole
    number of some width, or the nearest double.
  - A string with half a surrogate pair is a string that has no text. It is read, and refused only by
    whoever asks for its text.
  - Members keep their order, and a name may occur more than once.
  - Values inside values are read as deep as the text goes; every step down takes a character, so the
    length of the text bounds the depth (`parse?`).
-/

namespace Chronicle

/-- A number as it is written, every part of it in decimal digits. -/
structure Numeral where
  negative : Bool
  whole : List Nat
  fraction : List Nat
  /-- The sign of the exponent and its digits. -/
  exponent? : Option (Bool × List Nat)
  deriving DecidableEq

def Numeral.isWhole (n : Numeral) : Bool := n.fraction.isEmpty && n.exponent?.isNone

inductive Json
  | null
  | boolean (v : Bool)
  | number (n : Numeral)
  | string (text? : Option String)
  | array (items : List Json)
  | object (members : List (Option String × Json))

def ofDigits (digits : List Nat) : Nat := digits.foldl (fun n d => 10 * n + d) 0

namespace Json

/-- Reads from the front of a text, or refuses it. -/
abbrev Scan := StateT (List Char) Option

namespace Scan

def char : Scan Char
  | [] => none
  | c :: rest => some (c, rest)

def accept (c : Char) : Scan Bool
  | [] => some (false, [])
  | d :: rest => if d = c then some (true, rest) else some (false, d :: rest)

def expect (c : Char) : Scan Unit := do
  if ← accept c then return () else failure

def word (w : String) : Scan Unit := w.toList.forM expect

def blanks : Scan Unit := modify (List.dropWhile fun c => c == ' ' || c == '\t' || c == '\n' || c == '\r')

def digit? (c : Char) : Option Nat := if c.isDigit then some (c.toNat - '0'.toNat) else none

def digits : Scan (List Nat) := fun cs =>
  some ((cs.takeWhile Char.isDigit).filterMap digit?, cs.dropWhile Char.isDigit)

def someDigits : Scan (List Nat) := do
  match ← digits with
  | [] => failure
  | ds => return ds

/-- Reads the digits before the point. No zero stands in front of another digit. -/
def wholeDigits : Scan (List Nat) := do
  match ← digits with
  | [] => failure
  | 0 :: _ :: _ => failure
  | ds => return ds

def fraction : Scan (List Nat) := do
  if ← accept '.' then someDigits else return []

def exponentDigits : Scan (Option (Bool × List Nat)) := do
  if ← accept '-' then return some (true, ← someDigits)
  discard (accept '+')
  return some (false, ← someDigits)

def exponent? : Scan (Option (Bool × List Nat)) := do
  if ← accept 'e' then exponentDigits
  else if ← accept 'E' then exponentDigits
  else return none

def numeral : Scan Numeral := do
  let negative ← accept '-'
  return { negative, whole := ← wholeDigits, fraction := ← fraction, exponent? := ← exponent? }

def hexDigit : Scan Nat := do
  let c ← char
  if c.isDigit then return c.toNat - '0'.toNat
  else if 'a' ≤ c ∧ c ≤ 'f' then return c.toNat - 'a'.toNat + 10
  else if 'A' ≤ c ∧ c ≤ 'F' then return c.toNat - 'A'.toNat + 10
  else failure

/-- Reads what follows a backslash, as a code point or half a surrogate pair. -/
def escape : Scan Nat := do
  match ← char with
  | '"' => return '"'.toNat
  | '\\' => return '\\'.toNat
  | '/' => return '/'.toNat
  | 'b' => return 8
  | 'f' => return 12
  | 'n' => return 10
  | 'r' => return 13
  | 't' => return 9
  | 'u' => return ((((← hexDigit) * 16 + (← hexDigit)) * 16 + (← hexDigit)) * 16 + (← hexDigit))
  | _ => failure

def units : (limit : Nat) → Scan (List Nat)
  | 0 => failure
  | limit + 1 => do
    let c ← char
    if c = '"' then return []
    else if c = '\\' then return (← escape) :: (← units limit)
    else if c.toNat < 0x20 then failure
    else return c.toNat :: (← units limit)

end Scan

def isHighSurrogate (n : Nat) : Bool := decide (0xD800 ≤ n ∧ n < 0xDC00)

def isLowSurrogate (n : Nat) : Bool := decide (0xDC00 ≤ n ∧ n < 0xE000)

def joinSurrogates : List Nat → Option (List Char)
  | [] => some []
  | n :: rest =>
    if isHighSurrogate n then
      match rest with
      | m :: rest =>
        if isLowSurrogate m then
          (Char.ofNat (0x10000 + (n - 0xD800) * 0x400 + (m - 0xDC00)) :: ·) <$> joinSurrogates rest
        else none
      | [] => none
    else if isLowSurrogate n then none
    else (Char.ofNat n :: ·) <$> joinSurrogates rest

def scanString : Scan (Option String) := do
  let units ← Scan.units ((← get).length + 1)
  return (joinSurrogates units).map String.ofList

def scanName : Scan (Option String) := do
  Scan.blanks
  Scan.expect '"'
  let name ← scanString
  Scan.blanks
  Scan.expect ':'
  return name

mutual

/-- Reads a value, going at most `depth` steps down. -/
def scanValue : (depth : Nat) → Scan Json
  | 0 => failure
  | depth + 1 => do
    Scan.blanks
    if ← Scan.accept '"' then return .string (← scanString)
    else if ← Scan.accept '[' then
      Scan.blanks
      if ← Scan.accept ']' then return .array [] else return .array (← scanItems depth)
    else if ← Scan.accept '\x7b' then
      Scan.blanks
      if ← Scan.accept '\x7d' then return .object [] else return .object (← scanMembers depth)
    else if ← Scan.accept 'n' then
      Scan.word "ull"
      return .null
    else if ← Scan.accept 't' then
      Scan.word "rue"
      return .boolean true
    else if ← Scan.accept 'f' then
      Scan.word "alse"
      return .boolean false
    else return .number (← Scan.numeral)

/-- Reads the items of an array that has at least one more, and its end. -/
def scanItems : (depth : Nat) → Scan (List Json)
  | 0 => failure
  | depth + 1 => do
    let item ← scanValue depth
    Scan.blanks
    if ← Scan.accept ',' then return item :: (← scanItems depth)
    Scan.expect ']'
    return [item]

def scanMembers : (depth : Nat) → Scan (List (Option String × Json))
  | 0 => failure
  | depth + 1 => do
    let name ← scanName
    let value ← scanValue depth
    Scan.blanks
    if ← Scan.accept ',' then return (name, value) :: (← scanMembers depth)
    Scan.expect '\x7d'
    return [(name, value)]

end

/-- Reads a text that holds one value and blanks around it. Every step down takes a
    character, so the depth is no limit. -/
def parse? (text : String) : Option Json := do
  let (value, rest) ← (scanValue (2 * text.length + 2)).run text.toList
  let (_, rest) ← Scan.blanks.run rest
  if rest.isEmpty then some value else none

end Json

end Chronicle
