/-
  Chronicle.Stream.Gorilla — GORILLA: each pattern as its difference from the one before.

  Model.
  - The first pattern is written as it is. A later one is combined with its predecessor by exclusive or;
    what remains is a window of bits between zeros.
  - A code says that the pattern is the same, or gives the bits inside the window of an earlier code, or
    gives a window and the bits inside it (`Code`). The window is kept for the codes to come.
  - The count of patterns stands in front. So the stream says where it ends, and what follows the last
    code is not looked at.
  - The two versions differ in the form of the count, in how the size of a window is written, and in the
    byte that closes the stream. The first version has a count of four bytes, and takes no more patterns
    than these can say (`Encoder.push`).
  - A reader of the second version takes each byte as soon as the one before is used up, so the closing
    byte is taken along with the last pattern.
-/

import Chronicle.Column.Value
import Chronicle.Wire.BitReader
import Chronicle.Wire.Varint

namespace Chronicle.Gorilla

def fieldWidth (width : Nat) : Nat := if width = 32 then 5 else 6

/-- The zeros above and below the bits that a code gives. -/
structure Window where
  leading : Nat
  trailing : Nat
  deriving DecidableEq

def Window.size (width : Nat) (window : Window) : Nat := width - window.leading - window.trailing

def Window.around (width difference : Nat) : Window :=
  ⟨leadingZeros width difference, trailingZeros width difference⟩

def Window.fits (inner outer : Window) : Bool :=
  decide (outer.leading ≤ inner.leading ∧ outer.trailing ≤ inner.trailing)

/-- The field for the size of a window. The first version writes the full width as 0, the
    second one less than the size. -/
def sizeField (version : GorillaVersion) (width size : Nat) : Nat :=
  match version with
  | .v1 => size % 2 ^ fieldWidth width
  | .v2 => size - 1

def ofSizeField (version : GorillaVersion) (width field : Nat) : Nat :=
  match version with
  | .v1 => if field = 0 then width else field
  | .v2 => field + 1

/-! ## Writing -/

inductive Code
  | same
  | inside (window : Window) (bits : Nat)
  | fresh (window : Window) (bits : Nat)
  deriving DecidableEq

def Code.of (width : Nat) (window? : Option Window) (difference : Nat) : Code :=
  if difference = 0 then .same
  else
    let around := Window.around width difference
    let fresh := Code.fresh around (difference / 2 ^ around.trailing)
    match window? with
    | none => fresh
    | some window =>
      if around.fits window then .inside window (difference / 2 ^ window.trailing) else fresh

def Code.window? (before : Option Window) : Code → Option Window
  | same => before
  | inside window _ => some window
  | fresh window _ => some window

def Code.bits (version : GorillaVersion) (width : Nat) : Code → List Bool
  | same => [false]
  | inside window bits => [true, false] ++ bitsOf (window.size width) bits
  | fresh window bits =>
    let size := window.size width
    [true, true] ++ bitsOf (fieldWidth width) window.leading ++
      bitsOf (fieldWidth width) (sizeField version width size) ++ bitsOf size bits

def maxCount : Nat := 2 ^ 32 - 1

def countHeader (version : GorillaVersion) (count : Nat) : Bytes :=
  match version with
  | .v1 => Bytes.ofNat 4 count
  | .v2 => Varint.encode count

structure Encoder where
  version : GorillaVersion
  dataType : NumberType
  count : Nat := 0
  previous : Nat := 0
  window? : Option Window := none
  out : BitWriter := .empty

namespace Encoder

def width (e : Encoder) : Nat := e.dataType.width

def push (e : Encoder) (value : Nat) : Except CodecError Encoder :=
  if e.version = .v1 ∧ maxCount ≤ e.count then .error (.overflow .valueCount)
  else if e.count = 0 then
    .ok { e with count := 1, previous := value, out := e.out.write (bitsOf e.width value) }
  else
    let code := Code.of e.width e.window? (value ^^^ e.previous)
    .ok { e with
      count := e.count + 1
      previous := value
      window? := code.window? e.window?
      out := e.out.write (code.bits e.version e.width) }

def reset (e : Encoder) : Encoder := { version := e.version, dataType := e.dataType }

/-- A stream without patterns has no bytes. -/
def flush (e : Encoder) : Bytes × Encoder :=
  if e.count = 0 then ([], e)
  else
    let body :=
      match e.version with
      | .v1 => e.out.finish.1
      | .v2 => e.out.finishWithTerminator.1
    (countHeader e.version e.count ++ body, e.reset)

end Encoder

/-! ## Reading -/

def refill : GorillaVersion → Refill
  | .v1 => .onDemand
  | .v2 => .eager

/-- Where a decoder stands: before the count, before the first pattern, or behind a pattern. -/
inductive State
  | start
  | counted (left : Nat)
  | following (left previous : Nat) (window? : Option Window)

def pullCount (version : GorillaVersion) : Reading Bytes Nat := do
  let count ←
    match version with
    | .v1 => Bytes.pullNat 4
    | .v2 => Varint.pull
  if count = 0 then throw (.malformed .zeroCount)
  return count

def pullWindow (version : GorillaVersion) (width : Nat) : Reading BitSource Window := do
  let leading ← BitSource.pullBits (fieldWidth width)
  let size := ofSizeField version width (← BitSource.pullBits (fieldWidth width))
  if width < leading + size then throw (.malformed (.windowTooWide leading size width))
  return ⟨leading, width - leading - size⟩

def pullDifference (width : Nat) (window : Window) : Reading BitSource Nat :=
  return (← BitSource.pullBits (window.size width)) * 2 ^ window.trailing

/-- Reads a code, with `left` patterns still to come. Gives the pattern that it makes of
    `previous`, and the window for later codes. A new window is kept from the moment it has
    been read, also if the bits inside it are missing. -/
def pullFollowing (version : GorillaVersion) (width left previous : Nat) (window? : Option Window) :
    Reading (Feed State) (Nat × Option Window) := do
  let differs ← Feed.onBits BitSource.pullBit
  if !differs then return (previous, window?)
  let isFresh ← Feed.onBits BitSource.pullBit
  if isFresh then
    let window ← Feed.onBits (pullWindow version width)
    Feed.setState (.following left previous (some window))
    return (previous ^^^ (← Feed.onBits (pullDifference width window)), some window)
  match window? with
  | some window => return (previous ^^^ (← Feed.onBits (pullDifference width window)), some window)
  | none => throw (.malformed .windowMissing)

def start (version : GorillaVersion) : Reading (Feed State) Unit := do
  match (← get).state with
  | .start =>
    let count ← Feed.onBytes (pullCount version)
    Feed.setState (.counted count)
  | _ => return ()

def next (version : GorillaVersion) (width : Nat) : Reading (Feed State) Nat := do
  start version
  match (← get).state with
  | .counted (left + 1) =>
    let value ← Feed.onBits (BitSource.pullBits width)
    Feed.setState (.following left value none)
    return value
  | .following (left + 1) previous window? =>
    let (value, window?) ← pullFollowing version width (left + 1) previous window?
    Feed.setState (.following left value window?)
    return value
  | _ => throw .underflow

def hasNext (state : State) (bytes : Bytes) : Bool :=
  match state with
  | .start => !bytes.isEmpty
  | .counted left => decide (0 < left)
  | .following left _ _ => decide (0 < left)

end Chronicle.Gorilla
