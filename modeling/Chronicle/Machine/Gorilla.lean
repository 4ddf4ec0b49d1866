/-
  Chronicle.Machine.Gorilla — GORILLA read on machine words.

  Model.
  - A window is two bytes, of which the first is 255 as long as no window has been read. The width less
    both is the number of bits inside it; where that is not a positive number there is no window, and a
    code that asks for one is malformed. The second byte is a shift, which is guarded.
  - A new window that is wider than the pattern is malformed before anything is stored of it. One that
    is not is stored as soon as it has been read, also if the bits inside it are missing.
  - The count is read once, and stored; the first pattern is read when it is asked for, and not with the
    count.
-/

import Chronicle.Machine.Bytes
import Chronicle.Stream.Gorilla

namespace Chronicle.Machine.Gorilla

/-- What stands for the zeros above a window where there is none. -/
def noWindow : UInt8 := 255

structure State where
  /-- How many patterns are to come, once the count has been read. -/
  remaining? : Option UInt64 := none
  /-- Whether the first pattern has been read. -/
  started : Bool := false
  /-- The last pattern. -/
  stored : UInt64 := 0
  leading : UInt8 := noWindow
  trailing : UInt8 := 0

def State.reset (_ : State) : State :=
  { remaining? := none, started := false, stored := 0, leading := noWindow, trailing := 0 }

def fieldWidth (width : UInt8) : UInt8 := if width = 32 then 5 else 6

def ofSizeField {σ : Type} (version : GorillaVersion) (width : UInt8) (field : UInt64) : Guarded σ UInt8 :=
  match version with
  | .v1 => return if field = 0 then width else field.toUInt8
  | .v2 => Guarded.plus8 field.toUInt8 1

def less? (a b : UInt8) : Option UInt8 := if b ≤ a then some (a - b) else none

def readNumber : GorillaVersion → Guarded Bytes UInt64
  | .v1 => do
    ensure 4
    return UInt64.ofNat (Bytes.toNat (← takeBytes 4))
  | .v2 => Varint.read

def readCount (version : GorillaVersion) : Guarded Bytes UInt64 := do
  let count ← readNumber version
  if count = 0 then Guarded.fail (.malformed .zeroCount)
  return count

def readWindow (version : GorillaVersion) (width : UInt8) : Guarded BitSource (UInt8 × UInt8) := do
  let leading := (← BitSource.readBits (fieldWidth width)).toUInt8
  let size ← ofSizeField version width (← BitSource.readBits (fieldWidth width))
  match less? width leading >>= (less? · size) with
  | some trailing => return (leading, trailing)
  | none => Guarded.fail (.malformed (.windowTooWide leading.toNat size.toNat width.toNat))

def combine (width : UInt8) : Guarded (Feed State) Unit := do
  let s := (← get).state
  match (less? width s.leading >>= (less? · s.trailing)).filter (0 < ·) with
  | some size =>
    let bits ← Feed.onBits (BitSource.readBits size)
    let difference ← Guarded.shiftLeft64 bits s.trailing
    Feed.setState { s with stored := s.stored ^^^ difference }
  | none => Guarded.fail (.malformed .windowMissing)

def readCode (version : GorillaVersion) (width : UInt8) : Guarded (Feed State) Unit := do
  let code ← Feed.onBits (BitSource.readToClearBit 0 2)
  if code = 3 then
    let (leading, trailing) ← Feed.onBits (readWindow version width)
    modify fun f => { f with state := { f.state with leading := leading, trailing := trailing } }
    combine width
  else if code = 2 then combine width

/-- How many patterns are to come. Reads the count if that has not been done. -/
def remaining (version : GorillaVersion) : Guarded (Feed State) UInt64 := do
  match (← get).state.remaining? with
  | some n => return n
  | none =>
    let n ← Feed.onBytes (readCount version)
    modify fun f => { f with state := { f.state with remaining? := some n } }
    return n

def readFirst (width : UInt8) : Guarded (Feed State) Unit := do
  let value ← Feed.onBits (BitSource.readBits width)
  modify fun f => { f with state := { f.state with stored := value, started := true } }

def next (version : GorillaVersion) (width : UInt8) : Guarded (Feed State) UInt64 := do
  let n ← remaining version
  if n = 0 then Guarded.fail .underflow
  if (← get).state.started then readCode version width else readFirst width
  let n ← Guarded.minus n 1
  modify fun f => { f with state := { f.state with remaining? := some n } }
  return (← get).state.stored

def hasNext (s : State) (bytes : Bytes) : Bool :=
  match s.remaining? with
  | none => !bytes.isEmpty
  | some n => decide (0 < n)

end Chronicle.Machine.Gorilla
