/-
  Chronicle.Stream.Delta — TS_2DIFF: blocks of eight words as differences.

  Model.
  - A block starts on a whole byte with its count and its first word; the differences of neighbours
    follow as a `Packing`, its base before its width. A block of one word has neither.
  - All arithmetic is modulo the word size, so any words can be written: a difference that wraps around
    is undone when it is added again.
  - A stream of floating-point numbers opens with a mode. Under the first one their bit patterns are the
    words. Under the second one there is a scale; each number is multiplied by it and rounded to a word
    of 64 bits, whatever the width of the number.
  - The mode is written with the first value, so a stream without values has no bytes, and it is read
    with the first value too. A mode that cannot be read is not remembered: the next call meets it again.
  - A value that cannot become a word is refused before anything is written (`Encoder.push`).
-/

import Chronicle.Column.Value
import Chronicle.Wire.BitReader
import Chronicle.Wire.Bits
import Chronicle.Wire.Bytes

namespace Chronicle.Delta

open Ieee

def blockSize : Nat := 8

inductive Domain
  | pattern
  | fixedPoint (scale : Binary64)
  deriving DecidableEq

/-- The domain for a type under an optional scale, which only floating-point numbers heed. -/
def Domain.of : NumberType → Option Binary64 → Domain
  | .float, some scale => .fixedPoint scale
  | .double, some scale => .fixedPoint scale
  | _, _ => .pattern

def Domain.width (t : NumberType) : Domain → Nat
  | pattern => t.width
  | fixedPoint _ => 64

def hasMode : NumberType → Bool
  | .int32 | .int64 => false
  | .float | .double => true

def isScale (scale : Binary64) : Bool := scale.isFinite && decide (Binary64.zero < scale)

/-- The product as a whole number, if it fits 64 bits. -/
def quantize (value scale : Binary64) : Except CodecError Int :=
  match (value * scale).round? with
  | some n =>
    if -2 ^ 63 ≤ n ∧ n < 2 ^ 63 then .ok n else .error (.overflow (.fixedPoint value scale))
  | none => .error (.overflow (.fixedPoint value scale))

def dequantize (n : Int) (scale : Binary64) : Binary64 := Binary64.ofInt n / scale

def toWord (t : NumberType) (d : Domain) (bits : Nat) : Except CodecError Nat :=
  match d, t with
  | .fixedPoint scale, .float => return patternOf 64 (← quantize (Binary32.mk (UInt32.ofNat bits)).widen scale)
  | .fixedPoint scale, .double => return patternOf 64 (← quantize ⟨UInt64.ofNat bits⟩ scale)
  | _, _ => .ok bits

def ofWord (t : NumberType) (d : Domain) (word : Nat) : Value :=
  match d, t with
  | .fixedPoint scale, .float => .float (dequantize (signedOf 64 word) scale).narrow
  | .fixedPoint scale, .double => .double (dequantize (signedOf 64 word) scale)
  | _, _ => .ofBits (.number t) word

/-! ## Writing -/

/-- The signed differences of neighbours, modulo the word size. -/
def steps (width : Nat) : List Nat → List Int
  | a :: b :: rest => signedOf width (patternOf width (b - a)) :: steps width (b :: rest)
  | _ => []

def modeBytes (t : NumberType) (d : Domain) : Bytes :=
  if hasMode t then
    match d with
    | .pattern => [0]
    | .fixedPoint scale => 1 :: BigEndian.toBytes scale
  else []

def blockBits (width : Nat) : List Nat → List Bool
  | [] => []
  | [first] => bitsOf 4 1 ++ bitsOf width first
  | first :: second :: rest =>
    let words := first :: second :: rest
    let p := Packing.of (steps width words)
    bitsOf 4 words.length ++ bitsOf width first ++ bitsOf width (patternOf width p.base) ++
      bitsOf 7 p.width ++ p.offsetBits

/-- The words of the block that is being filled, and the bytes of the blocks before it.
    The mode is written with the first value. -/
structure Encoder where
  dataType : NumberType
  domain : Domain
  block : List Nat := []
  out : Array UInt8 := #[]
  opened : Bool := false

namespace Encoder

def width (e : Encoder) : Nat := e.domain.width e.dataType

def writeModeOnce (e : Encoder) : Encoder :=
  if e.opened then e else { e with out := e.out ++ modeBytes e.dataType e.domain, opened := true }

def closeBlock (e : Encoder) : Encoder :=
  { e with out := e.out ++ packBits (blockBits e.width e.block), block := [] }

def add (e : Encoder) (word : Nat) : Encoder :=
  let e := { e.writeModeOnce with block := e.block ++ [word] }
  if e.block.length = blockSize then e.closeBlock else e

/-- Adds a bit pattern of the type. Nothing changes if it cannot become a word. -/
def push (e : Encoder) (bits : Nat) : Except CodecError Encoder :=
  return e.add (← toWord e.dataType e.domain bits)

def reset (e : Encoder) : Encoder := { dataType := e.dataType, domain := e.domain }

def flush (e : Encoder) : Bytes × Encoder := (e.closeBlock.out.toList, e.reset)

end Encoder

/-! ## Reading -/

/-- The domain, once it has been read, and the words of a block that are still to come. -/
structure State where
  domain? : Option Domain := none
  ready : List Nat := []

def pullDomain (t : NumberType) : Reading BitSource Domain := do
  if hasMode t then
    match ← BitSource.pullBits 8 with
    | 0 => return .pattern
    | 1 =>
      let scale : Binary64 := ⟨UInt64.ofNat (← BitSource.pullBits 64)⟩
      if isScale scale then return .fixedPoint scale
      else throw (.malformed (.fixedPointScale scale))
    | mode => throw (.malformed (.streamMode mode))
  else return .pattern

/-- Reads `count` differences and adds them up, starting behind the word `previous`. -/
def pullWords (width base offsetWidth previous : Nat) : (count : Nat) → Reading BitSource (List Nat)
  | 0 => return []
  | count + 1 => do
    let offset ← BitSource.pullBits offsetWidth
    let word := (previous + base + offset) % 2 ^ width
    return word :: (← pullWords width base offsetWidth word count)

def pullBlock (width : Nat) : Reading BitSource (Nat × List Nat) := do
  BitSource.align
  let count ← BitSource.pullBits 4
  if count = 0 ∨ blockSize < count then throw (.malformed (.blockCount count))
  let first ← BitSource.pullBits width
  if count = 1 then return (first, [])
  let base ← BitSource.pullBits width
  let offsetWidth ← BitSource.pullBits 7
  if width < offsetWidth then throw (.malformed (.blockWidth offsetWidth width))
  return (first, ← pullWords width base offsetWidth first (count - 1))

/-- The domain of the stream, read from its front if it was not known. -/
def domain (t : NumberType) : Reading (Feed State) Domain := do
  match (← get).state.domain? with
  | some d => return d
  | none =>
    let d ← Feed.onBits (pullDomain t)
    modify fun f => { f with state := { f.state with domain? := some d } }
    return d

def next (t : NumberType) : Reading (Feed State) Value := do
  let d ← domain t
  let (word, rest) ←
    match (← get).state.ready with
    | word :: rest => pure (word, rest)
    | [] => Feed.onBits (pullBlock (d.width t))
  Feed.setState { domain? := some d, ready := rest }
  return ofWord t d word

def hasNext (state : State) (bytes : Bytes) : Bool := !state.ready.isEmpty || !bytes.isEmpty

end Chronicle.Delta
