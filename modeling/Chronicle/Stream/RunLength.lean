/-
  Chronicle.Stream.RunLength — RLE: runs of equal patterns, and the rest packed in groups.

  Model.
  - A payload is a sequence of segments, each starting on a whole byte with a flag and a length of 31
    bits. A run has the repeated pattern behind it. Literals come in groups of eight, of which the last
    may be shorter; each group is a `Packing`, its width before its base.
  - `segments` says how a list of patterns is cut: a stretch of at least two equal neighbours becomes
    runs, stretches of one in a row become literals, and both are cut into pieces no longer than the
    cap. So a run can have a length of one, as the last piece of a longer one.
  - Patterns are kept until the flush; nothing of a stream is written before.
  - `next` reads one pattern. What a segment still has is kept between two calls (`Pending`), a run as a
    number of copies, literals as those of the group that has been read and a number of others.
-/

import Chronicle.Wire.BitReader
import Chronicle.Wire.Bits

namespace Chronicle.RunLength

/-- The most patterns that the length field of a segment can count. -/
def maxCap : Nat := 2 ^ 31 - 1

def groupSize : Nat := 8

inductive Segment
  | run (value length : Nat)
  | literals (values : List Nat)
  deriving DecidableEq

def Segment.expand : Segment → List Nat
  | run value length => List.replicate length value
  | literals values => values

/-! ## Writing -/

/-- Segments of any length for the maximal stretches of equal neighbours: a run for a
    stretch of at least two, literals for stretches of one in a row. -/
def ofStretches : List (List Nat) → List Segment
  | [] => []
  | [] :: rest => ofStretches rest
  | [v] :: rest =>
    match ofStretches rest with
    | .literals vs :: more => .literals (v :: vs) :: more
    | more => .literals [v] :: more
  | (v :: _ :: vs) :: rest => .run v (vs.length + 2) :: ofStretches rest

def Segment.cut (cap : Nat) : Segment → List Segment
  | run value length =>
    (chunks cap (List.replicate length value)).map fun piece => run value piece.length
  | literals values => (chunks cap values).map literals

def segments (cap : Nat) (values : List Nat) : List Segment :=
  (ofStretches (values.splitBy (· == ·))).flatMap (Segment.cut cap)

def groupBits (width : Nat) (values : List Nat) : List Bool :=
  let p := Packing.of (values.map (signedOf width))
  bitsOf 7 p.width ++ bitsOf width (patternOf width p.base) ++ p.offsetBits

def Segment.bits (width : Nat) : Segment → List Bool
  | run value length => true :: bitsOf 31 length ++ bitsOf width value
  | literals values =>
    false :: bitsOf 31 values.length ++ (chunks groupSize values).flatMap (groupBits width)

def payload (width cap : Nat) (values : List Nat) : Bytes :=
  (segments cap values).flatMap fun s => packBits (s.bits width)

/-- The patterns since the last flush; nothing is written before the flush. -/
structure Encoder where
  dataType : FixedType
  cap : Nat
  values : Array Nat := #[]

namespace Encoder

def push (e : Encoder) (value : Nat) : Encoder := { e with values := e.values.push value }

def flush (e : Encoder) : Bytes × Encoder :=
  (payload e.dataType.width e.cap e.values.toList, { e with values := #[] })

def reset (e : Encoder) : Encoder := { e with values := #[] }

end Encoder

/-! ## Reading -/

/-- The patterns of the current segment that are still to come. There is at least one. -/
inductive Pending
  /-- `more + 1` copies of a pattern. -/
  | run (value more : Nat)
  /-- `more + 1` literals, in groups that are not read yet. -/
  | packed (more : Nat)
  /-- Literals of a group that has been read, and `packed` more of them in later groups. -/
  | group (value : Nat) (rest : List Nat) (packed : Nat)

def Pending.count : Pending → Nat
  | run _ more => more + 1
  | packed more => more + 1
  | group _ rest later => 1 + rest.length + later

/-- What is pending; nothing is at the start of a segment. -/
abbrev State := Option Pending

def State.count : State → Nat
  | none => 0
  | some p => p.count

def State.ofLiterals : (rest : List Nat) → (packed : Nat) → State
  | v :: rest, packed => some (.group v rest packed)
  | [], more + 1 => some (.packed more)
  | [], 0 => none

/-- Reads the head of a segment, which starts on a whole byte. -/
def pullSegment (width : Nat) : Reading BitSource Pending := do
  BitSource.align
  let isRun ← BitSource.pullBit
  match ← BitSource.pullBits 31 with
  | 0 => throw (.malformed .emptySegment)
  | more + 1 => if isRun then return .run (← BitSource.pullBits width) more else return .packed more

def pullMember (width base offsetWidth : Nat) : Reading BitSource Nat :=
  return (base + (← BitSource.pullBits offsetWidth)) % 2 ^ width

def pullGroup (width more : Nat) : Reading BitSource (Nat × List Nat) := do
  let offsetWidth ← BitSource.pullBits 7
  if width < offsetWidth then throw (.malformed (.groupWidth offsetWidth width))
  let base ← BitSource.pullBits width
  let first ← pullMember width base offsetWidth
  return (first, ← (pullMember width base offsetWidth).times more)

def pending (width : Nat) : Reading (Feed State) Pending := do
  match (← get).state with
  | some p => return p
  | none =>
    let p ← Feed.onBits (pullSegment width)
    Feed.setState (some p)
    return p

def next (width : Nat) : Reading (Feed State) Nat := do
  match ← pending width with
  | .run value 0 =>
    Feed.setState none
    return value
  | .run value (more + 1) =>
    Feed.setState (some (.run value more))
    return value
  | .packed more =>
    let others := min more (groupSize - 1)
    let (value, rest) ← Feed.onBits (pullGroup width others)
    Feed.setState (.ofLiterals rest (more - others))
    return value
  | .group value rest packed =>
    Feed.setState (.ofLiterals rest packed)
    return value

def hasNext (state : State) (bytes : Bytes) : Bool := state.isSome || !bytes.isEmpty

end Chronicle.RunLength
