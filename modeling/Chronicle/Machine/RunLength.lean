/-
  Chronicle.Machine.RunLength — RLE read on machine words.

  Model.
  - The patterns of a group are stored in eight words, of which `length` are filled and `place` have been
    given out. Each is the base and an offset, added modulo the word size.
  - A segment whose patterns have all been given out stays where it is until another pattern is asked
    for. Then the head of the next one is read, which says that it has at least one pattern: so there
    are two rounds at most, and a third one would be trapped (`nextWithin`).
  - A group is stored while it is read. One that is broken off leaves a block of which nothing counts as
    filled.
-/

import Chronicle.Machine.Bytes
import Chronicle.Stream.RunLength

namespace Chronicle.Machine.RunLength

/-- A segment of literals. `remaining` of them are in groups that are not read yet. -/
structure Literals where
  remaining : UInt32
  group : Words := .blank
  length : Nat := 0
  place : Nat := 0

inductive Segment
  | idle
  | run (value : UInt64) (remaining : UInt32)
  | literal (l : Literals)

def Segment.pending {σ : Type} : Segment → Guarded σ UInt64
  | idle => return 0
  | run _ remaining => return remaining.toUInt64
  | literal l => do
    let unpacked ← Guarded.minus l.length l.place
    Guarded.plus64 l.remaining.toUInt64 (UInt64.ofNat unpacked)

def readSegment (width : UInt8) : Guarded BitSource Segment := do
  BitSource.align
  let isRun ← BitSource.readBit
  let length := (← BitSource.readBits 31).toUInt32
  if length = 0 then Guarded.fail (.malformed .emptySegment)
  if isRun then return .run (← BitSource.readBits width) length
  return .literal { remaining := length }

def readGroup (width : UInt8) (count : Nat) : Guarded (Feed Words) Unit := do
  let offsetWidth := (← Feed.onBits (BitSource.readBits 7)).toUInt8
  if width < offsetWidth then Guarded.fail (.malformed (.groupWidth offsetWidth.toNat width.toNat))
  let base ← Guarded.signExtend (← Feed.onBits (BitSource.readBits width)) width
  let mask ← Guarded.lowBits64 width
  Feed.fill offsetWidth (fun _ offset => (base + offset.toInt64).toUInt64 &&& mask) 0 0 count

def unpack (width : UInt8) (l : Literals) : Guarded (Feed Segment) Literals := do
  if l.place ≠ l.length then return l
  let count := min l.remaining 8
  let group ← Feed.within (fun group => .literal { l with group := group }) l.group do
    readGroup width count.toNat
    return (← get).state
  let remaining ← Guarded.minus l.remaining count
  return { remaining, group, length := count.toNat }

def takeLiteral (width : UInt8) (l : Literals) : Guarded (Feed Segment) UInt64 := do
  let l ← unpack width l
  Feed.setState (.literal l)
  let value ← Words.get l.group l.place
  let place ← Words.next l.place
  Feed.setState (.literal { l with place := place })
  return value

/-- Reads the next pattern. A segment that has none left is followed by another one, and
    that has one. -/
def nextWithin (width : UInt8) : (rounds : Nat) → Guarded (Feed Segment) UInt64
  | 0 => Guarded.trap .rounds
  | rounds + 1 => do
    let another := do
      let segment ← Feed.onBits (readSegment width)
      Feed.setState segment
      nextWithin width rounds
    match (← get).state with
    | .idle => another
    | .run value remaining =>
      if 0 < remaining then
        let remaining ← Guarded.minus remaining 1
        Feed.setState (.run value remaining)
        return value
      else another
    | .literal l => if l.place < l.length ∨ 0 < l.remaining then takeLiteral width l else another

def next (width : UInt8) : Guarded (Feed Segment) UInt64 := nextWithin width 2

def hasNext : Guarded (Feed Segment) Bool := do
  let f ← get
  let pending ← f.state.pending
  return decide (0 < pending) || !f.bytes.isEmpty

end Chronicle.Machine.RunLength
