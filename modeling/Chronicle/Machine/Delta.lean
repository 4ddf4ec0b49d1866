/-
  Chronicle.Machine.Delta — TS_2DIFF read on machine words.

  Model.
  - The words of a block are stored in eight places, of which `length` are filled and `place` have been
    given out. A block is read when the last one has been given out; its words are stored one by one,
    while they are read, so a block that is broken off leaves some of them behind.
  - Words are added up modulo 2^64 and cut down to the word size.
  - The domain is remembered once the mode has been read. A reset forgets it and leaves the words where
    they are.
-/

import Chronicle.Machine.Bytes
import Chronicle.Stream.Delta

namespace Chronicle.Machine.Delta

open Ieee
open Chronicle.Delta (Domain hasMode isScale ofWord)

structure State where
  domain? : Option Domain
  width : UInt8
  block : Words
  length : Nat
  place : Nat

def natural (t : NumberType) : UInt8 := UInt8.ofNat t.width

def State.initial (t : NumberType) : State :=
  { domain? := none, width := natural t, block := .blank, length := 0, place := 0 }

def State.reset (t : NumberType) (s : State) : State :=
  { s with domain? := none, width := natural t, length := 0, place := 0 }

def width (t : NumberType) : Domain → UInt8
  | .pattern => natural t
  | .fixedPoint _ => 64

def readDomain (t : NumberType) : Guarded BitSource Domain := do
  if !hasMode t then return .pattern
  let mode ← BitSource.readBits 8
  if mode = 0 then return .pattern
  if mode = 1 then
    let scale : Binary64 := ⟨← BitSource.readBits 64⟩
    if isScale scale then return .fixedPoint scale
    Guarded.fail (.malformed (.fixedPointScale scale))
  Guarded.fail (.malformed (.streamMode mode.toNat))

def readOthers (width : UInt8) (first : UInt64) (count : Nat) : Guarded (Feed Words) Unit := do
  let base ← Guarded.signExtend (← Feed.onBits (BitSource.readBits width)) width
  let offsetWidth := (← Feed.onBits (BitSource.readBits 7)).toUInt8
  if width < offsetWidth then Guarded.fail (.malformed (.blockWidth offsetWidth.toNat width.toNat))
  let mask ← Guarded.lowBits64 width
  Guarded.require (1 ≤ count ∧ count ≤ 8) .index ()
  Feed.fill offsetWidth (fun previous offset => (previous + (base + offset.toInt64).toUInt64) &&& mask) first 1 (count - 1)

def readBlock (width : UInt8) : Guarded (Feed Words) Nat := do
  Feed.onBits BitSource.align
  let count := (← Feed.onBits (BitSource.readBits 4)).toNat
  if count = 0 ∨ 8 < count then Guarded.fail (.malformed (.blockCount count))
  let first ← Feed.onBits (BitSource.readBits width)
  Feed.store 0 first
  if 1 < count then readOthers width first count
  return count

/-- The domain of the stream, read from its front if it was not known. -/
def domain (t : NumberType) : Guarded (Feed State) Domain := do
  match (← get).state.domain? with
  | some d => return d
  | none =>
    let d ← Feed.onBits (readDomain t)
    modify fun f => { f with state := { f.state with domain? := some d, width := width t d } }
    return d

def unpack : Guarded (Feed State) Unit := do
  let s := (← get).state
  if s.place = s.length then
    let count ← Feed.within (fun block => { s with block := block }) s.block (readBlock s.width)
    modify fun f => { f with state := { f.state with length := count, place := 0 } }

def takeValue (t : NumberType) (d : Domain) : Guarded (Feed State) Value := do
  let s := (← get).state
  let word ← Words.get s.block s.place
  let place ← Words.next s.place
  Feed.setState { s with place := place }
  return ofWord t d word.toNat

def next (t : NumberType) : Guarded (Feed State) Value := do
  let d ← domain t
  unpack
  takeValue t d

def hasNext (s : State) (bytes : Bytes) : Bool := decide (s.place < s.length) || !bytes.isEmpty

end Chronicle.Machine.Delta
