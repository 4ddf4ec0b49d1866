/-
  Chronicle.Machine.RunLengthWriter — RLE written in one pass over an array.

  (1) The pass goes from stretch to stretch of equal neighbours. Stretches of one are left behind
  as literals, from a place that is remembered; they are written when a longer stretch comes, or
  at the end. Every field goes to the same writer of bits.

  (2) Before the pass there is nothing but the array. A pattern is kept until the flush, which takes
  the array out first, then makes its pass, and takes the bytes out of the writer of bits last; a
  reset drops both.
-/

import Chronicle.Column.Value
import Chronicle.Machine.Guarded
import Chronicle.Stream.RunLength

namespace Chronicle.Machine

open Chronicle.RunLength

/-- What all segments have in common. A cap of 0 is taken for 1. -/
structure RunLengthWriter where
  width : Nat
  cap : Nat
  cap_pos : 0 < cap

namespace RunLengthWriter

def new (width cap : Nat) : RunLengthWriter := ⟨width, max cap 1, by omega⟩

def writeRun (w : RunLengthWriter) (value length : Nat) (out : BitWriter) : BitWriter :=
  (((out.writeBit true).write (bitsOf 31 length)).write (bitsOf w.width value)).align

def writeRuns (w : RunLengthWriter) (value left : Nat) (out : BitWriter) : BitWriter :=
  if left = 0 then out
  else
    let length := min left w.cap
    w.writeRuns value (left - length) (w.writeRun value length out)
termination_by left
decreasing_by have := w.cap_pos; omega

def writeGroup (w : RunLengthWriter) (out : BitWriter) (group : List Nat) : BitWriter :=
  let p := Packing.of (group.map (signedOf w.width))
  let out := (out.write (bitsOf 7 p.width)).write (bitsOf w.width (patternOf w.width p.base))
  p.offsets.foldl (fun out offset => out.write (bitsOf p.width offset)) out

def writeSegment (w : RunLengthWriter) (out : BitWriter) (values : List Nat) : BitWriter :=
  let out := (out.writeBit false).write (bitsOf 31 values.length)
  ((chunks groupSize values).foldl w.writeGroup out).align

def writeLiterals (w : RunLengthWriter) (values : List Nat) (out : BitWriter) : BitWriter :=
  (chunks w.cap values).foldl w.writeSegment out

def stretchEnd (values : Array Nat) (value place : Nat) : Nat :=
  if h : place < values.size then
    if values[place] = value then stretchEnd values value (place + 1) else place
  else place
termination_by values.size - place

theorem le_stretchEnd (values : Array Nat) (value place : Nat) : place ≤ stretchEnd values value place := by
  fun_induction stretchEnd values value place with
  | case1 place h heq ih => omega
  | case2 place h hne => exact Nat.le_refl place
  | case3 place h => exact Nat.le_refl place

/-- Writes what follows `place`, and the literals in front of it that are not written yet. -/
def scan (w : RunLengthWriter) (values : Array Nat) (literals place : Nat) (out : BitWriter) : BitWriter :=
  if h : place < values.size then
    let stop := stretchEnd values values[place] (place + 1)
    if 2 ≤ stop - place then
      let out := w.writeLiterals (values.extract literals place).toList out
      w.scan values stop stop (w.writeRuns values[place] (stop - place) out)
    else w.scan values literals stop out
  else w.writeLiterals (values.extract literals values.size).toList out
termination_by values.size - place
decreasing_by all_goals have := le_stretchEnd values values[place] (place + 1); omega

def flush (w : RunLengthWriter) (values : Array Nat) : Bytes := (w.scan values 0 0 .empty).finish.1

end RunLengthWriter

/-! ## Streams -/

structure RunLengthBuffer where
  dataType : FixedType
  writer : RunLengthWriter
  values : Array Nat := #[]
  out : BitWriter := .empty

namespace RunLengthBuffer

def new (t : FixedType) (cap : Nat) : RunLengthBuffer := { dataType := t, writer := .new t.width cap }

def encode (v : Value) : Guarded RunLengthBuffer Unit := do
  let bits ← .ofExcept (v.requireBits (.fixed (← get).dataType))
  modify fun b => { b with values := b.values.push bits }

def flush : Guarded RunLengthBuffer Bytes := do
  let values ← modifyGet fun b => (b.values, { b with values := #[] })
  modify fun b => { b with out := b.writer.scan values 0 0 b.out }
  modifyGet fun b => (b.out.finish.1, { b with out := b.out.finish.2 })

def reset : Guarded RunLengthBuffer Unit := do
  modify fun b => { b with values := #[] }
  modify fun b => { b with out := .empty }

end RunLengthBuffer

end Chronicle.Machine
