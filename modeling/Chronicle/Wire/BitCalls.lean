/-
  Chronicle.Wire.BitCalls — a writer and a reader of bits under a sequence of calls.

  Model.
  - A caller of a writer can add a bit or the low bits of a word, fill up the current byte, ask how much
    has been written, and take the bytes out, with or without a byte that marks the end.
  - To its caller a writer is a list of bits: `Call.onBits` says what each call makes of the list, and
    what it answers. The definitions of `Chronicle.Wire.BitWriter` are answered by `call`.
  - A reader is asked for single bits, for numbers of at most 64 bits, or for bits up to a zero. Its
    calls stop at the first one that fails.

  That the writer and the list give the same answers is proved in `Chronicle.Proofs.Wire.BitCalls`, and
  for the writer and reader on machine words in the modules of `Chronicle.Proofs.Machine`.
-/

import Chronicle.Wire.BitReader

namespace Chronicle

namespace BitWriter

/-- A call on a writer. A word has no more than 64 bits to write. -/
inductive Call
  | bit (b : Bool)
  | bits (word : UInt64) (count : UInt8) (count_le : count ≤ 64)
  | align
  | clear
  | finish
  /-- `finish` with a terminator. -/
  | terminate
  | length
  | isEmpty
  | isAligned

/-- What a caller sees. Bytes may be seen as what they hold. -/
inductive Answer (β : Type)
  | done
  | bytes (written : β)
  | number (n : Nat)
  | truth (b : Bool)
  deriving DecidableEq

def Answer.map {β γ : Type} (f : β → γ) : Answer β → Answer γ
  | done => done
  | bytes written => bytes (f written)
  | number n => number n
  | truth b => truth b

def padded (bits : List Bool) : List Bool := bits.rightpad (8 * ((bits.length + 7) / 8)) false

/-- Zeros up to the next greater whole number of bytes. -/
def terminated (bits : List Bool) : List Bool := bits.rightpad (8 * (bits.length / 8 + 1)) false

/-- What a call answers where some bits have been written, and the bits behind it. -/
def Call.onBits (written : List Bool) : Call → Answer (List Bool) × List Bool
  | bit b => (.done, written ++ [b])
  | bits word count _ => (.done, written ++ bitsOf count.toNat word.toNat)
  | align => (.done, padded written)
  | clear => (.done, [])
  | finish => (.bytes (padded written), [])
  | terminate => (.bytes (terminated written), [])
  | length => (.number written.length, written)
  | isEmpty => (.truth written.isEmpty, written)
  | isAligned => (.truth (written.length % 8 == 0), written)

def Call.answersOnBits (written : List Bool) : List Call → List (Answer (List Bool))
  | [] => []
  | c :: calls => (c.onBits written).1 :: answersOnBits (c.onBits written).2 calls

def call (w : BitWriter) : Call → Answer Bytes × BitWriter
  | .bit b => (.done, w.writeBit b)
  | .bits word count _ => (.done, w.write (bitsOf count.toNat word.toNat))
  | .align => (.done, w.align)
  | .clear => (.done, empty)
  | .finish => (.bytes w.finish.1, w.finish.2)
  | .terminate => (.bytes w.finishWithTerminator.1, w.finishWithTerminator.2)
  | .length => (.number w.length, w)
  | .isEmpty => (.truth w.isEmpty, w)
  | .isAligned => (.truth w.isAligned, w)

def answers (w : BitWriter) : List Call → List (Answer Bytes)
  | [] => []
  | c :: calls => (w.call c).1 :: (w.call c).2.answers calls

end BitWriter

namespace BitSource

/-- A call on a reader. A number has no more than 64 bits. -/
inductive Call
  | bit
  | bits (count : UInt8) (count_le : count ≤ 64)
  /-- Bits up to the first zero, but no more than `limit` of them. -/
  | toClearBit (limit : UInt8)

def call : Call → Reading BitSource Nat
  | .bit => return (← pullBit).toNat
  | .bits count _ => pullBits count.toNat
  | .toClearBit limit => pullToClearBit 0 limit.toNat

def answers : List Call → Reading BitSource (List Nat)
  | [] => return []
  | c :: calls => do
    let n ← call c
    return n :: (← answers calls)

end BitSource

end Chronicle
