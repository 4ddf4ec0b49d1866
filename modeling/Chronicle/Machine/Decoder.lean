/-
  Chronicle.Machine.Decoder — any decoder on machine words, under a sequence of calls.

  Model.
  - Each encoding has a state of its own, which its readings change in place; what a failed reading has
    stored stays. A decoder is such a state with the reader and the bytes that have not been read.
  - A reset sets each field of the state back by itself. What it leaves of a block of words is whatever
    was there, and it is for proofs to say that this is never seen (`reset_is_construction`).
  - Reading everything has a number of rounds that no bytes can use up; the last one is trapped.
  - The calls are those of `Chronicle.Stream.Decoder`, with the same kinds of answers. A call that is
    trapped has no answer.
-/

import Chronicle.Machine.Delta
import Chronicle.Machine.Gorilla
import Chronicle.Machine.RunLength
import Chronicle.Stream.Decoder

namespace Chronicle.Machine

inductive DecoderState
  | plain (t : DataType)
  | runLength (t : FixedType) (s : RunLength.Segment)
  | delta (t : NumberType) (s : Delta.State)
  | gorilla (version : GorillaVersion) (t : NumberType) (s : Gorilla.State)

namespace DecoderState

def initial : Codec → DecoderState
  | .plain t => plain t
  | .runLength t => runLength t .idle
  | .delta t => delta t (.initial t)
  | .gorilla version t => gorilla version t {}

def reset : DecoderState → DecoderState
  | plain t => plain t
  | runLength t _ => runLength t .idle
  | delta t s => delta t (s.reset t)
  | gorilla version t s => gorilla version t s.reset

end DecoderState

abbrev Decoder := Feed DecoderState

namespace Decoder

open Chronicle.Decoder (Call Answer refill)

def ofCodec (c : Codec) (bytes : Bytes) : Decoder := ⟨.initial c, { refill := refill c }, bytes⟩

def new (t : DataType) (encoding : Encoding) (bytes : Bytes) : Except CodecError Decoder :=
  return ofCodec (← Codec.require t encoding) bytes

def load (d : Decoder) (bytes : Bytes) : Decoder := { d with bytes := bytes }

def reset (d : Decoder) : Decoder := { d with state := d.state.reset, reader := d.reader.reset }

def hasNext : Guarded Decoder Bool := do
  let d ← get
  match d.state with
  | .plain _ => return !d.bytes.isEmpty
  | .runLength t s => Feed.within (.runLength t) s RunLength.hasNext
  | .delta _ s => return Delta.hasNext s d.bytes
  | .gorilla _ _ s => return Gorilla.hasNext s d.bytes

/-- Reads the next value, whether or not there is one. -/
def next : Guarded Decoder Value := do
  match (← get).state with
  | .plain t => Feed.onBytes (Plain.read t)
  | .runLength t s =>
    return .ofBits t (← Feed.within (.runLength t) s (RunLength.next (UInt8.ofNat t.width))).toNat
  | .delta t s => Feed.within (.delta t) s (Delta.next t)
  | .gorilla version t s =>
    return .ofBits (.number t)
      (← Feed.within (.gorilla version t) s (Gorilla.next version (UInt8.ofNat t.width))).toNat

def step : Guarded Decoder (Option Value) := do
  if ← hasNext then return some (← next) else return none

def drain (limit : Nat) (d : Decoder) : Except Trap (Harvest Decoder Value) := Guarded.collect step limit d

/-- More values than any decoder can hold with that many bytes. -/
def rounds (d : Decoder) : Nat := 2 ^ 33 + 2 ^ 31 * d.bytes.length

def drainAll (d : Decoder) : Except Trap (Harvest Decoder Value) := do
  let harvest ← d.drain d.rounds
  if harvest.ending = .limited then .error .rounds else .ok harvest

/-! ## Calls -/

def call (d : Decoder) : Call → Except Trap (Answer × Decoder)
  | .load bytes => return (.done, d.load bytes)
  | .hasNext =>
    match hasNext d with
    | .ok b e => return (.more b, e)
    | .error (.failed fault) e => return (.failed fault, e)
    | .error (.trapped t) _ => .error t
  | .next =>
    match next d with
    | .ok v e => return (.value v, e)
    | .error (.failed fault) e => return (.failed fault, e)
    | .error (.trapped t) _ => .error t
  | .drain limit => do
    let harvest ← d.drain limit
    return (.values harvest.items harvest.ending, harvest.source)
  | .drainAll => do
    let harvest ← d.drainAll
    return (.values harvest.items harvest.ending, harvest.source)
  | .reset => return (.done, d.reset)

def after (d : Decoder) : List Call → Except Trap Decoder
  | [] => return d
  | c :: calls => do
    let (_, e) ← d.call c
    e.after calls

def answers (d : Decoder) : List Call → Except Trap (List (Answer × Bytes))
  | [] => return []
  | c :: calls => do
    let (a, e) ← d.call c
    return (a, e.bytes) :: (← e.answers calls)

end Decoder

end Chronicle.Machine
