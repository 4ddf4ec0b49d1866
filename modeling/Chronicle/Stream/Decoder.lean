/-
  Chronicle.Stream.Decoder — one payload in, values out, and sequences of calls.

  Model.
  - A decoder reads value by value from bytes that can be replaced under it. What it holds between two
    values (`DecoderState`, and the byte that its reader is in) outlives a failed reading; a reset brings
    it back to the start and leaves the bytes that have not been read.
  - Whether there is something to read (`hasNext`) is a question of its own. Reading does not ask it.
  - Reading everything stops where there is no more, or at the first error. `capacity` bounds how many
    values can still come, so that it ends; that the bound is never met is proved
    (`Decoder.drainAll_cases`).
  - A caller can point the decoder at other bytes, ask it for one value, for some or for all of them, and
    reset it, in any order and also after a call that failed (`Call`). With each answer the caller sees
    which bytes are left (`answers`).
-/

import Chronicle.Column.Value
import Chronicle.Stream.Delta
import Chronicle.Stream.Gorilla
import Chronicle.Stream.RunLength

namespace Chronicle

inductive DecoderState
  | plain (t : DataType)
  | runLength (t : FixedType) (s : RunLength.State)
  | delta (t : NumberType) (s : Delta.State)
  | gorilla (version : GorillaVersion) (t : NumberType) (s : Gorilla.State)

namespace DecoderState

def initial : Codec → DecoderState
  | .plain t => plain t
  | .runLength t => runLength t none
  | .delta t => delta t {}
  | .gorilla version t => gorilla version t .start

def codec : DecoderState → Codec
  | plain t => .plain t
  | runLength t _ => .runLength t
  | delta t _ => .delta t
  | gorilla version t _ => .gorilla version t

end DecoderState

abbrev Decoder := Feed DecoderState

namespace Decoder

def refill : Codec → Refill
  | .gorilla version _ => Gorilla.refill version
  | _ => .onDemand

def ofCodec (c : Codec) (bytes : Bytes) : Decoder := ⟨.initial c, { refill := refill c }, bytes⟩

def new (t : DataType) (encoding : Encoding) (bytes : Bytes) : Except CodecError Decoder :=
  return ofCodec (← Codec.require t encoding) bytes

def codec (d : Decoder) : Codec := d.state.codec

def load (d : Decoder) (bytes : Bytes) : Decoder := { d with bytes := bytes }

/-- A decoder that has read nothing, on the bytes that are left. -/
def reset (d : Decoder) : Decoder := ofCodec d.codec d.bytes

def hasNext (d : Decoder) : Bool :=
  match d.state with
  | .plain _ => !d.bytes.isEmpty
  | .runLength _ s => RunLength.hasNext s d.bytes
  | .delta _ s => Delta.hasNext s d.bytes
  | .gorilla _ _ s => Gorilla.hasNext s d.bytes

/-- Reads the next value, whether or not there is one. -/
def next : Reading Decoder Value := do
  match (← get).state with
  | .plain t => Feed.onBytes (Plain.pull t)
  | .runLength t s => return .ofBits t (← Feed.within (.runLength t) s (RunLength.next t.width))
  | .delta t s => Feed.within (.delta t) s (Delta.next t)
  | .gorilla version t s =>
    return .ofBits (.number t) (← Feed.within (.gorilla version t) s (Gorilla.next version t.width))

def step : Reading Decoder (Option Value) := do
  if hasNext (← get) then return some (← next) else return none

def drain (limit : Nat) (d : Decoder) : Harvest Decoder Value := Reading.collect step limit d

/-- No more values than this can be read: each takes a byte, or a bit, or its share of a
    block or segment. -/
def capacity (d : Decoder) : Nat :=
  match d.state with
  | .plain _ => d.bytes.length
  | .runLength _ s => s.count + RunLength.maxCap * d.bytes.length
  | .delta _ s => s.ready.length + Delta.blockSize * d.bytes.length
  | .gorilla _ _ _ => d.reader.left + 8 * d.bytes.length

def drainAll (d : Decoder) : Harvest Decoder Value := d.drain (d.capacity + 1)

end Decoder

end Chronicle

namespace Chronicle.Decoder

/-! ## Calls -/

inductive Call
  | load (bytes : Bytes)
  | hasNext
  | next
  /-- Values up to the first error, but no more than `limit` of them. -/
  | drain (limit : Nat)
  /-- All values up to the first error. -/
  | drainAll
  | reset
  deriving DecidableEq

inductive Answer
  | done
  | more (b : Bool)
  | value (v : Value)
  | failed (e : CodecError)
  | values (items : List Value) (ending : Ending)
  deriving DecidableEq

def call (d : Decoder) : Call → Answer × Decoder
  | .load bytes => (.done, d.load bytes)
  | .hasNext => (.more d.hasNext, d)
  | .next =>
    match next d with
    | .ok v e => (.value v, e)
    | .error fault e => (.failed fault, e)
  | .drain limit => (.values (d.drain limit).items (d.drain limit).ending, (d.drain limit).source)
  | .drainAll => (.values d.drainAll.items d.drainAll.ending, d.drainAll.source)
  | .reset => (.done, d.reset)

def after (d : Decoder) (calls : List Call) : Decoder := calls.foldl (fun d c => (d.call c).2) d

/-- The answers to some calls, each with the bytes that are left behind it. -/
def answers (d : Decoder) : List Call → List (Answer × Bytes)
  | [] => []
  | c :: calls => ((d.call c).1, (d.call c).2.bytes) :: (d.call c).2.answers calls

end Chronicle.Decoder
