/-
  Chronicle.Machine.Encoder — any encoder on machine words, under a sequence of calls.

  (1) Each encoding has a state of its own, and an encoder works on it in place: what a call has
  stored is there, also behind a call that fails. That a failing call has stored nothing is not part
  of any type here.

  (2) A flush marks the encoder as flushed once the payload is out, and does not set the count back.
  A reset sets back the state of the encoding, the count and the mark, one after the other. A call
  asks for the mark first and for the type of the value next.

  (3) A caller makes calls in any order, also behind calls that failed, and sees of each what it
  answers (`run`). A call that is trapped has no answer.
-/

import Chronicle.Machine.DeltaWriter
import Chronicle.Machine.GorillaWriter
import Chronicle.Machine.RunLengthWriter
import Chronicle.Stream.Encoder

namespace Chronicle.Machine

inductive EncoderState
  | plain (out : Array UInt8)
  | runLength (b : RunLengthBuffer)
  | delta (w : DeltaWriter)
  | gorilla (w : GorillaWriter)

namespace EncoderState

def initial (config : Config) : Codec → EncoderState
  | .plain _ => plain #[]
  | .runLength t => runLength (.new t config.maxRunLength)
  | .delta t => delta { dataType := t, domain := .of t config.scale? }
  | .gorilla version t => gorilla { version := version, dataType := t }

def encode (v : Value) : Guarded EncoderState Unit := do
  match ← get with
  | plain out => set (plain (out ++ Plain.encode v))
  | runLength b => within runLength b (RunLengthBuffer.encode v)
  | delta w => within delta w (DeltaWriter.encode v)
  | gorilla w => within gorilla w (GorillaWriter.encode v)

def flush : Guarded EncoderState Bytes := do
  match ← get with
  | plain out =>
    set (plain #[])
    return out.toList
  | runLength b => within runLength b RunLengthBuffer.flush
  | delta w => within delta w DeltaWriter.flush
  | gorilla w => within gorilla w GorillaWriter.flush

def reset : Guarded EncoderState Unit := do
  match ← get with
  | plain _ => set (plain #[])
  | runLength b => within runLength b RunLengthBuffer.reset
  | delta w => within delta w DeltaWriter.reset
  | gorilla w => within gorilla w GorillaWriter.reset

end EncoderState

structure Encoder where
  dataType : DataType
  encoding : Encoding
  state : EncoderState
  count : Nat := 0
  flushed : Bool := false

namespace Encoder

def new (t : DataType) (encoding : Encoding) (config : Config) : Except CodecError Encoder := do
  config.validate
  return { dataType := t, encoding := encoding, state := .initial config (← Codec.require t encoding) }

def onState {α : Type} (m : Guarded EncoderState α) : Guarded Encoder α := fun e =>
  within (fun state => { e with state := state }) e.state m e

def encode (v : Value) : Guarded Encoder Unit := do
  let e ← get
  if e.flushed then Guarded.fail .flushed
  if v.dataType ≠ e.dataType then Guarded.fail (.typeMismatch e.dataType v.dataType)
  onState (EncoderState.encode v)
  modify fun e => { e with count := e.count + 1 }

def flush : Guarded Encoder Bytes := do
  if (← get).flushed then Guarded.fail .flushed
  let payload ← onState EncoderState.flush
  modify fun e => { e with flushed := true }
  return payload

def reset : Guarded Encoder Unit := do
  onState EncoderState.reset
  modify fun e => { e with count := 0 }
  modify fun e => { e with flushed := false }

/-! ## Calls -/

inductive Call
  | encode (v : Value)
  | flush
  | reset
  deriving DecidableEq

/-- What a caller gets back: an error, or success, with the payload if it was a flush. -/
abbrev Answer := Except CodecError (Option Bytes)

def act : Call → Guarded Encoder (Option Bytes)
  | .encode v => do
    encode v
    return none
  | .flush => return some (← flush)
  | .reset => do
    reset
    return none

/-- A call, its answer, and what it leaves, whether or not it failed. -/
def call (c : Call) (e : Encoder) : Except Trap (Answer × Encoder) := Guarded.answer (act c e)

def run : List Call → Encoder → Except Trap (List Answer × Encoder)
  | [], e => return ([], e)
  | c :: calls, e => do
    let (answer, e) ← call c e
    let (answers, e) ← run calls e
    return (answer :: answers, e)

end Encoder

end Chronicle.Machine
