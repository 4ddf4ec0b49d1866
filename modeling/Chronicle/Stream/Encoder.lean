/-
  Chronicle.Stream.Encoder — values in, one payload out.

  An encoder takes values of its type until it is flushed; then it refuses everything until it is reset.
  The refusals come in order: first that it has been flushed, then the type of the value, then what the
  encoding has to say about it. Options are looked at before the pair of type and encoding.

  Here a call gives a new encoder or an error, and nothing of one that failed. That an encoder which is
  changed in place is left as it was by a call that fails is said in `Chronicle.Machine.Encoder`, where
  encoders have fields to change, and proved there (`encode_keeps`).
-/

import Chronicle.Stream.Config
import Chronicle.Stream.Gorilla
import Chronicle.Column.Value

namespace Chronicle

inductive EncoderState
  | plain (t : DataType) (out : Array UInt8)
  | runLength (e : RunLength.Encoder)
  | delta (e : Delta.Encoder)
  | gorilla (e : Gorilla.Encoder)

namespace EncoderState

def initial (config : Config) : Codec → EncoderState
  | .plain t => plain t #[]
  | .runLength t => runLength { dataType := t, cap := config.maxRunLength }
  | .delta t => delta { dataType := t, domain := .of t config.scale? }
  | .gorilla version t => gorilla { version := version, dataType := t }

def codec : EncoderState → Codec
  | plain t _ => .plain t
  | runLength e => .runLength e.dataType
  | delta e => .delta e.dataType
  | gorilla e => .gorilla e.version e.dataType

def push (s : EncoderState) (v : Value) : Except CodecError EncoderState :=
  match s with
  | plain t out => .ok (plain t (out ++ Plain.encode v))
  | runLength e => return runLength (e.push (← v.requireBits (.fixed e.dataType)))
  | delta e => return delta (← e.push (← v.requireBits (.fixed (.number e.dataType))))
  | gorilla e => return gorilla (← e.push (← v.requireBits (.fixed (.number e.dataType))))

def flush : EncoderState → Bytes × EncoderState
  | plain t out => (out.toList, plain t #[])
  | runLength e => let (payload, e) := e.flush; (payload, runLength e)
  | delta e => let (payload, e) := e.flush; (payload, delta e)
  | gorilla e => let (payload, e) := e.flush; (payload, gorilla e)

def reset : EncoderState → EncoderState
  | plain t _ => plain t #[]
  | runLength e => runLength e.reset
  | delta e => delta e.reset
  | gorilla e => gorilla e.reset

end EncoderState

/-- The number of values counts those since the last reset, also after a flush. -/
structure Encoder where
  state : EncoderState
  count : Nat := 0
  flushed : Bool := false

namespace Encoder

def codec (e : Encoder) : Codec := e.state.codec

def dataType (e : Encoder) : DataType := e.codec.dataType

def encoding (e : Encoder) : Encoding := e.codec.encoding

def new (t : DataType) (encoding : Encoding) (config : Config) : Except CodecError Encoder := do
  config.validate
  return { state := .initial config (← Codec.require t encoding) }

def encode (e : Encoder) (v : Value) : Except CodecError Encoder := do
  if e.flushed then throw .flushed
  if v.dataType ≠ e.dataType then throw (.typeMismatch e.dataType v.dataType)
  return { e with state := ← e.state.push v, count := e.count + 1 }

def flush (e : Encoder) : Except CodecError (Bytes × Encoder) :=
  if e.flushed then .error .flushed
  else
    let (payload, state) := e.state.flush
    .ok (payload, { e with state := state, flushed := true })

def reset (e : Encoder) : Encoder := { state := e.state.reset }

end Encoder

end Chronicle
