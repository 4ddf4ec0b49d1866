/-
  Chronicle.Error — what can go wrong, as causes, and how it is worded.

  Model.
  - Each fault names the rule that input or configuration broke, with the values that broke it: a
    field out of its range (`FormatFault`), a number that its field or running total cannot hold
    (`OverflowFault`), an option that cannot be worked with (`ConfigFault`).
  - An error is one of these, or an end of input, a type or name or pair that is not supported, a
    call that comes too late, or a body that cannot be compressed (`CodecError`).
  - The wording of all of them is at the end of this module and nowhere else. Nothing is decided by
    it; two errors that are worded alike may still have different causes.
-/

import Chronicle.Column.Codec
import Chronicle.Ieee.Binary

namespace Chronicle

open Ieee

inductive FormatFault
  | unknownDataTypeId (id : Nat)
  | unknownEncodingId (id : Nat)
  | unknownCompressorId (id : Nat)
  | varintTooLarge
  | lengthTooLarge (length : Nat)
  | booleanByte (byte : UInt8)
  | summaryBooleanByte (byte : UInt8)
  | emptySegment
  | groupWidth (width limit : Nat)
  | blockCount (count : Nat)
  | blockWidth (width limit : Nat)
  | fixedPointScale (scale : Binary64)
  | streamMode (mode : Nat)
  | zeroCount
  | windowMissing
  | windowTooWide (leading meaningful width : Nat)
  | invertedTimeRange (start stop : Int64)
  | expandedLength (declared expected : Nat)
  | bodyLength (actual expected : Nat)
  | timeStreamBeyondLength (time body : Nat)
  | timeStreamBeyondBody (time body : Nat)
  | bytesAfterPage (count : Nat)
  | bytesAfterPoints (count : Nat)
  deriving DecidableEq

inductive OverflowFault
  | runLengthCap (cap : Nat)
  | fixedPoint (value scale : Binary64)
  | valueCount
  | pointCount
  | integerSum
  | booleanSum
  deriving DecidableEq

inductive ConfigFault
  | runLengthCapZero
  | fixedPointScale (scale : Binary64)
  deriving DecidableEq

inductive CodecError
  | unsupported (dataType : DataType) (encoding : Encoding)
  | unknownEncoding (given : String)
  | unknownCompressor (given : String)
  | unknownDataType (given : String)
  /-- The bytes ended inside a value. -/
  | underflow
  | malformed (fault : FormatFault)
  | overflow (fault : OverflowFault)
  | typeMismatch (expected found : DataType)
  /-- A call on an encoder whose payload has been taken already. -/
  | flushed
  | invalidConfig (fault : ConfigFault)
  /-- A compressed block that does not decompress. -/
  | compression
  deriving DecidableEq

def Codec.require (t : DataType) (e : Encoding) : Except CodecError Codec :=
  match Codec.of? t e with
  | some c => .ok c
  | none => .error (.unsupported t e)

/-! ## Messages -/

def hexByte (b : UInt8) : String :=
  String.ofList (Nat.toDigits 16 (b.toNat / 16) ++ Nat.toDigits 16 (b.toNat % 16))

def FormatFault.message : FormatFault → String
  | unknownDataTypeId id => s!"unknown data type id {id}"
  | unknownEncodingId id => s!"unknown encoding id {id}"
  | unknownCompressorId id => s!"unknown compressor id {id}"
  | varintTooLarge => "varint overflows 64 bits"
  | lengthTooLarge length => s!"length {length} exceeds u32"
  | booleanByte byte => s!"invalid boolean byte 0x{hexByte byte}"
  | summaryBooleanByte byte => s!"invalid boolean byte 0x{hexByte byte} in statistics"
  | emptySegment => "RLE segment with zero length"
  | groupWidth width limit => s!"RLE group width {width} exceeds {limit}-bit values"
  | blockCount count => s!"TS_2DIFF block count {count} outside 1..=8"
  | blockWidth width limit => s!"TS_2DIFF width {width} exceeds {limit}-bit values"
  | fixedPointScale scale => s!"invalid fixed-point scale {scale.text}"
  | streamMode mode => s!"unknown TS_2DIFF mode {mode}"
  | zeroCount => "Gorilla page declares zero values"
  | windowMissing => "window reuse before any window was written"
  | windowTooWide leading meaningful width =>
    s!"window of {leading} leading and {meaningful} meaningful bits exceeds {width} bits"
  | invertedTimeRange start stop =>
    s!"statistics time range {start.toInt}..{stop.toInt} is inverted"
  | expandedLength declared expected =>
    s!"snappy block expands to {declared} bytes, header says {expected}"
  | bodyLength actual expected => s!"page body is {actual} bytes, header says {expected}"
  | timeStreamBeyondLength time body =>
    s!"time stream of {time} bytes exceeds page body of {body} bytes"
  | timeStreamBeyondBody time body => s!"time stream of {time} bytes in a {body}-byte body"
  | bytesAfterPage count => s!"{count} bytes after the page body"
  | bytesAfterPoints count => s!"{count} bytes left after the last point"

def OverflowFault.message : OverflowFault → String
  | runLengthCap cap => s!"max_run_length {cap} exceeds the 31-bit run field"
  | fixedPoint value scale =>
    s!"{value.text} at scale {scale.text} does not fit a 64-bit fixed-point value"
  | valueCount => "GORILLA page holds more values than its 32-bit count"
  | pointCount => "statistics count exceeds u64"
  | integerSum => "INT32 sum exceeds i64"
  | booleanSum => "BOOLEAN sum exceeds u64"

def ConfigFault.message : ConfigFault → String
  | runLengthCapZero => "max_run_length must be at least 1"
  | fixedPointScale scale => s!"fixed_point_scale must be finite and positive, got {scale.text}"

def CodecError.message : CodecError → String
  | unsupported dataType encoding =>
    s!"encoding {encoding.name} is not supported for data type {dataType.name}"
  | unknownEncoding given => s!"unknown encoding: {given}"
  | unknownCompressor given => s!"unknown compressor: {given}"
  | unknownDataType given => s!"unknown data type: {given}"
  | underflow => "buffer underflow: page ended before the decoder finished"
  | malformed fault => s!"malformed header: {fault.message}"
  | overflow fault => s!"arithmetic overflow: {fault.message}"
  | typeMismatch expected found =>
    s!"value of type {found.name} cannot be written to a {expected.name} column"
  | flushed => "encoder already flushed; reset it before reuse"
  | invalidConfig fault => s!"invalid configuration: {fault.message}"
  | compression => "compression failed"

end Chronicle
