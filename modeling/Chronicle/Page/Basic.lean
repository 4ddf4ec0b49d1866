/-
  Chronicle.Page.Basic — pages as bytes.

  Model.
  - A page is its header, the statistics of its points, and its body: the stream of the timestamps and
    behind it the stream of the values, compressed together.
  - The header is four ids, a byte each, and three lengths as varints. It is accepted only if the pairs
    of type and encoding that it names are legal and the time stream is not longer than the body.
    Fields are looked at in the order in which they stand, pairs and lengths behind all of them.
  - Nothing stands between two pages. The header says how long the body is, so a page ends where it
    says, and pages that follow one another are read one by one (`drain`). Where a page is all that is
    expected, bytes behind it are an error (`ofBytes`).

  How many points there are is said by the statistics alone.
-/

import Chronicle.Block.Compressor
import Chronicle.Summary.Statistics
import Chronicle.Wire.Varint

namespace Chronicle

/-! ## Headers -/

def DataType.ofId (id : Nat) : Except CodecError DataType :=
  match DataType.all[id]? with
  | some t => .ok t
  | none => .error (.malformed (.unknownDataTypeId id))

def Encoding.ofId (id : Nat) : Except CodecError Encoding :=
  match Encoding.all[id]? with
  | some e => .ok e
  | none => .error (.malformed (.unknownEncodingId id))

def Compressor.ofId (id : Nat) : Except CodecError Compressor :=
  match Compressor.all[id]? with
  | some c => .ok c
  | none => .error (.malformed (.unknownCompressorId id))

structure Header where
  dataType : DataType
  valueEncoding : Encoding
  timeEncoding : Encoding
  compressor : Compressor
  /-- The length of the body before it is compressed. -/
  bodyLength : Nat
  /-- The length of the body as it is stored. -/
  dataLength : Nat
  /-- The length of the time stream, with which the body begins. -/
  timeLength : Nat
  deriving DecidableEq

namespace Header

def toBytes (h : Header) : Bytes :=
  [h.valueEncoding.id, h.dataType.id, h.timeEncoding.id, h.compressor.id].map UInt8.ofNat ++
    [h.bodyLength, h.dataLength, h.timeLength].flatMap Varint.encode

def pullId {α : Type} (ofId : Nat → Except CodecError α) : Reading Bytes α := do
  let id ← Bytes.pullByte
  .ofExcept (ofId id.toNat)

def pull : Reading Bytes Header := do
  Bytes.need 4
  let valueEncoding ← pullId Encoding.ofId
  let dataType ← pullId DataType.ofId
  let timeEncoding ← pullId Encoding.ofId
  let compressor ← pullId Compressor.ofId
  let bodyLength ← Varint.pull
  let dataLength ← Varint.pull
  let timeLength ← Varint.pull
  discard (.ofExcept (Codec.require dataType valueEncoding))
  discard (.ofExcept (Codec.require .int64 timeEncoding))
  if bodyLength < timeLength then throw (.malformed (.timeStreamBeyondLength timeLength bodyLength))
  return { dataType, valueEncoding, timeEncoding, compressor, bodyLength, dataLength, timeLength }

end Header

/-! ## Pages -/

structure Page where
  header : Header
  statistics : Statistics
  /-- The body as it is stored. -/
  data : Bytes
  deriving DecidableEq

namespace Page

def pointCount (p : Page) : Nat := p.statistics.count.toNat

def toBytes (p : Page) : Bytes := p.header.toBytes ++ p.statistics.toBytes ++ p.data

def pull : Reading Bytes Page := do
  let header ← Header.pull
  let statistics ← Statistics.pull header.dataType
  return { header, statistics, data := ← Bytes.pull header.dataLength }

def ofBytes (bytes : Bytes) : Except CodecError Page :=
  match pull bytes with
  | .ok page [] => .ok page
  | .ok _ rest => .error (.malformed (.bytesAfterPage rest.length))
  | .error e _ => .error e

def next : Reading Bytes (Option Page) := do
  if (← get).isEmpty then return none
  return some (← pull)

/-- Reads pages as long as there are bytes, of which a page takes at least one. -/
def drain (bytes : Bytes) : Harvest Bytes Page := Reading.collect next (bytes.length + 1) bytes

end Page

end Chronicle
