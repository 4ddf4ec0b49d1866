/-
  Chronicle.Proofs.Page.Layout — a page that has been written is read back.

  The header is taken field by field; what the reader asks of it (`Header.Sound`) is what the writer of a
  page guarantees: legal pairs, a time stream that is not longer than the body, and lengths of 64 bits. An id
  is its place in a list, so it is found again. Statistics are read back if they are sound, as all are that
  calls lead to. A page says its own length, so what follows it is left.
-/

import Chronicle.Page.Basic
import Chronicle.Proofs.Stream.Codec
import Chronicle.Proofs.Summary.Layout

namespace Chronicle

open Reading

theorem DataType.ofId_id (t : DataType) : ofId t.id = .ok t := by
  unfold ofId
  rw [all_getElem?_id]

theorem Encoding.ofId_id (e : Encoding) : ofId e.id = .ok e := by
  unfold ofId
  rw [all_getElem?_id]

theorem Compressor.ofId_id (c : Compressor) : ofId c.id = .ok c := by
  unfold ofId
  rw [all_getElem?_id]

namespace Header

/-- What the reader of a header asks of it. Its lengths are numbers of 64 bits. -/
structure Sound (h : Header) : Prop where
  values : h.valueEncoding ∈ h.dataType.encodings
  times : h.timeEncoding ∈ DataType.int64.encodings
  timeLength_le : h.timeLength ≤ h.bodyLength
  bodyLength_lt : h.bodyLength < 2 ^ 64
  dataLength_lt : h.dataLength < 2 ^ 64

theorem pullId_cons {α : Type} {ofId : Nat → Except CodecError α} {a : α} {id : Nat} (hid : id < 256)
    (h : ofId id = .ok a) (rest : Bytes) : pullId ofId (UInt8.ofNat id :: rest) = .ok a rest := by
  have e : (UInt8.ofNat id).toNat = id := by simp; omega
  show ofExcept (ofId (UInt8.ofNat id).toNat) rest = _
  rw [e, h]
  rfl

theorem discard_ofExcept {σ α : Type} {m : Except CodecError α} {a : α} (h : m = .ok a) (s : σ) :
    (discard (Reading.ofExcept m) : Reading σ Unit) s = .ok () s := by
  rw [h]
  rfl

/-- A header is read back, whatever follows it. -/
theorem pull_toBytes_append {h : Header} (hs : h.Sound) (rest : Bytes) : pull (h.toBytes ++ rest) = .ok h rest := by
  have e : h.toBytes ++ rest = UInt8.ofNat h.valueEncoding.id :: UInt8.ofNat h.dataType.id ::
      UInt8.ofNat h.timeEncoding.id :: UInt8.ofNat h.compressor.id :: (Varint.encode h.bodyLength ++
        (Varint.encode h.dataLength ++ (Varint.encode h.timeLength ++ rest))) := by
    simp [toBytes]
  have hneed : 4 ≤ (h.toBytes ++ rest).length := by
    rw [e]
    simp
  obtain ⟨valueCodec, hvalues, -⟩ := Codec.require_of_mem hs.values
  obtain ⟨timeCodec, htimes, -⟩ := Codec.require_of_mem hs.times
  have hencoding (x : Encoding) : x.id < 256 := by
    rcases x with _ | _ | _ | (_ | _) <;> decide
  have htype : h.dataType.id < 256 := by
    rcases h.dataType with (_ | (_ | _ | _ | _)) | _ <;> decide
  have hcompressor : h.compressor.id < 256 := by
    cases h.compressor <;> decide
  unfold pull
  rw [bind_of_eq (Bytes.need_of_le hneed), e, bind_of_eq (pullId_cons (hencoding _) (Encoding.ofId_id _) _),
    bind_of_eq (pullId_cons htype (DataType.ofId_id _) _),
    bind_of_eq (pullId_cons (hencoding _) (Encoding.ofId_id _) _),
    bind_of_eq (pullId_cons hcompressor (Compressor.ofId_id _) _),
    bind_of_eq (Varint.pull_encode_append hs.bodyLength_lt _),
    bind_of_eq (Varint.pull_encode_append hs.dataLength_lt _),
    bind_of_eq (Varint.pull_encode_append (Nat.lt_of_le_of_lt hs.timeLength_le hs.bodyLength_lt) _),
    bind_of_eq (discard_ofExcept hvalues _), bind_of_eq (discard_ofExcept htimes _)]
  simp only [if_neg (Nat.not_lt.2 hs.timeLength_le)]
  rfl

end Header

namespace Page

structure Sound (p : Page) : Prop where
  header : p.header.Sound
  data : p.data.length = p.header.dataLength
  statistics : p.statistics.Sound p.header.dataType

/-- A page is read back, whatever follows it. -/
theorem pull_toBytes_append {p : Page} (h : p.Sound) (rest : Bytes) : pull (p.toBytes ++ rest) = .ok p rest := by
  have hdata := Bytes.pull_append p.data rest
  rw [h.data] at hdata
  unfold pull toBytes
  rw [List.append_assoc, List.append_assoc, bind_of_eq (Header.pull_toBytes_append h.header _),
    bind_of_eq (Statistics.pull_toBytes_append h.statistics _), map_of_eq hdata]

theorem ofBytes_toBytes {p : Page} (h : p.Sound) : ofBytes p.toBytes = .ok p := by
  have hpull := pull_toBytes_append h []
  rw [List.append_nil] at hpull
  unfold ofBytes
  rw [hpull]

end Page

end Chronicle
