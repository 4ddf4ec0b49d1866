/-
  Chronicle.Proofs.Machine.Draining — reading until there is no more.

  Behind any calls and on any bytes:
  - a decoder that has nothing to read gives an underflow, takes no byte and has nothing to read afterwards, so
    what can be read was announced (`hasNext_is_definitive`);
  - reading on as long as there is more comes to an end (`draining_ends`), after no more values than the words
    of the state can hold and the bytes can make. A stream that is read from its start has its own bound for
    each byte (`Encoding.valuesPerByte`).

  Both are said of decoders on machine words and of those without. In particular no count that a stream says of
  itself can keep a reader going: the bits that its values take run out.
-/

import Chronicle.Proofs.Machine.Decoder
import Chronicle.Proofs.Stream.Calls

namespace Chronicle

open Reading (Yields)

/-- The most values that a byte can make in a stream that is read from its start. -/
def Encoding.valuesPerByte : Encoding → Nat
  | plain => 1
  | runLength => 2 ^ 31 - 1
  | delta => 8
  | gorilla _ => 8

namespace Decoder

theorem capacity_ofCodec (c : Codec) (bytes : Bytes) :
    (ofCodec c bytes).capacity = c.encoding.valuesPerByte * bytes.length := by
  cases c with
  | plain t => exact (Nat.one_mul _).symm
  | runLength t => exact Nat.zero_add _
  | delta t => exact Nat.zero_add _
  | gorilla version t => exact Nat.zero_add _

end Decoder

namespace Machine

namespace Decoder

open Chronicle.Decoder (Settled)

variable {c : Codec} {room : Nat} {d f : Machine.Decoder} {e : Chronicle.Decoder}

/-! ## Nothing to read -/

theorem next_of_not_hasNext (h : Views c room d e) (hs : Settled e) (hnone : e.hasNext = false) :
    ∃ f, next d = .error (.failed .underflow) f ∧ f.bytes = d.bytes ∧ hasNext f = .ok false f := by
  obtain ⟨g, hg, hbytes, hmore⟩ := Chronicle.Decoder.next_of_not_hasNext hs hnone
  have hnext := matches_next h
  rw [hg] at hnext
  generalize next d = r at hnext ⊢
  cases hnext with
  | @error _ f _ hf =>
    refine ⟨f, rfl, ?_, ?_⟩
    · rw [← hf.bytes.1, hbytes, h.bytes.1]
    · rw [hasNext_eq hf, hmore]

theorem hasNext_of_next {v : Value} (h : Views c room d e) (hs : Settled e) (hnext : next d = .ok v f) :
    e.hasNext = true := by
  cases hmore : e.hasNext with
  | true => rfl
  | false =>
    obtain ⟨g, hg, -⟩ := next_of_not_hasNext h hs hmore
    rw [hnext] at hg
    cases hg

/-! ## All there is -/

theorem drain_eq_drainAll (h : Views c room d e) {limit : Nat} (hl : d.rounds ≤ limit) :
    ∃ harvest, d.drain limit = .ok harvest ∧ harvest.items = e.drainAll.items ∧ harvest.ending = e.drainAll.ending := by
  have hle : e.capacity + 1 ≤ limit := Nat.le_trans (capacity_lt_rounds h) hl
  have hall : e.drain limit = e.drainAll :=
    Reading.collectInto_of_le hle (Chronicle.Decoder.yields_drainAll e).ne_limited
  obtain ⟨harvest, hdrain, hsame⟩ := drain_views h limit
  rw [hall] at hsame
  exact ⟨harvest, hdrain, hsame.items, hsame.ending⟩

end Decoder

open Chronicle.Decoder (Call)

/-- Whatever has been called before, whatever it has answered, and whatever bytes follow: where a
    decoder says that there is nothing to read, the next value is an underflow, no byte is taken,
    and it says so again. So it had said that there is something wherever a value is read. -/
theorem hasNext_is_definitive {t : DataType} {encoding : Encoding} (he : encoding ∈ t.encodings) (bytes : Bytes)
    (history : List Call) :
    ∃ d e d', Decoder.new t encoding bytes = .ok d ∧ d.after history = .ok e ∧
      Chronicle.Decoder.new t encoding bytes = .ok d' ∧
      ∀ buffer, ∃ more, Decoder.hasNext (e.load buffer) = .ok more (e.load buffer) ∧
        ((d'.after history).load buffer).hasNext = more ∧
        (more = false →
          (∃ f, Decoder.next (e.load buffer) = .error (.failed .underflow) f ∧ f.bytes = buffer ∧
            Decoder.hasNext f = .ok false f) ∧
          ∃ f', Chronicle.Decoder.next ((d'.after history).load buffer) = .error .underflow f' ∧ f'.bytes = buffer ∧
            f'.hasNext = false) ∧
        (∀ v f, Decoder.next (e.load buffer) = .ok v f → more = true) ∧
        ∀ v f', Chronicle.Decoder.next ((d'.after history).load buffer) = .ok v f' → more = true := by
  obtain ⟨c, hc, -⟩ := Codec.require_of_mem he
  obtain ⟨e, room, hafter, hviews⟩ := Decoder.after_views (Decoder.ofCodec_views c bytes) history
  refine ⟨_, e, _, Decoder.new_of_require hc bytes, hafter, Chronicle.Decoder.new_of_require hc bytes, ?_⟩
  intro buffer
  have hload := Decoder.load_views hviews buffer
  have hs : (((Chronicle.Decoder.ofCodec c bytes).after history).load buffer).Settled :=
    Chronicle.Decoder.settled_load (Chronicle.Decoder.settled_after c bytes history) buffer
  refine ⟨_, Decoder.hasNext_eq hload, rfl, ?_, ?_, ?_⟩
  · intro hnone
    exact ⟨Decoder.next_of_not_hasNext hload hs hnone, Chronicle.Decoder.next_of_not_hasNext hs hnone⟩
  · intro v f hnext
    exact Decoder.hasNext_of_next hload hs hnext
  · intro v f' hnext
    exact Chronicle.Decoder.hasNext_of_next hs hnext

/-- A scale is broken off, and no bytes follow. -/
theorem hasNext_is_definitive_double :
    ∃ d e, Decoder.new .double .delta [1, 0x40] = .ok d ∧ d.after [.next] = .ok e ∧
      Decoder.hasNext (e.load []) = .ok false (e.load []) ∧
      ∃ f, Decoder.next (e.load []) = .error (.failed .underflow) f ∧ f.bytes = [] ∧ Decoder.hasNext f = .ok false f := by
  obtain ⟨d, e, d', hd, he, hd', hall⟩ :=
    hasNext_is_definitive (show .delta ∈ DataType.double.encodings by decide) [1, 0x40] [.next]
  obtain ⟨more, hmore, hplain, hnone, -⟩ := hall []
  cases hd'
  have hspent : ((Chronicle.Decoder.after (.ofCodec (.delta .double) [1, 0x40]) [.next]).load []).hasNext = false := by
    decide +kernel
  obtain rfl : more = false := hplain.symm.trans hspent
  exact ⟨d, e, hd, he, hmore, (hnone rfl).1⟩

/-- Whatever has been called before, whatever it has answered, and whatever bytes follow: reading
    on as long as there is more and nothing fails comes to an end. A decoder that has read nothing
    gives no more values than its bytes can make. -/
theorem draining_ends {t : DataType} {encoding : Encoding} (he : encoding ∈ t.encodings) (bytes : Bytes)
    (history : List Call) :
    (∃ d e d', Decoder.new t encoding bytes = .ok d ∧ d.after history = .ok e ∧
      Chronicle.Decoder.new t encoding bytes = .ok d' ∧
      ∀ buffer, ∃ items ending,
        Yields Chronicle.Decoder.next Chronicle.Decoder.hasNext ((d'.after history).load buffer) items ending ∧
        items.length < 2 ^ 33 + 2 ^ 31 * buffer.length ∧
        ∀ limit, 2 ^ 33 + 2 ^ 31 * buffer.length ≤ limit →
          ∃ harvest, (e.load buffer).drain limit = .ok harvest ∧ harvest.items = items ∧ harvest.ending = ending) ∧
    ∀ buffer, ∃ fresh harvest items ending fresh', Decoder.new t encoding buffer = .ok fresh ∧
      fresh.drainAll = .ok harvest ∧ harvest.items = items ∧ harvest.ending = ending ∧
      Chronicle.Decoder.new t encoding buffer = .ok fresh' ∧
      Yields Chronicle.Decoder.next Chronicle.Decoder.hasNext fresh' items ending ∧
      items.length ≤ encoding.valuesPerByte * buffer.length := by
  obtain ⟨c, hc, -⟩ := Codec.require_of_mem he
  obtain ⟨rfl, rfl⟩ := Codec.require_eq_ok_iff.1 hc
  refine ⟨?_, ?_⟩
  · obtain ⟨e, room, hafter, hviews⟩ := Decoder.after_views (Decoder.ofCodec_views c bytes) history
    refine ⟨_, e, _, Decoder.new_of_require hc bytes, hafter, Chronicle.Decoder.new_of_require hc bytes, ?_⟩
    intro buffer
    have hload := Decoder.load_views hviews buffer
    refine ⟨_, _, Chronicle.Decoder.yields_drainAll _, ?_, ?_⟩
    · exact Nat.lt_of_le_of_lt (Chronicle.Decoder.length_drainAll_le _) (Decoder.capacity_lt_rounds hload)
    · intro limit hl
      exact Decoder.drain_eq_drainAll hload hl
  · intro buffer
    obtain ⟨harvest, hdrain, hsame⟩ := Decoder.drainAll_views (Decoder.ofCodec_views c buffer)
    refine ⟨_, harvest, _, _, _, Decoder.new_of_require hc buffer, hdrain, hsame.items, hsame.ending,
      Chronicle.Decoder.new_of_require hc buffer, Chronicle.Decoder.yields_drainAll _, ?_⟩
    have hle := Chronicle.Decoder.length_drainAll_le (.ofCodec c buffer)
    rw [Chronicle.Decoder.capacity_ofCodec] at hle
    exact hle

/-- A stream counts 2^64 - 1 numbers, has one of them, and goes on in bits that repeat it. -/
theorem draining_ends_gorilla :
    (∃ d e harvest, Decoder.new .int32 (.gorilla .v2) [255, 255, 255, 255, 255, 255, 255, 255, 255, 1, 0, 0, 0, 7, 0] = .ok d ∧
      d.after [.next, .drain 3] = .ok e ∧ (e.load [0, 0]).drain (2 ^ 33 + 2 ^ 31 * 2) = .ok harvest ∧
      harvest.ending ≠ .limited) ∧
    ∃ fresh harvest, Decoder.new .int32 (.gorilla .v2) [255, 255, 255, 255, 255, 255, 255, 255, 255, 1, 0, 0, 0, 7, 0] = .ok fresh ∧
      fresh.drainAll = .ok harvest ∧ harvest.items.length ≤ 8 * 15 := by
  obtain ⟨⟨d, e, d', hd, he, -, hends⟩, hfresh⟩ :=
    draining_ends (show .gorilla .v2 ∈ DataType.int32.encodings by decide)
      [255, 255, 255, 255, 255, 255, 255, 255, 255, 1, 0, 0, 0, 7, 0] [.next, .drain 3]
  obtain ⟨items, ending, hyields, -, hdrain⟩ := hends [0, 0]
  obtain ⟨harvest, hharvest, -, hending⟩ := hdrain (2 ^ 33 + 2 ^ 31 * 2) (Nat.le_refl _)
  obtain ⟨fresh, all, values, -, -, hnew, hall, hitems, -, -, -, hlength⟩ :=
    hfresh [255, 255, 255, 255, 255, 255, 255, 255, 255, 1, 0, 0, 0, 7, 0]
  refine ⟨⟨d, e, harvest, hd, he, hharvest, hending ▸ hyields.ne_limited⟩, fresh, all, hnew, hall, ?_⟩
  rw [hitems]
  exact hlength

end Machine

end Chronicle
