/-
  Chronicle.Proofs.Machine.Concatenation — payloads one behind the other.

  A decoder that has read its bytes to the end still has the byte that its reader was in, with the bits that pad
  it, and knows the domain of a TS_2DIFF stream. If the stream has no front of its own (`Codec.Frontless`), none
  of this matters to what comes next: a segment and a block start on a whole byte, and the domain of whole numbers
  is always the same. So the decoder goes on like a new one (`Decoder.Borders.next_eq`), and bytes that follow
  give what they give alone, whatever they are (`accepted_bytes_concatenate`).

  It is asked that the first bytes are read to their end. Otherwise there may be values that are pending, or bytes
  that only the ones behind them make a value of.
-/

import Chronicle.Proofs.Machine.Draining
import Chronicle.Proofs.Stream.Extension

namespace Chronicle

open Reading

/-! ## The byte behind an alignment -/

section Align

variable {r r' : BitReader} {bytes : Bytes}

/-- An aligned reader has forgotten its byte as soon as there is another one. -/
theorem BitSource.pullBit_align_congr (hr : r.refill = r'.refill) (hb : bytes ≠ []) :
    pullBit ⟨r.align, bytes⟩ = pullBit ⟨r'.align, bytes⟩ := by
  obtain ⟨b, rest, rfl⟩ := List.exists_cons_of_ne_nil hb
  obtain ⟨refill, byte, left⟩ := r
  obtain ⟨refill', byte', left'⟩ := r'
  cases hr
  rfl

theorem BitSource.pullBits_align_congr {count : Nat} (hpos : 0 < count) (hr : r.refill = r'.refill) (hb : bytes ≠ []) :
    pullBits count ⟨r.align, bytes⟩ = pullBits count ⟨r'.align, bytes⟩ := by
  obtain ⟨count, rfl⟩ : ∃ k, count = k + 1 := ⟨count - 1, by omega⟩
  exact bind_congr_left _ (pullBit_align_congr hr hb)

end Align

namespace Feed

variable {σ τ α : Type} {state : σ} {r r' : BitReader} {bytes : Bytes}

theorem onBits_congr {m : Reading BitSource α} (h : m ⟨r, bytes⟩ = m ⟨r', bytes⟩) :
    onBits m ⟨state, r, bytes⟩ = onBits m ⟨state, r', bytes⟩ := by
  unfold onBits
  dsimp only
  rw [h]

theorem within_congr (wrap : τ → σ) {inner inner' : τ} {state' : σ} {m : Reading (Feed τ) α}
    (h : m ⟨inner, r, bytes⟩ = m ⟨inner', r', bytes⟩) :
    within wrap inner m ⟨state, r, bytes⟩ = within wrap inner' m ⟨state', r', bytes⟩ := by
  unfold within
  dsimp only
  rw [h]

theorem keeps_refill_onBits {refill : Refill} {m : Reading BitSource α} (h : Keeps (fun s => s.reader.refill = refill) m) :
    Keeps (fun f : Feed σ => f.reader.refill = refill) (onBits m) := by
  intro f hf
  unfold onBits
  cases hm : m ⟨f.reader, f.bytes⟩ with
  | ok a s => exact h.ok hf hm
  | error e s => exact h.error hf hm

end Feed

/-! ## RLE -/

namespace RunLength

variable {width : Nat} {r r' : BitReader} {bytes : Bytes}

theorem next_congr (hr : r.refill = r'.refill) (hb : bytes ≠ []) :
    next width ⟨none, r, bytes⟩ = next width ⟨none, r', bytes⟩ := by
  have hsegment : pullSegment width ⟨r, bytes⟩ = pullSegment width ⟨r', bytes⟩ := by
    rw [pullSegment, align_bind, align_bind]
    exact bind_congr_left _ (BitSource.pullBit_align_congr hr hb)
  have hpending : pending width ⟨none, r, bytes⟩ = pending width ⟨none, r', bytes⟩ := by
    rw [pending, get_bind, get_bind]
    exact bind_congr_left _ (Feed.onBits_congr hsegment)
  exact bind_congr_left _ hpending

variable (refill : Refill) (width : Nat)

theorem keeps_refill_pullSegment : Keeps (fun s => s.reader.refill = refill) (pullSegment width) := by
  refine (BitSource.keeps_refill_align refill).bind fun _ => ?_
  refine (BitSource.keeps_refill_pullBit refill).bind fun isRun => ?_
  refine (BitSource.keeps_refill_pullBits refill 31).bind fun length => ?_
  cases length with
  | zero => exact keeps_throw _
  | succ more => exact .ite ((BitSource.keeps_refill_pullBits refill width).bind fun _ => keeps_pure _) (keeps_pure _)

theorem keeps_refill_pullGroup (more : Nat) : Keeps (fun s => s.reader.refill = refill) (pullGroup width more) := by
  have hbits (count : Nat) := BitSource.keeps_refill_pullBits refill count
  refine (hbits 7).bind fun offsetWidth => ?_
  refine .ite (keeps_throw _) ?_
  refine (hbits width).bind fun base => ?_
  have hmember : Keeps (fun s => s.reader.refill = refill) (pullMember width base offsetWidth) :=
    (hbits offsetWidth).bind fun _ => keeps_pure _
  exact hmember.bind fun _ => (hmember.times more).bind fun _ => keeps_pure _

theorem keeps_refill_pending : Keeps (fun f => f.reader.refill = refill) (pending width) := by
  rintro ⟨state, reader, bytes⟩ hf
  cases state with
  | some p => exact hf
  | none =>
    have hsegment := Feed.keeps_refill_onBits (σ := State) (keeps_refill_pullSegment refill width)
    have hset (p : Pending) : Keeps (fun f => f.reader.refill = refill) (do
        Feed.setState (some p)
        return p : Reading (Feed State) Pending) := fun _ h => h
    exact hsegment.bind hset _ hf

theorem keeps_refill_next : Keeps (fun f => f.reader.refill = refill) (next width) := by
  have hset (state : State) (value : Nat) : Keeps (fun f => f.reader.refill = refill) (do
      Feed.setState state
      return value : Reading (Feed State) Nat) := fun _ h => h
  refine (keeps_refill_pending refill width).bind fun p => ?_
  cases p with
  | run value more => cases more <;> exact hset _ _
  | group value rest packed => exact hset _ _
  | packed more => exact (Feed.keeps_refill_onBits (keeps_refill_pullGroup refill width _)).bind fun _ => hset _ _

end RunLength

/-! ## TS_2DIFF -/

namespace Delta

variable {t : NumberType} {r r' : BitReader} {bytes : Bytes}

/-- A stream without a mode has no domain but the one of patterns. -/
theorem domain_eq (hm : hasMode t = false) (domain? : Option Domain) (hd : ∀ d ∈ domain?, d = .pattern)
    (ready : List Nat) (r : BitReader) (bytes : Bytes) :
    domain t ⟨⟨domain?, ready⟩, r, bytes⟩ = .ok .pattern ⟨⟨some .pattern, ready⟩, r, bytes⟩ := by
  cases domain? with
  | some d =>
    obtain rfl := hd d rfl
    rfl
  | none =>
    have hmode : pullDomain t ⟨r, bytes⟩ = .ok .pattern ⟨r, bytes⟩ := by
      rw [pullDomain, if_neg (by simp [hm])]
      rfl
    show (Feed.onBits (pullDomain t) >>= _) _ = _
    rw [bind_of_eq (Feed.onBits_of_eq (f := (⟨⟨none, ready⟩, r, bytes⟩ : Feed State)) hmode)]
    rfl

theorem next_congr (hm : hasMode t = false) {domain? : Option Domain} (hd : ∀ d ∈ domain?, d = .pattern)
    (hr : r.refill = r'.refill) (hb : bytes ≠ []) :
    next t ⟨⟨domain?, []⟩, r, bytes⟩ = next t ⟨{}, r', bytes⟩ := by
  have hblock : pullBlock (Domain.width t .pattern) ⟨r, bytes⟩ = pullBlock (Domain.width t .pattern) ⟨r', bytes⟩ := by
    rw [pullBlock, RunLength.align_bind, RunLength.align_bind]
    exact bind_congr_left _ (BitSource.pullBits_align_congr (by decide) hr hb)
  have hnew : domain t ⟨{}, r', bytes⟩ = .ok .pattern ⟨⟨some .pattern, []⟩, r', bytes⟩ :=
    domain_eq hm none (by simp) [] r' bytes
  rw [next, bind_of_eq (domain_eq hm domain? hd [] r bytes), bind_of_eq hnew, get_bind, get_bind]
  exact bind_congr_left (m := Feed.onBits (pullBlock (Domain.width t .pattern))) _ (Feed.onBits_congr hblock)

theorem domain?_of_next (hm : hasMode t = false) {f g : Feed State} {v : Value} (hf : ∀ d ∈ f.state.domain?, d = .pattern)
    (h : next t f = .ok v g) : g.state.domain? = some .pattern := by
  obtain ⟨⟨domain?, ready⟩, r, bytes⟩ := f
  rw [next, bind_of_eq (domain_eq hm domain? hf ready r bytes), get_bind] at h
  cases ready with
  | cons word rest =>
    cases h
    rfl
  | nil =>
    obtain ⟨block, u, -, h⟩ := ok_of_bind (m := Feed.onBits (pullBlock (Domain.width t .pattern))) h
    cases h
    rfl

end Delta

/-! ## Any codec -/

/-- Streams in which nothing stands at the front that is not a value. -/
def Codec.Frontless : Codec → Prop
  | .plain _ => True
  | .runLength _ => True
  | .delta t => Delta.hasMode t = false
  | .gorilla _ _ => False

namespace Decoder

/-- A decoder that has nothing to remember of the stream but the values that are pending. -/
inductive Borders : Codec → Decoder → Prop
  | plain (t : DataType) (bytes : Bytes) : Borders (.plain t) ⟨.plain t, { refill := .onDemand }, bytes⟩
  | runLength (t : FixedType) (s : RunLength.State) {reader : BitReader} (bytes : Bytes) : reader.refill = .onDemand →
      Borders (.runLength t) ⟨.runLength t s, reader, bytes⟩
  | delta {t : NumberType} {s : Delta.State} {reader : BitReader} {bytes : Bytes} : Delta.hasMode t = false →
      (∀ d ∈ s.domain?, d = .pattern) → Delta.Settled ⟨s, reader, bytes⟩ → Borders (.delta t) ⟨.delta t s, reader, bytes⟩

variable {c : Codec} {d e : Decoder}

theorem borders_ofCodec (hc : c.Frontless) (bytes : Bytes) : Borders c (ofCodec c bytes) := by
  cases c with
  | plain t => exact .plain t bytes
  | runLength t => exact .runLength t none bytes rfl
  | delta t => exact .delta hc nofun ⟨rfl, fun _ => rfl⟩
  | gorilla version t => exact absurd hc id

theorem Borders.grow (h : Borders c d) (extra : Bytes) : Borders c (d.grow extra) := by
  cases h with
  | plain t bytes => exact .plain t _
  | runLength t s bytes hr => exact .runLength t s _ hr
  | delta hm hd hs => exact .delta hm hd hs

/-- A value that is read leaves nothing to remember. -/
theorem Borders.next {v : Value} (h : Borders c d) (hnext : next d = .ok v e) : Borders c e := by
  cases h with
  | plain t bytes =>
    obtain ⟨rest, -, rfl⟩ := Feed.ok_of_onBytes (m := Plain.pull t) hnext
    exact .plain t rest
  | runLength t s bytes hr =>
    obtain ⟨n, f, hf, hv⟩ := ok_of_bind (m := Feed.within (DecoderState.runLength t) s (RunLength.next t.width)) hnext
    obtain ⟨g, hg, rfl⟩ := Feed.ok_of_within hf
    cases hv
    exact .runLength t g.state g.bytes ((RunLength.keeps_refill_next .onDemand t.width).ok hr hg)
  | @delta t s reader bytes hm hd hs =>
    obtain ⟨g, hg, rfl⟩ := Feed.ok_of_within (m := Delta.next t) hnext
    have hdomain := Delta.domain?_of_next hm hd hg
    exact .delta hm (by simp [hdomain]) ((Delta.keeps_settled_next t).ok hs hg)

/-- Without bytes it has no more than the values that are pending. -/
theorem Borders.hasNext_eq (h : Borders c d) : d.hasNext = ((d.load []).hasNext || !d.bytes.isEmpty) := by
  cases h with
  | plain t bytes => rfl
  | runLength t s bytes hr => simp [hasNext, load, RunLength.hasNext]
  | delta hm hd hs => simp [hasNext, load, Delta.hasNext]

/-- Where nothing is pending, it goes on like a new one. -/
theorem Borders.next_eq (h : Borders c d) (hspent : (d.load []).hasNext = false) (hb : d.bytes ≠ []) :
    Decoder.next d = Decoder.next (ofCodec c d.bytes) := by
  cases h with
  | plain t bytes => rfl
  | @runLength t s reader bytes hr =>
    obtain rfl : s = none := by simpa [hasNext, load, RunLength.hasNext] using hspent
    exact bind_congr_left (m := Feed.within (DecoderState.runLength t) none (RunLength.next t.width)) _
      (Feed.within_congr (DecoderState.runLength t) (RunLength.next_congr hr hb))
  | @delta t s reader bytes hm hd hs =>
    obtain ⟨domain?, ready⟩ := s
    obtain rfl : ready = [] := by simpa [hasNext, load, Delta.hasNext] using hspent
    exact Feed.within_congr (DecoderState.delta t) (Delta.next_congr hm hd hs.1 hb)

/-- It yields what a new one yields. -/
theorem Borders.yields (hc : c.Frontless) (h : Borders c d) (hspent : (d.load []).hasNext = false) :
    Yields Decoder.next hasNext d (ofCodec c d.bytes).drainAll.items (ofCodec c d.bytes).drainAll.ending := by
  have hfresh := yields_drainAll (ofCodec c d.bytes)
  have hempty : ((ofCodec c d.bytes).load []).hasNext = false := by
    cases c with
    | gorilla version t => exact absurd hc id
    | _ => rfl
  have hmore : d.hasNext = (ofCodec c d.bytes).hasNext := by
    rw [h.hasNext_eq, (borders_ofCodec hc d.bytes).hasNext_eq, hspent, hempty]
    rfl
  cases hsome : (ofCodec c d.bytes).hasNext with
  | true =>
    have hb : d.bytes ≠ [] := by
      intro hb
      rw [(borders_ofCodec hc d.bytes).hasNext_eq, hempty] at hsome
      simp [ofCodec, hb] at hsome
    exact hfresh.of_first hsome (hmore.trans hsome) (h.next_eq hspent hb)
  | false =>
    rw [drainAll_of_run (.nil _) hsome]
    exact .finished (hmore.trans hsome)

/-- Behind bytes that are read to their end come the values and the ending that the bytes behind
    them give alone. -/
theorem drainAll_append (hc : c.Frontless) {a : Bytes} (ha : (ofCodec c a).drainAll.ending = .finished) (b : Bytes) :
    (ofCodec c (a ++ b)).drainAll.items = (ofCodec c a).drainAll.items ++ (ofCodec c b).drainAll.items ∧
      (ofCodec c (a ++ b)).drainAll.ending = (ofCodec c b).drainAll.ending := by
  obtain ⟨d, hrun, ⟨hnone, -⟩ | ⟨fault, f, -, hfailed⟩⟩ := drainAll_cases (ofCodec c a)
  · have hd : Borders c d := hrun.keeps (fun _ _ _ hs => hs.next) (borders_ofCodec hc a)
    obtain ⟨hspent, hb⟩ : (d.load []).hasNext = false ∧ d.bytes = [] := by simpa [hd.hasNext_eq] using hnone
    have hbytes : (d.grow b).bytes = b := by simp [Feed.grow, hb]
    have hyields := (hd.grow b).yields hc hspent
    rw [hbytes] at hyields
    exact drainAll_of_yields ((run_grow b hrun).yields hyields)
  · rw [ha] at hfailed
    cases hfailed

end Decoder

/-! ## Decoders on machine words -/

namespace Machine

/-- A new decoder reads these values from the bytes and then ends like that, on machine words and
    without them. -/
def Drains (t : DataType) (encoding : Encoding) (bytes : Bytes) (items : List Value) (ending : Ending) : Prop :=
  ∃ d harvest d', Decoder.new t encoding bytes = .ok d ∧ d.drainAll = .ok harvest ∧ harvest.items = items ∧
    harvest.ending = ending ∧ Chronicle.Decoder.new t encoding bytes = .ok d' ∧ d'.drainAll.items = items ∧
    d'.drainAll.ending = ending

theorem drains_iff {t : DataType} {encoding : Encoding} {c : Codec} (hc : Codec.require t encoding = .ok c) (bytes : Bytes)
    {items : List Value} {ending : Ending} :
    Drains t encoding bytes items ending ↔ (Chronicle.Decoder.ofCodec c bytes).drainAll.items = items ∧
      (Chronicle.Decoder.ofCodec c bytes).drainAll.ending = ending := by
  have hnew := Chronicle.Decoder.new_of_require hc bytes
  refine ⟨?_, ?_⟩
  · rintro ⟨d, harvest, d', -, -, -, -, hd', hitems, hending⟩
    rw [hnew] at hd'
    cases hd'
    exact ⟨hitems, hending⟩
  · rintro ⟨hitems, hending⟩
    obtain ⟨harvest, hdrain, hsame⟩ := Decoder.drainAll_views (Decoder.ofCodec_views c bytes)
    exact ⟨_, harvest, _, Decoder.new_of_require hc bytes, hdrain, hsame.items.trans hitems, hsame.ending.trans hending,
      hnew, hitems, hending⟩

/-- Bytes of which everything is read, and then any bytes: a new decoder reads the values of the
    first ones, and goes on with the values of the others up to the end, or the fault, that a new
    decoder comes to in these alone. -/
theorem accepted_bytes_concatenate {t : DataType} {encoding : Encoding} (he : encoding ∈ t.encodings)
    (hfront : encoding = .plain ∨ encoding = .runLength ∨ encoding = .delta ∧ (t = .int32 ∨ t = .int64))
    {a : Bytes} {items : List Value} (ha : Drains t encoding a items .finished) (b : Bytes) :
    ∃ others ending, Drains t encoding b others ending ∧ Drains t encoding (a ++ b) (items ++ others) ending := by
  obtain ⟨c, hc, -⟩ := Codec.require_of_mem he
  have hcodec : c.Frontless := by
    obtain ⟨rfl, rfl⟩ := Codec.require_eq_ok_iff.1 hc
    cases c with
    | plain t => trivial
    | runLength t => trivial
    | delta t =>
      rcases hfront with h | h | ⟨-, h | h⟩ <;> cases h <;> rfl
    | gorilla version t =>
      rcases hfront with h | h | ⟨h, -⟩ <;> cases h
  obtain ⟨rfl, hfinished⟩ := (drains_iff hc a).1 ha
  obtain ⟨hitems, hending⟩ := Chronicle.Decoder.drainAll_append hcodec hfinished b
  exact ⟨_, _, (drains_iff hc b).2 ⟨rfl, rfl⟩, (drains_iff hc (a ++ b)).2 ⟨hitems, hending⟩⟩

/-- A block of one word leaves four bits of its last byte. A block of one word follows, and a byte
    that is no block. -/
theorem accepted_bytes_concatenate_delta :
    Drains .int32 .delta [0x10, 0, 0, 0, 0x70] [.int32 7] .finished ∧
      Drains .int32 .delta ([0x10, 0, 0, 0, 0x70] ++ [0x10, 0, 0, 0, 0x50, 0]) [.int32 7, .int32 5]
        (.failed (.malformed (.blockCount 0))) := by
  have hc : Codec.require .int32 .delta = .ok (.delta .int32) := rfl
  have ha : Drains .int32 .delta [0x10, 0, 0, 0, 0x70] [.int32 7] .finished := (drains_iff hc _).2 (by decide +kernel)
  have hb : Drains .int32 .delta [0x10, 0, 0, 0, 0x50, 0] [.int32 5] (.failed (.malformed (.blockCount 0))) :=
    (drains_iff hc _).2 (by decide +kernel)
  obtain ⟨others, ending, hothers, hall⟩ :=
    accepted_bytes_concatenate (by decide) (.inr (.inr ⟨rfl, .inl rfl⟩)) ha [0x10, 0, 0, 0, 0x50, 0]
  obtain ⟨hitems, hending⟩ := (drains_iff hc _).1 hothers
  obtain ⟨hitems', hending'⟩ := (drains_iff hc _).1 hb
  obtain rfl := hitems.symm.trans hitems'
  obtain rfl := hending.symm.trans hending'
  exact ⟨ha, hall⟩

end Machine

end Chronicle
