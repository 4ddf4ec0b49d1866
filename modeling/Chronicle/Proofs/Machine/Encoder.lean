/-
  Chronicle.Proofs.Machine.Encoder — encoders that store as they go, under any sequence of calls.

  (1) Atomicity (`encode_keeps`). Each of the four encodings asks everything it can refuse a value for
  before it stores anything: RLE keeps a pattern once it has one, TS_2DIFF opens its stream once the
  value has become a word, GORILLA writes once the count has room. So a call that fails has changed no
  field, and otherwise the encoder on machine words stands for the one that takes values as wholes
  (`Views`). No call is trapped.

  (2) Linearity (`session_linear`). A caller who keeps the answers of an encoder knows which values were
  accepted since the last reset, and whether a payload was given since then (`Record`). Nothing else
  about the past matters (`Follows`): an encoder that is open is what the accepted values make of a fresh
  one, and one that has given its payload refuses everything until it is reset. A flush and a reset leave
  nothing behind that a later payload could show: no bits of a byte, no words of a block, no window, no
  mode.
-/

import Chronicle.Machine.Encoder
import Chronicle.Proofs.Machine.DeltaWriter
import Chronicle.Proofs.Machine.GorillaWriter
import Chronicle.Proofs.Machine.RunLengthWriter
import Chronicle.Proofs.Stream.Codec

namespace Chronicle

namespace Machine

/-! ## (1) Atomicity -/

namespace EncoderState

inductive Views : EncoderState → Chronicle.EncoderState → Prop
  | plain (t : DataType) (out : Array UInt8) : Views (.plain out) (.plain t out)
  | runLength {b : RunLengthBuffer} {e : RunLength.Encoder} : b.Views e → Views (.runLength b) (.runLength e)
  | delta {w : DeltaWriter} {e : Delta.Encoder} : w.Awaits e → Views (.delta w) (.delta e)
  | gorilla {w : GorillaWriter} {e : Chronicle.Gorilla.Encoder} : w.Views e → Views (.gorilla w) (.gorilla e)

variable {s : EncoderState} {e : Chronicle.EncoderState} {v : Value}

theorem views_initial {config : Config} (hcap : 0 < config.maxRunLength) (c : Codec) :
    Views (initial config c) (.initial config c) := by
  cases c with
  | plain t => exact .plain t #[]
  | runLength t => exact .runLength (RunLengthBuffer.views_new t hcap)
  | delta t => exact .delta (DeltaWriter.awaits_initial t _)
  | gorilla version t => exact .gorilla (GorillaWriter.views_initial version t)

theorem encode_keeps (h : Views s e) (hv : v.dataType = e.codec.dataType) : Keeps Views s (encode v s) (e.push v) := by
  cases h with
  | plain t out => exact ⟨_, rfl, .plain t _⟩
  | @runLength b e h =>
    have hpush : (Chronicle.EncoderState.runLength e).push v =
        (do return .runLength (← (do return e.push (← v.requireBits (.fixed e.dataType))))) := by
      simp only [bind_assoc, pure_bind]
      rfl
    rw [hpush]
    exact (RunLengthBuffer.encode_keeps h v).within (fun _ _ => .runLength) (.runLength b)
  | @delta w e h =>
    have hpush : (Chronicle.EncoderState.delta e).push v =
        (do return .delta (← (do e.push (← v.requireBits (.fixed (.number e.dataType)))))) := by
      simp only [bind_assoc]
      rfl
    rw [hpush]
    exact (DeltaWriter.encode_keeps h hv).within (fun _ _ => .delta) (.delta w)
  | @gorilla w e h =>
    have hpush : (Chronicle.EncoderState.gorilla e).push v =
        (do return .gorilla (← (do e.push (← v.requireBits (.fixed (.number e.dataType)))))) := by
      simp only [bind_assoc]
      rfl
    rw [hpush]
    exact (GorillaWriter.encode_keeps h hv).within (fun _ _ => .gorilla) (.gorilla w)

theorem flush_views (h : Views s e) : ∃ s', flush s = .ok e.flush.1 s' ∧ Views s' e.flush.2 := by
  cases h with
  | plain t out => exact ⟨_, rfl, .plain t #[]⟩
  | @runLength b e h =>
    obtain ⟨b', hflush, hb⟩ := RunLengthBuffer.flush_views h
    exact ⟨_, within_of_eq hflush (.runLength b), .runLength hb⟩
  | @delta w e h =>
    obtain ⟨w', hflush, hw⟩ := DeltaWriter.flush_awaits h
    exact ⟨_, within_of_eq hflush (.delta w), .delta hw⟩
  | @gorilla w e h =>
    obtain ⟨w', hflush, hw⟩ := GorillaWriter.flush_views h
    exact ⟨_, within_of_eq hflush (.gorilla w), .gorilla hw⟩

theorem reset_views (h : Views s e) : ∃ s', reset s = .ok () s' ∧ Views s' e.reset := by
  cases h with
  | plain t out => exact ⟨_, rfl, .plain t #[]⟩
  | @runLength b e h =>
    obtain ⟨b', hreset, hb⟩ := RunLengthBuffer.reset_views h
    exact ⟨_, within_of_eq hreset (.runLength b), .runLength hb⟩
  | @delta w e h =>
    obtain ⟨w', hreset, hw⟩ := DeltaWriter.reset_awaits h
    exact ⟨_, within_of_eq hreset (.delta w), .delta hw⟩
  | @gorilla w e h =>
    obtain ⟨w', hreset, hw⟩ := GorillaWriter.reset_views h
    exact ⟨_, within_of_eq hreset (.gorilla w), .gorilla hw⟩

end EncoderState

namespace Encoder

structure Views (m : Encoder) (e : Chronicle.Encoder) : Prop where
  dataType : m.dataType = e.dataType
  encoding : m.encoding = e.encoding
  state : m.state.Views e.state
  count : m.count = e.count
  flushed : m.flushed = e.flushed

variable {m : Encoder} {e : Chronicle.Encoder} {v : Value}

/-- A change of the state that keeps the codec. -/
theorem Views.set_state (h : m.Views e) {s : EncoderState} {s' : Chronicle.EncoderState} (hs : s.Views s')
    (hcodec : s'.codec = e.codec) (count : Nat) (flushed : Bool) :
    Views { m with state := s, count := count, flushed := flushed } { state := s', count := count, flushed := flushed } :=
  ⟨h.dataType.trans (congrArg Codec.dataType hcodec.symm), h.encoding.trans (congrArg Codec.encoding hcodec.symm), hs, rfl,
    rfl⟩

/-- A value is taken in, or refused with nothing changed. -/
theorem encode_keeps (h : m.Views e) (v : Value) : Keeps Views m (encode v m) (e.encode v) := by
  unfold encode
  rw [get_bind, h.flushed, h.dataType]
  cases hflushed : e.flushed with
  | true =>
    rw [Chronicle.Encoder.encode_of_flushed hflushed]
    rfl
  | false =>
    by_cases htype : v.dataType = e.dataType
    · have hstate : Keeps EncoderState.Views m.state (EncoderState.encode v m.state) (e.state.push v) :=
        EncoderState.encode_keeps h.state htype
      rw [if_neg (not_not_intro htype)]
      cases hpush : e.state.push v with
      | ok s' =>
        rw [hpush] at hstate
        obtain ⟨s, hs, hviews⟩ := hstate
        rw [Chronicle.Encoder.encode_of_push hflushed htype hpush]
        refine ⟨_, bind_of_eq (within_of_eq hs m), ?_⟩
        rw [← h.count, ← h.flushed]
        exact h.set_state hviews (Chronicle.EncoderState.codec_push hpush) _ _
      | error fault =>
        rw [hpush] at hstate
        have hs : EncoderState.encode v m.state = .error (.failed fault) m.state := hstate
        rw [Chronicle.Encoder.encode_of_push_error hflushed htype hpush]
        refine bind_of_error ?_
        unfold onState within
        rw [hs]
    · rw [if_pos htype, Chronicle.Encoder.encode_of_type_ne hflushed htype]
      rfl

theorem flush_of_flushed (h : m.Views e) (hflushed : e.flushed = true) : flush m = .error (.failed .flushed) m := by
  unfold flush
  rw [get_bind, h.flushed, hflushed]
  rfl

theorem flush_of_open (h : m.Views e) (hopen : e.flushed = false) :
    ∃ m', flush m = .ok e.state.flush.1 m' ∧ m'.Views { e with state := e.state.flush.2, flushed := true } := by
  obtain ⟨s, hs, hviews⟩ := EncoderState.flush_views h.state
  unfold flush
  rw [get_bind, h.flushed, hopen]
  refine ⟨_, bind_of_eq (within_of_eq hs m), ?_⟩
  rw [← h.count]
  exact h.set_state hviews (Chronicle.EncoderState.codec_flush e.state) _ _

theorem reset_views (h : m.Views e) : ∃ m', reset m = .ok () m' ∧ m'.Views e.reset := by
  obtain ⟨s, hs, hviews⟩ := EncoderState.reset_views h.state
  refine ⟨_, bind_of_eq (within_of_eq hs m), ?_⟩
  exact h.set_state hviews (Chronicle.EncoderState.codec_reset e.state) _ _

theorem new_views {t : DataType} {encoding : Encoding} {config : Config} (hvalid : config.validate = .ok ()) {c : Codec}
    (hc : Codec.require t encoding = .ok c) :
    ∃ m, new t encoding config = .ok m ∧ m.Views { state := .initial config c } := by
  obtain ⟨rfl, rfl⟩ := Codec.require_eq_ok_iff.1 hc
  have hcodec : Chronicle.Encoder.codec { state := .initial config c } = c := Chronicle.EncoderState.codec_initial config c
  refine ⟨{ dataType := c.dataType, encoding := c.encoding, state := .initial config c }, ?_,
    congrArg Codec.dataType hcodec.symm, congrArg Codec.encoding hcodec.symm,
    EncoderState.views_initial (Config.cap_pos_of_validate hvalid) c, rfl, rfl⟩
  unfold new
  rw [hvalid, hc]
  rfl

/-- Values that are taken in one after another. -/
theorem forM_encode_views (h : m.Views e) {values : List Value} {e' : Chronicle.Encoder}
    (hvalues : values.foldlM Chronicle.Encoder.encode e = .ok e') : ∃ m', values.forM encode m = .ok () m' ∧ m'.Views e' := by
  induction values generalizing m e with
  | nil =>
    cases hvalues
    exact ⟨m, rfl, h⟩
  | cons v values ih =>
    obtain ⟨next, hv, hvalues⟩ := exists_of_bind_eq_ok hvalues
    have hkeeps := encode_keeps h v
    rw [hv] at hkeeps
    obtain ⟨n, hn, hviews⟩ := hkeeps
    obtain ⟨m', hm', hviews'⟩ := ih hviews hvalues
    exact ⟨m', (bind_of_eq hn).trans hm', hviews'⟩

/-! ## (2) Linearity -/

/-- What a caller knows from the answers: the values that were accepted since the last reset,
    and whether they have been flushed. -/
structure Record where
  accepted : List Value := []
  closed : Bool := false
  deriving DecidableEq

def Record.note (r : Record) : Call → Answer → Record
  | .encode v, .ok _ => { r with accepted := r.accepted ++ [v] }
  | .flush, .ok _ => { r with closed := true }
  | .reset, _ => {}
  | _, .error _ => r

def record (calls : List Call) (answers : List Answer) : Record :=
  (calls.zip answers).foldl (fun r p => r.note p.1 p.2) {}

/-- The encoder is what the record of its calls says: while it is open, what the accepted
    values make of the first one. -/
structure Follows (first : Chronicle.Encoder) (r : Record) (e : Chronicle.Encoder) : Prop where
  reset_eq : e.reset = first
  count_eq : e.count = r.accepted.length
  flushed_eq : e.flushed = r.closed
  current : r.closed = false → r.accepted.foldlM Chronicle.Encoder.encode first = .ok e

variable {first e' : Chronicle.Encoder} {r : Record}

theorem follows_first (hf : first.reset = first) : Follows first {} first := by
  refine ⟨hf, ?_, ?_, ?_⟩
  · rw [← hf]
    rfl
  · rw [← hf]
    rfl
  · intro _
    rfl

/-- A value that is accepted goes behind the others. -/
theorem Follows.encode (h : Follows first r e) (hv : e.encode v = .ok e') :
    Follows first { r with accepted := r.accepted ++ [v] } e' := by
  obtain ⟨hopen', hreset⟩ := Chronicle.Encoder.open_of_encode hv
  obtain ⟨hopen, -, s, -, hcount⟩ := Chronicle.Encoder.push_of_encode hv
  have hclosed : r.closed = false := h.flushed_eq.symm.trans hopen
  refine ⟨hreset.trans h.reset_eq, ?_, hopen'.trans hclosed.symm, ?_⟩
  · rw [hcount, List.length_append, List.length_singleton, ← h.count_eq]
  · intro _
    rw [List.foldlM_append, h.current hclosed]
    show List.foldlM Chronicle.Encoder.encode e [v] = .ok e'
    rw [List.foldlM_cons, hv]
    rfl

theorem Follows.flush (h : Follows first r e) :
    Follows first { r with closed := true } { e with state := e.state.flush.2, flushed := true } := by
  refine ⟨?_, h.count_eq, rfl, ?_⟩
  · rw [← h.reset_eq]
    simp [Chronicle.Encoder.reset]
  · intro hclosed
    cases hclosed

theorem Follows.reset (h : Follows first r e) : Follows first {} e.reset := by
  have hfirst : first.reset = first := by rw [← h.reset_eq, Chronicle.Encoder.reset_reset]
  rw [h.reset_eq]
  exact follows_first hfirst

/-- A call is answered, keeps the encoder and the record together, and has changed nothing if it
    failed. -/
theorem call_follows (hm : m.Views e) (h : Follows first r e) (c : Call) :
    ∃ answer m' e', call c m = .ok (answer, m') ∧ m'.Views e' ∧ Follows first (r.note c answer) e' ∧
      ∀ fault, answer = .error fault → m' = m := by
  cases c with
  | encode v =>
    have hkeeps := encode_keeps hm v
    cases hv : e.encode v with
    | ok e' =>
      rw [hv] at hkeeps
      obtain ⟨m', hencode, hm'⟩ := hkeeps
      exact ⟨_, m', e', congrArg Guarded.answer (bind_of_eq hencode), hm', h.encode hv, fun _ hfault => nomatch hfault⟩
    | error fault =>
      rw [hv] at hkeeps
      exact ⟨_, m, e, congrArg Guarded.answer (bind_of_error hkeeps), hm, h, fun _ _ => rfl⟩
  | flush =>
    cases hflushed : e.flushed with
    | true =>
      exact ⟨_, m, e, congrArg Guarded.answer (map_of_error (flush_of_flushed hm hflushed)), hm, h, fun _ _ => rfl⟩
    | false =>
      obtain ⟨m', hflush, hm'⟩ := flush_of_open hm hflushed
      exact ⟨_, m', _, congrArg Guarded.answer (map_of_eq hflush), hm', h.flush, fun _ hfault => nomatch hfault⟩
  | reset =>
    obtain ⟨m', hreset, hm'⟩ := reset_views hm
    exact ⟨_, m', _, congrArg Guarded.answer (bind_of_eq hreset), hm', h.reset, fun _ hfault => nomatch hfault⟩

theorem run_cons {c : Call} {calls : List Call} {answer : Answer} {answers : List Answer} {n last : Encoder}
    (hcall : call c m = .ok (answer, n)) (hrun : run calls n = .ok (answers, last)) :
    run (c :: calls) m = .ok (answer :: answers, last) := by
  unfold run
  rw [hcall]
  show (run calls n >>= _) = _
  rw [hrun]
  rfl

/-- Any number of calls, one after the other. -/
theorem run_follows (hm : m.Views e) (h : Follows first r e) (calls : List Call) :
    ∃ answers m' e', run calls m = .ok (answers, m') ∧ m'.Views e' ∧
      Follows first ((calls.zip answers).foldl (fun r p => r.note p.1 p.2) r) e' := by
  induction calls generalizing m e r with
  | nil => exact ⟨[], m, e, rfl, hm, h⟩
  | cons c calls ih =>
    obtain ⟨answer, n, e₁, hcall, hn, hfollows, -⟩ := call_follows hm h c
    obtain ⟨answers, m', e', hrun, hm', hfollows'⟩ := ih hn hfollows
    exact ⟨answer :: answers, m', e', run_cons hcall hrun, hm', hfollows'⟩

theorem run_append {calls later : List Call} {answers rest : List Answer} {n last : Encoder}
    (hcalls : run calls m = .ok (answers, n)) (hlater : run later n = .ok (rest, last)) :
    run (calls ++ later) m = .ok (answers ++ rest, last) := by
  induction calls generalizing m answers with
  | nil =>
    cases hcalls
    exact hlater
  | cons c calls ih =>
    unfold run at hcalls
    obtain ⟨⟨answer, n₁⟩, hcall, hcalls⟩ := exists_of_bind_eq_ok hcalls
    obtain ⟨⟨more, n₂⟩, hmore, hcalls⟩ := exists_of_bind_eq_ok hcalls
    cases hcalls
    exact run_cons hcall (ih hmore)

/-- What an open encoder flushes is the payload of a fresh one that is given the accepted values. -/
theorem payload_of_follows {t : DataType} {encoding : Encoding} {config : Config}
    (hnew : Chronicle.Encoder.new t encoding config = .ok first) (h : Follows first r e) (hopen : r.closed = false) :
    Chronicle.Encoder.payload t encoding config r.accepted = .ok e.state.flush.1 := by
  unfold Chronicle.Encoder.payload
  rw [hnew]
  show (r.accepted.foldlM Chronicle.Encoder.encode first >>= _) = _
  rw [h.current hopen]
  show (e.flush >>= _) = _
  rw [Chronicle.Encoder.flush_of_open (h.flushed_eq.trans hopen)]
  rfl

/-- Whatever is called on an encoder, every call is answered, and it counts the accepted values. Once
    they are flushed it refuses values and flushes until it is reset; otherwise a flush succeeds, and
    gives the payload of a fresh encoder that was given the accepted values and nothing else. A call
    that fails has changed nothing: later calls are answered as if it had not been made, and lead to
    the same. -/
theorem session_linear {t : DataType} {encoding : Encoding} {config : Config} (he : encoding ∈ t.encodings)
    (hvalid : config.validate = .ok ()) :
    ∃ first, new t encoding config = .ok first ∧ ∀ calls, ∃ answers m, run calls first = .ok (answers, m) ∧
      m.count = (record calls answers).accepted.length ∧
      ((record calls answers).closed = true →
        (∀ v, call (.encode v) m = .ok (.error .flushed, m)) ∧ call .flush m = .ok (.error .flushed, m)) ∧
      ((record calls answers).closed = false →
        ∃ bytes after last, call .flush m = .ok (.ok (some bytes), after) ∧
          (do (record calls answers).accepted.forM encode; flush) first = .ok bytes last ∧
          Chronicle.Encoder.payload t encoding config (record calls answers).accepted = .ok bytes) ∧
      ∀ c fault after, call c m = .ok (.error fault, after) → after = m ∧ ∀ later, ∃ rest last,
        run (calls ++ later) first = .ok (answers ++ rest, last) ∧
        run (calls ++ c :: later) first = .ok (answers ++ .error fault :: rest, last) := by
  obtain ⟨codec, hcodec, -⟩ := Codec.require_of_mem he
  have hnew := Chronicle.Encoder.new_of_require hvalid hcodec
  obtain ⟨first, hfirst, hviews⟩ := new_views hvalid hcodec
  refine ⟨first, hfirst, ?_⟩
  intro calls
  have hreset : Chronicle.Encoder.reset { state := .initial config codec } = { state := .initial config codec } := by
    simp [Chronicle.Encoder.reset]
  obtain ⟨answers, m, e, hrun, hm, h⟩ := run_follows hviews (follows_first hreset) calls
  refine ⟨answers, m, hrun, hm.count.trans h.count_eq, ?closed, ?opened, ?failed⟩
  case closed =>
    intro hclosed
    have hflushed : e.flushed = true := h.flushed_eq.trans hclosed
    refine ⟨fun v => ?_, congrArg Guarded.answer (map_of_error (flush_of_flushed hm hflushed))⟩
    have hkeeps := encode_keeps hm v
    rw [Chronicle.Encoder.encode_of_flushed hflushed] at hkeeps
    exact congrArg Guarded.answer (bind_of_error hkeeps)
  case opened =>
    intro hopen
    obtain ⟨after, hflush, -⟩ := flush_of_open hm (h.flushed_eq.trans hopen)
    obtain ⟨same, hsame, hviews'⟩ := forM_encode_views hviews (h.current hopen)
    obtain ⟨last, hlast, -⟩ := flush_of_open hviews' (h.flushed_eq.trans hopen)
    exact ⟨_, after, last, congrArg Guarded.answer (map_of_eq hflush), (bind_of_eq hsame).trans hlast,
      payload_of_follows hnew h hopen⟩
  case failed =>
    intro c fault after hcall
    obtain ⟨answer, m', e', hcall', -, -, hunchanged⟩ := call_follows hm h c
    rw [hcall] at hcall'
    cases hcall'
    obtain rfl := hunchanged fault rfl
    refine ⟨rfl, fun later => ?_⟩
    obtain ⟨rest, last, -, hlater, -⟩ := run_follows hm h later
    exact ⟨rest, last, run_append hrun hlater, run_append hrun (run_cons hcall hlater)⟩

/-- Of 1.5 and a NaN, a scale of two refuses the second one, whose refusal does not show in the
    payload; after the flush nothing is taken. -/
theorem session_linear_fixed_point :
    ∃ first bytes m closed, new .double .delta { scale? := some ⟨0x4000000000000000⟩ } = .ok first ∧
      run [.encode (.double ⟨0x3FF8000000000000⟩), .encode (.double ⟨0x7FF8000000000000⟩)] first =
        .ok ([.ok none, .error (.overflow (.fixedPoint ⟨0x7FF8000000000000⟩ ⟨0x4000000000000000⟩))], m) ∧
      (∃ after, call .flush m = .ok (.ok (some bytes), after)) ∧
      (∃ last, (do [Value.double ⟨0x3FF8000000000000⟩].forM encode; flush) first = .ok bytes last) ∧
      run [.encode (.double ⟨0x3FF8000000000000⟩), .encode (.double ⟨0x7FF8000000000000⟩), .flush] first =
        .ok ([.ok none, .error (.overflow (.fixedPoint ⟨0x7FF8000000000000⟩ ⟨0x4000000000000000⟩)), .ok (some bytes)],
          closed) ∧
      call (.encode (.double ⟨0⟩)) closed = .ok (.error .flushed, closed) := by
  have hvalid : ({ scale? := some ⟨0x4000000000000000⟩ } : Config).validate = .ok () := by decide +kernel
  have hlegal : Encoding.delta ∈ DataType.double.encodings := by decide
  obtain ⟨first, hnew, h⟩ := session_linear hlegal hvalid
  obtain ⟨answers, m, hrun, -, -, hflush, -⟩ :=
    h [.encode (.double ⟨0x3FF8000000000000⟩), .encode (.double ⟨0x7FF8000000000000⟩)]
  have hanswers : (do
      let first ← (new .double .delta { scale? := some ⟨0x4000000000000000⟩ }).toOption
      let r ← (run [.encode (.double ⟨0x3FF8000000000000⟩), .encode (.double ⟨0x7FF8000000000000⟩)] first).toOption
      return r.1) =
      some [.ok none, .error (.overflow (.fixedPoint ⟨0x7FF8000000000000⟩ ⟨0x4000000000000000⟩))] := by
    decide +kernel
  rw [hnew] at hanswers
  change ((run _ first).toOption >>= _) = _ at hanswers
  rw [hrun] at hanswers
  obtain rfl := Option.some.inj hanswers
  obtain ⟨bytes, after, last, hcall, hfresh, -⟩ := hflush rfl
  -- Behind the flush the record is the same, but closed.
  have hclosed := run_append hrun (run_cons hcall (show run [] after = .ok ([], after) from rfl))
  obtain ⟨answers, closed, hrun', -, hrefused, -⟩ :=
    h [.encode (.double ⟨0x3FF8000000000000⟩), .encode (.double ⟨0x7FF8000000000000⟩), .flush]
  cases hrun'.symm.trans hclosed
  exact ⟨first, bytes, m, after, hnew, hrun, ⟨after, hcall⟩, ⟨last, hfresh⟩, hrun', (hrefused rfl).1 _⟩

end Encoder

end Machine

end Chronicle
