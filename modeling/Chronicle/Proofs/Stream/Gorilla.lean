/-
  Chronicle.Proofs.Stream.Gorilla — what GORILLA writes is read back.

  (1) Windows. A window says where the bits of a difference are (`Window.Holds`). There is a bit inside
  each (`Window.Valid`), so its size can be told from the field that it is written as, although that has
  no room for the full width as it is (`ofSizeField_sizeField`).

  (2) Codes. A code is one of three ways to say a difference (`Code.Describes`), and both sides keep the
  same window from one code to the next. A code gives the pattern that differs from the one before as the
  code describes (`pullFollowing_of_unread`).

  (3) Streams. A fresh encoder takes patterns up to the count that it can say (`foldlM_push`,
  `foldlM_push_of_full`). A payload gives the patterns it was made of and ends where the reader has taken
  the byte that closes it, and no byte more (`run_payload`).
-/

import Chronicle.Proofs.Stream.Feed
import Chronicle.Proofs.Wire.Varint
import Chronicle.Stream.Gorilla

namespace Chronicle.Gorilla

open Reading

/-! ## Windows -/

variable {version : GorillaVersion} {width difference : Nat} {window : Window}

/-- There is a bit inside the window. -/
def Window.Valid (width : Nat) (window : Window) : Prop := window.leading + window.trailing < width

/-- Every bit of the difference is inside the window. -/
structure Window.Holds (width : Nat) (window : Window) (difference : Nat) : Prop where
  dvd : 2 ^ window.trailing ∣ difference
  lt : difference < 2 ^ (width - window.leading)

theorem Window.valid_around (h0 : difference ≠ 0) (h : difference < 2 ^ width) :
    (around width difference).Valid width :=
  leadingZeros_add_trailingZeros_lt h0 h

theorem Window.holds_around (h : difference < 2 ^ width) : (around width difference).Holds width difference :=
  ⟨two_pow_trailingZeros_dvd width difference, lt_two_pow_sub_leadingZeros h⟩

/-- What a window holds, a wider one holds too. -/
theorem Window.Holds.of_fits {inner outer : Window} (h : inner.Holds width difference)
    (hf : inner.fits outer = true) : outer.Holds width difference := by
  obtain ⟨hl, ht⟩ := of_decide_eq_true hf
  refine ⟨Nat.dvd_trans (Nat.pow_dvd_pow 2 ht) h.dvd, Nat.lt_of_lt_of_le h.lt ?_⟩
  exact Nat.pow_le_pow_right (by decide) (by omega)

/-- The bits inside the window, without the zeros below, fit its size. -/
theorem Window.Holds.bits_lt (h : window.Holds width difference) (hv : window.Valid width) :
    difference / 2 ^ window.trailing < 2 ^ window.size width := by
  have e : window.trailing + window.size width = width - window.leading := by
    unfold Window.Valid at hv
    unfold Window.size
    omega
  refine Nat.div_lt_of_lt_mul ?_
  rw [← Nat.pow_add, e]
  exact h.lt

theorem Window.Holds.bits_mul (h : window.Holds width difference) :
    difference / 2 ^ window.trailing * 2 ^ window.trailing = difference :=
  Nat.div_mul_cancel h.dvd

/-! ## The size of a window -/

theorem two_pow_fieldWidth (t : NumberType) : 2 ^ fieldWidth t.width = t.width := by
  cases t <;> decide

variable {size : Nat}

theorem sizeField_lt (hf : 2 ^ fieldWidth width = width) (hpos : 0 < size) (hle : size ≤ width) :
    sizeField version width size < 2 ^ fieldWidth width := by
  cases version with
  | v1 => exact Nat.mod_lt _ (Nat.two_pow_pos _)
  | v2 =>
    show size - 1 < 2 ^ fieldWidth width
    omega

/-- The size field tells the size, the full width included. -/
theorem ofSizeField_sizeField (hf : 2 ^ fieldWidth width = width) (hpos : 0 < size) (hle : size ≤ width) :
    ofSizeField version width (sizeField version width size) = size := by
  cases version with
  | v1 =>
    show (if size % 2 ^ fieldWidth width = 0 then width else size % 2 ^ fieldWidth width) = size
    rw [hf]
    rcases Nat.lt_or_eq_of_le hle with hlt | rfl
    · rw [Nat.mod_eq_of_lt hlt, if_neg (by omega)]
    · rw [Nat.mod_self, if_pos rfl]
  | v2 =>
    show size - 1 + 1 = size
    omega

/-! ## Codes -/

/-- A code says the difference, with a window that is known or that it gives. -/
inductive Code.Describes (width : Nat) (window? : Option Window) (difference : Nat) : Code → Prop
  | same : difference = 0 → Describes width window? difference .same
  | inside {window : Window} {bits : Nat} : window? = some window → bits < 2 ^ window.size width →
      bits * 2 ^ window.trailing = difference → Describes width window? difference (.inside window bits)
  | fresh {window : Window} {bits : Nat} : window.Valid width → bits < 2 ^ window.size width →
      bits * 2 ^ window.trailing = difference → Describes width window? difference (.fresh window bits)

variable {window? : Option Window}

theorem Code.describes_of (hw : ∀ w ∈ window?, w.Valid width) (h : difference < 2 ^ width) :
    (of width window? difference).Describes width window? difference := by
  unfold of
  by_cases h0 : difference = 0
  · rw [if_pos h0]
    exact .same h0
  have hv := Window.valid_around h0 h
  have hh := Window.holds_around h
  rw [if_neg h0]
  cases window? with
  | none => exact .fresh hv (hh.bits_lt hv) hh.bits_mul
  | some window =>
    dsimp only
    by_cases hf : (Window.around width difference).fits window = true
    · have hout := hh.of_fits hf
      rw [if_pos hf]
      exact .inside rfl (hout.bits_lt (hw window rfl)) hout.bits_mul
    · rw [if_neg hf]
      exact .fresh hv (hh.bits_lt hv) hh.bits_mul

/-- The window that is kept has a bit inside. -/
theorem Code.Describes.valid_window {code : Code} (h : code.Describes width window? difference)
    (hw : ∀ w ∈ window?, w.Valid width) : ∀ w ∈ code.window? window?, w.Valid width := by
  cases h with
  | same _ => exact hw
  | inside hk _ _ =>
    intro w hm
    cases hm
    exact hw _ hk
  | fresh hv _ _ =>
    intro w hm
    cases hm
    exact hv

/-! ## Writing -/

/-- The count that a header can say: four bytes, or a counter of 64 bits. -/
def CountFits (version : GorillaVersion) (count : Nat) : Prop :=
  match version with
  | .v1 => count ≤ maxCount
  | .v2 => count < 2 ^ 64

/-- As many patterns are taken. Nothing but the count field of the first version is ever full. -/
def Accepts (version : GorillaVersion) (count : Nat) : Prop := version = .v1 → count ≤ maxCount

theorem CountFits.accepts {count : Nat} (h : CountFits version count) : Accepts version count := by
  intro hv
  rw [hv] at h
  exact h

theorem Accepts.mono {count more : Nat} (h : Accepts version more) (hle : count ≤ more) : Accepts version count :=
  fun hv => Nat.le_trans hle (h hv)

def codes (width : Nat) : (previous : Nat) → Option Window → List Nat → List Code
  | _, _, [] => []
  | previous, window?, value :: values =>
    let code := Code.of width window? (value ^^^ previous)
    code :: codes width value (code.window? window?) values

def codeBits (version : GorillaVersion) (width : Nat) : (previous : Nat) → Option Window → List Nat → List Bool
  | _, _, [] => []
  | previous, window?, value :: values =>
    let code := Code.of width window? (value ^^^ previous)
    code.bits version width ++ codeBits version width value (code.window? window?) values

theorem codeBits_eq (version : GorillaVersion) (width previous : Nat) (window? : Option Window) (values : List Nat) :
    codeBits version width previous window? values =
      (codes width previous window? values).flatMap (Code.bits version width) := by
  induction values generalizing previous window? with
  | nil => rfl
  | cons value values ih => rw [codeBits, codes, List.flatMap_cons, ih]

/-- The bits of a stream as bytes, and what closes it. -/
def body (version : GorillaVersion) (bits : List Bool) : Bytes :=
  match version with
  | .v1 => (BitWriter.empty.write bits).finish.1
  | .v2 => (BitWriter.empty.write bits).finishWithTerminator.1

def payload (version : GorillaVersion) (width : Nat) : List Nat → Bytes
  | [] => []
  | value :: values =>
    countHeader version (values.length + 1) ++
      body version (bitsOf width value ++ codeBits version width value none values)

/-- Behind its bits a stream has the pad that its reader can be left with, and that is zeros. -/
theorem toBits_body (version : GorillaVersion) (bits : List Bool) :
    ∃ pad, (refill version).Leaves pad.length ∧ pad = List.replicate pad.length false ∧
      Bytes.toBits (body version bits) = bits ++ pad := by
  have e : (BitWriter.empty.write bits).toBits = bits := by
    rw [BitWriter.toBits_write, BitWriter.toBits_empty, List.nil_append]
  have hused := (BitWriter.empty.write bits).used_lt
  cases version with
  | v1 =>
    refine ⟨_, ?_, ?_, by rw [body, BitWriter.toBits_finish, e]⟩
    · rw [List.length_replicate]
      exact Nat.mod_lt _ (by decide)
    · rw [List.length_replicate]
  | v2 =>
    refine ⟨_, ?_, ?_, by rw [body, BitWriter.toBits_finishWithTerminator, e]⟩
    · rw [List.length_replicate]
      show 0 < 8 - _ ∧ 8 - _ ≤ 8
      omega
    · rw [List.length_replicate]

namespace Encoder

variable {e e' : Encoder} {value : Nat}

/-- What an encoder is for does not change. -/
theorem reset_push (h : e.push value = .ok e') : e'.reset = e.reset := by
  unfold push at h
  split at h
  · cases h
  split at h
  · cases h
    rfl
  · cases h
    rfl

/-- Only a stream of the first version can be full. -/
theorem push_of_room (h : e.version = .v1 → e.count < maxCount) (value : Nat) : ∃ e', e.push value = .ok e' := by
  have hroom : ¬ (e.version = .v1 ∧ maxCount ≤ e.count) := by
    rintro ⟨hv, hfull⟩
    exact Nat.not_le_of_lt (h hv) hfull
  unfold push
  rw [if_neg hroom]
  split <;> exact ⟨_, rfl⟩

theorem push_of_full (hv : e.version = .v1) (hfull : maxCount ≤ e.count) (value : Nat) :
    e.push value = .error (.overflow .valueCount) := by
  rw [push, if_pos ⟨hv, hfull⟩]

theorem count_push (h : e.push value = .ok e') : e'.count = e.count + 1 := by
  unfold push at h
  split at h
  · cases h
  by_cases hzero : e.count = 0
  · rw [if_pos hzero] at h
    cases h
    rw [hzero]
  · rw [if_neg hzero] at h
    cases h
    rfl

/-- An encoder with patterns takes others, up to the count that it can say. -/
theorem foldlM_push_of_count_pos {values : List Nat} (hpos : 0 < e.count)
    (hc : Accepts e.version (e.count + values.length)) :
    ∃ previous, values.foldlM push e =
      .ok { e with
        count := e.count + values.length
        previous := previous
        window? := (codes e.width e.previous e.window? values).foldl Code.window? e.window?
        out := e.out.write (codeBits e.version e.width e.previous e.window? values) } := by
  induction values generalizing e with
  | nil => exact ⟨e.previous, rfl⟩
  | cons value values ih =>
    rw [List.length_cons, Nat.add_comm values.length, ← Nat.add_assoc] at hc ⊢
    have hle : ¬ (e.version = .v1 ∧ maxCount ≤ e.count) := by
      rintro ⟨hv, hm⟩
      have := hc hv
      omega
    let code := Code.of e.width e.window? (value ^^^ e.previous)
    let next : Encoder :=
      { e with
        count := e.count + 1
        previous := value
        window? := code.window? e.window?
        out := e.out.write (code.bits e.version e.width) }
    have hpush : e.push value = .ok next := by rw [push, if_neg hle, if_neg (Nat.ne_of_gt hpos)]
    obtain ⟨previous, h⟩ := ih (e := next) (Nat.succ_pos _) hc
    refine ⟨previous, ?_⟩
    rw [List.foldlM_cons, hpush]
    show values.foldlM push next = _
    rw [h, ← BitWriter.write_append]
    rfl

/-- What a fresh encoder has become when it has taken some patterns. -/
theorem foldlM_push_cons (t : NumberType) (value : Nat) {values : List Nat} (hc : Accepts version (values.length + 1)) :
    ∃ previous, (value :: values).foldlM push { version := version, dataType := t } =
      .ok { version := version, dataType := t
            count := values.length + 1
            previous := previous
            window? := (codes t.width value none values).foldl Code.window? none
            out := BitWriter.empty.write (bitsOf t.width value ++ codeBits version t.width value none values) } := by
  let first : Encoder :=
    { version := version, dataType := t, count := 1, previous := value
      out := BitWriter.empty.write (bitsOf t.width value) }
  have hpush : push { version := version, dataType := t } value = .ok first := by cases version <;> rfl
  rw [Nat.add_comm] at hc
  obtain ⟨previous, h⟩ := foldlM_push_of_count_pos (e := first) Nat.one_pos hc
  refine ⟨previous, ?_⟩
  rw [List.foldlM_cons, hpush]
  show values.foldlM push first = _
  rw [h, ← BitWriter.write_append, Nat.add_comm]
  rfl

/-- A fresh encoder writes the payload of the patterns that it is given. -/
theorem foldlM_push (t : NumberType) {values : List Nat} (hc : Accepts version values.length) :
    ∃ e : Encoder, values.foldlM push { version := version, dataType := t } = .ok e ∧
      e.flush.1 = payload version t.width values := by
  cases values with
  | nil => exact ⟨_, rfl, rfl⟩
  | cons value values =>
    obtain ⟨previous, h⟩ := foldlM_push_cons t value hc
    refine ⟨_, h, ?_⟩
    rw [flush, if_neg (Nat.succ_ne_zero _)]
    cases version <;> rfl

/-- More patterns than can be counted are not taken. -/
theorem foldlM_push_of_full {values : List Nat} (hv : e.version = .v1) (hle : e.count ≤ maxCount)
    (hfull : maxCount < e.count + values.length) : values.foldlM push e = .error (.overflow .valueCount) := by
  induction values generalizing e with
  | nil => exact absurd hfull (Nat.not_lt_of_le hle)
  | cons value values ih =>
    rw [List.foldlM_cons]
    by_cases hroom : e.count < maxCount
    · obtain ⟨next, hnext⟩ := push_of_room (fun _ => hroom) value
      have hcount := count_push hnext
      have hversion : next.version = .v1 := (congrArg Encoder.version (reset_push hnext)).trans hv
      rw [List.length_cons] at hfull
      rw [hnext]
      exact ih hversion (by omega) (by omega)
    · rw [push_of_full hv (Nat.le_of_not_lt hroom)]
      rfl

end Encoder

/-! ## Reading a code -/

variable {s : BitSource} {tail : List Bool}

theorem pullWindow_of_unread (hf : 2 ^ fieldWidth width = width) (hv : window.Valid width)
    (h : s.Unread (refill version) (bitsOf (fieldWidth width) window.leading ++
      (bitsOf (fieldWidth width) (sizeField version width (window.size width)) ++ tail)))
    (he : refill version = .eager → tail ≠ []) :
    ∃ t, pullWindow version width s = .ok window t ∧ t.Unread (refill version) tail := by
  have hvalid : window.leading + window.trailing < width := hv
  have hsize : window.leading + window.size width + window.trailing = width := by
    unfold Window.size
    omega
  have hle : window.size width ≤ width := by omega
  have hpos : 0 < window.size width := by omega
  obtain ⟨t, ht, h⟩ := h.pullNumber (by omega) fun hr => List.append_ne_nil_of_right_ne_nil _ (he hr)
  obtain ⟨u, hu, h⟩ := h.pullNumber (sizeField_lt hf hpos hle) he
  refine ⟨u, ?_, h⟩
  have hfits : ¬ width < window.leading + window.size width := by omega
  have htrailing : width - window.leading - window.size width = window.trailing := by omega
  simp only [pullWindow, bind_of_eq ht, bind_of_eq hu, ofSizeField_sizeField hf hpos hle, if_neg hfits, htrailing]
  rfl

theorem pullDifference_of_unread {bits : Nat} (hb : bits < 2 ^ window.size width)
    (hd : bits * 2 ^ window.trailing = difference)
    (h : s.Unread (refill version) (bitsOf (window.size width) bits ++ tail))
    (he : refill version = .eager → tail ≠ []) :
    ∃ t, pullDifference width window s = .ok difference t ∧ t.Unread (refill version) tail := by
  obtain ⟨t, ht, h⟩ := h.pullNumber hb he
  refine ⟨t, ?_, h⟩
  rw [pullDifference, map_of_eq ht, hd]

variable {f : Feed State} {left previous : Nat}

/-- A code gives the pattern that differs from the one before as the code describes. -/
theorem pullFollowing_of_unread (hf : 2 ^ fieldWidth width = width) {code : Code}
    (hc : code.Describes width window? difference)
    (h : f.source.Unread (refill version) (code.bits version width ++ tail))
    (he : refill version = .eager → tail ≠ []) :
    ∃ g : Feed State, pullFollowing version width left previous window? f =
        .ok (previous ^^^ difference, code.window? window?) g ∧ g.source.Unread (refill version) tail := by
  have htail {bits : List Bool} : refill version = .eager → bits ++ tail ≠ [] :=
    fun hr => List.append_ne_nil_of_right_ne_nil _ (he hr)
  unfold pullFollowing
  cases hc with
  | same hd =>
    obtain ⟨t, ht, h⟩ := h.pullBit he
    refine ⟨⟨f.state, t.reader, t.bytes⟩, ?_, h⟩
    rw [bind_of_eq (Feed.onBits_of_eq ht), hd, Nat.xor_zero]
    rfl
  | @inside window bits hk hb hd =>
    rw [Code.bits, List.append_assoc] at h
    obtain ⟨t, ht, h⟩ := h.pullBit fun _ => List.cons_ne_nil _ _
    obtain ⟨u, hu, h⟩ := h.pullBit htail
    obtain ⟨x, hx, h⟩ := pullDifference_of_unread hb hd h he
    refine ⟨⟨f.state, x.reader, x.bytes⟩, ?_, h⟩
    subst hk
    rw [bind_of_eq (Feed.onBits_of_eq ht)]
    show (Feed.onBits BitSource.pullBit >>= _) _ = _
    rw [bind_of_eq (Feed.onBits_of_eq hu)]
    show (Feed.onBits (pullDifference width window) >>= _) _ = _
    rw [bind_of_eq (Feed.onBits_of_eq hx)]
    rfl
  | @fresh window bits hv hb hd =>
    rw [Code.bits] at h
    simp only [List.append_assoc] at h
    obtain ⟨t, ht, h⟩ := h.pullBit fun _ => List.cons_ne_nil _ _
    obtain ⟨u, hu, h⟩ := h.pullBit fun hr => by simp [he hr]
    obtain ⟨x, hx, h⟩ := pullWindow_of_unread hf hv h htail
    obtain ⟨y, hy, h⟩ := pullDifference_of_unread hb hd h he
    refine ⟨⟨.following left previous (some window), y.reader, y.bytes⟩, ?_, h⟩
    rw [bind_of_eq (Feed.onBits_of_eq ht)]
    show (Feed.onBits BitSource.pullBit >>= _) _ = _
    rw [bind_of_eq (Feed.onBits_of_eq hu)]
    show (Feed.onBits (pullWindow version width) >>= _) _ = _
    rw [bind_of_eq (Feed.onBits_of_eq hx)]
    show (Feed.onBits (pullDifference width window) >>= _) _ = _
    rw [bind_of_eq (Feed.onBits_of_eq hy)]
    rfl

/-! ## Reading a stream -/

def more (f : Feed State) : Bool := hasNext f.state f.bytes

variable {reader : BitReader} {bytes : Bytes}

/-- Behind a pattern a code is read, and the pattern that it makes is kept. -/
theorem next_eq_following :
    next version width ⟨.following (left + 1) previous window?, reader, bytes⟩ =
      (do
        let (value, after) ← pullFollowing version width (left + 1) previous window?
        Feed.setState (.following left value after)
        return value : Reading (Feed State) Nat) ⟨.following (left + 1) previous window?, reader, bytes⟩ :=
  rfl

theorem next_following {value : Nat} {after : Option Window} {g : Feed State}
    (h : pullFollowing version width (left + 1) previous window? ⟨.following (left + 1) previous window?, reader, bytes⟩ =
      .ok (value, after) g) :
    next version width ⟨.following (left + 1) previous window?, reader, bytes⟩ =
      .ok value ⟨.following left value after, g.reader, g.bytes⟩ := by
  rw [next_eq_following, bind_of_eq h]
  rfl

theorem next_following_of_error {e : CodecError} {g : Feed State}
    (h : pullFollowing version width (left + 1) previous window? ⟨.following (left + 1) previous window?, reader, bytes⟩ =
      .error e g) :
    next version width ⟨.following (left + 1) previous window?, reader, bytes⟩ = .error e g := by
  rw [next_eq_following, bind_of_error h]

/-- Patterns behind another one, with the window that the writer had there. -/
theorem run_following (hf : 2 ^ fieldWidth width = width) {values : List Nat} (hp : previous < 2 ^ width)
    (hw : ∀ w ∈ window?, w.Valid width) (hlt : ∀ v ∈ values, v < 2 ^ width)
    (h : s.Unread (refill version) (codeBits version width previous window? values ++ tail))
    (he : refill version = .eager → tail ≠ []) :
    ∃ (last : Nat) (after : Option Window) (t : BitSource), t.Unread (refill version) tail ∧
      Run (next version width) more ⟨.following values.length previous window?, s.reader, s.bytes⟩ values
        ⟨.following 0 last after, t.reader, t.bytes⟩ := by
  induction values generalizing previous window? s with
  | nil => exact ⟨previous, window?, s, h, .nil _⟩
  | cons value values ih =>
    obtain ⟨hv, hlt⟩ := List.forall_mem_cons.1 hlt
    have hd : value ^^^ previous < 2 ^ width := Nat.xor_lt_two_pow hv hp
    have hc := Code.describes_of hw hd
    rw [codeBits, List.append_assoc] at h
    obtain ⟨g, hg, h⟩ := pullFollowing_of_unread hf hc
      (f := ⟨.following (values.length + 1) previous window?, s.reader, s.bytes⟩) h
      fun hr => List.append_ne_nil_of_right_ne_nil _ (he hr)
    have hxor : previous ^^^ (value ^^^ previous) = value := by
      rw [Nat.xor_comm value, ← Nat.xor_assoc, Nat.xor_self, Nat.zero_xor]
    rw [hxor] at hg
    obtain ⟨last, after, t, ht, hrun⟩ := ih hv (hc.valid_window hw) hlt h
    exact ⟨last, after, t, ht, .cons rfl (next_following hg) hrun⟩

theorem pullCount_of_countHeader {count : Nat} (hc : CountFits version (count + 1)) (rest : Bytes) :
    pullCount version (countHeader version (count + 1) ++ rest) = .ok (count + 1) rest := by
  cases version with
  | v1 =>
    have hlt : count + 1 < 256 ^ 4 := by
      have : count + 1 ≤ 2 ^ 32 - 1 := hc
      omega
    show (Bytes.pullNat 4 >>= _) _ = _
    rw [countHeader, bind_of_eq (Bytes.pullNat_ofNat_append hlt rest)]
    rfl
  | v2 =>
    show (Varint.pull >>= _) _ = _
    rw [countHeader, bind_of_eq (Varint.pull_encode_append hc rest)]
    rfl

theorem start_of_count {count : Nat} {rest : Bytes} (hc : pullCount version bytes = .ok count rest) :
    start version ⟨.start, reader, bytes⟩ = .ok () ⟨.counted count, reader, rest⟩ := by
  show (Feed.onBytes (pullCount version) >>= _) _ = _
  rw [bind_of_eq (Feed.onBytes_of_eq hc)]
  rfl

theorem next_start_of_error {e : CodecError} {rest : Bytes} (hc : pullCount version bytes = .error e rest) :
    next version width ⟨.start, reader, bytes⟩ = .error e ⟨.start, reader, rest⟩ := by
  have hstart : start version ⟨.start, reader, bytes⟩ = .error e ⟨.start, reader, rest⟩ := by
    show (Feed.onBytes (pullCount version) >>= _) _ = _
    rw [bind_of_error (Feed.onBytes_of_error hc)]
  exact bind_of_error hstart

/-- The first pattern is read behind the count. -/
theorem next_start {count value : Nat} {rest : Bytes} {t : BitSource}
    (hc : pullCount version bytes = .ok (count + 1) rest)
    (h : BitSource.pullBits width ⟨reader, rest⟩ = .ok value t) :
    next version width ⟨.start, reader, bytes⟩ = .ok value ⟨.following count value none, t.reader, t.bytes⟩ := by
  rw [next, bind_of_eq (start_of_count hc), get_bind]
  show (Feed.onBits (BitSource.pullBits width) >>= _) _ = _
  rw [bind_of_eq (Feed.onBits_of_eq h)]
  rfl

theorem next_counted_of_error {count : Nat} {e : CodecError} {rest : Bytes} {t : BitSource}
    (hc : pullCount version bytes = .ok (count + 1) rest)
    (h : BitSource.pullBits width ⟨reader, rest⟩ = .error e t) :
    next version width ⟨.start, reader, bytes⟩ = .error e ⟨.counted (count + 1), t.reader, t.bytes⟩ := by
  rw [next, bind_of_eq (start_of_count hc), get_bind]
  exact bind_of_error (Feed.onBits_of_error h)

theorem countHeader_ne_nil (version : GorillaVersion) (count : Nat) : countHeader version count ≠ [] := by
  cases version with
  | v1 => exact List.append_ne_nil_of_right_ne_nil _ (List.cons_ne_nil _ _)
  | v2 => exact Varint.encode_ne_nil count

/-- A payload gives the patterns it was made of. What follows it is left, to the byte. -/
theorem run_payload (hf : 2 ^ fieldWidth width = width) (hpos : 0 < width) {values : List Nat} (hne : values ≠ [])
    (hc : CountFits version values.length) (hlt : ∀ v ∈ values, v < 2 ^ width)
    (hr : reader.refill = refill version) (hl : reader.left = 0) (rest : Bytes) :
    ∃ (last : Nat) (window? : Option Window) (after : BitReader),
      Run (next version width) more ⟨.start, reader, payload version width values ++ rest⟩ values
        ⟨.following 0 last window?, after, rest⟩ := by
  obtain ⟨value, values, rfl⟩ := List.exists_cons_of_ne_nil hne
  obtain ⟨pad, hpad, -, hbody⟩ := toBits_body version (bitsOf width value ++ codeBits version width value none values)
  obtain ⟨hv, hlt⟩ := List.forall_mem_cons.1 hlt
  have he : refill version = .eager → pad ++ rest.toBits ≠ [] := by
    intro hr
    rw [hr] at hpad
    exact List.append_ne_nil_of_left_ne_nil (List.ne_nil_of_length_pos hpad.1) _
  have hbits : Bytes.toBits (body version (bitsOf width value ++ codeBits version width value none values) ++ rest) =
      bitsOf width value ++ (codeBits version width value none values ++ (pad ++ rest.toBits)) := by
    rw [Bytes.toBits_append, hbody, List.append_assoc, List.append_assoc]
  obtain ⟨s, hs, h⟩ := BitSource.pullNumber_of_left_eq_zero (s := ⟨reader, _⟩) hl hpos hv hbits fun hr' =>
    List.append_ne_nil_of_right_ne_nil _ (he (hr.symm.trans hr'))
  rw [hr] at h
  have hnone : ∀ w ∈ (none : Option Window), w.Valid width := by simp
  obtain ⟨last, window?, t, ht, hrun⟩ :=
    run_following hf hv hnone hlt h he
  rw [ht.bytes_eq hpad] at hrun
  have hcount := pullCount_of_countHeader hc
    (body version (bitsOf width value ++ codeBits version width value none values) ++ rest)
  have hmore : more ⟨.start, reader, payload version width (value :: values) ++ rest⟩ = true := by
    simp [more, hasNext, payload, countHeader_ne_nil]
  rw [payload, List.append_assoc] at hmore ⊢
  exact ⟨last, window?, t.reader, .cons hmore (next_start hcount hs) hrun⟩

end Chronicle.Gorilla
