/-
  Chronicle.Proofs.Stream.Capacity — no decoder gives more values than its capacity.

  The capacity is a measure of state and bytes: what is pending, and for each byte or bit that is left as
  many values as it can make at most. Every value that is read makes it less (`capacity_lt`).
  - A byte of PLAIN is at most one value, and a bit of GORILLA one pattern, up to the count.
  - A block of TS_2DIFF takes a byte at least and has eight words at most (`pullBlock_ok`).
  - A segment of RLE takes bytes for its head, which can say 2^31 - 1 patterns; from then on a pattern
    that is given out is one less that is pending (`next_some_ok`).

  So reading everything stops because there is no more or because of an error, never because of the limit
  (`drainAll_cases`). What a decoder yields is what reading everything gives (`drainAll_of_yields`,
  `yields_drainAll`), which lets later modules speak of runs and endings, and not of limits.
-/

import Chronicle.Proofs.Stream.RunLength
import Chronicle.Stream.Decoder

namespace Chronicle

open Reading

/-! ## Bits -/

namespace BitSource

def size (s : BitSource) : Nat := s.reader.left + 8 * s.bytes.length

def behind (s : BitSource) : Nat := s.bytes.length

theorem fill_ok {s t : BitSource} {u : Unit} (h : fill s = .ok u t) :
    0 < t.reader.left ∧ t.size = s.size ∧ t.behind ≤ s.behind := by
  rcases s with ⟨⟨refill, byte, left⟩, bytes⟩
  cases left with
  | succ left =>
    cases h
    exact ⟨Nat.succ_pos _, rfl, Nat.le_refl _⟩
  | zero =>
    cases bytes with
    | nil => cases h
    | cons b bytes =>
      cases h
      refine ⟨Nat.succ_pos 7, ?_, Nat.le_succ _⟩
      simp only [size, List.length_cons]
      omega

theorem takeBit_ok {s t : BitSource} {b : Bool} (hpos : 0 < s.reader.left) (h : takeBit s = .ok b t) :
    t.size + 1 = s.size ∧ t.behind = s.behind := by
  cases h
  refine ⟨?_, rfl⟩
  simp only [size]
  omega

theorem pullBit_ok {s v : BitSource} {b : Bool} (h : pullBit s = .ok b v) :
    v.size + 1 = s.size ∧ v.behind ≤ s.behind := by
  obtain ⟨_, t, hfill, h⟩ := ok_of_bind h
  obtain ⟨hpos, hsize, hbehind⟩ := fill_ok hfill
  obtain ⟨bit, u, htake, h⟩ := ok_of_bind h
  obtain ⟨htsize, htbehind⟩ := takeBit_ok hpos htake
  rw [get_bind] at h
  dsimp only at h
  split at h
  · obtain ⟨_, y, hrefill, h⟩ := ok_of_bind h
    cases h
    obtain ⟨-, h1, h2⟩ := fill_ok hrefill
    omega
  · cases h
    omega

theorem lowers_pullBits (count : Nat) : Lowers size count (pullBits count) := by
  induction count with
  | zero => exact lowers_pure 0
  | succ count ih =>
    have hbit : Lowers size 1 pullBit := by
      intro s b t h
      exact Nat.le_of_eq (pullBit_ok h).1
    have h := hbit.bind fun bit => ih.bind_zero fun n => lowers_pure (bit.toNat * 2 ^ count + n)
    rw [Nat.add_comm] at h
    exact h

theorem behind_pullBits (count : Nat) : Lowers behind 0 (pullBits count) := by
  induction count with
  | zero => exact lowers_pure 0
  | succ count ih =>
    have hbit : Lowers behind 0 pullBit := by
      intro s b t h
      exact (pullBit_ok h).2
    exact hbit.bind fun bit => ih.bind fun n => lowers_pure (bit.toNat * 2 ^ count + n)

theorem pullBits_lt {count n : Nat} {s t : BitSource} (h : pullBits count s = .ok n t) : n < 2 ^ count := by
  induction count generalizing s t n with
  | zero => cases h; exact Nat.one_pos
  | succ count ih =>
    obtain ⟨bit, u, -, h⟩ := ok_of_bind h
    obtain ⟨low, v, hlow, h⟩ := ok_of_bind h
    have := ih hlow
    cases h
    rw [Nat.pow_succ]
    cases bit
    · rw [Bool.toNat_false, Nat.zero_mul]; omega
    · rw [Bool.toNat_true, Nat.one_mul]; omega

end BitSource

/-! ## Bytes -/

theorem Bytes.lowers_pullByte : Lowers List.length 1 pullByte := by
  intro bytes b rest h
  cases bytes with
  | nil => cases h
  | cons x bytes => cases h; exact Nat.le_refl _

theorem Bytes.lowers_pull (count : Nat) : Lowers List.length count (pull count) := by
  intro bytes taken rest h
  unfold pull at h
  split at h
  · cases h
    rw [List.length_drop]
    omega
  · cases h

theorem Varint.lowers_pullWithin (more : Nat) : Lowers List.length 1 (pullWithin more) := by
  induction more with
  | zero =>
    apply Bytes.lowers_pullByte.bind_zero
    intro b
    exact Lowers.ite (lowers_throw _) (lowers_pure _)
  | succ more ih =>
    apply Bytes.lowers_pullByte.bind_zero
    intro b
    refine Lowers.ite (lowers_pure _) ?_
    exact (ih.mono (Nat.zero_le 1)).bind_zero fun _ => lowers_pure _

/-! ## RLE -/

namespace RunLength

open BitSource

variable {width : Nat}

theorem pullSegment_ok {s t : BitSource} {p : Pending} (h : pullSegment width s = .ok p t) :
    t.behind < s.behind ∧ p.count ≤ maxCap := by
  obtain ⟨_, u, halign, h⟩ := ok_of_bind h
  cases halign
  obtain ⟨isRun, v, hbit, h⟩ := ok_of_bind h
  obtain ⟨length, w, hlength, h⟩ := ok_of_bind h
  have hv := (pullBit_ok hbit).1
  have hw := lowers_pullBits 31 v length w hlength
  have hlt := pullBits_lt hlength
  cases length with
  | zero => cases h
  | succ more =>
    have hle : more + 1 ≤ maxCap := by unfold maxCap; omega
    dsimp only at h
    split at h
    · obtain ⟨value, x, hvalue, h⟩ := ok_of_bind h
      have := lowers_pullBits width w value x hvalue
      cases h
      refine ⟨?_, hle⟩
      simp only [size, behind, BitReader.align] at *
      omega
    · cases h
      refine ⟨?_, hle⟩
      simp only [size, behind, BitReader.align] at *
      omega

theorem lowers_pullMember (base offsetWidth : Nat) : Lowers behind 0 (pullMember width base offsetWidth) :=
  (behind_pullBits offsetWidth).bind fun _ => lowers_pure _

theorem times_length {α : Type} {m : Reading BitSource α} {count : Nat} {s t : BitSource} {items : List α}
    (h : m.times count s = .ok items t) : items.length = count := by
  induction count generalizing s t items with
  | zero => cases h; rfl
  | succ count ih =>
    obtain ⟨a, u, -, h⟩ := ok_of_bind h
    obtain ⟨rest, v, hrest, h⟩ := ok_of_bind h
    cases h
    rw [List.length_cons, ih hrest]

theorem pullGroup_ok {more : Nat} {s t : BitSource} {group : Nat × List Nat} (h : pullGroup width more s = .ok group t) :
    t.behind ≤ s.behind ∧ group.2.length = more := by
  obtain ⟨offsetWidth, u, hu, h⟩ := ok_of_bind h
  have h1 := behind_pullBits 7 s _ u hu
  split at h
  · cases h
  obtain ⟨base, v, hv, h⟩ := ok_of_bind h
  have h2 := behind_pullBits width u _ v hv
  obtain ⟨first, w, hw, h⟩ := ok_of_bind h
  have h3 := lowers_pullMember base offsetWidth v _ w hw
  obtain ⟨rest, x, hx, h⟩ := ok_of_bind h
  have h4 := (lowers_pullMember base offsetWidth).times more w _ x hx
  have := times_length hx
  cases h
  exact ⟨by omega, this⟩

theorem count_ofLiterals (rest : List Nat) (packed : Nat) : State.count (.ofLiterals rest packed) = rest.length + packed := by
  rcases rest with _ | ⟨v, rest⟩
  · rw [List.length_nil, Nat.zero_add]
    cases packed <;> rfl
  · show 1 + rest.length + packed = (v :: rest).length + packed
    rw [List.length_cons, Nat.add_comm 1]

/-- A pattern that is read is one less that is pending. -/
theorem next_some_ok {p : Pending} {reader : BitReader} {bytes : Bytes} {v : Nat} {g : Feed State}
    (h : next width ⟨some p, reader, bytes⟩ = .ok v g) : g.state.count + 1 = p.count ∧ g.bytes.length ≤ bytes.length := by
  cases p with
  | run value more =>
    cases more with
    | zero =>
      cases h
      exact ⟨rfl, Nat.le_refl _⟩
    | succ more =>
      cases h
      exact ⟨rfl, Nat.le_refl _⟩
  | group value rest packed =>
    cases h
    refine ⟨?_, Nat.le_refl _⟩
    rw [count_ofLiterals]
    show rest.length + packed + 1 = 1 + rest.length + packed
    omega
  | packed more =>
    obtain ⟨group, u, hgroup, h⟩ := ok_of_bind (m := Feed.onBits (pullGroup width (min more (groupSize - 1)))) h
    obtain ⟨t, ht, rfl⟩ := Feed.ok_of_onBits hgroup
    obtain ⟨hbehind, hlength⟩ := pullGroup_ok ht
    cases h
    refine ⟨?_, hbehind⟩
    rw [count_ofLiterals, hlength]
    show min more (groupSize - 1) + (more - min more (groupSize - 1)) + 1 = more + 1
    omega

theorem next_ok {f g : Feed State} {v : Nat} (h : next width f = .ok v g) :
    g.state.count + maxCap * g.bytes.length < f.state.count + maxCap * f.bytes.length := by
  rcases f with ⟨_ | p, reader, bytes⟩
  · obtain ⟨p, u, hp, -⟩ := ok_of_bind (m := pending width) h
    obtain ⟨q, x, hq, -⟩ := ok_of_bind (m := Feed.onBits (pullSegment width)) hp
    obtain ⟨t, ht, -⟩ := Feed.ok_of_onBits hq
    obtain ⟨hbehind, hcount⟩ := pullSegment_ok ht
    rw [next_none ht] at h
    obtain ⟨hc, hb⟩ := next_some_ok h
    have hlt : g.bytes.length + 1 ≤ bytes.length := Nat.lt_of_le_of_lt hb hbehind
    have := Nat.mul_le_mul_left maxCap hlt
    rw [Nat.mul_succ] at this
    show _ < 0 + maxCap * bytes.length
    omega
  · obtain ⟨hc, hb⟩ := next_some_ok h
    have := Nat.mul_le_mul_left maxCap hb
    show _ < p.count + maxCap * bytes.length
    omega

end RunLength

/-! ## TS_2DIFF -/

namespace Delta

open BitSource

theorem pullDomain_ok (t : NumberType) : Lowers behind 0 (pullDomain t) := by
  unfold pullDomain
  split
  · apply (behind_pullBits 8).bind_zero
    intro mode
    split
    · exact lowers_pure _
    · apply (behind_pullBits 64).bind_zero
      intro bits
      exact Lowers.ite (lowers_pure _) (lowers_throw _)
    · exact lowers_throw _
  · exact lowers_pure _

theorem pullWords_ok {width base offsetWidth previous count : Nat} {s t : BitSource} {words : List Nat}
    (h : pullWords width base offsetWidth previous count s = .ok words t) : words.length = count ∧ t.behind ≤ s.behind := by
  induction count generalizing s t previous words with
  | zero => cases h; exact ⟨rfl, Nat.le_refl _⟩
  | succ count ih =>
    obtain ⟨offset, u, hu, h⟩ := ok_of_bind h
    obtain ⟨rest, v, hv, h⟩ := ok_of_bind h
    have h1 := behind_pullBits offsetWidth s _ u hu
    obtain ⟨h2, h3⟩ := ih hv
    cases h
    exact ⟨by rw [List.length_cons, h2], by omega⟩

/-- A block takes a byte at least and has no more words than its size allows. -/
theorem pullBlock_ok {width : Nat} {s t : BitSource} {block : Nat × List Nat} (h : pullBlock width s = .ok block t) :
    t.behind < s.behind ∧ block.2.length < blockSize := by
  obtain ⟨_, u, halign, h⟩ := ok_of_bind h
  cases halign
  obtain ⟨count, v, hcount, h⟩ := ok_of_bind h
  have hv : v.behind < s.behind := by
    have := lowers_pullBits 4 _ count v hcount
    simp only [size, behind, BitReader.align] at this ⊢
    omega
  by_cases hbounds : count = 0 ∨ blockSize < count
  · simp only [if_pos hbounds] at h
    cases h
  simp only [if_neg hbounds] at h
  obtain ⟨first, w, hfirst, h⟩ := ok_of_bind h
  have hw := behind_pullBits width v first w hfirst
  by_cases hone : count = 1
  · simp only [if_pos hone] at h
    cases h
    exact ⟨by omega, Nat.succ_pos 7⟩
  simp only [if_neg hone] at h
  obtain ⟨base, x, hbase, h⟩ := ok_of_bind h
  have hx := behind_pullBits width w base x hbase
  obtain ⟨offsetWidth, y, hoffset, h⟩ := ok_of_bind h
  have hy := behind_pullBits 7 x offsetWidth y hoffset
  by_cases hwide : width < offsetWidth
  · simp only [if_pos hwide] at h
    cases h
  simp only [if_neg hwide] at h
  obtain ⟨words, z, hwords, h⟩ := ok_of_bind h
  obtain ⟨hlength, hz⟩ := pullWords_ok hwords
  cases h
  exact ⟨by omega, by show words.length < blockSize; omega⟩

/-- Finding out the domain only takes from the bytes. -/
theorem domain_ok {t : NumberType} {f g : Feed State} {d : Domain} (h : domain t f = .ok d g) :
    g.state.ready = f.state.ready ∧ g.bytes.length ≤ f.bytes.length := by
  rcases f with ⟨⟨_ | d, ready⟩, reader, bytes⟩
  · obtain ⟨e, u, hu, h⟩ := ok_of_bind (m := Feed.onBits (pullDomain t)) h
    obtain ⟨x, hx, rfl⟩ := Feed.ok_of_onBits hu
    have := pullDomain_ok t _ e x hx
    cases h
    exact ⟨rfl, this⟩
  · cases h
    exact ⟨rfl, Nat.le_refl _⟩

theorem next_ok {t : NumberType} {f g : Feed State} {v : Value} (h : next t f = .ok v g) :
    g.state.ready.length + blockSize * g.bytes.length < f.state.ready.length + blockSize * f.bytes.length := by
  obtain ⟨d, u, hd, h⟩ := ok_of_bind h
  obtain ⟨hready, hbytes⟩ := domain_ok hd
  rw [← hready]
  have := Nat.mul_le_mul_left blockSize hbytes
  rw [get_bind] at h
  dsimp only at h
  cases hr : u.state.ready with
  | cons word rest =>
    rw [hr] at h
    cases h
    show rest.length + blockSize * u.bytes.length < (word :: rest).length + _
    rw [List.length_cons]
    omega
  | nil =>
    rw [hr] at h
    obtain ⟨⟨word, rest⟩, y, hy, h⟩ := ok_of_bind (m := Feed.onBits (pullBlock (d.width t))) h
    obtain ⟨z, hz, rfl⟩ := Feed.ok_of_onBits hy
    obtain ⟨hbehind, hlength⟩ := pullBlock_ok hz
    have hrest : rest.length < blockSize := hlength
    cases h
    have hlt : z.bytes.length + 1 ≤ u.bytes.length := hbehind
    have := Nat.mul_le_mul_left blockSize hlt
    rw [Nat.mul_succ] at this
    show rest.length + blockSize * z.bytes.length < 0 + blockSize * f.bytes.length
    omega

end Delta

/-! ## GORILLA -/

namespace Gorilla

open BitSource

def unread (f : Feed State) : Nat := f.source.size

theorem lowers_onBits {α : Type} {m : Reading BitSource α} {n : Nat} (h : Lowers size n m) :
    Lowers unread n (Feed.onBits m) := by
  intro f a g hf
  obtain ⟨t, ht, rfl⟩ := Feed.ok_of_onBits hf
  exact h _ a t ht

theorem lowers_setState (state : State) : Lowers unread 0 (Feed.setState state) := by
  intro f a g h
  cases h
  exact Nat.le_refl _

theorem lowers_pullWindow (version : GorillaVersion) (width : Nat) : Lowers size 0 (pullWindow version width) := by
  apply ((lowers_pullBits _).mono (Nat.zero_le _)).bind_zero
  intro leading
  apply ((lowers_pullBits _).mono (Nat.zero_le _)).bind_zero
  intro field
  exact Lowers.ite (lowers_throw _) (lowers_pure _)

theorem lowers_pullDifference (width : Nat) (window : Window) : Lowers size 0 (pullDifference width window) :=
  ((lowers_pullBits _).mono (Nat.zero_le _)).bind_zero fun _ => lowers_pure _

/-- A code has one bit at least. -/
theorem lowers_pullFollowing (version : GorillaVersion) (width left previous : Nat) (window? : Option Window) :
    Lowers unread 1 (pullFollowing version width left previous window?) := by
  have hbit : Lowers unread 1 (Feed.onBits pullBit) := by
    apply lowers_onBits
    intro s b t h
    exact Nat.le_of_eq (pullBit_ok h).1
  have hdifference : ∀ window, Lowers unread 0 (Feed.onBits (pullDifference width window)) := by
    intro window
    exact lowers_onBits (lowers_pullDifference width window)
  apply hbit.bind_zero
  intro differs
  cases differs with
  | false => exact lowers_pure _
  | true =>
    apply (hbit.mono (Nat.zero_le 1)).bind_zero
    intro isFresh
    cases isFresh with
    | true =>
      apply (lowers_onBits (lowers_pullWindow version width)).bind_zero
      intro window
      apply (lowers_setState _).bind_zero
      intro _
      exact (hdifference window).bind_zero fun _ => lowers_pure _
    | false =>
      cases window? with
      | some window => exact (hdifference window).bind_zero fun _ => lowers_pure _
      | none => exact lowers_throw _

theorem lowers_pullCount (version : GorillaVersion) : Lowers List.length 0 (pullCount version) := by
  have hcheck : ∀ count : Nat, Lowers List.length 0
      (if count = 0 then throw (.malformed .zeroCount) else return count : Reading Bytes Nat) := by
    intro count
    exact Lowers.ite (lowers_throw _) (lowers_pure _)
  cases version with
  | v1 => exact (((Bytes.lowers_pull 4).mono (Nat.zero_le 4)).bind_zero fun _ => lowers_pure _).bind_zero hcheck
  | v2 => exact ((Varint.lowers_pullWithin 9).mono (Nat.zero_le 1)).bind_zero hcheck

theorem lowers_start (version : GorillaVersion) : Lowers unread 0 (start version) := by
  intro f u g h
  rcases f with ⟨_ | left | _, reader, bytes⟩
  · obtain ⟨count, x, hx, h⟩ := ok_of_bind (m := Feed.onBytes (pullCount version)) h
    obtain ⟨rest, hrest, rfl⟩ := Feed.ok_of_onBytes hx
    have := lowers_pullCount version bytes count rest hrest
    cases h
    simp only [unread, Feed.source, size] at this ⊢
    omega
  · cases h; exact Nat.le_refl _
  · cases h; exact Nat.le_refl _

/-- How a pattern is read: as it stands if it is the first one, and as a code if it follows
    another one. -/
theorem next_eq_ok {version : GorillaVersion} {width : Nat} {f g : Feed State} {v : Nat}
    (h : next version width f = .ok v g) :
    ∃ u x left window?, start version f = .ok () u ∧ g = { x with state := .following left v window? } ∧
      (u.state = .counted (left + 1) ∧ window? = none ∧ Feed.onBits (pullBits width) u = .ok v x ∨
        ∃ previous before, u.state = .following (left + 1) previous before ∧
          pullFollowing version width (left + 1) previous before u = .ok (v, window?) x) := by
  obtain ⟨_, u, hu, h⟩ := ok_of_bind h
  rw [get_bind] at h
  rcases u with ⟨_ | (_ | left) | ⟨_ | left, previous, before⟩, reader, bytes⟩
  · cases h
  · cases h
  · obtain ⟨value, x, hx, h⟩ := ok_of_bind (m := Feed.onBits (pullBits width)) h
    cases h
    exact ⟨_, x, left, none, hu, rfl, .inl ⟨rfl, rfl, hx⟩⟩
  · cases h
  · obtain ⟨⟨value, window?⟩, x, hx, h⟩ := ok_of_bind (m := pullFollowing version width (left + 1) previous before) h
    cases h
    exact ⟨_, x, left, window?, hu, rfl, .inr ⟨previous, before, rfl, hx⟩⟩

theorem next_ok {version : GorillaVersion} {width : Nat} (hw : 0 < width) {f g : Feed State} {v : Nat}
    (h : next version width f = .ok v g) : unread g < unread f := by
  obtain ⟨u, x, left, window?, hu, rfl, ⟨-, -, hx⟩ | ⟨previous, before, -, hx⟩⟩ := next_eq_ok h
  · have h1 := lowers_start version f _ u hu
    have h2 := lowers_onBits (lowers_pullBits width) u v x hx
    exact Nat.lt_of_lt_of_le (by omega : unread x < unread u) h1
  · have h1 := lowers_start version f _ u hu
    have h2 := lowers_pullFollowing version width (left + 1) previous before u _ x hx
    exact Nat.lt_of_lt_of_le h2 h1

end Gorilla

/-! ## PLAIN -/

theorem BigEndian.lowers_pull {α : Type} [BigEndian α] : Lowers List.length (size α) (pull : Reading Bytes α) :=
  ((Bytes.lowers_pull (size α)).bind_zero fun _ => lowers_pure _).bind_zero fun _ => lowers_pure _

theorem Varint.lowers_pull32 : Lowers List.length 1 pull32 :=
  (lowers_pullWithin 9).bind_zero fun _ => Lowers.ite (lowers_throw _) (lowers_pure _)

namespace Plain

theorem lowers_pullBool (fault : UInt8 → FormatFault) : Lowers List.length 1 (pullBool fault) := by
  apply Bytes.lowers_pullByte.bind_zero
  intro b
  split
  · exact lowers_pure _
  · exact lowers_pure _
  · exact lowers_throw _

/-- Every value has a byte. -/
theorem lowers_pull (t : DataType) : Lowers List.length 1 (pull t) := by
  rcases t with (_ | _ | _ | _ | _) | _
  · exact (lowers_pullBool _).bind_zero fun _ => lowers_pure _
  · exact (Varint.lowers_pull32.bind_zero fun _ => lowers_pure _).bind_zero fun _ => lowers_pure _
  · exact (BigEndian.lowers_pull.mono (by decide : 1 ≤ 8)).bind_zero fun _ => lowers_pure _
  · exact (BigEndian.lowers_pull.mono (by decide : 1 ≤ 4)).bind_zero fun _ => lowers_pure _
  · exact (BigEndian.lowers_pull.mono (by decide : 1 ≤ 8)).bind_zero fun _ => lowers_pure _
  · refine ((Varint.lowers_pullWithin 9).bind_zero fun n => ?_).bind_zero fun _ => lowers_pure _
    exact (Bytes.lowers_pull n).mono (Nat.zero_le n)

end Plain

/-! ## Decoders -/

theorem NumberType.width_pos (t : NumberType) : 0 < t.width := by
  cases t <;> decide

namespace Decoder

/-- A value that is read makes the capacity less. -/
theorem capacity_lt {d e : Decoder} {v : Value} (h : next d = .ok v e) : e.capacity < d.capacity := by
  rcases d with ⟨t | ⟨t, s⟩ | ⟨t, s⟩ | ⟨version, t, s⟩, reader, bytes⟩
  · obtain ⟨rest, hrest, rfl⟩ := Feed.ok_of_onBytes (m := Plain.pull t) h
    exact Plain.lowers_pull t bytes v rest hrest
  · obtain ⟨n, f, hf, h⟩ := ok_of_bind (m := Feed.within (DecoderState.runLength t) s (RunLength.next t.width)) h
    obtain ⟨g, hg, rfl⟩ := Feed.ok_of_within hf
    have := RunLength.next_ok hg
    cases h
    exact this
  · obtain ⟨g, hg, rfl⟩ := Feed.ok_of_within (m := Delta.next t) h
    exact Delta.next_ok hg
  · obtain ⟨n, f, hf, h⟩ := ok_of_bind (m := Feed.within (DecoderState.gorilla version t) s (Gorilla.next version t.width)) h
    obtain ⟨g, hg, rfl⟩ := Feed.ok_of_within hf
    have := Gorilla.next_ok t.width_pos hg
    cases h
    exact this

theorem step_of_hasNext {d : Decoder} (h : d.hasNext = true) :
    step d = (do return some (← next) : Reading Decoder (Option Value)) d := by
  show (if hasNext d = true then _ else _ : Reading Decoder (Option Value)) d = _
  rw [if_pos h]

theorem step_of_not_hasNext {d : Decoder} (h : d.hasNext = false) : step d = .ok none d := by
  show (if hasNext d = true then _ else _ : Reading Decoder (Option Value)) d = _
  rw [h]
  rfl

/-- What the outcome of a step says of the decoder. -/
theorem step_cases (d : Decoder) :
    (d.hasNext = false ∧ step d = .ok none d) ∨
      (∃ v e, d.hasNext = true ∧ next d = .ok v e ∧ step d = .ok (some v) e) ∨
      ∃ fault e, d.hasNext = true ∧ next d = .error fault e ∧ step d = .error fault e := by
  cases h : d.hasNext with
  | false => exact .inl ⟨rfl, step_of_not_hasNext h⟩
  | true =>
    rw [step_of_hasNext h]
    cases hnext : next d with
    | ok v e => exact .inr (.inl ⟨v, e, rfl, rfl, map_of_eq hnext⟩)
    | error fault e => exact .inr (.inr ⟨fault, e, rfl, rfl, bind_of_error hnext⟩)

theorem ok_of_step {d e : Decoder} {v : Value} (h : step d = .ok (some v) e) : d.hasNext = true ∧ next d = .ok v e := by
  rcases step_cases d with ⟨-, hs⟩ | ⟨w, f, hmore, hnext, hs⟩ | ⟨fault, f, -, -, hs⟩ <;> rw [hs] at h <;> cases h
  exact ⟨hmore, hnext⟩

/-- No run is longer than the limit of reading everything. -/
theorem length_lt_of_run {d e : Decoder} {values : List Value} (h : Run next hasNext d values e) :
    values.length < d.capacity + 1 :=
  Nat.lt_succ_of_le (h.length_le (μ := capacity) fun _ _ _ _ => capacity_lt)

/-- A run that ends where there is no more to read is all that reading everything gives. -/
theorem drainAll_of_run {d e : Decoder} {values : List Value} (h : Run next hasNext d values e)
    (he : e.hasNext = false) : d.drainAll = ⟨values, .finished, e⟩ := by
  refine collect_of_run ?_ h (step_of_not_hasNext he) (length_lt_of_run h)
  intro s a t hs ha
  rw [step_of_hasNext hs, map_of_eq ha]

/-- Reading everything gives what the decoder yields. -/
theorem yields_drainAll (d : Decoder) : Yields next hasNext d d.drainAll.items d.drainAll.ending := by
  obtain ⟨e, hrun, hend⟩ := collect_cases (fun _ _ _ => ok_of_step) fun _ _ => length_lt_of_run (d := d)
  have hyields {ending : Ending} (h : Yields next hasNext e [] ending) :
      Yields next hasNext d d.drainAll.items ending := by
    have hall := Run.yields hrun h
    rw [List.append_nil] at hall
    exact hall
  rcases step_cases e with ⟨hmore, hs⟩ | ⟨v, f, -, -, hs⟩ | ⟨fault, f, hmore, hnext, hs⟩ <;> rw [hs] at hend
  · rcases hend with ⟨-, hfinished⟩ | ⟨fault, herror, -⟩
    · rw [show d.drainAll.ending = .finished from hfinished]
      exact hyields (.finished hmore)
    · cases herror
  · rcases hend with ⟨hnone, -⟩ | ⟨fault, herror, -⟩
    · cases hnone
    · cases herror
  · rcases hend with ⟨hnone, -⟩ | ⟨fault', herror, hfailed⟩
    · cases hnone
    · cases herror
      rw [show d.drainAll.ending = .failed fault from hfailed]
      exact hyields (.failed hmore hnext)

/-- No more is read than the capacity says. -/
theorem length_drainAll_le (d : Decoder) : d.drainAll.items.length ≤ d.capacity := by
  obtain ⟨e, hrun, -⟩ := (yields_drainAll d).exists_run
  exact Nat.le_of_lt_succ (length_lt_of_run hrun)

/-- Reading everything is a run, and ends where there is no more to read or where the next
    value cannot be read. -/
theorem drainAll_cases (d : Decoder) :
    ∃ e, Run next hasNext d d.drainAll.items e ∧
      (e.hasNext = false ∧ d.drainAll.ending = .finished ∨
        ∃ fault f, next e = .error fault f ∧ d.drainAll.ending = .failed fault) := by
  obtain ⟨e, hrun, hend⟩ := (yields_drainAll d).exists_run
  refine ⟨e, hrun, ?_⟩
  rcases hend with hfinished | ⟨fault, f, -, hnext, hfailed⟩
  · exact .inl hfinished
  · exact .inr ⟨fault, f, hnext, hfailed⟩

/-- Whatever can be read one after another is read when everything is, and then the rest. -/
theorem drainAll_of_prefix {d e : Decoder} {values : List Value} (h : Run next hasNext d values e) :
    ∃ rest f, d.drainAll.items = values ++ rest ∧ Run next hasNext e rest f ∧
      (f.hasNext = false ∧ d.drainAll.ending = .finished ∨
        ∃ fault g, next f = .error fault g ∧ d.drainAll.ending = .failed fault) := by
  obtain ⟨f, hall, hend⟩ := drainAll_cases d
  have hstuck : f.hasNext = true → ∀ v g, next f ≠ .ok v g := by
    intro hmore v g hnext
    rcases hend with ⟨hnone, -⟩ | ⟨fault, _, herror, -⟩
    · rw [hnone] at hmore
      cases hmore
    · rw [herror] at hnext
      cases hnext
  obtain ⟨rest, hitems, hrest⟩ := h.split hall hstuck
  exact ⟨rest, f, hitems, hrest, hend⟩

theorem prefix_drainAll_of_run {d e : Decoder} {values : List Value} (h : Run next hasNext d values e) :
    values <+: d.drainAll.items := by
  obtain ⟨rest, -, hitems, -⟩ := drainAll_of_prefix h
  exact ⟨rest, hitems.symm⟩

/-- A run that stops at a fault is all that reading everything gives. -/
theorem drainAll_of_failure {d e f : Decoder} {values : List Value} {fault : CodecError}
    (h : Run next hasNext d values e) (hmore : e.hasNext = true) (herror : next e = .error fault f) :
    d.drainAll.items = values ∧ d.drainAll.ending = .failed fault := by
  obtain ⟨rest, g, hitems, hrest, hend⟩ := drainAll_of_prefix h
  cases hrest with
  | cons _ hnext _ =>
    rw [herror] at hnext
    cases hnext
  | nil =>
    rw [List.append_nil] at hitems
    rcases hend with ⟨hnone, -⟩ | ⟨fault', u, hfault, hfailed⟩
    · rw [hnone] at hmore
      cases hmore
    · rw [herror] at hfault
      cases hfault
      exact ⟨hitems, hfailed⟩

/-- What a decoder yields is what reading everything gives. -/
theorem drainAll_of_yields {d : Decoder} {values : List Value} {ending : Ending}
    (h : Yields next hasNext d values ending) : d.drainAll.items = values ∧ d.drainAll.ending = ending := by
  obtain ⟨e, hrun, ⟨hnone, rfl⟩ | ⟨fault, f, hmore, herror, rfl⟩⟩ := h.exists_run
  · rw [drainAll_of_run hrun hnone]
    exact ⟨rfl, rfl⟩
  · exact drainAll_of_failure hrun hmore herror

/-- A run is all that reading everything gives exactly if there is no more to read behind it. -/
theorem drainAll_eq_iff {d e : Decoder} {values : List Value} (h : Run next hasNext d values e) :
    d.drainAll = ⟨values, .finished, e⟩ ↔ e.hasNext = false := by
  refine ⟨?_, drainAll_of_run h⟩
  intro hdrain
  obtain ⟨f, hall, hend⟩ := drainAll_cases d
  rw [hdrain] at hall hend
  rcases hend with ⟨hnone, -⟩ | ⟨fault, _, -, hfailed⟩
  · obtain ⟨rest, hitems, hrest⟩ := h.split hall (by simp [hnone])
    obtain rfl : rest = [] := by simpa using hitems
    cases hrest
    exact hnone
  · cases hfailed

/-- A PLAIN decoder holds no values between its bytes. -/
theorem not_hasNext_of_run_plain {t : DataType} {bytes : Bytes} {d : Decoder} {values : List Value}
    (h : Run next hasNext (ofCodec (.plain t) bytes) values d) (hbytes : d.bytes = []) : d.hasNext = false := by
  have hplain : d.state = .plain t := by
    refine h.keeps (P := fun d => d.state = .plain t) ?_ rfl
    rintro ⟨state, reader, left⟩ v e rfl hnext
    obtain ⟨rest, -, rfl⟩ := Feed.ok_of_onBytes (m := Plain.pull t) hnext
    rfl
  rcases d with ⟨state, reader, left⟩
  cases hplain
  cases hbytes
  rfl

end Decoder

end Chronicle
