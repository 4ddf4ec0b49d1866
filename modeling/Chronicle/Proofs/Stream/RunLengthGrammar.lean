/-
  Chronicle.Proofs.Stream.RunLengthGrammar — what RLE makes of any bytes.

  (1) The grammar. A payload is a row of segments, each in bytes of its own (`Spells`); what its last byte
  has behind the segment can be anything. A group says the width of its offsets, its base and its offsets,
  and stands for the sums modulo the word size. Nothing is asked but that the fields can say the numbers:
  no segment has to be one that an encoder would write.

  (2) Legal segments. Whatever their fields say, a decoder gives what a segment stands for and comes to the
  bytes behind it (`run_segment`, `run_spelled`). It reads a group when the first literal of it is asked
  for, and the head of a segment when nothing of the one before is pending.

  (3) Defects. A segment that is not whole or not legal (`Defect`) stops it behind the groups that are whole
  (`yields_defect`). Which of several faults it meets is decided by the order of the fields.

  (4) Nothing else. Bytes that are not a row of segments have such a defect behind some segments
  (`spells_or_breaks`), so this is all that can happen. This is said of lists, without a decoder.
-/

import Chronicle.Proofs.Stream.Feed
import Chronicle.Proofs.Wire.Bits
import Chronicle.Stream.RunLength

namespace Chronicle.RunLength

open Reading

namespace Grammar

/-! ## The grammar -/

structure Group where
  offsetWidth : Nat
  base : Nat
  offsets : List Nat

namespace Group

def bits (width : Nat) (g : Group) : List Bool :=
  bitsOf 7 g.offsetWidth ++ (bitsOf width g.base ++ g.offsets.flatMap (bitsOf g.offsetWidth))

def members (width : Nat) (g : Group) : List Nat := g.offsets.map fun offset => (g.base + offset) % 2 ^ width

/-- The fields can say the numbers, and the offsets are not wider than the literals. -/
structure Legal (width : Nat) (g : Group) : Prop where
  offsetWidth_le : g.offsetWidth ≤ width
  base_lt : g.base < 2 ^ width
  offset_lt : ∀ offset ∈ g.offsets, offset < 2 ^ g.offsetWidth

end Group

/-- Groups take eight literals each, and the last one what remains, so that there are as many as
    `Takes.length_eq` says. Of `left` literals these take all but `rest`. -/
def Takes (width : Nat) : (left : Nat) → List Group → (rest : Nat) → Prop
  | left, [], rest => left = rest
  | left, g :: groups, rest =>
    0 < left ∧ g.Legal width ∧ g.offsets.length = min left 8 ∧ Takes width (left - 8) groups rest

inductive Segment
  | run (length value : Nat)
  | literals (length : Nat) (groups : List Group)

namespace Segment

def bits (width : Nat) : Segment → List Bool
  | run length value => true :: (bitsOf 31 length ++ bitsOf width value)
  | literals length groups => false :: (bitsOf 31 length ++ groups.flatMap (Group.bits width))

def expand (width : Nat) : Segment → List Nat
  | run length value => List.replicate length value
  | literals _ groups => groups.flatMap (Group.members width)

def Legal (width : Nat) : Segment → Prop
  | run length value => 0 < length ∧ length < 2 ^ 31 ∧ value < 2 ^ width
  | literals length groups => 0 < length ∧ length < 2 ^ 31 ∧ Takes width length groups 0

end Segment

/-- Each segment has bytes of its own. What its last byte has behind it can be anything. -/
inductive Spells (width : Nat) : List Segment → Bytes → Prop
  | nil : Spells width [] []
  | cons {segment : Segment} {segments : List Segment} {own rest : Bytes} {pad : List Bool} :
    segment.Legal width → own.toBits = segment.bits width ++ pad → pad.length < 8 → Spells width segments rest →
      Spells width (segment :: segments) (own ++ rest)

/-- Bits that do not begin with a group of `count` literals, and what is wrong with them. -/
inductive GroupDefect (width count : Nat) : List Bool → CodecError → Prop
  | noWidth {bits : List Bool} : bits.length < 7 → GroupDefect width count bits .underflow
  | tooWide {offsetWidth : Nat} {rest : List Bool} : width < offsetWidth → offsetWidth < 2 ^ 7 →
    GroupDefect width count (bitsOf 7 offsetWidth ++ rest) (.malformed (.groupWidth offsetWidth width))
  | cut {offsetWidth : Nat} {rest : List Bool} : offsetWidth ≤ width → rest.length < width + count * offsetWidth →
    GroupDefect width count (bitsOf 7 offsetWidth ++ rest) .underflow

/-- Bits that do not begin with a segment, the literals of their whole groups, and what is wrong
    with the rest of them. -/
inductive Defect (width : Nat) : List Bool → List Nat → CodecError → Prop
  | noHead {bits : List Bool} : 0 < bits.length → bits.length < 32 → Defect width bits [] .underflow
  | empty (flag : Bool) (rest : List Bool) :
    Defect width (flag :: (bitsOf 31 0 ++ rest)) [] (.malformed .emptySegment)
  | noValue {length : Nat} {rest : List Bool} : 0 < length → length < 2 ^ 31 → rest.length < width →
    Defect width (true :: (bitsOf 31 length ++ rest)) [] .underflow
  | group {length left : Nat} {groups : List Group} {rest : List Bool} {e : CodecError} : 0 < length →
    length < 2 ^ 31 → Takes width length groups left → 0 < left → GroupDefect width (min left 8) rest e →
      Defect width (false :: (bitsOf 31 length ++ (groups.flatMap (Group.bits width) ++ rest)))
        (groups.flatMap (Group.members width)) e

/-- Bytes with segments and then a defect, all patterns in front of it, and what is wrong. -/
inductive Breaks (width : Nat) : Bytes → List Nat → CodecError → Prop
  | intro {segments : List Segment} {whole tail : Bytes} {values : List Nat} {e : CodecError} :
    Spells width segments whole → Defect width tail.toBits values e →
      Breaks width (whole ++ tail) (segments.flatMap (Segment.expand width) ++ values) e

variable {width : Nat}

/-- There are as many groups as the literals need. -/
theorem Takes.length_eq {left : Nat} {groups : List Group} (h : Takes width left groups 0) :
    groups.length = (left + 7) / 8 := by
  induction groups generalizing left with
  | nil =>
    obtain rfl : left = 0 := h
    rfl
  | cons g groups ih =>
    obtain ⟨hpos, -, -, h⟩ := h
    rw [List.length_cons, ih h]
    omega

/-- There are as many literals as were taken. -/
theorem Takes.length_members {left rest : Nat} {groups : List Group} (h : Takes width left groups rest) :
    (groups.flatMap (Group.members width)).length + rest = left := by
  induction groups generalizing left with
  | nil =>
    obtain rfl : left = rest := h
    exact Nat.zero_add left
  | cons g groups ih =>
    obtain ⟨hpos, -, hlen, h⟩ := h
    have hmembers : (g.members width).length = min left 8 := by rw [Group.members, List.length_map, hlen]
    have hothers := ih h
    rw [List.flatMap_cons, List.length_append, hmembers]
    omega

theorem members_lt (groups : List Group) : ∀ n ∈ groups.flatMap (Group.members width), n < 2 ^ width := by
  intro n hn
  obtain ⟨g, -, hn⟩ := List.mem_flatMap.1 hn
  obtain ⟨offset, -, rfl⟩ := List.mem_map.1 hn
  exact Nat.mod_lt _ (Nat.two_pow_pos width)

theorem Segment.expand_lt {segment : Segment} (h : segment.Legal width) : ∀ n ∈ segment.expand width, n < 2 ^ width := by
  cases segment with
  | run length value =>
    intro n hn
    rw [List.eq_of_mem_replicate hn]
    exact h.2.2
  | literals length groups => exact members_lt groups

/-- What segments stand for are patterns of the width. -/
theorem Spells.expand_lt {segments : List Segment} {bytes : Bytes} (h : Spells width segments bytes) :
    ∀ n ∈ segments.flatMap (Segment.expand width), n < 2 ^ width := by
  induction h with
  | nil => exact List.forall_mem_nil _
  | cons hlegal _ _ _ ih => exact List.forall_mem_append.2 ⟨Segment.expand_lt hlegal, ih⟩

theorem Defect.values_lt {bits : List Bool} {values : List Nat} {e : CodecError} (h : Defect width bits values e) :
    ∀ n ∈ values, n < 2 ^ width := by
  cases h with
  | noHead => exact List.forall_mem_nil _
  | empty => exact List.forall_mem_nil _
  | noValue => exact List.forall_mem_nil _
  | group => exact members_lt _

theorem Breaks.values_lt {bytes : Bytes} {values : List Nat} {e : CodecError} (h : Breaks width bytes values e) :
    ∀ n ∈ values, n < 2 ^ width := by
  obtain ⟨hspells, hdefect⟩ := h
  exact List.forall_mem_append.2 ⟨hspells.expand_lt, hdefect.values_lt⟩

/-! ## Bytes are segments, or break -/

/-- Bits that are enough begin with some numbers of a width. -/
theorem exists_numbers {count w : Nat} {bits : List Bool} (h : count * w ≤ bits.length) :
    ∃ (numbers : List Nat) (rest : List Bool), numbers.length = count ∧ (∀ n ∈ numbers, n < 2 ^ w) ∧
      bits = numbers.flatMap (bitsOf w) ++ rest := by
  induction count generalizing bits with
  | zero => exact ⟨[], bits, rfl, by simp, rfl⟩
  | succ count ih =>
    rw [Nat.succ_mul] at h
    obtain ⟨n, behind, hn, rfl⟩ := exists_number (Nat.le_trans (Nat.le_add_left w _) h)
    rw [List.length_append, length_bitsOf] at h
    have hbehind : count * w ≤ behind.length := by omega
    obtain ⟨numbers, rest, hlen, hnumbers, rfl⟩ := ih hbehind
    refine ⟨n :: numbers, rest, congrArg Nat.succ hlen, List.forall_mem_cons.2 ⟨hn, hnumbers⟩, ?_⟩
    rw [List.flatMap_cons, List.append_assoc]

theorem group_or_defect (width count : Nat) (bits : List Bool) :
    (∃ (g : Group) (rest : List Bool), g.Legal width ∧ g.offsets.length = count ∧ bits = g.bits width ++ rest) ∨
      ∃ e, GroupDefect width count bits e := by
  by_cases hhead : bits.length < 7
  · exact .inr ⟨_, .noWidth hhead⟩
  obtain ⟨offsetWidth, rest, hlt, rfl⟩ := exists_number (Nat.le_of_not_lt hhead)
  by_cases hwide : width < offsetWidth
  · exact .inr ⟨_, .tooWide hwide hlt⟩
  by_cases hcut : rest.length < width + count * offsetWidth
  · exact .inr ⟨_, .cut (Nat.le_of_not_lt hwide) hcut⟩
  have hrest : width ≤ rest.length := by omega
  obtain ⟨base, behind, hbase, rfl⟩ := exists_number hrest
  rw [List.length_append, length_bitsOf] at hcut
  have hbehind : count * offsetWidth ≤ behind.length := by omega
  obtain ⟨offsets, tail, hlen, hoffsets, rfl⟩ := exists_numbers hbehind
  refine .inl ⟨⟨offsetWidth, base, offsets⟩, tail, ⟨Nat.le_of_not_lt hwide, hbase, hoffsets⟩, hlen, ?_⟩
  simp only [Group.bits, List.append_assoc]

theorem groups_or_defect (width left : Nat) (bits : List Bool) :
    (∃ (groups : List Group) (rest : List Bool), Takes width left groups 0 ∧
        bits = groups.flatMap (Group.bits width) ++ rest) ∨
      ∃ (groups : List Group) (after : Nat) (rest : List Bool) (e : CodecError), Takes width left groups after ∧
        0 < after ∧ GroupDefect width (min after 8) rest e ∧ bits = groups.flatMap (Group.bits width) ++ rest := by
  induction left using Nat.strongRecOn generalizing bits with
  | ind left ih =>
    by_cases hzero : left = 0
    · exact .inl ⟨[], bits, hzero, rfl⟩
    have hpos : 0 < left := Nat.pos_of_ne_zero hzero
    rcases group_or_defect width (min left 8) bits with ⟨g, behind, hg, hlen, rfl⟩ | ⟨e, he⟩
    · rcases ih (left - 8) (by omega) behind with ⟨groups, rest, h, rfl⟩ | ⟨groups, after, rest, e, h, hafter, he, rfl⟩
      · refine .inl ⟨g :: groups, rest, ⟨hpos, hg, hlen, h⟩, ?_⟩
        rw [List.flatMap_cons, List.append_assoc]
      · refine .inr ⟨g :: groups, after, rest, e, ⟨hpos, hg, hlen, h⟩, hafter, he, ?_⟩
        rw [List.flatMap_cons, List.append_assoc]
    · exact .inr ⟨[], left, bits, e, rfl, hpos, he, rfl⟩

theorem segment_or_defect (width : Nat) {bits : List Bool} (hne : bits ≠ []) :
    (∃ (segment : Segment) (rest : List Bool), segment.Legal width ∧ bits = segment.bits width ++ rest) ∨
      ∃ values e, Defect width bits values e := by
  by_cases hhead : bits.length < 32
  · exact .inr ⟨_, _, .noHead (List.length_pos_iff.2 hne) hhead⟩
  obtain ⟨flag, bits, rfl⟩ := List.exists_cons_of_ne_nil hne
  rw [List.length_cons] at hhead
  have henough : 31 ≤ bits.length := by omega
  obtain ⟨length, rest, hlen, rfl⟩ := exists_number henough
  by_cases hzero : length = 0
  · subst hzero
    exact .inr ⟨_, _, .empty flag rest⟩
  have hpos : 0 < length := Nat.pos_of_ne_zero hzero
  cases flag with
  | true =>
    by_cases hcut : rest.length < width
    · exact .inr ⟨_, _, .noValue hpos hlen hcut⟩
    obtain ⟨value, behind, hvalue, rfl⟩ := exists_number (Nat.le_of_not_lt hcut)
    refine .inl ⟨.run length value, behind, ⟨hpos, hlen, hvalue⟩, ?_⟩
    rw [Segment.bits, List.cons_append, List.append_assoc]
  | false =>
    rcases groups_or_defect width length rest with
      ⟨groups, behind, h, rfl⟩ | ⟨groups, left, behind, e, h, hleft, he, rfl⟩
    · refine .inl ⟨.literals length groups, behind, ⟨hpos, hlen, h⟩, ?_⟩
      rw [Segment.bits, List.cons_append, List.append_assoc]
    · exact .inr ⟨_, _, .group hpos hlen h hleft he⟩

/-- The bytes in front that hold some bits, with the rest of the last of them. -/
theorem exists_own {bytes : Bytes} {bits rest : List Bool} (h : bytes.toBits = bits ++ rest) :
    ∃ (own tail : Bytes) (pad : List Bool), bytes = own ++ tail ∧ own.toBits = bits ++ pad ∧ pad.length < 8 := by
  let count := (bits.length + 7) / 8
  refine ⟨bytes.take count, bytes.drop count, rest.take (8 * count - bits.length), ?_, ?_, ?_⟩
  · rw [List.take_append_drop]
  · rw [Bytes.toBits_take, h, List.take_append, List.take_of_length_le (by omega)]
  · rw [List.length_take]
    omega

theorem Breaks.cons {segment : Segment} {own tail : Bytes} {pad : List Bool} {values : List Nat} {e : CodecError}
    (hs : segment.Legal width) (hown : own.toBits = segment.bits width ++ pad) (hpad : pad.length < 8)
    (h : Breaks width tail values e) : Breaks width (own ++ tail) (segment.expand width ++ values) e := by
  obtain ⟨hspells, hdefect⟩ := h
  rw [← List.append_assoc, ← List.append_assoc, ← List.flatMap_cons]
  exact .intro (.cons hs hown hpad hspells) hdefect

/-- Bytes are a row of segments, or they break. -/
theorem spells_or_breaks (width : Nat) (bytes : Bytes) :
    (∃ segments, Spells width segments bytes) ∨ ∃ values e, Breaks width bytes values e := by
  induction hlen : bytes.length using Nat.strongRecOn generalizing bytes with
  | ind length ih =>
    subst hlen
    cases bytes with
    | nil => exact .inl ⟨[], .nil⟩
    | cons b bytes =>
      have hbits : Bytes.toBits (b :: bytes) ≠ [] := List.cons_ne_nil _ _
      rcases segment_or_defect width hbits with ⟨segment, rest, hs, h⟩ | ⟨values, e, h⟩
      · obtain ⟨own, tail, pad, hsplit, hown, hpad⟩ := exists_own h
        have hne : own ≠ [] := by
          rintro rfl
          cases segment <;> cases hown
        have hlt : tail.length < (b :: bytes).length := by
          have := List.length_pos_iff.2 hne
          rw [hsplit, List.length_append]
          omega
        rw [hsplit]
        rcases ih _ hlt tail rfl with ⟨segments, hrest⟩ | ⟨values, e, hrest⟩
        · exact .inl ⟨_, .cons hs hown hpad hrest⟩
        · exact .inr ⟨_, _, .cons hs hown hpad hrest⟩
      · exact .inr ⟨_, e, .intro .nil h⟩

end Grammar

open Grammar (Group Takes Spells GroupDefect Defect Breaks)

variable {width : Nat}

/-! ## Reading a group -/

section Groups

variable {s : BitSource} {bits tail : List Bool} {offsetWidth more : Nat}

theorem pullMember_of_unread (width base : Nat) {offset : Nat} (ho : offset < 2 ^ offsetWidth)
    (h : s.Unread .onDemand (bitsOf offsetWidth offset ++ tail)) :
    ∃ t, pullMember width base offsetWidth s = .ok ((base + offset) % 2 ^ width) t ∧ t.Unread .onDemand tail := by
  obtain ⟨t, ht, h⟩ := h.pullNumber ho nofun
  exact ⟨t, map_of_eq ht, h⟩

theorem pullMember_of_short (width base : Nat) (h : s.Unread .onDemand bits) (hshort : bits.length < offsetWidth) :
    ∃ t, pullMember width base offsetWidth s = .error .underflow t := by
  obtain ⟨t, ht⟩ := h.pullBits_of_short hshort
  exact ⟨t, map_of_error ht⟩

theorem pullMembers_of_unread (width base : Nat) {offsets : List Nat}
    (ho : ∀ offset ∈ offsets, offset < 2 ^ offsetWidth)
    (h : s.Unread .onDemand (offsets.flatMap (bitsOf offsetWidth) ++ tail)) :
    ∃ t, (pullMember width base offsetWidth).times offsets.length s =
        .ok (offsets.map fun offset => (base + offset) % 2 ^ width) t ∧ t.Unread .onDemand tail := by
  induction offsets generalizing s with
  | nil => exact ⟨s, rfl, h⟩
  | cons offset offsets ih =>
    rw [List.flatMap_cons, List.append_assoc] at h
    obtain ⟨hfirst, ho⟩ := List.forall_mem_cons.1 ho
    obtain ⟨t, ht, h⟩ := pullMember_of_unread width base hfirst h
    obtain ⟨u, hu, h⟩ := ih ho h
    refine ⟨u, ?_, h⟩
    rw [List.length_cons, Reading.times, bind_of_eq ht, map_of_eq hu, List.map_cons]

theorem pullMembers_of_short (width base : Nat) {count : Nat} (h : s.Unread .onDemand bits)
    (hshort : bits.length < count * offsetWidth) :
    ∃ t, (pullMember width base offsetWidth).times count s = .error .underflow t := by
  induction count generalizing s bits with
  | zero =>
    rw [Nat.zero_mul] at hshort
    omega
  | succ count ih =>
    rw [Nat.succ_mul] at hshort
    by_cases hfirst : bits.length < offsetWidth
    · obtain ⟨t, ht⟩ := pullMember_of_short width base h hfirst
      exact ⟨t, bind_of_error ht⟩
    · obtain ⟨offset, rest, ho, rfl⟩ := exists_number (Nat.le_of_not_lt hfirst)
      rw [List.length_append, length_bitsOf] at hshort
      obtain ⟨t, ht, h⟩ := pullMember_of_unread width base ho h
      obtain ⟨u, hu⟩ := ih h (by omega)
      refine ⟨u, ?_⟩
      rw [Reading.times, bind_of_eq ht, map_of_error hu]

/-- Behind a width that is not too large come the base and the literals. -/
theorem pullGroup_of_width {t : BitSource} (hle : offsetWidth ≤ width)
    (ht : BitSource.pullBits 7 s = .ok offsetWidth t) :
    pullGroup width more s = (do
      let base ← BitSource.pullBits width
      let first ← pullMember width base offsetWidth
      return (first, ← (pullMember width base offsetWidth).times more)) t := by
  rw [pullGroup, bind_of_eq ht, if_neg (Nat.not_lt.2 hle)]

theorem pullGroup_of_unread (hw : width < 2 ^ 7) {g : Group} (hg : g.Legal width)
    (hlen : g.offsets.length = more + 1) (h : s.Unread .onDemand (g.bits width ++ tail)) :
    ∃ first rest t, pullGroup width more s = .ok (first, rest) t ∧ g.members width = first :: rest ∧
      t.Unread .onDemand tail := by
  obtain ⟨offsetWidth, base, offsets⟩ := g
  obtain ⟨hle, hbase, hoffsets⟩ := hg
  obtain ⟨offset, offsets, rfl⟩ := List.exists_cons_of_length_eq_add_one hlen
  obtain ⟨hfirst, hoffsets⟩ := List.forall_mem_cons.1 hoffsets
  obtain rfl : offsets.length = more := Nat.succ_inj.1 hlen
  rw [Group.bits, List.append_assoc, List.append_assoc, List.flatMap_cons, List.append_assoc] at h
  obtain ⟨t, ht, h⟩ := h.pullNumber (Nat.lt_of_le_of_lt hle hw) nofun
  obtain ⟨u, hu, h⟩ := h.pullNumber hbase nofun
  obtain ⟨x, hx, h⟩ := pullMember_of_unread width base hfirst h
  obtain ⟨y, hy, h⟩ := pullMembers_of_unread width base hoffsets h
  refine ⟨_, _, y, ?_, rfl, h⟩
  rw [pullGroup_of_width hle ht, bind_of_eq hu, bind_of_eq hx, map_of_eq hy]

theorem pullGroup_of_defect (hw : width < 2 ^ 7) {e : CodecError} (hd : GroupDefect width (more + 1) bits e)
    (h : s.Unread .onDemand bits) : ∃ t, pullGroup width more s = .error e t := by
  cases hd with
  | noWidth hshort =>
    obtain ⟨t, ht⟩ := h.pullBits_of_short hshort
    exact ⟨t, bind_of_error ht⟩
  | tooWide hwide hlt =>
    obtain ⟨t, ht, h⟩ := h.pullNumber hlt nofun
    refine ⟨t, ?_⟩
    rw [pullGroup, bind_of_eq ht, if_pos hwide]
    rfl
  | @cut offsetWidth rest hle hshort =>
    obtain ⟨t, ht, h⟩ := h.pullNumber (Nat.lt_of_le_of_lt hle hw) nofun
    rw [pullGroup_of_width hle ht]
    by_cases hbase : rest.length < width
    · obtain ⟨u, hu⟩ := h.pullBits_of_short hbase
      exact ⟨u, bind_of_error hu⟩
    obtain ⟨base, behind, hlt, rfl⟩ := exists_number (Nat.le_of_not_lt hbase)
    rw [List.length_append, length_bitsOf, Nat.succ_mul] at hshort
    obtain ⟨u, hu, h⟩ := h.pullNumber hlt nofun
    rw [bind_of_eq hu]
    by_cases hfirst : behind.length < offsetWidth
    · obtain ⟨x, hx⟩ := pullMember_of_short width base h hfirst
      exact ⟨x, bind_of_error hx⟩
    obtain ⟨offset, behind, ho, rfl⟩ := exists_number (Nat.le_of_not_lt hfirst)
    rw [List.length_append, length_bitsOf] at hshort
    obtain ⟨x, hx, h⟩ := pullMember_of_unread width base ho h
    have hothers : behind.length < more * offsetWidth := by omega
    obtain ⟨y, hy⟩ := pullMembers_of_short width base h hothers
    refine ⟨y, ?_⟩
    rw [bind_of_eq hx, map_of_error hy]

end Groups

/-! ## Reading what is pending -/

def more (f : Feed State) : Bool := hasNext f.state f.bytes

section Pending

variable {reader : BitReader} {bytes : Bytes}

/-- The pending copies of a run. -/
theorem run_copies (value more : Nat) :
    Run (next width) RunLength.more ⟨some (.run value more), reader, bytes⟩ (List.replicate (more + 1) value)
      ⟨none, reader, bytes⟩ := by
  induction more with
  | zero => exact .cons rfl rfl (.nil _)
  | succ more ih => exact .cons rfl rfl ih

/-- The literals of a group that has been read. -/
theorem run_group (group : List Nat) (packed : Nat) :
    Run (next width) more ⟨.ofLiterals group packed, reader, bytes⟩ group ⟨.ofLiterals [] packed, reader, bytes⟩ := by
  induction group with
  | nil => exact .nil _
  | cons v group ih => exact .cons rfl rfl ih

/-- A group is read when its first literal is asked for. -/
theorem next_packed {more value : Nat} {rest : List Nat} {t : BitSource}
    (h : pullGroup width (min more (groupSize - 1)) ⟨reader, bytes⟩ = .ok (value, rest) t) :
    next width ⟨some (.packed more), reader, bytes⟩ =
      .ok value ⟨.ofLiterals rest (more - min more (groupSize - 1)), t.reader, t.bytes⟩ := by
  have hg := Feed.onBits_of_eq (f := (⟨some (.packed more), reader, bytes⟩ : Feed State)) h
  show (Feed.onBits (pullGroup width (min more (groupSize - 1))) >>= _) _ = _
  rw [bind_of_eq hg]
  rfl

theorem next_packed_of_error {more : Nat} {e : CodecError} {t : BitSource}
    (h : pullGroup width (min more (groupSize - 1)) ⟨reader, bytes⟩ = .error e t) :
    next width ⟨some (.packed more), reader, bytes⟩ = .error e ⟨some (.packed more), t.reader, t.bytes⟩ := by
  have hg := Feed.onBits_of_error (f := (⟨some (.packed more), reader, bytes⟩ : Feed State)) h
  show (Feed.onBits (pullGroup width (min more (groupSize - 1))) >>= _) _ = _
  rw [bind_of_error hg]

/-- Reading begins with the head of a segment if nothing is pending. -/
theorem next_none {p : Pending} {t : BitSource} (h : pullSegment width ⟨reader, bytes⟩ = .ok p t) :
    next width ⟨none, reader, bytes⟩ = next width ⟨some p, t.reader, t.bytes⟩ := by
  have hs := Feed.onBits_of_eq (f := (⟨none, reader, bytes⟩ : Feed State)) h
  have hp : pending width ⟨none, reader, bytes⟩ = .ok p ⟨some p, t.reader, t.bytes⟩ := by
    show (Feed.onBits (pullSegment width) >>= _) _ = _
    rw [bind_of_eq hs]
    rfl
  rw [next, bind_of_eq hp, bind_of_eq (show pending width ⟨some p, t.reader, t.bytes⟩ = .ok p _ from rfl)]

theorem next_none_of_error {e : CodecError} {t : BitSource} (h : pullSegment width ⟨reader, bytes⟩ = .error e t) :
    next width ⟨none, reader, bytes⟩ = .error e ⟨none, t.reader, t.bytes⟩ := by
  have hs := Feed.onBits_of_error (f := (⟨none, reader, bytes⟩ : Feed State)) h
  have hp : pending width ⟨none, reader, bytes⟩ = .error e ⟨none, t.reader, t.bytes⟩ := by
    show (Feed.onBits (pullSegment width) >>= _) _ = _
    rw [bind_of_error hs]
  rw [next, bind_of_error hp]

end Pending

/-! ## Reading a segment -/

section Segments

variable {s : BitSource} {bits tail : List Bool} {length : Nat}

/-- Literals, group by group. -/
theorem run_groups (hw : width < 2 ^ 7) {left rest : Nat} {groups : List Group} (hg : Takes width left groups rest)
    (h : s.Unread .onDemand (groups.flatMap (Group.bits width) ++ tail)) :
    ∃ t : BitSource, Run (next width) more ⟨.ofLiterals [] left, s.reader, s.bytes⟩
        (groups.flatMap (Group.members width)) ⟨.ofLiterals [] rest, t.reader, t.bytes⟩ ∧ t.Unread .onDemand tail := by
  induction groups generalizing s left with
  | nil =>
    obtain rfl : left = rest := hg
    exact ⟨s, .nil _, h⟩
  | cons g groups ih =>
    obtain ⟨hpos, hlegal, hlen, hg⟩ := hg
    obtain ⟨packed, rfl⟩ : ∃ packed, left = packed + 1 := ⟨left - 1, by omega⟩
    rw [List.flatMap_cons, List.append_assoc] at h
    have hmembers : g.offsets.length = min packed (groupSize - 1) + 1 := by
      unfold groupSize
      omega
    obtain ⟨first, others, t, ht, hgroup, h⟩ := pullGroup_of_unread hw hlegal hmembers h
    obtain ⟨u, hu, h⟩ := ih hg h
    have hfirst := next_packed ht
    have hleft : packed - min packed (groupSize - 1) = packed + 1 - 8 := by
      unfold groupSize
      omega
    rw [hleft] at hfirst
    have hrun := (run_group others (packed + 1 - 8)).append hu
    rw [List.flatMap_cons, hgroup, List.cons_append]
    exact ⟨u, .cons rfl hfirst hrun, h⟩

abbrev aligned (s : BitSource) : BitSource := { s with reader := s.reader.align }

theorem align_bind {β : Type} (f : Unit → Reading BitSource β) (s : BitSource) :
    (BitSource.align >>= f) s = f () (aligned s) :=
  bind_of_eq rfl

/-- A head that is not empty says what comes behind it. -/
theorem pullSegment_of_head (width : Nat) {flag : Bool} {more : Nat} (hlen : more + 1 < 2 ^ 31)
    (h : (aligned s).Unread .onDemand (flag :: (bitsOf 31 (more + 1) ++ tail))) :
    ∃ t : BitSource, t.Unread .onDemand tail ∧ pullSegment width s =
      (if flag then return .run (← BitSource.pullBits width) more else return .packed more :
        Reading BitSource Pending) t := by
  obtain ⟨t, ht, h⟩ := h.pullBit nofun
  obtain ⟨u, hu, h⟩ := h.pullNumber hlen nofun
  refine ⟨u, h, ?_⟩
  rw [pullSegment, align_bind, bind_of_eq ht, bind_of_eq hu]

theorem pullSegment_of_empty (width : Nat) {flag : Bool}
    (h : (aligned s).Unread .onDemand (flag :: (bitsOf 31 0 ++ tail))) :
    ∃ t, pullSegment width s = .error (.malformed .emptySegment) t := by
  obtain ⟨t, ht, h⟩ := h.pullBit nofun
  obtain ⟨u, hu, h⟩ := h.pullNumber (by decide) nofun
  refine ⟨u, ?_⟩
  rw [pullSegment, align_bind, bind_of_eq ht, bind_of_eq hu]
  rfl

theorem pullSegment_of_short (width : Nat) (h : (aligned s).Unread .onDemand bits) (hshort : bits.length < 32) :
    ∃ t, pullSegment width s = .error .underflow t := by
  rw [pullSegment, align_bind]
  cases bits with
  | nil => exact ⟨_, bind_of_error (BitSource.pullBit_of_toBits_eq_nil h.toBits_eq)⟩
  | cons flag bits =>
    rw [List.length_cons] at hshort
    obtain ⟨t, ht, h⟩ := h.pullBit nofun
    obtain ⟨u, hu⟩ := h.pullBits_of_short (show bits.length < 31 by omega)
    refine ⟨u, ?_⟩
    rw [bind_of_eq ht, bind_of_error hu]

variable {reader : BitReader}

/-- A segment gives what it stands for, and leaves the bytes behind it. -/
theorem run_segment (hw : width < 2 ^ 7) {segment : Grammar.Segment} (hs : segment.Legal width) {own : Bytes}
    {pad : List Bool} (hown : own.toBits = segment.bits width ++ pad) (hpad : pad.length < 8)
    (hr : reader.refill = .onDemand) (rest : Bytes) :
    ∃ after : BitReader, after.refill = .onDemand ∧
      Run (next width) more ⟨none, reader, own ++ rest⟩ (segment.expand width) ⟨none, after, rest⟩ := by
  have hmore : more ⟨none, reader, own ++ rest⟩ = true := by
    cases own with
    | nil => cases segment <;> cases hown
    | cons b own => rfl
  have h : (aligned ⟨reader, own ++ rest⟩).Unread .onDemand (segment.bits width ++ (pad ++ rest.toBits)) := by
    rw [← List.append_assoc, ← hown, ← Bytes.toBits_append]
    exact BitSource.unread_of_left_eq_zero hr rfl
  cases segment with
  | run length value =>
    obtain ⟨hpos, hlen, hvalue⟩ := hs
    obtain ⟨packed, rfl⟩ : ∃ packed, length = packed + 1 := ⟨length - 1, by omega⟩
    rw [Grammar.Segment.bits, List.cons_append, List.append_assoc] at h
    obtain ⟨t, h, ht⟩ := pullSegment_of_head width hlen h
    obtain ⟨u, hu, h⟩ := h.pullNumber hvalue nofun
    have hfirst := next_none (ht.trans (map_of_eq hu))
    rw [h.bytes_eq hpad] at hfirst
    exact ⟨u.reader, h.refill_eq, (run_copies value packed).of_first hmore hfirst⟩
  | literals length groups =>
    obtain ⟨hpos, hlen, hgroups⟩ := hs
    obtain ⟨packed, rfl⟩ : ∃ packed, length = packed + 1 := ⟨length - 1, by omega⟩
    rw [Grammar.Segment.bits, List.cons_append, List.append_assoc] at h
    obtain ⟨t, h, ht⟩ := pullSegment_of_head width hlen h
    obtain ⟨u, hrun, h⟩ := run_groups hw hgroups h
    rw [h.bytes_eq hpad] at hrun
    obtain ⟨value, values, hvalues⟩ := List.exists_cons_of_length_eq_add_one hgroups.length_members
    rw [Grammar.Segment.expand, hvalues]
    rw [hvalues] at hrun
    exact ⟨u.reader, h.refill_eq, hrun.of_first hmore (next_none ht)⟩

/-- A row of segments gives what they stand for, one after the other. -/
theorem run_spelled (hw : width < 2 ^ 7) {segments : List Grammar.Segment} {whole : Bytes}
    (hs : Spells width segments whole) (hr : reader.refill = .onDemand) (rest : Bytes) :
    ∃ after : BitReader, after.refill = .onDemand ∧
      Run (next width) more ⟨none, reader, whole ++ rest⟩ (segments.flatMap (Grammar.Segment.expand width))
        ⟨none, after, rest⟩ := by
  induction hs generalizing reader with
  | nil => exact ⟨reader, hr, .nil _⟩
  | @cons segment segments own others pad hlegal hown hpad _ ih =>
    rw [List.flatMap_cons, List.append_assoc]
    obtain ⟨middle, hm, hrun⟩ := run_segment hw hlegal hown hpad hr (others ++ rest)
    obtain ⟨after, ha, hrest⟩ := ih hm
    exact ⟨after, ha, hrun.append hrest⟩

/-- A defect is met behind the groups in front of it. -/
theorem yields_defect (hw : width < 2 ^ 7) {tail : Bytes} {values : List Nat} {e : CodecError}
    (hd : Defect width tail.toBits values e) (hr : reader.refill = .onDemand) :
    Yields (next width) more ⟨none, reader, tail⟩ values (.failed e) := by
  have hmore : more ⟨none, reader, tail⟩ = true := by
    cases tail with
    | nil => cases hd with | noHead hpos => exact absurd hpos (Nat.lt_irrefl 0)
    | cons b tail => rfl
  have h : (aligned ⟨reader, tail⟩).Unread .onDemand tail.toBits := BitSource.unread_of_left_eq_zero hr rfl
  generalize tail.toBits = bits at hd h
  cases hd with
  | noHead _ hshort =>
    obtain ⟨t, ht⟩ := pullSegment_of_short width h hshort
    exact .failed hmore (next_none_of_error ht)
  | empty flag rest =>
    obtain ⟨t, ht⟩ := pullSegment_of_empty width h
    exact .failed hmore (next_none_of_error ht)
  | @noValue length rest hpos hlen hshort =>
    obtain ⟨packed, rfl⟩ : ∃ packed, length = packed + 1 := ⟨length - 1, by omega⟩
    obtain ⟨t, h, ht⟩ := pullSegment_of_head width hlen h
    obtain ⟨u, hu⟩ := h.pullBits_of_short hshort
    exact .failed hmore (next_none_of_error (ht.trans (map_of_error hu)))
  | @group length left groups rest e hpos hlen hgroups hleft hdefect =>
    obtain ⟨packed, rfl⟩ : ∃ packed, length = packed + 1 := ⟨length - 1, by omega⟩
    obtain ⟨others, rfl⟩ : ∃ others, left = others + 1 := ⟨left - 1, by omega⟩
    obtain ⟨t, h, ht⟩ := pullSegment_of_head width hlen h
    obtain ⟨u, hrun, h⟩ := run_groups hw hgroups h
    have hgroup : min (others + 1) 8 = min others (groupSize - 1) + 1 := by
      unfold groupSize
      omega
    rw [hgroup] at hdefect
    obtain ⟨x, hx⟩ := pullGroup_of_defect hw hdefect h
    have hyields := hrun.yields (.failed rfl (next_packed_of_error hx))
    rw [List.append_nil] at hyields
    exact hyields.of_first rfl hmore (next_none ht)

/-- Of a row of segments everything is read. -/
theorem yields_spelled (hw : width < 2 ^ 7) {segments : List Grammar.Segment} {bytes : Bytes}
    (hs : Spells width segments bytes) (hr : reader.refill = .onDemand) :
    Yields (next width) more ⟨none, reader, bytes⟩ (segments.flatMap (Grammar.Segment.expand width)) .finished := by
  obtain ⟨after, -, hrun⟩ := run_spelled hw hs hr []
  have hyields := hrun.yields (.finished rfl)
  rw [List.append_nil, List.append_nil] at hyields
  exact hyields

/-- Of bytes that break everything is read up to the fault. -/
theorem yields_breaks (hw : width < 2 ^ 7) {bytes : Bytes} {values : List Nat} {e : CodecError}
    (hb : Breaks width bytes values e) (hr : reader.refill = .onDemand) :
    Yields (next width) more ⟨none, reader, bytes⟩ values (.failed e) := by
  obtain ⟨hs, hd⟩ := hb
  obtain ⟨after, ha, hrun⟩ := run_spelled hw hs hr _
  exact hrun.yields (yields_defect hw hd ha)

end Segments

end Chronicle.RunLength
