/-
  Chronicle.Proofs.Stream.GorillaCodes — the codes of a GORILLA stream, one behind the other.

  (1) Streams. What an encoder writes is a count, the first pattern, and the codes of the others, filled up
  to whole bytes (`Streams`). The count is said in four bytes or in the shortest form (`Counts`), and how
  many zeros fill the last byte is known from the lengths.

  (2) Repetitions (`gorilla_repeat_costs_one_bit`). Which codes a list of patterns has depends neither on
  the version nor on where their bits come to stand. A copy of a pattern is one code more, behind which all
  stay the same (`codes_insertIdx`), and that code is a single 0. Only a stream that is full does not take
  the copy.

  (3) Versions (`gorilla_versions_write_same_codes`). A code that opens a window is all that the versions
  write differently, in the field for its size: one less, modulo the range of the field
  (`Code.twins_of_mem_codes`). So both keep the same windows and write as many bits.
-/

import Mathlib.Data.List.InsertIdx
import Chronicle.Proofs.Stream.RoundTrip
import Chronicle.Proofs.Wire.VarintForms

namespace Chronicle

namespace Gorilla

variable {version : GorillaVersion} {width previous : Nat} {window? : Option Window} {values : List Nat}

/-! ## Codes and patterns -/

theorem length_codes (width previous : Nat) (window? : Option Window) (values : List Nat) :
    (codes width previous window? values).length = values.length := by
  induction values generalizing previous window? with
  | nil => rfl
  | cons value values ih => rw [codes, List.length_cons, List.length_cons, ih]

/-- What comes later does not change a code. -/
theorem codes_take (width previous : Nat) (window? : Option Window) (values : List Nat) (count : Nat) :
    codes width previous window? (values.take count) = (codes width previous window? values).take count := by
  induction values generalizing previous window? count with
  | nil => rw [List.take_nil, codes, List.take_nil]
  | cons value values ih =>
    cases count with
    | zero => rfl
    | succ count => rw [List.take_succ_cons, codes, codes, List.take_succ_cons, ih]

/-- The pattern in front once more: its code says so, and the window stays. -/
theorem codes_cons_previous (width previous : Nat) (window? : Option Window) (values : List Nat) :
    codes width previous window? (previous :: values) = .same :: codes width previous window? values := by
  rw [codes, Nat.xor_self]
  rfl

/-- The codes of patterns with one more copy of one of them behind it. -/
theorem codes_insertIdx {i : Nat} (h : i < (previous :: values).length) :
    codes width previous window? (values.insertIdx i (previous :: values)[i]) =
      (codes width previous window? values).take i ++ .same :: (codes width previous window? values).drop i := by
  induction i generalizing previous window? values with
  | zero => exact codes_cons_previous width previous window? values
  | succ i ih =>
    cases values with
    | nil => exact absurd h (by simp)
    | cons value values =>
      rw [List.getElem_cons_succ, List.insertIdx_succ_cons, codes, codes, ih (Nat.lt_of_succ_lt_succ h),
        List.take_succ_cons, List.drop_succ_cons]
      rfl

/-! ## Streams -/

/-- The bytes that say a count: four big-endian ones in the first version, and in the second the
    shortest form of it, which no other form of that number is as short as. -/
def Counts (version : GorillaVersion) (count : Nat) (header : Bytes) : Prop :=
  match version with
  | .v1 => header.length = 4 ∧ header.toNat = count
  | .v2 => Varint.IsForm header ∧ Varint.total header = count ∧
      ∀ form, Varint.IsForm form → Varint.total form = count → form = header ∨ header.length < form.length

theorem counts_countHeader {count : Nat} (hc : Accepts version count) :
    Counts version count (countHeader version count) := by
  cases version with
  | v1 =>
    have hlt : count < 256 ^ 4 := Nat.lt_of_le_of_lt (hc rfl) (by decide)
    refine ⟨Bytes.length_ofNat 4 count, ?_⟩
    rw [countHeader, Bytes.toNat_ofNat, Nat.mod_eq_of_lt hlt]
  | v2 =>
    refine ⟨Varint.isForm_encode count, ?_, ?_⟩
    · rw [Varint.total_eq_weigh]
      exact Varint.weigh_encode count
    · intro form hform htotal
      rw [Varint.total_eq_weigh] at htotal
      subst htotal
      exact Varint.shortest_encode hform

def bodyLength (version : GorillaVersion) (bits : Nat) : Nat :=
  match version with
  | .v1 => (bits + 7) / 8
  | .v2 => bits / 8 + 1

/-- The pad is known from the lengths. -/
theorem toBits_body_eq (version : GorillaVersion) (bits : List Bool) :
    (body version bits).length = bodyLength version bits.length ∧ Bytes.toBits (body version bits) =
      bits ++ List.replicate (8 * (body version bits).length - bits.length) false := by
  obtain ⟨pad, hleaves, hzeros, hbody⟩ := toBits_body version bits
  have hlength := congrArg List.length hbody
  rw [Bytes.length_toBits, List.length_append] at hlength
  refine ⟨?_, ?_⟩
  · cases version with
    | v1 =>
      have hlt : pad.length < 8 := hleaves
      show _ = (bits.length + 7) / 8
      omega
    | v2 =>
      have hbounds : 0 < pad.length ∧ pad.length ≤ 8 := hleaves
      show _ = bits.length / 8 + 1
      omega
  · rw [hlength, Nat.add_sub_cancel_left, ← hzeros]
    exact hbody

/-- What a fresh encoder makes of some values: bits, and a payload of the count and these bits,
    which are filled up with zeros to whole bytes. -/
structure Streams (version : GorillaVersion) (t : NumberType) (values : List Value) (bits : List Bool) : Prop where
  written : ∃ e : Encoder, e.out.toBits = bits ∧
    values.foldlM EncoderState.push (.gorilla { version := version, dataType := t }) = .ok (.gorilla e)
  flushed : ∃ bytes : Bytes, bytes.length = bodyLength version bits.length ∧
    bytes.toBits = bits ++ List.replicate (8 * bytes.length - bits.length) false ∧
    (EncoderState.gorilla { version := version, dataType := t }).payload values =
      .ok (countHeader version values.length ++ bytes)
  counted : Counts version values.length (countHeader version values.length)

variable {t : NumberType} {first : Nat}

/-- What a fresh encoder has kept, and what it flushes: the first pattern and the codes. -/
theorem exists_encoder (version : GorillaVersion) (hc : Accepts version (values.length + 1))
    (h : ∀ n ∈ first :: values, n < 2 ^ t.width) :
    ∃ e : Encoder, ((first :: values).map (.ofBits (.number t))).foldlM EncoderState.push
        (.gorilla { version := version, dataType := t }) = .ok (.gorilla e) ∧
      e.window? = (codes t.width first none values).foldl Code.window? none ∧
      e.out.toBits = bitsOf t.width first ++ (codes t.width first none values).flatMap (Code.bits version t.width) ∧
      e.flush.1 = countHeader version (values.length + 1) ++ body version (bitsOf t.width first ++
        (codes t.width first none values).flatMap (Code.bits version t.width)) := by
  obtain ⟨previous, he⟩ := Encoder.foldlM_push_cons t first hc
  have hpush := EncoderState.foldlM_push_gorilla { version := version, dataType := t } h
  rw [he, codeBits_eq] at hpush
  refine ⟨_, hpush, rfl, ?_, ?_⟩
  · rw [BitWriter.toBits_write]
    rfl
  · cases version <;> rfl

theorem streams_codes (hc : Accepts version (values.length + 1)) (h : ∀ n ∈ first :: values, n < 2 ^ t.width) :
    Streams version t ((first :: values).map (.ofBits (.number t)))
      (bitsOf t.width first ++ (codes t.width first none values).flatMap (Code.bits version t.width)) := by
  obtain ⟨e, hpush, -, hbits, hflush⟩ := exists_encoder version hc h
  have hwrites : (EncoderState.gorilla { version := version, dataType := t }).Writes
      ((first :: values).map (.ofBits (.number t))) e.flush.1 := ⟨_, hpush, rfl⟩
  obtain ⟨hlength, hbody⟩ := toBits_body_eq version
    (bitsOf t.width first ++ (codes t.width first none values).flatMap (Code.bits version t.width))
  refine ⟨⟨e, hbits, hpush⟩, ⟨_, hlength, hbody, ?_⟩, ?_⟩
  · rw [List.length_map, List.length_cons, ← hflush]
    exact hwrites.payload_eq
  · rw [List.length_map, List.length_cons]
    exact counts_countHeader hc

theorem forall_mem_cons_take {P : Nat → Prop} (h : ∀ n ∈ first :: values, P n) (count : Nat) :
    ∀ n ∈ first :: values.take count, P n := by
  intro n hn
  rw [← List.take_succ_cons] at hn
  exact h n (List.mem_of_mem_take hn)

/-- A copy of a pattern adds a bit to the stream, behind the code of that pattern. -/
theorem streams_insertIdx (hc : Accepts version (values.length + 2)) (h : ∀ n ∈ first :: values, n < 2 ^ t.width)
    {i : Nat} (hi : i < (first :: values).length)
    (hcopy : ∀ n ∈ first :: values.insertIdx i (first :: values)[i], n < 2 ^ t.width) :
    ∃ before behind, Streams version t ((first :: values.take i).map (.ofBits (.number t))) before ∧
      Streams version t ((first :: values).map (.ofBits (.number t))) (before ++ behind) ∧
      Streams version t ((first :: values.insertIdx i (first :: values)[i]).map (.ofBits (.number t)))
        (before ++ false :: behind) := by
  have hle : i ≤ values.length := Nat.le_of_lt_succ hi
  have hfew : (values.take i).length + 1 ≤ values.length + 2 := by
    rw [List.length_take]
    omega
  have hmore : (values.insertIdx i (first :: values)[i]).length + 1 ≤ values.length + 2 := by
    rw [List.length_insertIdx_of_le_length hle]
  have hbefore := streams_codes (hc.mono hfew) (forall_mem_cons_take h i)
  have hwhole := streams_codes (hc.mono (Nat.le_succ _)) h
  have hlonger := streams_codes (hc.mono hmore) hcopy
  rw [codes_take] at hbefore
  rw [← List.take_append_drop i (codes t.width first none values), List.flatMap_append, ← List.append_assoc] at hwhole
  rw [codes_insertIdx hi, List.flatMap_append, List.flatMap_cons, ← List.append_assoc] at hlonger
  exact ⟨_, _, hbefore, hwhole, hlonger⟩

/-- More values than the first version can count have no payload. -/
theorem payload_of_full (h : ∀ n ∈ values, n < 2 ^ t.width) (hfull : maxCount < values.length) :
    (EncoderState.gorilla { version := .v1, dataType := t }).payload (values.map (.ofBits (.number t))) =
      .error (.overflow .valueCount) := by
  have herror : values.foldlM Encoder.push { version := .v1, dataType := t } = .error (.overflow .valueCount) := by
    apply Encoder.foldlM_push_of_full rfl (Nat.zero_le _)
    rw [Nat.zero_add]
    exact hfull
  rw [EncoderState.payload, EncoderState.foldlM_push_gorilla _ h, herror]
  rfl

/-! ## Versions -/

/-- The bits of a code in the two versions. They differ in the size of a new window at most, which
    the second version writes as one less, modulo the range of the field. -/
inductive Code.Twins (width : Nat) : Code → List Bool → List Bool → Prop
  | same : Twins width .same [false] [false]
  | inside {window : Window} {bits : Nat} : Twins width (.inside window bits)
      ([true, false] ++ bitsOf (window.size width) bits) ([true, false] ++ bitsOf (window.size width) bits)
  | fresh {window : Window} {bits field : Nat} (hvalid : window.Valid width)
    (hfield : field = window.size width % 2 ^ fieldWidth width) :
    Twins width (.fresh window bits)
      ([true, true] ++ bitsOf (fieldWidth width) window.leading ++ bitsOf (fieldWidth width) field ++
        bitsOf (window.size width) bits)
      ([true, true] ++ bitsOf (fieldWidth width) window.leading ++
        bitsOf (fieldWidth width) ((field + (2 ^ fieldWidth width - 1)) % 2 ^ fieldWidth width) ++
        bitsOf (window.size width) bits)

theorem Code.Twins.length_eq {code : Code} {bits others : List Bool} (h : code.Twins width bits others) :
    bits.length = others.length := by
  cases h with
  | same => rfl
  | inside => rfl
  | fresh => simp only [List.length_append, length_bitsOf]

/-- The full width is 0 in the first version, and the greatest number of the field in the second. -/
theorem sizeField_v2 {size : Nat} (hf : 2 ^ fieldWidth width = width) (hpos : 0 < size) (hle : size ≤ width) :
    sizeField .v2 width size = (sizeField .v1 width size + (2 ^ fieldWidth width - 1)) % 2 ^ fieldWidth width := by
  show size - 1 = (size % 2 ^ fieldWidth width + (2 ^ fieldWidth width - 1)) % 2 ^ fieldWidth width
  rw [hf, Nat.mod_add_mod]
  have hsum : size + (width - 1) = size - 1 + width := by omega
  rw [hsum, Nat.add_mod_right, Nat.mod_eq_of_lt (by omega)]

theorem Code.twins {code : Code} {difference : Nat} (hf : 2 ^ fieldWidth width = width)
    (h : code.Describes width window? difference) : code.Twins width (code.bits .v1 width) (code.bits .v2 width) := by
  cases h with
  | same => exact .same
  | inside => exact .inside
  | @fresh window bits hvalid =>
    have hpos : 0 < window.size width := by
      unfold Window.Valid at hvalid
      unfold Window.size
      omega
    have hle : window.size width ≤ width := by
      unfold Window.size
      omega
    rw [Code.bits, Code.bits, sizeField_v2 hf hpos hle]
    exact .fresh hvalid rfl

theorem Code.twins_of_mem_codes (hf : 2 ^ fieldWidth width = width) (hw : ∀ w ∈ window?, w.Valid width)
    (hprevious : previous < 2 ^ width) (h : ∀ n ∈ values, n < 2 ^ width) :
    ∀ code ∈ codes width previous window? values, code.Twins width (code.bits .v1 width) (code.bits .v2 width) := by
  induction values generalizing previous window? with
  | nil => simp [codes]
  | cons value values ih =>
    obtain ⟨hvalue, h⟩ := List.forall_mem_cons.1 h
    have hdescribes := Code.describes_of hw (Nat.xor_lt_two_pow hvalue hprevious)
    exact List.forall_mem_cons.2 ⟨Code.twins hf hdescribes, ih (hdescribes.valid_window hw) hvalue h⟩

theorem length_flatMap_bits {row : List Code}
    (h : ∀ code ∈ row, code.Twins width (code.bits .v1 width) (code.bits .v2 width)) :
    (row.flatMap (Code.bits .v1 width)).length = (row.flatMap (Code.bits .v2 width)).length := by
  rw [List.length_flatMap, List.length_flatMap, List.map_congr_left fun code hcode => (h code hcode).length_eq]

end Gorilla

open Gorilla (Streams)

/-- Wherever a value stands, a copy of it behind it costs one bit: behind its code there is one 0
    more, and no other bit changes. Only a stream that is full does not take it. -/
theorem gorilla_repeat_costs_one_bit (version : GorillaVersion) (t : NumberType) {values : List Value}
    (hv : ∀ v ∈ values, v.dataType = .fixed (.number t)) {i : Nat} (hi : i < values.length) :
    (∃ before behind, Streams version t (values.take (i + 1)) before ∧
        Streams version t values (before ++ behind) ∧
        Streams version t (values.insertIdx (i + 1) values[i]) (before ++ false :: behind)) ∨
      version = .v1 ∧ Gorilla.maxCount ≤ values.length ∧
        (EncoderState.gorilla { version := version, dataType := t }).payload (values.insertIdx (i + 1) values[i]) =
          .error (.overflow .valueCount) := by
  obtain ⟨patterns, hlt, rfl⟩ := Value.exists_patterns hv
  cases patterns with
  | nil => exact absurd hi (Nat.not_lt_zero i)
  | cons first patterns =>
    rw [List.length_map] at hi
    have hcopy : ∀ n ∈ first :: patterns.insertIdx i (first :: patterns)[i], n < 2 ^ t.width := by
      intro n hn
      rw [← List.insertIdx_succ_cons] at hn
      rcases List.eq_or_mem_of_mem_insertIdx hn with rfl | hn
      · exact hlt _ (List.getElem_mem hi)
      · exact hlt n hn
    rw [List.getElem_map, ← List.map_insertIdx, List.insertIdx_succ_cons, ← List.map_take, List.take_succ_cons]
    by_cases hroom : Gorilla.Accepts version (patterns.length + 2)
    · exact .inl (Gorilla.streams_insertIdx hroom hlt hi hcopy)
    · obtain ⟨hversion, hfull⟩ := Classical.not_imp.1 hroom
      subst hversion
      refine .inr ⟨rfl, ?_, Gorilla.payload_of_full hcopy ?_⟩
      · rw [List.length_map, List.length_cons]
        omega
      · rw [List.length_cons, List.length_insertIdx_of_le_length (Nat.le_of_lt_succ hi)]
        omega

/-- The 3 that stands in the middle, once more. -/
theorem gorilla_repeat_costs_one_bit_int32 :
    ∃ before behind, Streams .v1 .int32 [.int32 1, .int32 3] before ∧
      Streams .v1 .int32 [.int32 1, .int32 3, .int32 2] (before ++ behind) ∧
      Streams .v1 .int32 [.int32 1, .int32 3, .int32 3, .int32 2] (before ++ false :: behind) := by
  have hv : ∀ v ∈ [.int32 1, .int32 3, .int32 2], Value.dataType v = .fixed (.number .int32) := by decide
  have hi : 1 < [Value.int32 1, .int32 3, .int32 2].length := by decide
  rcases gorilla_repeat_costs_one_bit .v1 .int32 hv hi with h | ⟨-, hfull, -⟩
  · exact h
  · exact absurd hfull (by decide)

/-- The two versions write the same codes. After each value they keep the same window and have
    written as many bits, which differ in the sizes of new windows only. -/
theorem gorilla_versions_write_same_codes (t : NumberType) {values : List Value}
    (hv : ∀ v ∈ values, v.dataType = .fixed (.number t)) (hne : values ≠ []) (hc : values.length ≤ Gorilla.maxCount) :
    ∃ (first : Nat) (codes : List Gorilla.Code), codes.length + 1 = values.length ∧
      (∀ code ∈ codes, code.Twins t.width (code.bits .v1 t.width) (code.bits .v2 t.width)) ∧
      ∀ count, count ≤ codes.length → ∃ e e' : Gorilla.Encoder,
        (values.take (count + 1)).foldlM EncoderState.push (.gorilla { version := .v1, dataType := t }) =
          .ok (.gorilla e) ∧
        (values.take (count + 1)).foldlM EncoderState.push (.gorilla { version := .v2, dataType := t }) =
          .ok (.gorilla e') ∧
        e.window? = e'.window? ∧ e.out.toBits.length = e'.out.toBits.length ∧
        e.out.toBits = bitsOf t.width first ++ (codes.take count).flatMap (Gorilla.Code.bits .v1 t.width) ∧
        e'.out.toBits = bitsOf t.width first ++ (codes.take count).flatMap (Gorilla.Code.bits .v2 t.width) := by
  obtain ⟨patterns, hlt, rfl⟩ := Value.exists_patterns hv
  cases patterns with
  | nil => exact absurd rfl hne
  | cons first patterns =>
    rw [List.length_map, List.length_cons] at hc
    obtain ⟨hfirst, hrest⟩ := List.forall_mem_cons.1 hlt
    have hnone : ∀ w ∈ (none : Option Gorilla.Window), w.Valid t.width := by simp
    have htwins := Gorilla.Code.twins_of_mem_codes (Gorilla.two_pow_fieldWidth t) hnone hfirst hrest
    refine ⟨first, Gorilla.codes t.width first none patterns, ?_, htwins, ?_⟩
    · rw [Gorilla.length_codes, List.length_map, List.length_cons]
    intro count _
    have hfront := Gorilla.forall_mem_cons_take hlt count
    have hroom : (patterns.take count).length + 1 ≤ Gorilla.maxCount := by
      rw [List.length_take]
      omega
    obtain ⟨e, he, hwindow, hbits, -⟩ := Gorilla.exists_encoder .v1 (fun _ => hroom) hfront
    obtain ⟨e', he', hwindow', hbits', -⟩ := Gorilla.exists_encoder .v2 (fun _ => hroom) hfront
    rw [Gorilla.codes_take] at hbits hbits'
    have hlength : e.out.toBits.length = e'.out.toBits.length := by
      rw [hbits, hbits', List.length_append, List.length_append,
        Gorilla.length_flatMap_bits fun code hcode => htwins code (List.mem_of_mem_take hcode)]
    rw [← List.map_take, List.take_succ_cons]
    exact ⟨e, e', he, he', hwindow.trans hwindow'.symm, hlength, hbits, hbits'⟩

/-- A difference of the whole width, whose size the first version writes as 0. -/
theorem gorilla_versions_write_same_codes_int32 :
    ∃ (first : Nat) (code : Gorilla.Code) (e e' : Gorilla.Encoder),
      code.Twins 32 (code.bits .v1 32) (code.bits .v2 32) ∧
      [.int32 0, .int32 (-2147483647)].foldlM EncoderState.push (.gorilla { version := .v1, dataType := .int32 }) =
        .ok (.gorilla e) ∧
      [.int32 0, .int32 (-2147483647)].foldlM EncoderState.push (.gorilla { version := .v2, dataType := .int32 }) =
        .ok (.gorilla e') ∧
      e.window? = e'.window? ∧ e.out.toBits = bitsOf 32 first ++ code.bits .v1 32 ∧
      e'.out.toBits = bitsOf 32 first ++ code.bits .v2 32 := by
  have hv : ∀ v ∈ [.int32 0, .int32 (-2147483647)], Value.dataType v = .fixed (.number .int32) := by decide
  obtain ⟨first, codes, hlength, htwins, h⟩ := gorilla_versions_write_same_codes .int32 hv (by decide) (by decide)
  obtain ⟨code, rfl⟩ := List.length_eq_one_iff.1 (Nat.succ.inj hlength)
  obtain ⟨e, e', he, he', hwindow, -, hbits, hbits'⟩ := h 1 (Nat.le_refl 1)
  have hone : [code].take 1 = [code] := rfl
  rw [hone, List.flatMap_singleton] at hbits hbits'
  exact ⟨first, code, e, e', htwins code List.mem_cons_self, he, he', hwindow, hbits, hbits'⟩

end Chronicle
