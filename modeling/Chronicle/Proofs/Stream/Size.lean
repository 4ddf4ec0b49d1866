/-
  Chronicle.Proofs.Stream.Size — how long a payload can get.

  No encoding takes more than 22 bytes for a number or a boolean, besides a few for the head of the stream.
  The worst is RLE, with a segment and a group for a literal on its own. The bound is a coarse one. It is
  needed for one thing only: that the lengths which a page says of its streams are numbers of 64 bits,
  whatever values there are, as long as these can be counted.

  Only texts take as much as they like (`length_encode_le`). A text is not longer than what it is written
  as, so a payload of 64 bits has texts of such lengths (`sized_of_length_lt`).
-/

import Chronicle.Proofs.Stream.Delta
import Chronicle.Proofs.Stream.Gorilla
import Chronicle.Proofs.Column.Value
import Chronicle.Proofs.Stream.RunLength

namespace Chronicle

/-- A bound that holds for every piece holds for all of them together. -/
theorem length_flatMap_le {α β γ : Type} {f : α → List β} {g : α → List γ} {k : Nat} {pieces : List α}
    (h : ∀ a ∈ pieces, (f a).length ≤ k * (g a).length) : (pieces.flatMap f).length ≤ k * (pieces.flatMap g).length := by
  induction pieces with
  | nil => exact Nat.zero_le _
  | cons a pieces ih =>
    obtain ⟨ha, h⟩ := List.forall_mem_cons.1 h
    have := ih h
    rw [List.flatMap_cons, List.flatMap_cons, List.length_append, List.length_append, Nat.mul_add]
    omega

/-- Bits take as many bytes as it takes to hold them. -/
theorem length_packBits (bits : List Bool) : (packBits bits).length = (bits.length + 7) / 8 := by
  have h := congrArg List.length (toBits_packBits bits)
  rw [Bytes.length_toBits, List.length_append, List.length_replicate] at h
  omega

theorem length_packBits_le (bits : List Bool) : 8 * (packBits bits).length ≤ bits.length + 7 := by
  rw [length_packBits]
  omega

theorem Packing.length_offsetBits (values : List Int) :
    (of values).offsetBits.length = values.length * (of values).width := by
  rw [offsetBits_of]
  generalize of values = p
  induction values with
  | nil => rw [List.flatMap_nil, List.length_nil, List.length_nil, Nat.zero_mul]
  | cons v values ih =>
    rw [List.flatMap_cons, List.length_append, ih, length_bitsOf, List.length_cons, Nat.add_mul, Nat.one_mul,
      Nat.add_comm]

namespace RunLength

variable {width cap : Nat} {values : List Nat}

theorem length_groupBits_le (hw : width ≤ 64) (hpos : 0 < values.length) (hv : ∀ v ∈ values, v < 2 ^ width) :
    (groupBits width values).length ≤ 135 * values.length := by
  have hle : (Packing.of (values.map (signedOf width))).width ≤ 64 := Nat.le_trans (packing_width_le hv) hw
  have hoffsets := Packing.length_offsetBits (values.map (signedOf width))
  rw [List.length_map] at hoffsets
  have hbits : values.length * (Packing.of (values.map (signedOf width))).width ≤ values.length * 64 :=
    Nat.mul_le_mul_left _ hle
  unfold groupBits
  simp only [List.length_append, length_bitsOf]
  omega

theorem length_packBits_segment_le (hw : width ≤ 64) {s : Segment} (hs : s.Fits width) :
    (packBits (s.bits width)).length ≤ 22 * s.expand.length := by
  have hpack := length_packBits_le (s.bits width)
  obtain ⟨hpos, -, hlt⟩ := hs
  cases s with
  | run value length =>
    have e : ((Segment.run value length).bits width).length = 32 + width := by
      simp only [Segment.bits, List.length_append, List.length_cons, length_bitsOf]
    rw [e] at hpack
    omega
  | literals values =>
    have hgroups : ((chunks groupSize values).flatMap (groupBits width)).length ≤ 135 * values.length := by
      have hpieces : ∀ piece ∈ chunks groupSize values, (groupBits width piece).length ≤ 135 * (id piece).length := by
        intro piece hp
        refine length_groupBits_le hw (length_le_of_mem_chunks (by decide) hp).1 ?_
        intro v hm
        exact hlt v (mem_of_mem_chunks hp hm)
      have h := length_flatMap_le hpieces
      rw [List.flatMap_id, flatten_chunks] at h
      exact h
    have e : ((Segment.literals values).bits width).length =
        32 + ((chunks groupSize values).flatMap (groupBits width)).length := by
      simp only [Segment.bits, List.length_append, List.length_cons, length_bitsOf]
    rw [e] at hpack
    have hexpand : (Segment.literals values).expand.length = values.length := rfl
    omega

theorem length_payload_le (hw : width ≤ 64) (hpos : 0 < cap) (hcap : cap ≤ maxCap) (hv : ∀ v ∈ values, v < 2 ^ width) :
    (payload width cap values).length ≤ 22 * values.length := by
  have h := length_flatMap_le fun s hs => length_packBits_segment_le hw (fits_of_mem_segments hpos hcap hv hs)
  rw [expand_segments] at h
  exact h

end RunLength

namespace Delta

variable {width : Nat} {words : List Nat}

theorem length_steps_le (width : Nat) (words : List Nat) : (steps width words).length ≤ words.length := by
  fun_induction steps width words with
  | case1 a b rest ih =>
    rw [List.length_cons, List.length_cons]
    exact Nat.succ_le_succ ih
  | case2 => exact Nat.zero_le _

theorem length_packBits_block_le (hw : width ≤ 64) (hpos : 0 < words.length) :
    (packBits (blockBits width words)).length ≤ 22 * words.length := by
  have hpack := length_packBits_le (blockBits width words)
  obtain ⟨first, words, rfl⟩ := List.exists_cons_of_length_pos hpos
  cases words with
  | nil =>
    have e : (blockBits width [first]).length = 4 + width := by
      rw [blockBits, List.length_append, length_bitsOf, length_bitsOf]
    rw [e] at hpack
    rw [List.length_singleton]
    omega
  | cons second words =>
    have hle : (Packing.of (steps width (first :: second :: words))).width ≤ 64 :=
      Nat.le_trans (packing_width_le width _) hw
    have hoffsets := Packing.length_offsetBits (steps width (first :: second :: words))
    have hsteps := length_steps_le width (first :: second :: words)
    have hbits := Nat.mul_le_mul hsteps hle
    rw [← hoffsets] at hbits
    simp only [blockBits, List.length_append, List.length_cons, length_bitsOf] at hpack hbits ⊢
    omega

theorem length_modeBytes_le (t : NumberType) (d : Domain) : (modeBytes t d).length ≤ 9 := by
  unfold modeBytes
  split
  · cases d with
    | pattern => exact (by decide : 1 ≤ 9)
    | fixedPoint scale =>
      rw [List.length_cons, BigEndian.length_toBytes]
      exact Nat.le_refl 9
  · exact Nat.zero_le 9

theorem length_payload_le (t : NumberType) (d : Domain) (words : List Nat) :
    (payload t d words).length ≤ 22 * words.length + 9 := by
  have hw : d.width t ≤ 64 := by
    cases d with
    | pattern => cases t <;> decide
    | fixedPoint scale => exact Nat.le_refl 64
  have hblocks : (blocks (d.width t) words).length ≤ 22 * words.length := by
    have hpieces : ∀ block ∈ chunks blockSize words, (packBits (blockBits (d.width t) block)).length ≤
        22 * (id block).length := by
      intro block hb
      exact length_packBits_block_le hw (length_le_of_mem_chunks (by decide) hb).1
    have h := length_flatMap_le hpieces
    rw [List.flatMap_id, flatten_chunks] at h
    exact h
  have hmode := length_modeBytes_le t d
  unfold payload
  split
  · exact Nat.zero_le _
  · rw [List.length_append]
    omega

end Delta

namespace Gorilla

variable {version : GorillaVersion} {width : Nat}

theorem length_codeBits_le (hw : width ≤ 64) (previous : Nat) (window? : Option Window) (values : List Nat) :
    (codeBits version width previous window? values).length ≤ 78 * values.length := by
  induction values generalizing previous window? with
  | nil => exact Nat.le_refl 0
  | cons value values ih =>
    have hcode (code : Code) : (code.bits version width).length ≤ 78 := by
      have hfield : fieldWidth width ≤ 6 := by
        unfold fieldWidth
        split <;> decide
      cases code with
      | same => exact (by decide : 1 ≤ 78)
      | inside window bits =>
        have : window.size width ≤ width := by unfold Window.size; omega
        simp only [Code.bits, List.length_append, List.length_cons, List.length_nil, length_bitsOf]
        omega
      | fresh window bits =>
        have : window.size width ≤ width := by unfold Window.size; omega
        simp only [Code.bits, List.length_append, List.length_cons, List.length_nil, length_bitsOf]
        omega
    have := hcode (Code.of width window? (value ^^^ previous))
    have := ih value ((Code.of width window? (value ^^^ previous)).window? window?)
    rw [codeBits, List.length_append, List.length_cons]
    omega

theorem length_countHeader_le {count : Nat} (hc : CountFits version count) : (countHeader version count).length ≤ 10 := by
  cases version with
  | v1 =>
    show (Bytes.ofNat 4 count).length ≤ 10
    rw [Bytes.length_ofNat]
    decide
  | v2 =>
    have hlt : count < 2 ^ 64 := hc
    exact Varint.length_encode_le (by omega)

theorem length_payload_le (hw : width ≤ 64) {values : List Nat} (hc : CountFits version values.length) :
    (payload version width values).length ≤ 22 * values.length + 10 := by
  cases values with
  | nil => exact Nat.zero_le _
  | cons value values =>
    obtain ⟨pad, hpad, -, hbody⟩ := toBits_body version (bitsOf width value ++ codeBits version width value none values)
    have hlen := congrArg List.length hbody
    have hcodes : (codeBits version width value none values).length ≤ 78 * values.length :=
      length_codeBits_le hw value none values
    have hheader := length_countHeader_le hc
    have hle := hpad.le
    rw [Bytes.length_toBits, List.length_append, List.length_append, length_bitsOf] at hlen
    rw [payload, List.length_append, List.length_cons]
    rw [List.length_cons] at hheader
    omega

end Gorilla

namespace Plain

/-- Only texts take more than eight bytes. -/
theorem length_encode_le {v : Value} (h : v.dataType ≠ .text) : (encode v).length ≤ 8 := by
  cases v with
  | boolean b => exact (by decide : 1 ≤ 8)
  | int32 v =>
    have := Zigzag.encode_lt v
    have hle : (Varint.encode (Zigzag.encode v)).length ≤ 5 := Varint.length_encode_le (by omega)
    exact Nat.le_trans hle (by decide)
  | int64 v => exact Nat.le_of_eq (BigEndian.length_toBytes v)
  | float v => exact Nat.le_trans (Nat.le_of_eq (BigEndian.length_toBytes v)) (by decide)
  | double v => exact Nat.le_of_eq (BigEndian.length_toBytes v)
  | text bytes => exact absurd rfl h

theorem length_flatMap_encode_le {values : List Value} (h : ∀ v ∈ values, v.dataType ≠ .text) :
    (values.flatMap encode).length ≤ 8 * values.length := by
  have hpieces : ∀ v ∈ values, (encode v).length ≤ 8 * [v].length := by
    intro v hv
    exact length_encode_le (h v hv)
  have h := length_flatMap_le hpieces
  rw [List.flatMap_singleton'] at h
  exact h

/-- A text is not longer than what it is written as. -/
theorem sized_of_length_lt {values : List Value} (h : (values.flatMap encode).length < 2 ^ 64) :
    ∀ v ∈ values, v.Sized := by
  intro v hv
  have hle : (encode v).length ≤ (values.flatMap encode).length := by
    obtain ⟨before, after, rfl⟩ := List.append_of_mem hv
    simp only [List.flatMap_append, List.flatMap_cons, List.length_append]
    omega
  cases v with
  | text bytes =>
    have e : (encode (.text bytes)).length = (Varint.encode bytes.length).length + bytes.length := List.length_append
    show bytes.length < 2 ^ 64
    omega
  | _ => trivial

end Plain

end Chronicle
