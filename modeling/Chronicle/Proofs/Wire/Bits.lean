/-
  Chronicle.Proofs.Wire.Bits — bit patterns and the numbers they stand for, and packings.

  (1) Patterns. A pattern that is wide enough gives its number back (`numberOf_bitsOf_of_lt`), and any bits
  are the pattern of their number (`bitsOf_numberOf`). A number has as many digits as its size demands
  (`bitLength_le_iff`). Bytes are known by their bits (`toBits_injective`).

  (2) Signs. A signed number is, modulo the weight of the width, the pattern it was read from
  (`signedOf_emod`), and signed numbers of one width lie less than its weight apart (`signedOf_bounds`).

  (3) Packings. The base is one of the integers and below all of them, every offset fits the width
  (`offset_lt`), and the width is what the integers' range asks for, not more (`width_eq`). Modulo the word
  size it does not matter that only the pattern of the base is written (`patternOf_base_add_offset`).

  (4) Pieces. A list is cut into pieces that begin at the multiples of the size (`getElem?_chunks`,
  `length_chunks`).
-/

import Chronicle.Wire.BitWriter
import Chronicle.Wire.Bits

namespace Chronicle

/-! ## Patterns -/

theorem numberOf_bitsOf_of_lt {count n : Nat} (h : n < 2 ^ count) : numberOf (bitsOf count n) = n := by
  rw [numberOf_bitsOf, Nat.mod_eq_of_lt h]

theorem bitsOf_injective {count a b : Nat} (ha : a < 2 ^ count) (hb : b < 2 ^ count)
    (h : bitsOf count a = bitsOf count b) : a = b := by
  rw [← numberOf_bitsOf_of_lt ha, h, numberOf_bitsOf_of_lt hb]

/-- A pattern is that of its upper bits and that of its lower bits. -/
theorem bitsOf_add (a b n : Nat) : bitsOf (a + b) n = bitsOf a (n / 2 ^ b) ++ bitsOf b n := by
  induction a with
  | zero => rw [Nat.zero_add, bitsOf_zero, List.nil_append]
  | succ a ih =>
    rw [Nat.succ_add, bitsOf, bitsOf, ih, Nat.testBit_div_two_pow]
    rfl

theorem numberOf_lt (bits : List Bool) : numberOf bits < 2 ^ bits.length := by
  induction bits with
  | nil => decide
  | cons b bits ih =>
    rw [numberOf_cons, List.length_cons, Nat.pow_succ]
    have hb : b.toNat * 2 ^ bits.length ≤ 1 * 2 ^ bits.length := Nat.mul_le_mul_right _ b.toNat_le
    omega

/-- Bits are the pattern of the number that they write. -/
theorem bitsOf_numberOf (bits : List Bool) : bitsOf bits.length (numberOf bits) = bits := by
  induction bits with
  | nil => rfl
  | cons b bits ih =>
    have hlt := numberOf_lt bits
    have hlow : numberOf (b :: bits) % 2 ^ bits.length = numberOf bits := by
      rw [numberOf_cons, Nat.mul_comm, Nat.mul_add_mod, Nat.mod_eq_of_lt hlt]
    have hhigh : (numberOf (b :: bits)).testBit bits.length = b := by
      rw [numberOf_cons, Nat.mul_comm, Nat.testBit_two_pow_mul_add _ hlt, if_neg (Nat.lt_irrefl _), Nat.sub_self]
      cases b <;> rfl
    rw [List.length_cons, bitsOf, hhigh, ← bitsOf_mod (Nat.le_refl _), hlow, ih]

/-- Bits that are enough begin with the pattern of a number. -/
theorem exists_number {count : Nat} {bits : List Bool} (h : count ≤ bits.length) :
    ∃ n rest, n < 2 ^ count ∧ bits = bitsOf count n ++ rest := by
  have hlen : (bits.take count).length = count := by
    rw [List.length_take]
    omega
  have hlt := numberOf_lt (bits.take count)
  have hbits := bitsOf_numberOf (bits.take count)
  rw [hlen] at hlt hbits
  exact ⟨_, bits.drop count, hlt, by rw [hbits, List.take_append_drop]⟩

/-! ## Digits -/

theorem bitLength_le_iff {n k : Nat} : bitLength n ≤ k ↔ n < 2 ^ k := by
  unfold bitLength
  by_cases h : n = 0
  · rw [if_pos h, h]
    exact ⟨fun _ => Nat.two_pow_pos k, fun _ => Nat.zero_le k⟩
  · rw [if_neg h, ← Nat.log2_lt h]
    exact Nat.succ_le_iff

theorem lt_two_pow_bitLength (n : Nat) : n < 2 ^ bitLength n := bitLength_le_iff.1 (Nat.le_refl _)

/-! ## Zeros at both ends -/

theorem two_pow_trailingZeros_dvd (width n : Nat) : 2 ^ trailingZeros width n ∣ n := by
  induction width generalizing n with
  | zero => exact Nat.one_dvd n
  | succ width ih =>
    rw [trailingZeros]
    by_cases h : n % 2 = 1
    · rw [if_pos h]
      exact Nat.one_dvd n
    · have e : 2 * (n / 2) = n := by omega
      have hd := Nat.mul_dvd_mul_left 2 (ih (n / 2))
      rw [e] at hd
      rw [if_neg h, Nat.pow_add, Nat.pow_one]
      exact hd

/-- The zeros at the two ends leave a digit between them. -/
theorem leadingZeros_add_trailingZeros_lt {width n : Nat} (h0 : n ≠ 0) (h : n < 2 ^ width) :
    leadingZeros width n + trailingZeros width n < width := by
  have hle : bitLength n ≤ width := bitLength_le_iff.2 h
  have hlt : trailingZeros width n < bitLength n := by
    refine Nat.lt_of_not_le fun hb => ?_
    have hsmall : n < 2 ^ trailingZeros width n := bitLength_le_iff.1 hb
    exact Nat.not_lt.2 (Nat.le_of_dvd (Nat.pos_of_ne_zero h0) (two_pow_trailingZeros_dvd width n)) hsmall
  unfold leadingZeros
  omega

theorem lt_two_pow_sub_leadingZeros {width n : Nat} (h : n < 2 ^ width) : n < 2 ^ (width - leadingZeros width n) := by
  have hle : bitLength n ≤ width := bitLength_le_iff.2 h
  rw [leadingZeros, Nat.sub_sub_self hle]
  exact lt_two_pow_bitLength n

/-! ## Signed numbers -/

theorem two_pow_int_pos (width : Nat) : (0 : Int) < 2 ^ width := Int.pow_pos (by decide)

theorem cast_patternOf (width : Nat) (v : Int) : (patternOf width v : Int) = v % 2 ^ width :=
  Int.toNat_of_nonneg (Int.emod_nonneg v (Int.ne_of_gt (two_pow_int_pos width)))

theorem patternOf_lt (width : Nat) (v : Int) : patternOf width v < 2 ^ width := by
  have h := Int.emod_lt_of_pos v (two_pow_int_pos width)
  rw [← cast_patternOf] at h
  exact_mod_cast h

theorem patternOf_natCast (width n : Nat) : patternOf width n = n % 2 ^ width := by
  have e : (patternOf width n : Int) = (n % 2 ^ width : Nat) := by
    rw [cast_patternOf]
    push_cast
    rfl
  exact_mod_cast e

/-- Patterns are those of numbers modulo 2^64. -/
theorem patternOf_congr {width : Nat} (hw : width ≤ 64) {u v : Int} (h : u % 2 ^ 64 = v % 2 ^ 64) :
    patternOf width u = patternOf width v := by
  have hdvd : (2 : Int) ^ width ∣ 2 ^ 64 := by exact_mod_cast Nat.pow_dvd_pow 2 hw
  rw [patternOf, patternOf, ← Int.emod_emod_of_dvd u hdvd, ← Int.emod_emod_of_dvd v hdvd, h]

theorem patternOf_of_lt {width : Nat} {v : Int} (h : 0 ≤ v) (hv : v < 2 ^ width) : patternOf width v = v.toNat := by
  rw [patternOf, Int.emod_eq_of_lt h hv]

/-- A signed number differs from its pattern by a multiple of the weight of the width. -/
theorem signedOf_emod (width n : Nat) : signedOf width n % 2 ^ width = (n : Int) % 2 ^ width := by
  unfold signedOf
  by_cases h : width ≤ 1
  · rw [if_pos h]
  · have e : ((2 ^ width : Nat) : Int) = 2 ^ width := by simp
    rw [if_neg h, ← e, Int.bmod_emod]

def leastSigned (width : Nat) : Int := if width ≤ 1 then 0 else -2 ^ (width - 1)

/-- Signed numbers of one width lie less than its weight apart. -/
theorem signedOf_bounds {width n : Nat} (h : n < 2 ^ width) :
    leastSigned width ≤ signedOf width n ∧ signedOf width n < leastSigned width + 2 ^ width := by
  unfold leastSigned signedOf
  by_cases hw : width ≤ 1
  · rw [if_pos hw, if_pos hw]
    have : (n : Int) < 2 ^ width := by exact_mod_cast h
    omega
  · rw [if_neg hw, if_neg hw]
    obtain ⟨k, rfl⟩ : ∃ k, width = k + 1 := ⟨width - 1, by omega⟩
    have pos : 0 < 2 ^ (k + 1) := Nat.two_pow_pos _
    have lo := Int.le_bmod (x := n) pos
    have hi := Int.bmod_lt (x := n) pos
    have e : ((2 ^ (k + 1) : Nat) : Int) = 2 * 2 ^ k := by rw [Nat.pow_succ]; push_cast; omega
    rw [e] at lo hi
    rw [show (2 : Int) ^ (k + 1) = 2 * 2 ^ k by rw [← e]; simp, Nat.add_sub_cancel]
    omega

/-- A pattern that was read as a signed number is written again. -/
theorem patternOf_signedOf {width n : Nat} (h : n < 2 ^ width) : patternOf width (signedOf width n) = n := by
  have e : (patternOf width (signedOf width n) : Int) = n := by
    rw [cast_patternOf, signedOf_emod]
    exact Int.emod_eq_of_lt (Int.natCast_nonneg n) (by exact_mod_cast h)
  exact_mod_cast e

/-- A pattern stands for the signed number that it was made of. -/
theorem signedOf_patternOf {width : Nat} {v : Int} (hlow : leastSigned width ≤ v)
    (hhigh : v < leastSigned width + 2 ^ width) : signedOf width (patternOf width v) = v := by
  obtain ⟨hlow', hhigh'⟩ := signedOf_bounds (patternOf_lt width v)
  have hsame : signedOf width (patternOf width v) % 2 ^ width = v % 2 ^ width := by
    rw [signedOf_emod, cast_patternOf, Int.emod_emod_of_dvd _ (Int.dvd_refl _)]
  -- seen from the least signed number, both are remainders
  have hshift : (signedOf width (patternOf width v) - leastSigned width) % 2 ^ width =
      (v - leastSigned width) % 2 ^ width := by
    rw [Int.sub_emod, hsame, ← Int.sub_emod]
  rw [Int.emod_eq_of_lt (by omega) (by omega), Int.emod_eq_of_lt (by omega) (by omega)] at hshift
  omega

/-! ## Bits of bytes -/

theorem Bytes.toBits_injective {a b : Bytes} (h : Bytes.toBits a = Bytes.toBits b) : a = b := by
  induction a generalizing b with
  | nil =>
    have hl := congrArg List.length h
    rw [Bytes.length_toBits, Bytes.length_toBits, List.length_nil] at hl
    exact (List.eq_nil_of_length_eq_zero (by omega)).symm
  | cons x a ih =>
    cases b with
    | nil =>
      have hl := congrArg List.length h
      rw [Bytes.length_toBits, Bytes.length_toBits] at hl
      simp at hl
    | cons y b =>
      rw [Bytes.toBits_cons, Bytes.toBits_cons] at h
      obtain ⟨hx, ha⟩ := List.append_inj h (by rw [length_bitsOf, length_bitsOf])
      have e : x.toNat = y.toNat := bitsOf_injective x.toNat_lt y.toNat_lt hx
      rw [UInt8.toNat_inj.1 e, ih ha]

/-- A big-endian number is its pattern cut into eights. -/
theorem Bytes.toBits_take (count : Nat) (bytes : Bytes) :
    Bytes.toBits (bytes.take count) = bytes.toBits.take (8 * count) := by
  induction count generalizing bytes with
  | zero => rfl
  | succ count ih =>
    cases bytes with
    | nil => rfl
    | cons b bytes =>
      have hlen : (bitsOf 8 b.toNat).length ≤ 8 * (count + 1) := by
        rw [length_bitsOf]
        omega
      rw [List.take_succ_cons, toBits_cons, toBits_cons, ih, List.take_append, List.take_of_length_le hlen,
        length_bitsOf, Nat.mul_succ, Nat.add_sub_cancel]

theorem Bytes.toBits_ofNat (count n : Nat) : Bytes.toBits (Bytes.ofNat count n) = bitsOf (8 * count) n := by
  induction count generalizing n with
  | zero => rfl
  | succ count ih =>
    have e : (UInt8.ofNat n).toNat = n % 2 ^ 8 := by simp
    have e' : n / 256 = n / 2 ^ 8 := by simp
    rw [Bytes.ofNat, e', Bytes.toBits_append, ih, Bytes.toBits_cons, Bytes.toBits_nil, List.append_nil, e,
      bitsOf_mod (Nat.le_refl 8), Nat.mul_succ, bitsOf_add]

/-! ## Packed bits -/

theorem BitWriter.write_append (w : BitWriter) (bits others : List Bool) :
    w.write (bits ++ others) = (w.write bits).write others :=
  List.foldl_append

theorem BitWriter.used_eq (w : BitWriter) : w.used = w.toBits.length % 8 := by
  have := w.used_lt
  rw [BitWriter.length_toBits, BitWriter.length]
  omega

/-- Packing pads with zeros up to a whole number of bytes. -/
theorem toBits_packBits (bits : List Bool) :
    Bytes.toBits (packBits bits) = bits ++ List.replicate ((8 - bits.length % 8) % 8) false := by
  have e : (BitWriter.empty.write bits).toBits = bits := by
    rw [BitWriter.toBits_write, BitWriter.toBits_empty, List.nil_append]
  rw [packBits, BitWriter.toBits_finish, BitWriter.used_eq, e]

theorem packBits_ne_nil {bits : List Bool} (h : bits ≠ []) : packBits bits ≠ [] := by
  intro e
  have hb := toBits_packBits bits
  rw [e, Bytes.toBits_nil] at hb
  exact h (List.append_eq_nil_iff.1 hb.symm).1

/-! ## Packings -/

namespace Packing

variable {values : List Int} {v : Int}

theorem base_eq_min (h : values ≠ []) : (of values).base ∈ values ∧ ∀ v ∈ values, (of values).base ≤ v := by
  obtain ⟨least, hl⟩ := Option.isSome_iff_exists.1 (List.isSome_min?_of_ne_nil h)
  have e : (of values).base = least := by
    show values.min?.getD 0 = least
    rw [hl, Option.getD_some]
  rw [e]
  exact List.min?_eq_some_iff.1 hl

theorem base_le (h : v ∈ values) : (of values).base ≤ v := (base_eq_min (List.ne_nil_of_mem h)).2 v h

theorem offset_lt (h : v ∈ values) : (v - (of values).base).toNat < 2 ^ (of values).width := by
  apply bitLength_le_iff.1
  apply List.le_max?_getD_of_mem
  exact List.mem_map_of_mem (List.mem_map_of_mem (f := fun v => (v - (of values).base).toNat) h)

theorem width_le {width : Nat} {low : Int} (h : ∀ v ∈ values, low ≤ v ∧ v < low + 2 ^ width) :
    (of values).width ≤ width := by
  show (((of values).offsets.map bitLength).max?.getD 0) ≤ width
  cases hm : ((of values).offsets.map bitLength).max? with
  | none => exact Nat.zero_le width
  | some length =>
    rw [Option.getD_some]
    obtain ⟨offset, ho, rfl⟩ := List.mem_map.1 (List.max?_mem hm)
    obtain ⟨v, hv, rfl⟩ := List.mem_map.1 ho
    have hb := (base_eq_min (List.ne_nil_of_mem hv)).1
    have := h v hv
    have := h _ hb
    have hlt : ((v - (of values).base).toNat : Int) < 2 ^ width := by
      have := base_le hv
      omega
    exact bitLength_le_iff.2 (by exact_mod_cast hlt)

/-- The width is the number of bits of the largest integer less the smallest. -/
theorem width_eq (h : values ≠ []) :
    (of values).width = bitLength (values.max?.getD 0 - values.min?.getD 0).toNat := by
  obtain ⟨greatest, hg⟩ := Option.isSome_iff_exists.1 (List.isSome_max?_of_ne_nil h)
  obtain ⟨hmem, hle⟩ := List.max?_eq_some_iff.1 hg
  rw [hg, Option.getD_some]
  show (of values).width = bitLength (greatest - (of values).base).toNat
  apply Nat.le_antisymm
  · have hlt := lt_two_pow_bitLength (greatest - (of values).base).toNat
    have hbase := base_le hmem
    have hrange : greatest < (of values).base + 2 ^ bitLength (greatest - (of values).base).toNat := by
      have hcast : ((greatest - (of values).base).toNat : Int) < 2 ^ bitLength (greatest - (of values).base).toNat := by
        exact_mod_cast hlt
      omega
    have hwithin : ∀ v ∈ values, (of values).base ≤ v ∧
        v < (of values).base + 2 ^ bitLength (greatest - (of values).base).toNat := by
      intro v hv
      exact ⟨base_le hv, Int.lt_of_le_of_lt (hle v hv) hrange⟩
    exact width_le hwithin
  · exact bitLength_le_iff.2 (offset_lt hmem)

theorem offsetBits_of (values : List Int) :
    (of values).offsetBits = values.flatMap fun v => bitsOf (of values).width (v - (of values).base).toNat := by
  rw [offsetBits, of, List.flatMap_map]

end Packing

/-- A number, the pattern of a base and an offset make the pattern of the number and the integer. -/
theorem patternOf_add_base_add_offset {base v : Int} (n width : Nat) (h : base ≤ v) :
    (n + patternOf width base + (v - base).toNat) % 2 ^ width = patternOf width (n + v) := by
  have e : (((n + patternOf width base + (v - base).toNat) % 2 ^ width : Nat) : Int) = patternOf width (n + v) := by
    rw [cast_patternOf]
    push_cast
    rw [cast_patternOf, Int.toNat_of_nonneg (by omega), Int.add_comm (n : Int), Int.add_assoc, Int.emod_add_emod]
    congr 1
    omega
  exact_mod_cast e

/-- The pattern of a base and an offset make the pattern of the integer. -/
theorem patternOf_base_add_offset {base v : Int} (width : Nat) (h : base ≤ v) :
    (patternOf width base + (v - base).toNat) % 2 ^ width = patternOf width v := by
  have e := patternOf_add_base_add_offset 0 width h
  rw [Nat.zero_add, Int.natCast_zero, Int.zero_add] at e
  exact e

/-! ## Pieces -/

theorem chunks_cons {α : Type} (size : Nat) (a : α) (rest : List α) :
    chunks size (a :: rest) = (a :: rest.take (size - 1)) :: chunks size (rest.drop (size - 1)) := by
  rw [chunks]

theorem chunks_nil {α : Type} (size : Nat) : chunks size ([] : List α) = [] := by
  rw [chunks]

/-- A piece begins at a multiple of the size. -/
theorem getElem?_chunks {α : Type} {size : Nat} (hs : 0 < size) (xs : List α) (i : Nat) :
    (chunks size xs)[i]? = if size * i < xs.length then some ((xs.drop (size * i)).take size) else none := by
  induction i generalizing xs with
  | zero =>
    cases xs with
    | nil => rw [chunks_nil, List.getElem?_nil, if_neg (by simp)]
    | cons a rest =>
      obtain ⟨k, rfl⟩ := Nat.exists_eq_add_of_lt hs
      simp [chunks_cons]
  | succ i ih =>
    cases xs with
    | nil => rw [chunks_nil, List.getElem?_nil, if_neg (by simp)]
    | cons a rest =>
      obtain ⟨k, rfl⟩ := Nat.exists_eq_add_of_lt hs
      rw [chunks_cons, List.getElem?_cons_succ, ih]
      have e : (0 + k + 1) * (i + 1) = (0 + k + 1) * i + k + 1 := by
        rw [Nat.mul_succ]
        omega
      simp only [Nat.add_sub_cancel, List.length_drop, List.length_cons, List.drop_drop, e, List.drop_succ_cons]
      have hcomm : 0 + k + (0 + k + 1) * i = (0 + k + 1) * i + k := by omega
      rw [hcomm]
      by_cases hlt : (0 + k + 1) * i < rest.length - (0 + k)
      · rw [if_pos hlt, if_pos (by omega)]
      · rw [if_neg hlt, if_neg (by omega)]

/-- There are as many pieces as it takes to hold everything. -/
theorem length_chunks {α : Type} {size : Nat} (hs : 0 < size) (xs : List α) :
    (chunks size xs).length = (xs.length + (size - 1)) / size := by
  have hcount (i : Nat) : i < (xs.length + (size - 1)) / size ↔ size * i < xs.length := by
    rw [← Nat.succ_le_iff, Nat.le_div_iff_mul_le hs, Nat.succ_mul, Nat.mul_comm i]
    omega
  have hpiece (i : Nat) : i < (chunks size xs).length ↔ size * i < xs.length := by
    rw [← Nat.not_le, ← List.getElem?_eq_none_iff, getElem?_chunks hs]
    simp
  have hle := (hpiece (chunks size xs).length).trans (hcount _).symm
  have hge := (hpiece ((xs.length + (size - 1)) / size)).trans (hcount _).symm
  omega

theorem mem_of_mem_chunks {α : Type} {size : Nat} {xs piece : List α} (h : piece ∈ chunks size xs) {a : α}
    (ha : a ∈ piece) : a ∈ xs := by
  rw [← flatten_chunks size xs]
  exact List.mem_flatten_of_mem h ha

end Chronicle
