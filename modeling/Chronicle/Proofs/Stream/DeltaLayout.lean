/-
  Chronicle.Proofs.Stream.DeltaLayout — the blocks of TS_2DIFF, bit by bit and byte by byte.

  A block is described here apart from the encoder (`Layout`): the count, the first word and, where there
  are more, the least difference, the width and the differences from the least up, with zeros up to a whole
  byte. Differences are signed and modulo the word size.

  Proved.
  - The width is the number of bits of the largest difference less the smallest, so a block of words at one
    distance from each other has none (`spread_of_progression`).
  - A block that the encoder writes is laid out so (`layout_packBits`), and a payload is such blocks, each
    with the next eight of the words and the last one with the others (`blocks_layout`).

  That the writer on machine words, whose differences wrap around twice, writes the same bytes is in
  `Chronicle.Proofs.Machine.DeltaWriter`, along with the statement that takes all of this together.
-/

import Chronicle.Proofs.Stream.RoundTrip
import Chronicle.Proofs.Stream.Size

namespace Chronicle.Delta

/-! ## What a block is -/

def difference (width a b : Nat) : Int := ((b : Int) - a).bmod (2 ^ width)

def differences (width : Nat) (words : List Nat) : List Int :=
  List.zipWith (difference width) words words.tail

/-- The largest difference less the smallest. -/
def spread (width : Nat) (words : List Nat) : Nat :=
  ((differences width words).max?.getD 0 - (differences width words).min?.getD 0).toNat

/-- What stands behind the first word: the least difference, the width, and for each
    difference what it is more than the least. -/
def fieldsBehind (width : Nat) (words : List Nat) : List Bool :=
  let least := (differences width words).min?.getD 0
  let w := bitLength (spread width words)
  bitsOf width (patternOf width least) ++ bitsOf 7 w ++
    (differences width words).flatMap fun v => bitsOf w (v - least).toNat

def fields (width : Nat) (words : List Nat) : List Bool :=
  bitsOf 4 words.length ++ bitsOf width (words.headD 0) ++
    if words.length < 2 then [] else fieldsBehind width words

/-- Words that are all at the same distance from their predecessors, modulo the word size. -/
def Progression (width : Nat) (words : List Nat) : Prop :=
  ∃ step : Int, ∀ (i a b : Nat), words[i]? = some a → words[i + 1]? = some b →
    (b : Int) % 2 ^ width = (a + step) % 2 ^ width

structure Layout (width : Nat) (words : List Nat) (bytes : Bytes) : Prop where
  toBits_eq : ∃ pad, pad < 8 ∧ bytes.toBits = fields width words ++ List.replicate pad false
  length_of_one : words.length = 1 → bytes.length = (4 + width + 7) / 8
  length_of_more : 2 ≤ words.length →
    bytes.length = (4 + 2 * width + 7 + (words.length - 1) * bitLength (spread width words) + 7) / 8

/-! ## Differences -/

variable {width : Nat} {words : List Nat}

theorem emod_bmod_two_pow (v : Int) (width : Nat) : (v % 2 ^ width).bmod (2 ^ width) = v.bmod (2 ^ width) := by
  have h := Int.emod_bmod v (2 ^ width)
  push_cast at h
  exact h

/-- The differences that are written are those of neighbours. A word of one bit has no sign. -/
theorem steps_eq_differences (hw : 1 < width) (words : List Nat) : steps width words = differences width words := by
  fun_induction steps width words with
  | case1 a b rest ih =>
    have hstep : signedOf width (patternOf width ((b : Int) - a)) = difference width a b := by
      rw [difference, signedOf, if_neg (Nat.not_le.2 hw), cast_patternOf, emod_bmod_two_pow]
    rw [hstep, ih]
    rfl
  | case2 words hshort =>
    rcases words with _ | ⟨a, _ | ⟨b, rest⟩⟩
    · rfl
    · rfl
    · exact absurd rfl (hshort a b rest)

theorem length_differences (width : Nat) (words : List Nat) :
    (differences width words).length = words.length - 1 := by
  rw [differences, List.length_zipWith, List.length_tail]
  omega

theorem mem_differences {v : Int} (hv : v ∈ differences width words) :
    ∃ i a b, words[i]? = some a ∧ words[i + 1]? = some b ∧ v = difference width a b := by
  obtain ⟨i, hi⟩ := List.getElem?_of_mem hv
  rw [differences, List.getElem?_zipWith_eq_some] at hi
  obtain ⟨a, b, ha, hb, rfl⟩ := hi
  rw [List.getElem?_tail] at hb
  exact ⟨i, a, b, ha, hb, rfl⟩

/-- Words at one distance from each other have the same difference everywhere, so none is more
    than the least. -/
theorem spread_of_progression (h : Progression width words) : spread width words = 0 := by
  obtain ⟨step, hstep⟩ := h
  have hall : ∀ v ∈ differences width words, v = step.bmod (2 ^ width) := by
    intro v hv
    obtain ⟨i, a, b, ha, hb, rfl⟩ := mem_differences hv
    have hsame := Int.emod_eq_emod_iff_emod_sub_eq_zero.1 (hstep i a b ha hb)
    rw [show (b : Int) - (a + step) = b - a - step by omega] at hsame
    have hbmod := congrArg (Int.bmod · (2 ^ width)) (Int.emod_eq_emod_iff_emod_sub_eq_zero.2 hsame)
    simp only [emod_bmod_two_pow] at hbmod
    exact hbmod
  unfold spread
  cases hmax : (differences width words).max? with
  | none =>
    rw [List.max?_eq_none_iff.1 hmax]
    rfl
  | some greatest =>
    cases hmin : (differences width words).min? with
    | none => 
      rw [List.min?_eq_none_iff.1 hmin] at hmax
      cases hmax
    | some least =>
      rw [Option.getD_some, Option.getD_some, hall _ (List.max?_mem hmax), hall _ (List.min?_mem hmin), Int.sub_self]
      rfl

/-! ## What is written -/

theorem blockBits_eq_fields (hw : 1 < width) (hne : words ≠ []) : blockBits width words = fields width words := by
  rcases words with _ | ⟨first, _ | ⟨second, rest⟩⟩
  · exact absurd rfl hne
  · simp [blockBits, fields]
  · have hsome : differences width (first :: second :: rest) ≠ [] := List.cons_ne_nil _ _
    have hlen : ¬ (first :: second :: rest).length < 2 := by
      rw [List.length_cons, List.length_cons]
      omega
    rw [fields, if_neg hlen, fieldsBehind, blockBits]
    simp only [steps_eq_differences hw, Packing.offsetBits_of, Packing.width_eq hsome]
    simp only [spread, List.append_assoc]
    rfl

/-- A block that is packed into bytes is laid out as described. -/
theorem layout_packBits (hw : 1 < width) (hne : words ≠ []) : Layout width words (packBits (blockBits width words)) := by
  rw [blockBits_eq_fields hw hne]
  refine ⟨⟨_, Nat.mod_lt _ (by decide), toBits_packBits _⟩, ?_, ?_⟩
  · intro hone
    have hlen : (fields width words).length = 4 + width := by
      rw [fields, if_pos (by omega), List.append_nil, List.length_append, length_bitsOf, length_bitsOf]
    rw [length_packBits, hlen]
  · intro hmany
    have hbehind : (fieldsBehind width words).length =
        width + 7 + (words.length - 1) * bitLength (spread width words) := by
      simp only [fieldsBehind, List.length_append, length_bitsOf, List.length_flatMap, List.map_const',
        List.sum_replicate_nat, length_differences]
    have hlen : (fields width words).length =
        4 + 2 * width + 7 + (words.length - 1) * bitLength (spread width words) := by
      rw [fields, if_neg (by omega), List.length_append, List.length_append, length_bitsOf, length_bitsOf, hbehind]
      omega
    rw [length_packBits, hlen]

/-- The blocks of some words, in eights. -/
theorem blocks_layout (hw : 1 < width) (words : List Nat) :
    ∃ parts : List Bytes, blocks width words = parts.flatten ∧ parts.length = (words.length + 7) / 8 ∧
      ∀ i bytes, parts[i]? = some bytes →
        8 * i < words.length ∧ Layout width ((words.drop (8 * i)).take 8) bytes := by
  refine ⟨(chunks blockSize words).map fun block => packBits (blockBits width block), ?_, ?_, ?_⟩
  · rw [blocks, List.flatMap_def]
  · rw [List.length_map, length_chunks (by decide)]
    rfl
  · intro i bytes hi
    rw [List.getElem?_map, getElem?_chunks (by decide)] at hi
    unfold blockSize at hi
    split at hi
    · next hlt =>
      cases hi
      refine ⟨hlt, layout_packBits hw ?_⟩
      apply List.ne_nil_of_length_pos
      rw [List.length_take, List.length_drop]
      omega
    · cases hi

/-- The payload in the domain of bit patterns. -/
theorem payload_pattern (t : NumberType) (words : List Nat) :
    payload t .pattern words =
      (if (t = .float ∨ t = .double) ∧ words ≠ [] then [0] else []) ++ blocks t.width words := by
  unfold payload
  split
  · next hnil =>
    subst hnil
    simp [blocks_nil]
  · next hne => cases t <;> simp [hne, modeBytes, hasMode, Domain.width]

end Chronicle.Delta
