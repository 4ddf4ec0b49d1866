/-
  Chronicle.Proofs.Block.Compressor — a body that has been compressed is expanded again.

  (1) What is chosen. The elements build the content from the left, whatever places were seen
  (`extend_elementsFrom`): a copy is only written where the bytes have been compared
  (`copyBack_of_repeated`), so the hash by which places are looked up does not matter. Joining literals
  does not change what is built (`extend_joinLiterals`).

  (2) What is written. Each element is read back from its bytes, whatever follows them
  (`element?_toBytes`): a short literal by its tag, a longer one by the bytes behind it. What is built is
  as long as its elements together, so none of them goes past the declared length (`build_flatMap_toBytes`).
  So a block gives its content (`decompress?_compress`).

  (3) What bodies need. `Library.Lossless` is what is asked of any library of blocks: that a block declares
  the length of its content, gives it back, and is not too long. The library of this development is one
  (`Library.lossless`). Of any such library, what is stored gives the body back, and nothing more is known
  of it (`uncompress_of_compress`).
-/

import Mathlib.Algebra.GroupWithZero.Nat
import Chronicle.Block.Compressor
import Chronicle.Proofs.Wire.Varint

namespace Chronicle.Snappy

/-! ## Repetitions -/

theorem matchLength_le (content : Array UInt8) (i j limit : Nat) : matchLength content i j limit ≤ limit := by
  induction limit generalizing i j with
  | zero => exact Nat.le_refl 0
  | succ limit ih =>
    have := ih (i + 1) (j + 1)
    unfold matchLength
    split <;> omega

/-- Bytes that match have been compared. -/
theorem getElem?_of_lt_matchLength {content : Array UInt8} {i j limit k : Nat}
    (hk : k < matchLength content i j limit) : i + k < content.size ∧ content[i + k]? = content[j + k]? := by
  induction limit generalizing i j k with
  | zero => exact absurd hk (Nat.not_lt_zero k)
  | succ limit ih =>
    unfold matchLength at hk
    by_cases h : i < content.size ∧ content[i]? = content[j]?
    · rw [if_pos h] at hk
      cases k with
      | zero => exact h
      | succ k =>
        have := ih (show k < matchLength content (i + 1) (j + 1) limit by omega)
        rw [Nat.add_right_comm i, Nat.add_right_comm j] at this
        exact this
    · rw [if_neg h] at hk
      exact absurd hk (Nat.not_lt_zero k)

def upTo (content : Bytes) (i : Nat) : Array UInt8 := (content.take i).toArray

theorem size_upTo {content : Bytes} {i : Nat} (h : i ≤ content.length) : (upTo content i).size = i := by
  rw [upTo, List.size_toArray, List.length_take, Nat.min_eq_left h]

theorem upTo_append {content : Bytes} {i : Nat} (h : i < content.length) :
    upTo content i ++ [content[i]] = upTo content (i + 1) := by
  apply Array.toList_inj.1
  simp [upTo]

/-- A copy of bytes that have been compared goes on with the content. -/
theorem copyBack_upTo {content : Bytes} {offset i length : Nat} (hpos : 0 < offset) (hle : offset ≤ i)
    (hlen : i + length ≤ content.length) (hm : ∀ k < length, content[i + k]? = content[i - offset + k]?) :
    copyBack offset length (upTo content i) = some (upTo content (i + length)) := by
  induction length generalizing i with
  | zero => rfl
  | succ length ih =>
    have hi : i < content.length := by omega
    have hsize := size_upTo (Nat.le_of_lt hi)
    have hin : ¬ (offset = 0 ∨ (upTo content i).size < offset) := by omega
    have hbyte : (upTo content i)[(upTo content i).size - offset]? = some content[i] := by
      have h0 := hm 0 (Nat.succ_pos length)
      rw [hsize, upTo, List.getElem?_toArray, List.getElem?_take_of_lt (by omega)]
      rw [Nat.add_zero, Nat.add_zero] at h0
      rw [← h0, List.getElem?_eq_getElem hi]
    have hpush : (upTo content i).push content[i] = upTo content (i + 1) := by
      rw [← upTo_append hi]
      simp
    have hlater : ∀ k < length, content[i + 1 + k]? = content[i + 1 - offset + k]? := by
      intro k hk
      have := hm (k + 1) (by omega)
      rw [show i + 1 + k = i + (k + 1) by omega, show i + 1 - offset + k = i - offset + (k + 1) by omega]
      exact this
    have hnext := ih (i := i + 1) (by omega) (by omega) hlater
    rw [copyBack, if_neg hin, hbyte]
    show copyBack offset length ((upTo content i).push content[i]) = _
    rw [hpush, hnext, Nat.add_assoc, Nat.add_comm 1]

/-! ## Elements -/

/-- An element that its tag and the bytes behind it can say, up to the length of a literal. -/
def Element.Sound : Element → Prop
  | literal bytes => bytes ≠ []
  | copy offset length => offset ≤ maxOffset ∧ 0 < length ∧ length ≤ maxMatch

/-- Bytes that have been compared with earlier ones can be copied from there. -/
theorem copyBack_of_matches {content : Bytes} {place i length : Nat} (hpos : 0 < length) (hp : place < i)
    (hm : ∀ k < length, i + k < content.length ∧ content[i + k]? = content[place + k]?) :
    i + length ≤ content.length ∧
      copyBack (i - place) length (upTo content i) = some (upTo content (i + length)) := by
  have hlast := (hm (length - 1) (by omega)).1
  have hend : i + length ≤ content.length := by omega
  refine ⟨hend, copyBack_upTo (by omega) (by omega) hend ?_⟩
  intro k hk
  rw [show i - (i - place) + k = place + k by omega]
  exact (hm k hk).2

/-- Where bytes are repeated, they have been compared, and a copy can reach them. -/
theorem repeated_eq {content : Array UInt8} {place i : Nat} (h : 0 < repeated content place i) :
    (place < i ∧ i - place ≤ maxOffset) ∧ repeated content place i = matchLength content i place maxMatch := by
  unfold repeated at h ⊢
  by_cases hp : place < i ∧ i - place ≤ maxOffset
  · exact ⟨hp, if_pos hp⟩
  · rw [if_neg hp] at h
    exact absurd h (Nat.lt_irrefl 0)

theorem sound_of_repeated {content : Array UInt8} {place i : Nat} (h : 0 < repeated content place i) :
    (Element.copy (i - place) (repeated content place i)).Sound := by
  obtain ⟨⟨-, hoffset⟩, e⟩ := repeated_eq h
  rw [e] at h ⊢
  exact ⟨hoffset, h, matchLength_le ..⟩

/-- A copy that is chosen goes on with the content, not behind its end. -/
theorem copyBack_of_repeated {content : Bytes} {place i : Nat} (h : 0 < repeated content.toArray place i) :
    i + repeated content.toArray place i ≤ content.length ∧
      copyBack (i - place) (repeated content.toArray place i) (upTo content i) =
        some (upTo content (i + repeated content.toArray place i)) := by
  obtain ⟨⟨hp, -⟩, e⟩ := repeated_eq h
  rw [e] at h ⊢
  refine copyBack_of_matches h hp ?_
  intro k hk
  have := getElem?_of_lt_matchLength hk
  rwa [List.size_toArray, List.getElem?_toArray, List.getElem?_toArray] at this

theorem extend_copy {content : Bytes} {place i : Nat} (h : 0 < repeated content.toArray place i)
    (others : List Element) :
    (Element.copy (i - place) (repeated content.toArray place i) :: others).foldlM Element.extend (upTo content i) =
      others.foldlM Element.extend (upTo content (i + repeated content.toArray place i)) := by
  rw [List.foldlM_cons]
  show (copyBack (i - place) (repeated content.toArray place i) (upTo content i) >>= _) = _
  rw [(copyBack_of_repeated h).2]
  rfl

theorem extend_literal {content : Bytes} {i : Nat} (h : i < content.length) (others : List Element) :
    (Element.literal [content[i]] :: others).foldlM Element.extend (upTo content i) =
      others.foldlM Element.extend (upTo content (i + 1)) := by
  rw [List.foldlM_cons]
  show some (upTo content i ++ [content[i]]) >>= _ = _
  rw [upTo_append h]
  rfl

/-- The elements build the content, whatever places were seen. -/
theorem extend_elementsFrom {content : Bytes} (seen : Seen) {i : Nat} (hi : i ≤ content.length) :
    (elementsFrom content.toArray seen i).foldlM Element.extend (upTo content i) = some content.toArray := by
  fun_induction elementsFrom content.toArray seen i with
  | case1 seen i h slot place length hm ih =>
    have hpos : 0 < repeated content.toArray place i := Nat.lt_of_lt_of_le (by decide) hm
    exact (extend_copy hpos _).trans (ih (copyBack_of_repeated hpos).1)
  | case2 seen i h slot place length hm ih =>
    rw [List.size_toArray] at h
    exact (extend_literal h _).trans (ih h)
  | case3 seen i h =>
    rw [List.size_toArray] at h
    rw [upTo, List.take_of_length_le (by omega)]
    rfl

theorem sound_elementsFrom (content : Array UInt8) (seen : Seen) (i : Nat) :
    ∀ e ∈ elementsFrom content seen i, e.Sound := by
  fun_induction elementsFrom content seen i with
  | case1 seen i h slot place length hm ih =>
    have hpos : 0 < repeated content place i := Nat.lt_of_lt_of_le (by decide) hm
    intro e he
    rcases List.mem_cons.1 he with rfl | he
    · exact sound_of_repeated hpos
    · exact ih e he
  | case2 seen i h slot place length hm ih =>
    intro e he
    rcases List.mem_cons.1 he with rfl | he
    · exact List.cons_ne_nil _ _
    · exact ih e he
  | case3 seen i h =>
    intro e he
    exact absurd he List.not_mem_nil

/-- Joining literals does not change what is built. -/
theorem extend_joinLiterals (elements : List Element) (out : Array UInt8) :
    (joinLiterals elements).foldlM Element.extend out = elements.foldlM Element.extend out := by
  fun_induction joinLiterals elements generalizing out with
  | case1 => rfl
  | case2 offset length rest ih =>
    rw [List.foldlM_cons, List.foldlM_cons]
    exact bind_congr fun out => ih out
  | case3 bytes rest more others hj ih =>
    have h := ih (out ++ bytes)
    rw [hj, List.foldlM_cons] at h
    have e : out ++ (bytes ++ more) = out ++ bytes ++ more := by
      apply Array.toList_inj.1
      simp
    rw [List.foldlM_cons, List.foldlM_cons]
    show others.foldlM Element.extend (out ++ (bytes ++ more)) = rest.foldlM Element.extend (out ++ bytes)
    rw [← h, e]
    rfl
  | case4 bytes rest hj ih =>
    rw [List.foldlM_cons, List.foldlM_cons]
    exact bind_congr fun out => ih out

theorem sound_joinLiterals {elements : List Element} (h : ∀ e ∈ elements, e.Sound) :
    ∀ e ∈ joinLiterals elements, e.Sound := by
  fun_induction joinLiterals elements with
  | case1 => exact h
  | case2 offset length rest ih =>
    obtain ⟨hcopy, h⟩ := List.forall_mem_cons.1 h
    exact List.forall_mem_cons.2 ⟨hcopy, ih h⟩
  | case3 bytes rest more others hj ih =>
    obtain ⟨hbytes, h⟩ := List.forall_mem_cons.1 h
    have ih := ih h
    rw [hj] at ih
    exact List.forall_mem_cons.2 ⟨List.append_ne_nil_of_left_ne_nil hbytes _, (List.forall_mem_cons.1 ih).2⟩
  | case4 bytes rest hj ih =>
    obtain ⟨hbytes, h⟩ := List.forall_mem_cons.1 h
    exact List.forall_mem_cons.2 ⟨hbytes, ih h⟩

/-! ## Sizes -/

theorem size_copyBack {offset length : Nat} {out out' : Array UInt8} (h : copyBack offset length out = some out') :
    out'.size = out.size + length := by
  induction length generalizing out with
  | zero =>
    cases h
    rfl
  | succ length ih =>
    rw [copyBack] at h
    split at h
    · cases h
    · split at h
      · have := ih h
        rw [Array.size_push] at this
        omega
      · cases h

theorem size_extend {e : Element} {out out' : Array UInt8} (h : e.extend out = some out') :
    out'.size = out.size + e.length := by
  cases e with
  | literal bytes =>
    cases h
    show (out ++ bytes).size = out.size + bytes.length
    rw [← Array.length_toList, Array.toList_appendList, List.length_append, Array.length_toList]
  | copy offset length => exact size_copyBack h

/-- What is built is as long as its elements together. -/
theorem size_foldlM_extend {elements : List Element} {out out' : Array UInt8}
    (h : elements.foldlM Element.extend out = some out') : out'.size = out.size + (elements.map Element.length).sum := by
  induction elements generalizing out with
  | nil =>
    cases h
    rfl
  | cons e elements ih =>
    rw [List.foldlM_cons] at h
    obtain ⟨next, hn, h⟩ := Option.bind_eq_some_iff.1 h
    have := size_extend hn
    have := ih h
    rw [List.map_cons, List.sum_cons]
    omega

/-! ## Reading elements -/

theorem cut_append {count : Nat} {bytes : Bytes} (h : bytes.length = count) (rest : Bytes) :
    cut count (bytes ++ rest) = some (bytes, ⟨rest, (List.sublist_append_right bytes rest).length_le⟩) := by
  subst h
  simp [cut]

@[simp] theorem length_ofLittleEndian (count n : Nat) : (ofLittleEndian count n).length = count := by
  induction count generalizing n with
  | zero => rfl
  | succ count ih => rw [ofLittleEndian, List.length_cons, ih]

theorem littleEndian_ofLittleEndian {count n : Nat} (h : n < 256 ^ count) :
    littleEndian (ofLittleEndian count n) = n := by
  induction count generalizing n with
  | zero =>
    rw [Nat.pow_zero] at h
    rw [ofLittleEndian, littleEndian]
    omega
  | succ count ih =>
    have e : (UInt8.ofNat n).toNat = n % 256 := by simp
    rw [Nat.pow_succ] at h
    rw [ofLittleEndian, littleEndian, ih (by omega), e]
    omega

theorem lengthBytes_bounds {n : Nat} (h : n < 2 ^ 32) :
    0 < lengthBytes n ∧ lengthBytes n ≤ 4 ∧ n < 256 ^ lengthBytes n := by
  unfold lengthBytes
  split
  · omega
  · split
    · omega
    · split <;> omega

/-- The kind of a tag and what stands above it. -/
theorem tag_parts (high kind : Nat) (hh : high < 64) (hk : kind < 4) :
    (UInt8.ofNat (high * 4 + kind)).toNat % 4 = kind ∧ (UInt8.ofNat (high * 4 + kind)).toNat / 4 = high := by
  have e : (UInt8.ofNat (high * 4 + kind)).toNat = high * 4 + kind := by
    simp
    omega
  rw [e]
  omega

/-- A literal of at most sixty bytes has its length in its tag. -/
theorem element?_short {bytes : Bytes} (hpos : 0 < bytes.length) (hshort : bytes.length - 1 < 60) (rest : Bytes) :
    element? (UInt8.ofNat ((bytes.length - 1) * 4)) (bytes ++ rest) =
      some (.literal bytes, ⟨rest, (List.sublist_append_right bytes rest).length_le⟩) := by
  obtain ⟨hkind, hhigh⟩ := tag_parts (bytes.length - 1) 0 (by omega) (by decide)
  rw [Nat.add_zero] at hkind hhigh
  unfold element?
  rw [hkind]
  dsimp only
  rw [hhigh, if_pos hshort, cut_append (by omega)]
  rfl

/-- A longer one has bytes of their own for its length. -/
theorem element?_long {bytes : Bytes} {count : Nat} (hpos : 0 < bytes.length) (hcount : 0 < count) (hle : count ≤ 4)
    (hlt : bytes.length - 1 < 256 ^ count) (rest : Bytes) :
    ∃ h, element? (UInt8.ofNat ((59 + count) * 4)) (ofLittleEndian count (bytes.length - 1) ++ (bytes ++ rest)) =
      some (.literal bytes, ⟨rest, h⟩) := by
  obtain ⟨hkind, hhigh⟩ := tag_parts (59 + count) 0 (by omega) (by decide)
  rw [Nat.add_zero] at hkind hhigh
  refine ⟨by simp; omega, ?_⟩
  unfold element?
  rw [hkind]
  dsimp only
  rw [hhigh, if_neg (by omega), Nat.add_sub_cancel_left, cut_append (length_ofLittleEndian count _)]
  dsimp only [bind, Option.bind]
  rw [littleEndian_ofLittleEndian hlt, cut_append (by omega)]
  rfl

theorem element?_copy {offset length : Nat} (ho : offset ≤ maxOffset) (hpos : 0 < length) (hmax : length ≤ maxMatch)
    (rest : Bytes) :
    element? (UInt8.ofNat ((length - 1) * 4 + 2)) (ofLittleEndian 2 offset ++ rest) =
      some (.copy offset length, ⟨rest, (List.sublist_append_right _ rest).length_le⟩) := by
  unfold maxOffset at ho
  unfold maxMatch at hmax
  obtain ⟨hkind, hhigh⟩ := tag_parts (length - 1) 2 (by omega) (by decide)
  unfold element?
  rw [hkind]
  dsimp only
  rw [hhigh, cut_append (length_ofLittleEndian 2 offset)]
  dsimp only [bind, Option.bind, pure]
  rw [littleEndian_ofLittleEndian (by omega), Nat.sub_add_cancel hpos]
  rfl

/-- An element is read back from its bytes, whatever follows them. -/
theorem element?_toBytes {e : Element} (hs : e.Sound) (hl : e.length ≤ 2 ^ 32) (rest : Bytes) :
    ∃ tag bytes, ∃ h : rest.length ≤ bytes.length,
      e.toBytes ++ rest = tag :: bytes ∧ element? tag bytes = some (e, ⟨rest, h⟩) := by
  cases e with
  | copy offset length =>
    obtain ⟨ho, hpos, hmax⟩ := hs
    exact ⟨_, _, _, rfl, element?_copy ho hpos hmax rest⟩
  | literal bytes =>
    have hpos : 0 < bytes.length := List.length_pos_iff.2 hs
    have hlen : bytes.length ≤ 2 ^ 32 := hl
    by_cases hshort : bytes.length - 1 < 60
    · refine ⟨_, _, _, ?_, element?_short hpos hshort rest⟩
      rw [Element.toBytes, if_pos hshort]
      rfl
    · obtain ⟨hcount, hle, hlt⟩ := lengthBytes_bounds (show bytes.length - 1 < 2 ^ 32 by omega)
      obtain ⟨h, helement⟩ := element?_long hpos hcount hle hlt rest
      refine ⟨_, _, h, ?_, helement⟩
      rw [Element.toBytes, if_neg hshort]
      simp

/-! ## Blocks -/

/-- The elements of a content that is not too long are read back from its block. -/
theorem build_flatMap_toBytes {elements : List Element} (hs : ∀ e ∈ elements, e.Sound) {limit : Nat}
    (hlimit : limit ≤ 2 ^ 32) {out final : Array UInt8} (h : elements.foldlM Element.extend out = some final)
    (hfinal : final.size ≤ limit) : build limit out (elements.flatMap Element.toBytes) = some final := by
  induction elements generalizing out with
  | nil =>
    cases h
    rw [List.flatMap_nil, build]
  | cons e elements ih =>
    rw [List.foldlM_cons] at h
    obtain ⟨next, hn, h⟩ := Option.bind_eq_some_iff.1 h
    obtain ⟨he, hs⟩ := List.forall_mem_cons.1 hs
    have hsize := size_extend hn
    have hgrow := size_foldlM_extend h
    obtain ⟨tag, bytes, hle, hbytes, helement⟩ :=
      element?_toBytes he (by omega) (elements.flatMap Element.toBytes)
    rw [List.flatMap_cons, hbytes, build, helement]
    dsimp only
    rw [if_neg (by omega), hn]
    exact ih hs h

theorem declaredLength?_compress {content : Bytes} (h : content.length < 2 ^ 32) :
    declaredLength? (compress content) =
      some (content.length, (joinLiterals (elementsFrom content.toArray Seen.empty 0)).flatMap Element.toBytes) := by
  unfold compress
  generalize (joinLiterals (elementsFrom content.toArray Seen.empty 0)).flatMap Element.toBytes = elements
  have hne : (Varint.encode content.length ++ elements).isEmpty = false := by
    simp [Varint.encode_ne_nil]
  have hpull := Varint.pull_encode_append (Nat.lt_trans h (by decide : 2 ^ 32 < 2 ^ 64)) elements
  have hheader : (Varint.encode content.length).length ≤ 5 := Varint.length_encode_le (by omega)
  have hle : (Varint.encode content.length ++ elements).length ≤ elements.length + maxHeaderBytes := by
    rw [List.length_append, maxHeaderBytes]
    omega
  unfold declaredLength?
  rw [hne, if_neg Bool.false_ne_true, hpull]
  dsimp only
  rw [if_pos ⟨h, hle⟩]

/-- The elements of a block build its content. -/
theorem extend_elements (content : Bytes) :
    (joinLiterals (elementsFrom content.toArray Seen.empty 0)).foldlM Element.extend #[] = some content.toArray := by
  rw [extend_joinLiterals]
  exact extend_elementsFrom Seen.empty (Nat.zero_le _)

theorem sound_elements (content : Bytes) : ∀ e ∈ joinLiterals (elementsFrom content.toArray Seen.empty 0), e.Sound :=
  sound_joinLiterals (sound_elementsFrom content.toArray Seen.empty 0)

/-- A block gives back the content it was made of. -/
theorem decompress?_compress {content : Bytes} (h : content.length < 2 ^ 32) :
    decompress? (compress content) = some content := by
  have hne : (compress content).isEmpty = false := by
    simp [compress, Varint.encode_ne_nil]
  have hread := build_flatMap_toBytes (sound_elements content) (Nat.le_of_lt h) (extend_elements content)
    (Nat.le_of_eq List.size_toArray)
  unfold decompress?
  rw [hne, declaredLength?_compress h]
  dsimp only [bind, Option.bind, pure]
  rw [if_neg Bool.false_ne_true, hread]
  dsimp only
  rw [if_pos List.size_toArray]

/-! ## Libraries -/

/-- What is relied on of a library: a block that it made declares the length of the content and
    gives the content back. The length of a block is a machine word. -/
structure Library.Lossless [Library] : Prop where
  length_lt {content block : Bytes} : Library.compress? content = some block → block.length < 2 ^ 64
  declaredLength?_eq {content block : Bytes} :
    Library.compress? content = some block → Library.declaredLength? block = some content.length
  decompress?_eq {content block : Bytes} :
    Library.compress? content = some block → Library.decompress? block = some content

/-- An element takes at most five bytes more than it stands for. -/
theorem length_toBytes_le {e : Element} (hs : e.Sound) (hl : e.length ≤ 2 ^ 32) :
    e.toBytes.length ≤ 6 * e.length := by
  cases e with
  | copy offset length =>
    obtain ⟨-, hpos, -⟩ := hs
    rw [Element.toBytes, List.length_cons, length_ofLittleEndian, Element.length]
    omega
  | literal bytes =>
    have hpos : 0 < bytes.length := List.length_pos_iff.2 hs
    have hlen : bytes.length ≤ 2 ^ 32 := hl
    have hcount := (lengthBytes_bounds (show bytes.length - 1 < 2 ^ 32 by omega)).2.1
    rw [Element.toBytes, Element.length]
    split
    · rw [List.length_cons]
      omega
    · rw [List.length_append, List.length_cons, length_ofLittleEndian]
      omega

theorem length_flatMap_toBytes_le {elements : List Element} (hs : ∀ e ∈ elements, e.Sound)
    (hl : (elements.map Element.length).sum ≤ 2 ^ 32) :
    (elements.flatMap Element.toBytes).length ≤ 6 * (elements.map Element.length).sum := by
  induction elements with
  | nil => exact Nat.le_refl 0
  | cons e elements ih =>
    rw [List.map_cons, List.sum_cons] at hl ⊢
    obtain ⟨he, hs⟩ := List.forall_mem_cons.1 hs
    have := length_toBytes_le he (by omega)
    have := ih hs (by omega)
    rw [List.flatMap_cons, List.length_append]
    omega

theorem length_compress_le {content : Bytes} (h : content.length < 2 ^ 32) :
    (compress content).length ≤ 5 + 6 * content.length := by
  have hheader : (Varint.encode content.length).length ≤ 5 := Varint.length_encode_le (by omega)
  have hsum := size_foldlM_extend (extend_elements content)
  rw [List.size_toArray, List.size_toArray, List.length_nil, Nat.zero_add] at hsum
  have helements := length_flatMap_toBytes_le (sound_elements content) (by omega)
  rw [compress, List.length_append]
  omega

/-- The library of this development is one. -/
theorem Library.lossless : Library.Lossless := by
  have hcompress {content block : Bytes} (h : Library.compress? content = some block) :
      content.length < 2 ^ 32 ∧ block = compress content := by
    have h : (if maxBlockLength content.length < 2 ^ 32 then some (compress content) else none) = some block := h
    unfold maxBlockLength at h
    split at h
    · cases h
      exact ⟨by omega, rfl⟩
    · cases h
  refine ⟨fun {content block} h => ?_, fun {content block} h => ?_, fun {content block} h => ?_⟩
  · obtain ⟨hlt, rfl⟩ := hcompress h
    have := length_compress_le hlt
    omega
  · obtain ⟨hlt, rfl⟩ := hcompress h
    show (Snappy.declaredLength? (compress content)).map Prod.fst = _
    rw [declaredLength?_compress hlt]
    rfl
  · obtain ⟨hlt, rfl⟩ := hcompress h
    exact decompress?_compress hlt

end Chronicle.Snappy

namespace Chronicle.Compressor

variable [Snappy.Library]

theorem compress?_of_compress_snappy {body data : Bytes} (h : compress .snappy body = .ok data) :
    Snappy.Library.compress? body = some data := by
  cases hb : Snappy.Library.compress? body with
  | some block =>
    simp only [compress, hb] at h
    cases h
    rfl
  | none =>
    simp only [compress, hb] at h
    cases h

/-- What is stored gives the body back, if the library of blocks does. -/
theorem uncompress_of_compress (hl : Snappy.Library.Lossless) {c : Compressor} {body data : Bytes}
    (h : c.compress body = .ok data) : c.uncompress data body.length = .ok body := by
  cases c with
  | uncompressed =>
    cases h
    exact if_pos rfl
  | snappy =>
    have hb := compress?_of_compress_snappy h
    have hexpand : expand data body.length = .ok body := by
      unfold expand
      rw [hl.declaredLength?_eq hb]
      dsimp only
      rw [if_neg (not_not_intro rfl), hl.decompress?_eq hb]
    unfold uncompress
    dsimp only
    rw [hexpand]
    exact if_pos rfl

theorem length_compress_lt (hl : Snappy.Library.Lossless) {c : Compressor} {body data : Bytes}
    (h : c.compress body = .ok data) (hb : body.length < 2 ^ 64) : data.length < 2 ^ 64 := by
  cases c with
  | uncompressed =>
    cases h
    exact hb
  | snappy => exact hl.length_lt (compress?_of_compress_snappy h)

end Chronicle.Compressor
