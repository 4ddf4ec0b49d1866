/-
  Chronicle.Proofs.Machine.DeltaWriter — TS_2DIFF written on machine words, in the blocks that are described.

  (1) Differences. One that wraps around at 2^64 has the low bits of the difference, and those are all that is
  written (`toNat_difference`). What a difference is more than the least one may wrap around as well when it is
  taken of signed words, but it is less than the weight of the word size and is found whole behind the mask
  (`map_toNat_offsets`). So a block has the bits that a block has without words (`writeBlock_eq`).

  (2) Stores. The writer is at every call what the encoder is (`Views`): the words of the block that is being
  filled, and whole bytes in the writer of bits. A value that cannot become a word, or is of a width that has
  none, is refused with nothing changed, not even the mode (`encode_keeps`). A flush and a reset leave what they
  leave of the encoder.

  (3) Layout (`delta_block_layout`). No step is trapped, and the payload is the one that is described block by
  block in `Chronicle.Proofs.Stream.DeltaLayout`.
-/

import Chronicle.Machine.DeltaWriter
import Chronicle.Proofs.Machine.Guarded
import Chronicle.Proofs.Machine.RunLengthWriter
import Chronicle.Proofs.Stream.DeltaLayout

namespace Chronicle

/-- A word has 64 bits, also one that a pattern of 32 bits became. -/
theorem Delta.toWord_lt {t : NumberType} {d : Domain} {bits word : Nat} (hbits : bits < 2 ^ t.width)
    (h : toWord t d bits = .ok word) : word < 2 ^ 64 := by
  have hpattern : bits < 2 ^ 64 :=
    Nat.lt_of_lt_of_le hbits (Nat.pow_le_pow_right Nat.two_pos (FixedType.width_le (.number t)))
  unfold toWord at h
  split at h
  · obtain ⟨n, -, h⟩ := exists_of_bind_eq_ok h
    cases h
    exact patternOf_lt 64 n
  · obtain ⟨n, -, h⟩ := exists_of_bind_eq_ok h
    cases h
    exact patternOf_lt 64 n
  · cases h
    exact hpattern

namespace Machine.DeltaWriter

open BitWriter (Holds write_append write_flatMap)
open Guarded (signExtend_eq lowBits64_eq patternOf_toInt toNat_and_mask)

variable {σ : Type} {width : UInt8} {mask : UInt64} {s : σ} {out : BitWriter}

/-! ## Differences -/

/-- A map that keeps the lesser of two keeps the least. -/
theorem min?_map {α β : Type} [Min α] [Min β] {f : α → β} (hf : ∀ a b, f (min a b) = min (f a) (f b))
    (xs : List α) : (xs.map f).min? = xs.min?.map f := by
  cases xs with
  | nil => rfl
  | cons x xs =>
    rw [List.map_cons, List.min?_cons', List.min?_cons', Option.map_some, List.foldl_map]
    exact congrArg some (List.foldl_hom f fun a b => (hf a b).symm)

theorem max?_map {α β : Type} [Max α] [Max β] {f : α → β} (hf : ∀ a b, f (max a b) = max (f a) (f b))
    (xs : List α) : (xs.map f).max? = xs.max?.map f := by
  cases xs with
  | nil => rfl
  | cons x xs =>
    rw [List.map_cons, List.max?_cons', List.max?_cons', Option.map_some, List.foldl_map]
    exact congrArg some (List.foldl_hom f fun a b => (hf a b).symm)

theorem toInt_min (a b : Int64) : (min a b).toInt = min a.toInt b.toInt := by
  show (if a ≤ b then a else b).toInt = if a.toInt ≤ b.toInt then a.toInt else b.toInt
  simp only [Int64.le_iff_toInt_le, apply_ite Int64.toInt]

theorem toNat_bitsRequired (word : UInt64) : (bitsRequired word).toNat = bitLength word.toNat := by
  have hle : bitLength word.toNat ≤ 64 := bitLength_le_iff.2 word.toNat_lt
  rw [bitsRequired, leadingZeros, Nat.sub_sub_self hle, UInt8.toNat_ofNat_of_lt' (Nat.lt_of_le_of_lt hle (by decide))]

/-- A difference modulo 2^64, cut down to the word size. -/
theorem toNat_difference (hw : width.toNat ≤ 64) (hmask : mask.toNat = 2 ^ width.toNat - 1) (a b : UInt64) :
    ((b - a) &&& mask).toNat = patternOf width.toNat ((b.toNat : Int) - a.toNat) := by
  have hlt := a.toNat_lt
  rw [toNat_and_mask hmask, ← patternOf_natCast]
  apply patternOf_congr hw
  rw [UInt64.toNat_sub]
  omega

/-- The same of signed words. -/
theorem toNat_difference_signed (hw : width.toNat ≤ 64) (hmask : mask.toNat = 2 ^ width.toNat - 1) (a b : Int64) :
    ((b - a).toUInt64 &&& mask).toNat = patternOf width.toNat (b.toInt - a.toInt) := by
  rw [toNat_and_mask hmask, ← patternOf_toInt hw]
  apply patternOf_congr hw
  rw [Int64.toInt_sub]
  exact Int.bmod_emod

theorem differences_eq (hw : width.toNat ≤ 64) (hmask : mask.toNat = 2 ^ width.toNat - 1) (words : List UInt64) :
    ∃ values, differences width mask words s = .ok values s ∧
      values.map Int64.toInt = Delta.steps width.toNat (words.map UInt64.toNat) := by
  fun_induction differences (σ := σ) width mask words with
  | case1 a b rest ih =>
    have hbits : ((b - a) &&& mask).toNat < 2 ^ width.toNat := by
      rw [toNat_difference hw hmask]
      exact patternOf_lt _ _
    obtain ⟨value, hvalue, hsigned⟩ := signExtend_eq (s := s) hw hbits
    obtain ⟨values, hvalues, hsteps⟩ := ih
    refine ⟨value :: values, ?_, ?_⟩
    · rw [bind_of_eq hvalue, bind_of_eq hvalues]
      rfl
    · rw [List.map_cons, hsigned, hsteps, toNat_difference hw hmask]
      rfl
  | case2 words hshort =>
    refine ⟨[], rfl, ?_⟩
    rcases words with _ | ⟨a, _ | ⟨b, rest⟩⟩
    · rfl
    · rfl
    · exact absurd rfl (hshort a b rest)

/-! ## What is packed -/

theorem toInt_least (values : List Int64) : (least values).toInt = (Packing.of (values.map Int64.toInt)).base := by
  show (values.min?.getD 0).toInt = (values.map Int64.toInt).min?.getD 0
  rw [min?_map toInt_min]
  cases values.min? <;> rfl

/-- Differences that lie less than the weight of the width apart are at their offsets from the
    least, although these are taken modulo 2^64. -/
theorem map_toNat_offsets (hw : width.toNat ≤ 64) (hmask : mask.toNat = 2 ^ width.toNat - 1) {values : List Int64}
    (hbounds : ∀ v ∈ values.map Int64.toInt, leastSigned width.toNat ≤ v ∧ v < leastSigned width.toNat + 2 ^ width.toNat) :
    (offsets mask values).map UInt64.toNat = (Packing.of (values.map Int64.toInt)).offsets := by
  show (values.map _).map UInt64.toNat =
    (values.map Int64.toInt).map fun v => (v - (Packing.of (values.map Int64.toInt)).base).toNat
  rw [List.map_map, List.map_map]
  apply List.map_congr_left
  intro value hmem
  have hmem := List.mem_map_of_mem (f := Int64.toInt) hmem
  have hle := Packing.base_le hmem
  have hlow := hbounds _ (Packing.base_eq_min (List.ne_nil_of_mem hmem)).1
  have hhigh := hbounds _ hmem
  show ((value - least values).toUInt64 &&& mask).toNat = _
  rw [toNat_difference_signed hw hmask, toInt_least]
  exact patternOf_of_lt (by omega) (by omega)

theorem toNat_widest (words : List UInt64) : (widest words).toNat = ((words.map UInt64.toNat).map bitLength).max?.getD 0 := by
  have hfun : bitLength ∘ UInt64.toNat = UInt8.toNat ∘ bitsRequired := funext fun word => (toNat_bitsRequired word).symm
  rw [List.map_map, hfun, ← List.map_map, max?_map UInt8.toNat_max]
  show ((words.map bitsRequired).max?.getD 0).toNat = _
  cases (words.map bitsRequired).max? <;> rfl

/-! ## Blocks -/

theorem writeBits_bind {α : Type} (word : UInt64) (count : UInt8) (f : Unit → Guarded BitWriter α) (out : BitWriter) :
    (writeBits word count >>= f) out = f () (out.write (bitsOf count.toNat word.toNat)) := rfl

theorem forM_writeBits (offsets : List UInt64) (count : UInt8) (out : BitWriter) :
    (offsets.forM fun offset => writeBits offset count) out =
      .ok () (out.write ((offsets.map UInt64.toNat).flatMap (bitsOf count.toNat))) := by
  induction offsets generalizing out with
  | nil => rfl
  | cons offset offsets ih =>
    show (writeBits offset count >>= fun _ => offsets.forM fun offset => writeBits offset count) out = _
    rw [writeBits_bind, ih, List.map_cons, List.flatMap_cons, write_append]

/-- Differences on words are written as the packing of their integers is. -/
theorem writeDifferences_eq (hw : width.toNat ≤ 64) (hmask : mask.toNat = 2 ^ width.toNat - 1) {values : List Int64}
    (hbounds : ∀ v ∈ values.map Int64.toInt, leastSigned width.toNat ≤ v ∧ v < leastSigned width.toNat + 2 ^ width.toNat)
    (out : BitWriter) :
    writeDifferences width mask values out =
      .ok () (out.write (bitsOf width.toNat (patternOf width.toNat (Packing.of (values.map Int64.toInt)).base) ++
        bitsOf 7 (Packing.of (values.map Int64.toInt)).width ++ (Packing.of (values.map Int64.toInt)).offsetBits)) := by
  have hoffsets := map_toNat_offsets hw hmask hbounds
  have hwidth : (widest (offsets mask values)).toNat = (Packing.of (values.map Int64.toInt)).width := by
    rw [toNat_widest, hoffsets]
    rfl
  have hbase : ((least values).toUInt64 &&& mask).toNat =
      patternOf width.toNat (Packing.of (values.map Int64.toInt)).base := by
    rw [toNat_and_mask hmask, ← patternOf_toInt hw, toInt_least]
  have hseven : (7 : UInt8).toNat = 7 := rfl
  unfold writeDifferences
  simp only [writeBits_bind, forM_writeBits, hbase, hoffsets, hwidth, UInt8.toNat_toUInt64, hseven]
  rw [Packing.offsetBits, write_append, write_append]

def stepsBits (width : Nat) (words : List Nat) : List Bool :=
  let p := Packing.of (Delta.steps width words)
  if 1 < words.length then bitsOf width (patternOf width p.base) ++ bitsOf 7 p.width ++ p.offsetBits else []

theorem blockBits_cons (width first : Nat) (rest : List Nat) :
    Delta.blockBits width (first :: rest) =
      bitsOf 4 (first :: rest).length ++ (bitsOf width first ++ stepsBits width (first :: rest)) := by
  cases rest with
  | nil =>
    have hone : ¬ 1 < [first].length := Nat.lt_irrefl 1
    rw [stepsBits, if_neg hone, List.append_nil]
    rfl
  | cons second rest =>
    have hmany : 1 < (first :: second :: rest).length := by simp
    rw [Delta.blockBits, stepsBits, if_pos hmany]
    simp only [List.append_assoc]

theorem writeSteps_eq (hw : width.toNat ≤ 64) (hmask : mask.toNat = 2 ^ width.toNat - 1) (words : List UInt64)
    (out : BitWriter) :
    writeSteps width mask words out = .ok () (out.write (stepsBits width.toNat (words.map UInt64.toNat))) := by
  unfold writeSteps stepsBits
  rw [List.length_map]
  by_cases hmany : 1 < words.length
  · obtain ⟨values, hvalues, hsteps⟩ := differences_eq (s := out) hw hmask words
    have hbounds : ∀ v ∈ values.map Int64.toInt,
        leastSigned width.toNat ≤ v ∧ v < leastSigned width.toNat + 2 ^ width.toNat := by
      intro v hv
      rw [hsteps] at hv
      exact Delta.steps_bounds hv
    rw [if_pos hmany, if_pos hmany, bind_of_eq hvalues, writeDifferences_eq hw hmask hbounds, hsteps]
  · rw [if_neg hmany, if_neg hmany]
    rfl

/-- A block on words has the bits of a block. -/
theorem writeBlock_eq (hw : width.toNat ≤ 64) {words : List UInt64} (hne : words ≠ []) (hlen : words.length ≤ 8)
    (out : BitWriter) :
    writeBlock width words out = .ok () (out.write (Delta.blockBits width.toNat (words.map UInt64.toNat))).align := by
  obtain ⟨first, rest, rfl⟩ := List.exists_cons_of_ne_nil hne
  obtain ⟨mask, hmask, hlow⟩ := lowBits64_eq (s := out) hw
  have hcount : (UInt64.ofNat (first :: rest).length).toNat = (first :: rest).length :=
    UInt64.toNat_ofNat_of_lt' (Nat.lt_of_le_of_lt hlen (by decide))
  have hfour : (4 : UInt8).toNat = 4 := rfl
  rw [writeBlock, bind_of_eq hlow, writeBits_bind, writeBits_bind, bind_of_eq (writeSteps_eq hw hmask _ _), hcount, hfour,
    List.map_cons, blockBits_cons, write_append, write_append, List.length_cons, List.length_cons, List.length_map]
  rfl

/-! ## Streams -/

section Streams

variable {w : DeltaWriter} {e : Delta.Encoder}

theorem toNat_width (w : DeltaWriter) : w.width.toNat = w.domain.width w.dataType := by
  have hlt := Delta.width_lt w.dataType w.domain
  exact UInt8.toNat_ofNat_of_lt' (Nat.lt_trans hlt (by decide))

theorem width_le (w : DeltaWriter) : w.width.toNat ≤ 64 := by
  rw [toNat_width]
  cases w.domain with
  | pattern => cases w.dataType <;> decide
  | fixedPoint scale => exact Nat.le_refl 64

/-- What a writer of words stands for: all the same, and whole bytes in the writer of bits. -/
structure Views (w : DeltaWriter) (e : Delta.Encoder) : Prop where
  dataType : w.dataType = e.dataType
  domain : w.domain = e.domain
  block : w.block.map UInt64.toNat = e.block
  out : Holds w.out e.out.toList
  opened : w.opened = e.opened

theorem onOut_bind {α β : Type} {m : Guarded BitWriter α} {a : α} {out : BitWriter} (h : m w.out = .ok a out)
    (f : α → Guarded DeltaWriter β) : (onOut m >>= f) w = f a { w with out := out } := by
  apply bind_of_eq
  rw [onOut, h]

/-- The mode is written in whole bytes. -/
theorem writeMode_eq (t : NumberType) (d : Delta.Domain) (out : BitWriter) :
    writeMode t d out = .ok () (out.write (Delta.modeBytes t d).toBits) := by
  unfold writeMode Delta.modeBytes
  by_cases hm : Delta.hasMode t = true
  · rw [if_pos hm, if_pos hm]
    cases d with
    | pattern => rfl
    | fixedPoint scale =>
      dsimp only
      rw [Delta.toBits_scale, write_append]
      rfl
  · rw [if_neg hm, if_neg hm]
    rfl

theorem writeModeOnce_views (h : Views w e) :
    ∃ w', writeModeOnce w = .ok () w' ∧ Views w' e.writeModeOnce ∧ w'.block = w.block := by
  unfold writeModeOnce Delta.Encoder.writeModeOnce
  rw [get_bind, h.opened]
  cases ho : e.opened with
  | true => exact ⟨w, rfl, h, rfl⟩
  | false =>
    refine ⟨_, onOut_bind (writeMode_eq w.dataType w.domain w.out) _, ⟨h.dataType, h.domain, h.block, ?_, rfl⟩, rfl⟩
    show Holds (w.out.write (Delta.modeBytes w.dataType w.domain).toBits)
      (e.out ++ Delta.modeBytes e.dataType e.domain).toList
    rw [h.dataType, h.domain, Array.toList_appendList]
    exact h.out.write_toBits _

theorem closeBlock_views (h : Views w e) (hne : w.block ≠ []) (hlen : w.block.length ≤ 8) :
    ∃ w', closeBlock w = .ok () w' ∧ Views w' e.closeBlock ∧ w'.block = [] := by
  have hwidth : w.width.toNat = e.width := by rw [toNat_width, h.domain, h.dataType, Delta.Encoder.width]
  have hblock := writeBlock_eq (width_le w) hne hlen w.out
  rw [hwidth, h.block] at hblock
  refine ⟨_, onOut_bind hblock _, ⟨h.dataType, h.domain, rfl, ?_, h.opened⟩, rfl⟩
  dsimp only [Delta.Encoder.closeBlock]
  rw [Array.toList_appendList]
  exact h.out.align _

theorem push_views (h : Views w e) (hshort : w.block.length < 8) (word : UInt64) :
    ∃ w', push word w = .ok () w' ∧ Views w' (e.add word.toNat) ∧ w'.block.length < 8 := by
  obtain ⟨x, hopen, hx, hblock⟩ := writeModeOnce_views h
  have hwords : (x.block ++ [word]).map UInt64.toNat = e.block ++ [word.toNat] := by
    rw [List.map_append, hblock, h.block]
    rfl
  have hlen : (e.block ++ [word.toNat]).length = (x.block ++ [word]).length := by
    rw [← hwords, List.length_map]
  have hadd : Views { x with block := x.block ++ [word] } { e.writeModeOnce with block := e.block ++ [word.toNat] } :=
    ⟨hx.dataType, hx.domain, hwords, hx.out, hx.opened⟩
  unfold push Delta.Encoder.add
  rw [bind_of_eq hopen, modify_bind, get_bind]
  dsimp only
  rw [hlen]
  by_cases hfull : (x.block ++ [word]).length = Delta.blockSize
  · have hsome : x.block ++ [word] ≠ [] := List.append_ne_nil_of_right_ne_nil _ (List.cons_ne_nil _ _)
    obtain ⟨y, hclose, hy, hnil⟩ := closeBlock_views hadd hsome (Nat.le_of_eq hfull)
    rw [if_pos hfull, if_pos hfull]
    refine ⟨y, hclose, hy, ?_⟩
    rw [hnil]
    decide
  · rw [if_neg hfull, if_neg hfull]
    refine ⟨_, rfl, hadd, ?_⟩
    unfold Delta.blockSize at hfull
    rw [List.length_append, hblock, List.length_singleton] at hfull ⊢
    omega

theorem forM_push_views (h : Views w e) (hshort : w.block.length < 8) (words : List UInt64) :
    ∃ w', words.forM push w = .ok () w' ∧ Views w' ((words.map UInt64.toNat).foldl Delta.Encoder.add e) ∧
      w'.block.length < 8 := by
  induction words generalizing w e with
  | nil => exact ⟨w, rfl, h, hshort⟩
  | cons word words ih =>
    obtain ⟨x, hpush, hx, hlen⟩ := push_views h hshort word
    obtain ⟨y, hrest, hy⟩ := ih hx hlen
    exact ⟨y, (bind_of_eq hpush).trans hrest, hy⟩

theorem closeBlock_of_nil (hnil : e.block = []) : e.closeBlock = e := by
  have hnone : packBits (Delta.blockBits e.width e.block) = [] := by
    rw [hnil]
    rfl
  rw [Delta.Encoder.closeBlock, hnone, ← hnil]
  simp

theorem closeLastBlock_views (h : Views w e) (hshort : w.block.length < 8) :
    ∃ w', closeLastBlock w = .ok () w' ∧ Views w' e.closeBlock ∧ w'.block = [] := by
  unfold closeLastBlock
  rw [get_bind]
  by_cases hnil : w.block = []
  · have hempty : e.block = [] := by rw [← h.block, hnil, List.map_nil]
    rw [closeBlock_of_nil hempty, hnil]
    exact ⟨w, rfl, h, hnil⟩
  · have hsome : w.block.isEmpty = false := List.isEmpty_eq_false_iff.2 hnil
    rw [hsome]
    exact closeBlock_views h hnil (Nat.le_of_lt hshort)

theorem flush_views (h : Views w e) (hshort : w.block.length < 8) :
    ∃ w', flush w = .ok e.flush.1 w' ∧ Views w' e.flush.2 := by
  obtain ⟨x, hclose, hx, hnil⟩ := closeLastBlock_views h hshort
  refine ⟨{ x with opened := false, out := x.out.finish.2 }, ?_, hx.dataType, hx.domain, ?_, ⟨rfl, rfl⟩, rfl⟩
  · unfold flush
    rw [bind_of_eq hclose, get_bind]
    show EStateM.Result.ok x.out.finish.1 _ = _
    rw [hx.out.finish_eq]
    rfl
  · show x.block.map UInt64.toNat = []
    rw [hnil, List.map_nil]

/-- What a writer stands for between two calls: the block is not full. -/
def Awaits (w : DeltaWriter) (e : Delta.Encoder) : Prop := Views w e ∧ w.block.length < 8

theorem awaits_initial (t : NumberType) (d : Delta.Domain) :
    Awaits { dataType := t, domain := d } { dataType := t, domain := d } :=
  ⟨⟨rfl, rfl, rfl, ⟨rfl, rfl⟩, rfl⟩, Nat.succ_pos 7⟩

/-- A value is written, or refused with nothing changed: neither has there been a mode nor a word. -/
theorem encode_keeps (h : Awaits w e) {v : Value} (hv : v.dataType = .fixed (.number e.dataType)) :
    Keeps Awaits w (encode v w) (do e.push (← v.requireBits (.fixed (.number e.dataType)))) := by
  obtain ⟨hviews, hshort⟩ := h
  obtain ⟨bits, hbits, rfl⟩ := Value.exists_pattern hv
  show Keeps Awaits w ((Guarded.ofExcept _ >>= _) w) _
  rw [hviews.dataType]
  refine keeps_ofExcept_bind fun n hn => ?_
  rw [Value.requireBits_ofBits hbits] at hn
  cases hn
  rw [hviews.domain]
  refine keeps_ofExcept_bind fun word hword => ?_
  obtain ⟨w', hpush, hw', hlen⟩ := push_views hviews hshort (UInt64.ofNat word)
  rw [UInt64.toNat_ofNat_of_lt' (Delta.toWord_lt hbits hword)] at hw'
  exact ⟨w', hpush, hw', hlen⟩

theorem flush_awaits (h : Awaits w e) : ∃ w', flush w = .ok e.flush.1 w' ∧ Awaits w' e.flush.2 := by
  obtain ⟨w', hflush, hw'⟩ := flush_views h.1 h.2
  have hblock : w'.block = [] := List.map_eq_nil_iff.1 hw'.block
  refine ⟨w', hflush, hw', ?_⟩
  rw [hblock]
  decide

theorem reset_awaits (h : Awaits w e) : ∃ w', reset w = .ok () w' ∧ Awaits w' e.reset :=
  ⟨_, rfl, ⟨h.1.dataType, h.1.domain, rfl, ⟨rfl, rfl⟩, rfl⟩, Nat.succ_pos 7⟩

end Streams

theorem map_toNat_ofNat {words : List Nat} (h : ∀ w ∈ words, w < 2 ^ 64) :
    (words.map UInt64.ofNat).map UInt64.toNat = words := by
  have hid : ∀ w ∈ words, UInt64.toNat (UInt64.ofNat w) = id w := by
    intro w hw
    exact UInt64.toNat_ofNat_of_lt' (h w hw)
  rw [List.map_map]
  exact (List.map_congr_left hid).trans (List.map_id words)

/-- On machine words the payload is the same, and no step is trapped. -/
theorem payload_eq (t : NumberType) (d : Delta.Domain) (words : List UInt64) :
    payload t d words = .ok (.ok (Delta.payload t d (words.map UInt64.toNat))) := by
  have hfresh : Views { dataType := t, domain := d } { dataType := t, domain := d } := ⟨rfl, rfl, rfl, ⟨rfl, rfl⟩, rfl⟩
  obtain ⟨x, hpush, hx, hlen⟩ := forM_push_views hfresh (Nat.succ_pos 7) words
  obtain ⟨y, hflush, -⟩ := flush_views hx hlen
  unfold payload
  dsimp only
  rw [bind_of_eq hpush, hflush, Delta.Encoder.flush_foldl_add]
  rfl

end Machine.DeltaWriter

/-- TS_2DIFF on bit patterns is, behind one byte of mode for floating-point numbers, a sequence of
    blocks that start on whole bytes. Each has the next eight words, the last one those that are
    left, and takes the bytes that its layout says and no more. Arithmetic that wraps around at
    2^64 writes the same bytes. -/
theorem delta_block_layout (t : NumberType) {scale? : Option Ieee.Binary64}
    (hs : t = .float ∨ t = .double → scale? = none) {values : List Value}
    (hv : ∀ v ∈ values, v.dataType = .fixed (.number t)) :
    ∃ (words : List Nat) (payload : Bytes) (blocks : List Bytes),
      values = words.map (.ofBits (.number t)) ∧ (∀ w ∈ words, w < 2 ^ t.width) ∧
      (EncoderState.delta { dataType := t, domain := .of t scale? }).payload values = .ok payload ∧
      Machine.DeltaWriter.payload t .pattern (words.map UInt64.ofNat) = .ok (.ok payload) ∧
      payload = (if (t = .float ∨ t = .double) ∧ values ≠ [] then [0] else []) ++ blocks.flatten ∧
      blocks.length = (values.length + 7) / 8 ∧
      ∀ i bytes, blocks[i]? = some bytes →
        ((words.drop (8 * i)).take 8).length =
          (if i + 1 < blocks.length then 8 else if values.length % 8 = 0 then 8 else values.length % 8) ∧
        Delta.Layout t.width ((words.drop (8 * i)).take 8) bytes ∧
        (Delta.Progression t.width ((words.drop (8 * i)).take 8) →
          bitLength (Delta.spread t.width ((words.drop (8 * i)).take 8)) = 0) := by
  obtain ⟨words, hlt, rfl⟩ := Value.exists_patterns hv
  have hwidth : 1 < t.width ∧ t.width ≤ 64 := by cases t <;> decide
  have hwords := Machine.DeltaWriter.map_toNat_ofNat fun w hw =>
    Nat.lt_of_lt_of_le (hlt w hw) (Nat.pow_le_pow_right Nat.two_pos hwidth.2)
  obtain ⟨blocks, hblocks, hcount, hparts⟩ := Delta.blocks_layout hwidth.1 words
  rw [Delta.Domain.of_eq_pattern hs, List.length_map]
  refine ⟨words, _, blocks, rfl, hlt, (EncoderState.writes_delta t hlt).payload_eq, ?_, ?_, hcount, ?_⟩
  · rw [Machine.DeltaWriter.payload_eq, hwords]
  · simp only [Delta.payload_pattern, hblocks, ne_eq, List.map_eq_nil_iff]
  · intro i bytes hi
    obtain ⟨hpos, hlayout⟩ := hparts i bytes hi
    refine ⟨?_, hlayout, ?_⟩
    · rw [hcount, List.length_take, List.length_drop]
      split
      · omega
      · split <;> omega
    · intro hregular
      rw [Delta.spread_of_progression hregular]
      rfl

/-- Nine patterns one apart, of which the fifth wraps around: two blocks behind a mode. -/
theorem delta_block_layout_float :
    ∃ (words : List Nat) (payload : Bytes) (blocks : List Bytes),
      (List.range 9).map (fun k => Value.float ⟨UInt32.ofNat (2 ^ 32 - 4 + k)⟩) =
        words.map (.ofBits (.number .float)) ∧
      (EncoderState.delta { dataType := .float, domain := .of .float none }).payload
        ((List.range 9).map fun k => .float ⟨UInt32.ofNat (2 ^ 32 - 4 + k)⟩) = .ok payload ∧
      Machine.DeltaWriter.payload .float .pattern (words.map UInt64.ofNat) = .ok (.ok payload) ∧
      payload = 0 :: blocks.flatten ∧ blocks.length = 2 ∧
      ∀ i bytes, blocks[i]? = some bytes →
        ((words.drop (8 * i)).take 8).length = (if i + 1 < 2 then 8 else 1) ∧
        Delta.Layout 32 ((words.drop (8 * i)).take 8) bytes ∧
        (Delta.Progression 32 ((words.drop (8 * i)).take 8) →
          bitLength (Delta.spread 32 ((words.drop (8 * i)).take 8)) = 0) := by
  have hv : ∀ v ∈ (List.range 9).map (fun k => Value.float ⟨UInt32.ofNat (2 ^ 32 - 4 + k)⟩),
      v.dataType = .fixed (.number .float) := by decide
  obtain ⟨words, payload, blocks, hwords, -, hpayload, hmachine, hbytes, hcount, hblocks⟩ :=
    delta_block_layout .float (fun _ => rfl) hv
  have hcount : blocks.length = 2 := hcount
  rw [hcount] at hblocks
  exact ⟨words, payload, blocks, hwords, hpayload, hmachine, hbytes, hcount, hblocks⟩

end Chronicle
