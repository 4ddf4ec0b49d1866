/-
  Chronicle.Proofs.Stream.Delta — what TS_2DIFF writes is read back.

  (1) Writing. The encoder cuts its words into blocks of eight as they come (`flush_foldl_add`). Each block
  is closed when it is full, and the last one by the flush.

  (2) A block. Reading one adds the differences up again: modulo the word size neither the sign of a
  difference nor the base below it matters (`word_of_step`). The offsets fit the width that is written,
  as signed differences lie less than the weight of the word size apart (`steps_bounds`).

  (3) A stream. Words are read in some domain (`nextWord`), and a value is what its word stands for there
  (`next_eq`). A payload gives the words it was made of, in the domain that its mode says and whatever
  follows it (`run_words`), and so the values that they stand for (`run_payload`).
-/

import Chronicle.Proofs.Stream.Feed
import Chronicle.Proofs.Wire.Bits
import Chronicle.Stream.Delta

namespace Chronicle.Delta

open Reading

/-! ## Writing -/

def blocks (width : Nat) (words : List Nat) : Bytes :=
  (chunks blockSize words).flatMap fun block => packBits (blockBits width block)

def payload (t : NumberType) (d : Domain) (words : List Nat) : Bytes :=
  if words = [] then [] else modeBytes t d ++ blocks (d.width t) words

variable {width : Nat} {words rest : List Nat}

theorem blocks_nil (width : Nat) : blocks width [] = [] := by
  rw [blocks, chunks_nil, List.flatMap_nil]

theorem blockBits_cons_ne_nil (width first : Nat) (words : List Nat) : blockBits width (first :: words) ≠ [] := by
  cases words <;> exact List.cons_ne_nil _ _

theorem blocks_cons_ne_nil (width first : Nat) (words : List Nat) : blocks width (first :: words) ≠ [] := by
  rw [blocks, chunks_cons, List.flatMap_cons]
  exact List.append_ne_nil_of_left_ne_nil (packBits_ne_nil (blockBits_cons_ne_nil width _ _)) _

theorem blocks_append (hw : words.length = blockSize) (width : Nat) (rest : List Nat) :
    blocks width (words ++ rest) = packBits (blockBits width words) ++ blocks width rest := by
  obtain ⟨a, words, rfl⟩ := List.exists_cons_of_length_pos (l := words) (by rw [hw]; decide)
  have e : words.length = blockSize - 1 := by rw [← hw]; rfl
  rw [blocks, List.cons_append, chunks_cons, List.flatMap_cons, ← e, List.take_left, List.drop_left]
  rfl

theorem blocks_of_length_lt (hw : words.length < blockSize) (width : Nat) :
    blocks width words = packBits (blockBits width words) := by
  cases words with
  | nil => rw [blocks_nil]; rfl
  | cons a words =>
    have e : words.length ≤ blockSize - 1 := by rw [List.length_cons] at hw; omega
    rw [blocks, chunks_cons, List.take_of_length_le e, List.drop_of_length_le e, chunks_nil, List.flatMap_cons,
      List.flatMap_nil, List.append_nil]

namespace Encoder

theorem reset_writeModeOnce (e : Encoder) : e.writeModeOnce.reset = e.reset := by
  unfold writeModeOnce
  split <;> rfl

/-- What an encoder is for does not change. -/
theorem reset_add (e : Encoder) (word : Nat) : (e.add word).reset = e.reset := by
  rw [← reset_writeModeOnce e]
  unfold add
  dsimp only
  split <;> rfl

/-- The words of an open encoder and those that follow are cut into blocks alike. -/
theorem flush_foldl_add_of_opened {e : Encoder} (ho : e.opened = true) (hb : e.block.length < blockSize)
    (words : List Nat) : (words.foldl add e).flush.1 = e.out.toList ++ blocks e.width (e.block ++ words) := by
  induction words generalizing e with
  | nil =>
    rw [List.append_nil, blocks_of_length_lt hb]
    simp [flush, closeBlock]
  | cons word words ih =>
    have hopen : e.writeModeOnce = e := by rw [writeModeOnce, if_pos ho]
    rw [List.foldl_cons, List.append_cons]
    by_cases hfull : (e.block ++ [word]).length = blockSize
    · have hadd : e.add word = closeBlock { e with block := e.block ++ [word] } := by
        simp only [add, hopen, if_pos hfull]
      rw [hadd, ih (e := closeBlock { e with block := e.block ++ [word] }) ho (Nat.succ_pos _), blocks_append hfull]
      simp [closeBlock, width]
    · have hadd : e.add word = { e with block := e.block ++ [word] } := by
        simp only [add, hopen, if_neg hfull]
      have hlt : (e.block ++ [word]).length < blockSize := by
        rw [List.length_append, List.length_singleton] at hfull ⊢
        omega
      rw [hadd, ih (e := { e with block := e.block ++ [word] }) ho hlt]
      rfl

/-- A fresh encoder writes the payload of the words that it is given. -/
theorem flush_foldl_add (t : NumberType) (d : Domain) (words : List Nat) :
    (words.foldl add { dataType := t, domain := d }).flush.1 = payload t d words := by
  cases words with
  | nil => rfl
  | cons word words =>
    have hfirst : add { dataType := t, domain := d } word =
        { dataType := t, domain := d, block := [word], out := #[] ++ modeBytes t d, opened := true } := rfl
    rw [List.foldl_cons, hfirst, flush_foldl_add_of_opened rfl (by show 1 < blockSize; decide), payload,
      if_neg (List.cons_ne_nil _ _)]
    simp [Encoder.width]

end Encoder

/-! ## Reading a block -/

variable {s : BitSource} {tail : List Bool}

/-- A word is its predecessor and the difference, however that was signed. -/
theorem word_of_step {next : Nat} (h : next < 2 ^ width) (previous : Nat) :
    patternOf width (previous + signedOf width (patternOf width (next - previous))) = next := by
  have e : (patternOf width (previous + signedOf width (patternOf width (next - previous))) : Int) = next := by
    rw [cast_patternOf, Int.add_emod, signedOf_emod, cast_patternOf, Int.emod_emod_of_dvd _ (Int.dvd_refl _),
      ← Int.add_emod, show (previous : Int) + (next - previous) = next by omega]
    exact Int.emod_eq_of_lt (Int.natCast_nonneg next) (by exact_mod_cast h)
  exact_mod_cast e

def StepsWithin (base : Int) (offsetWidth : Nat) (steps : List Int) : Prop :=
  ∀ v ∈ steps, base ≤ v ∧ (v - base).toNat < 2 ^ offsetWidth

theorem pullWords_of_unread {base : Int} {offsetWidth first : Nat} (hlt : ∀ w ∈ words, w < 2 ^ width)
    (hsteps : StepsWithin base offsetWidth (steps width (first :: words)))
    (h : s.Unread .onDemand
      ((steps width (first :: words)).flatMap (fun v => bitsOf offsetWidth (v - base).toNat) ++ tail)) :
    ∃ t, pullWords width (patternOf width base) offsetWidth first words.length s = .ok words t ∧
      t.Unread .onDemand tail := by
  induction words generalizing first s with
  | nil => exact ⟨s, rfl, h⟩
  | cons word words ih =>
    obtain ⟨⟨hbase, hoffset⟩, hrest⟩ := List.forall_mem_cons.1 hsteps
    obtain ⟨hw, hlt⟩ := List.forall_mem_cons.1 hlt
    rw [steps, List.flatMap_cons, List.append_assoc] at h
    obtain ⟨t, ht, h⟩ := h.pullNumber hoffset nofun
    obtain ⟨u, hu, h⟩ := ih hlt hrest h
    refine ⟨u, ?_, h⟩
    have hword := word_of_step hw first
    rw [← patternOf_add_base_add_offset first width hbase] at hword
    simp only [List.length_cons, pullWords, bind_of_eq ht, hword, map_of_eq hu]

/-- Signed differences lie less than the weight of the width apart. -/
theorem steps_bounds {v : Int} (hv : v ∈ steps width words) :
    leastSigned width ≤ v ∧ v < leastSigned width + 2 ^ width := by
  fun_induction steps width words with
  | case1 a b rest ih =>
    rcases List.mem_cons.1 hv with rfl | hv
    · exact signedOf_bounds (patternOf_lt width _)
    · exact ih hv
  | case2 => cases hv

theorem packing_width_le (width : Nat) (words : List Nat) : (Packing.of (steps width words)).width ≤ width := by
  apply Packing.width_le
  intro v hv
  exact steps_bounds hv

theorem stepsWithin_packing (words : List Nat) (width : Nat) :
    StepsWithin (Packing.of (steps width words)).base (Packing.of (steps width words)).width (steps width words) := by
  intro v hv
  exact ⟨Packing.base_le hv, Packing.offset_lt hv⟩

/-- A block of one word has neither steps nor a base. -/
theorem pullBlock_single {first : Nat} (hlt : first < 2 ^ width)
    (h : ({ s with reader := s.reader.align } : BitSource).Unread .onDemand (blockBits width [first] ++ tail)) :
    ∃ t, pullBlock width s = .ok (first, []) t ∧ t.Unread .onDemand tail := by
  have halign : BitSource.align s = .ok () { s with reader := s.reader.align } := rfl
  have hc : ¬ (1 = 0 ∨ blockSize < 1) := by decide
  rw [blockBits, List.append_assoc] at h
  obtain ⟨t, ht, h⟩ := h.pullNumber (by decide) nofun
  obtain ⟨u, hu, h⟩ := h.pullNumber hlt nofun
  refine ⟨u, ?_, h⟩
  simp only [pullBlock, bind_of_eq halign, bind_of_eq ht, if_neg hc, bind_of_eq hu]
  rfl

theorem pullBlock_many (hw : width < 2 ^ 7) {first second : Nat}
    (hlen : (first :: second :: words).length ≤ blockSize) (hlt : ∀ w ∈ first :: second :: words, w < 2 ^ width)
    (h : ({ s with reader := s.reader.align } : BitSource).Unread .onDemand
      (blockBits width (first :: second :: words) ++ tail)) :
    ∃ t, pullBlock width s = .ok (first, second :: words) t ∧ t.Unread .onDemand tail := by
  have halign : BitSource.align s = .ok () { s with reader := s.reader.align } := rfl
  have hcount : (first :: second :: words).length < 2 ^ 4 := by
    unfold blockSize at hlen
    omega
  have hc : ¬ ((first :: second :: words).length = 0 ∨ blockSize < (first :: second :: words).length) := by
    rw [List.length_cons] at hlen ⊢
    omega
  have hone : ¬ (first :: second :: words).length = 1 := by
    rw [List.length_cons, List.length_cons]
    omega
  obtain ⟨hfirst, hlater⟩ := List.forall_mem_cons.1 hlt
  have hwithin := stepsWithin_packing (first :: second :: words) width
  have hle : (Packing.of (steps width (first :: second :: words))).width ≤ width := packing_width_le _ _
  simp only [blockBits, Packing.offsetBits_of, List.append_assoc] at h
  generalize Packing.of (steps width (first :: second :: words)) = p at h hwithin hle
  obtain ⟨t, ht, h⟩ := h.pullNumber hcount nofun
  obtain ⟨u, hu, h⟩ := h.pullNumber hfirst nofun
  obtain ⟨x, hx, h⟩ := h.pullNumber (patternOf_lt width p.base) nofun
  obtain ⟨y, hy, h⟩ := h.pullNumber (by omega) nofun
  obtain ⟨z, hz, h⟩ := pullWords_of_unread hlater hwithin h
  refine ⟨z, ?_, h⟩
  have hz : pullWords width (patternOf width p.base) p.width first ((first :: second :: words).length - 1) y =
      .ok (second :: words) z := hz
  simp only [pullBlock, bind_of_eq halign, bind_of_eq ht, if_neg hc, bind_of_eq hu, if_neg hone, bind_of_eq hx,
    bind_of_eq hy, if_neg (Nat.not_lt.2 hle), map_of_eq hz]

/-- A block that starts on a whole byte gives its words. -/
theorem pullBlock_of_unread (hw : width < 2 ^ 7) {first : Nat} (hlen : (first :: words).length ≤ blockSize)
    (hlt : ∀ w ∈ first :: words, w < 2 ^ width)
    (h : ({ s with reader := s.reader.align } : BitSource).Unread .onDemand
      (blockBits width (first :: words) ++ tail)) :
    ∃ t, pullBlock width s = .ok (first, words) t ∧ t.Unread .onDemand tail := by
  cases words with
  | nil => exact pullBlock_single (List.forall_mem_cons.1 hlt).1 h
  | cons second words => exact pullBlock_many hw hlen hlt h

/-! ## Reading a stream -/

def more (f : Feed State) : Bool := hasNext f.state f.bytes

/-- Reads the next word, and says in which domain it stands. -/
def nextWord (t : NumberType) : Reading (Feed State) (Domain × Nat) := do
  let d ← domain t
  let (word, rest) ←
    match (← get).state.ready with
    | word :: rest => pure (word, rest)
    | [] => Feed.onBits (pullBlock (d.width t))
  Feed.setState { domain? := some d, ready := rest }
  return (d, word)

/-- A value is what the next word stands for. -/
theorem next_eq (t : NumberType) : next t = (do return (fun w => ofWord t w.1 w.2) (← nextWord t)) := by
  unfold next nextWord
  simp only [bind_assoc]
  refine bind_congr fun d => bind_congr fun f => ?_
  cases f.state.ready <;> simp only [bind_assoc, pure_bind]

variable {t : NumberType} {d : Domain} {reader : BitReader} {bytes : Bytes}

/-- The words of a block that has been read. -/
theorem run_ready (words : List Nat) :
    Run (nextWord t) more ⟨⟨some d, words⟩, reader, bytes⟩ (words.map (d, ·)) ⟨⟨some d, []⟩, reader, bytes⟩ := by
  induction words with
  | nil => exact .nil _
  | cons word words ih => exact .cons rfl rfl ih

/-- A block is read when its first word is asked for. -/
theorem nextWord_of_pullBlock {first : Nat} {u : BitSource}
    (h : pullBlock (d.width t) ⟨reader, bytes⟩ = .ok (first, words) u) :
    nextWord t ⟨⟨some d, []⟩, reader, bytes⟩ = .ok (d, first) ⟨⟨some d, words⟩, u.reader, u.bytes⟩ := by
  have hb := Feed.onBits_of_eq (f := (⟨⟨some d, []⟩, reader, bytes⟩ : Feed State)) h
  have hd : domain t ⟨⟨some d, []⟩, reader, bytes⟩ = .ok d ⟨⟨some d, []⟩, reader, bytes⟩ := rfl
  rw [nextWord, bind_of_eq hd, get_bind]
  show (Feed.onBits (pullBlock (d.width t)) >>= _) _ = _
  rw [bind_of_eq hb]
  rfl

theorem nextWord_of_pullBlock_error {e : CodecError} {u : BitSource}
    (h : pullBlock (d.width t) ⟨reader, bytes⟩ = .error e u) :
    nextWord t ⟨⟨some d, []⟩, reader, bytes⟩ = .error e ⟨⟨some d, []⟩, u.reader, u.bytes⟩ := by
  have hb := Feed.onBits_of_error (f := (⟨⟨some d, []⟩, reader, bytes⟩ : Feed State)) h
  have hd : domain t ⟨⟨some d, []⟩, reader, bytes⟩ = .ok d ⟨⟨some d, []⟩, reader, bytes⟩ := rfl
  rw [nextWord, bind_of_eq hd, get_bind]
  show (Feed.onBits (pullBlock (d.width t)) >>= _) _ = _
  rw [bind_of_error hb]

theorem width_lt (t : NumberType) (d : Domain) : d.width t < 2 ^ 7 := by
  cases d with
  | pattern => cases t <;> decide
  | fixedPoint scale => exact (by decide : 64 < 2 ^ 7)

theorem run_block {block : List Nat} (hne : block ≠ []) (hlen : block.length ≤ blockSize)
    (hlt : ∀ w ∈ block, w < 2 ^ d.width t) (hr : reader.refill = .onDemand) (rest : Bytes) :
    ∃ after : BitReader, after.refill = .onDemand ∧
      Run (nextWord t) more ⟨⟨some d, []⟩, reader, packBits (blockBits (d.width t) block) ++ rest⟩
        (block.map (d, ·)) ⟨⟨some d, []⟩, after, rest⟩ := by
  obtain ⟨first, words, rfl⟩ := List.exists_cons_of_ne_nil hne
  have hmore : more ⟨⟨some d, []⟩, reader, packBits (blockBits (d.width t) (first :: words)) ++ rest⟩ = true := by
    simp [more, hasNext, packBits_ne_nil (blockBits_cons_ne_nil (d.width t) first words)]
  obtain ⟨pad, hpad, h⟩ := BitSource.unread_align
    (s := ⟨reader, packBits (blockBits (d.width t) (first :: words)) ++ rest⟩) hr rfl
  obtain ⟨u, hu, h⟩ := pullBlock_of_unread (width_lt t d) hlen hlt h
  have hfirst := nextWord_of_pullBlock hu
  rw [h.bytes_eq hpad] at hfirst
  exact ⟨u.reader, h.refill_eq, .cons hmore hfirst (run_ready words)⟩

theorem run_blocks (hlt : ∀ w ∈ words, w < 2 ^ d.width t) (hr : reader.refill = .onDemand) (rest : Bytes) :
    ∃ after : BitReader, after.refill = .onDemand ∧
      Run (nextWord t) more ⟨⟨some d, []⟩, reader, blocks (d.width t) words ++ rest⟩ (words.map (d, ·))
        ⟨⟨some d, []⟩, after, rest⟩ := by
  unfold blocks
  have hpieces : ∀ block ∈ chunks blockSize words, block ≠ [] ∧ block.length ≤ blockSize ∧
      ∀ w ∈ block, w < 2 ^ d.width t := by
    intro block hb
    obtain ⟨hpos, hlen⟩ := length_le_of_mem_chunks (by decide : 0 < blockSize) hb
    refine ⟨List.ne_nil_of_length_pos hpos, hlen, ?_⟩
    intro w hw
    exact hlt w (mem_of_mem_chunks hb hw)
  have e : words.map (d, ·) = (chunks blockSize words).flatMap (List.map (d, ·)) := by
    rw [List.flatMap_def, ← List.map_flatten, flatten_chunks]
  rw [e]
  generalize chunks blockSize words = pieces at hpieces
  induction pieces generalizing reader with
  | nil => exact ⟨reader, hr, .nil _⟩
  | cons block pieces ih =>
    rw [List.flatMap_cons, List.flatMap_cons, List.append_assoc]
    obtain ⟨⟨hne, hlen, hw⟩, hpieces⟩ := List.forall_mem_cons.1 hpieces
    obtain ⟨middle, hm, hrun⟩ := run_block hne hlen hw hr
      (pieces.flatMap (fun block => packBits (blockBits (d.width t) block)) ++ rest)
    obtain ⟨after, ha, hrest⟩ := ih hm hpieces
    exact ⟨after, ha, hrun.append hrest⟩

/-! ## The domain -/

theorem Domain.of_none (t : NumberType) : Domain.of t none = .pattern := by
  cases t <;> rfl

/-- Of a scale only floating-point numbers take notice. -/
theorem Domain.of_eq_pattern {t : NumberType} {scale? : Option Ieee.Binary64}
    (hs : t = .float ∨ t = .double → scale? = none) : Domain.of t scale? = .pattern := by
  cases t with
  | int32 => rfl
  | int64 => rfl
  | float => rw [hs (.inl rfl), of_none]
  | double => rw [hs (.inr rfl), of_none]

theorem ofWord_pattern (t : NumberType) : ofWord t .pattern = Value.ofBits (.number t) := by
  cases t <;> rfl

def Domain.Speakable (t : NumberType) : Domain → Prop
  | pattern => True
  | fixedPoint scale => hasMode t = true ∧ isScale scale = true

theorem pullDomain_of_pattern (hm : hasMode t = true) {s : BitSource} {rest : Bytes}
    (h : s.Unread .onDemand (Bytes.toBits (0 :: rest))) :
    ∃ u, pullDomain t s = .ok .pattern u ∧ u.reader.refill = .onDemand ∧ u.bytes = rest := by
  have e : Bytes.toBits (0 :: rest) = bitsOf 8 0 ++ Bytes.toBits rest := rfl
  rw [e] at h
  obtain ⟨u, hu, h⟩ := h.pullNumber (by decide) nofun
  refine ⟨u, ?_, h.refill_eq, h.bytes_eq_of_whole⟩
  unfold pullDomain
  rw [if_pos hm, bind_of_eq hu]
  rfl

theorem toBits_scale (scale : Ieee.Binary64) :
    Bytes.toBits (1 :: BigEndian.toBytes scale) = bitsOf 8 1 ++ bitsOf 64 scale.bits.toNat := by
  rw [Bytes.toBits_cons]
  congr 1
  exact Bytes.toBits_ofNat 8 scale.bits.toNat

theorem pullDomain_of_scale (hm : hasMode t = true) {scale : Ieee.Binary64} (hs : isScale scale = true)
    {s : BitSource} {rest : Bytes} (h : s.Unread .onDemand (Bytes.toBits (1 :: BigEndian.toBytes scale ++ rest))) :
    ∃ u, pullDomain t s = .ok (.fixedPoint scale) u ∧ u.reader.refill = .onDemand ∧ u.bytes = rest := by
  have e : Bytes.toBits (1 :: BigEndian.toBytes scale ++ rest) =
      bitsOf 8 1 ++ (bitsOf 64 scale.bits.toNat ++ Bytes.toBits rest) := by
    rw [Bytes.toBits_append, toBits_scale, List.append_assoc]
  rw [e] at h
  obtain ⟨u, hu, h⟩ := h.pullNumber (by decide) nofun
  obtain ⟨x, hx, h⟩ := h.pullNumber scale.bits.toNat_lt nofun
  refine ⟨x, ?_, h.refill_eq, h.bytes_eq_of_whole⟩
  unfold pullDomain
  rw [if_pos hm, bind_of_eq hu]
  show (BitSource.pullBits 64 >>= _) u = _
  rw [bind_of_eq hx]
  simp only [UInt64.ofNat_toNat, if_pos hs]
  rfl

/-- The domain is read back from the mode, or is known where there is no mode. -/
theorem pullDomain_of_modeBytes (hd : d.Speakable t) {s : BitSource} (hr : s.reader.refill = .onDemand)
    (hl : s.reader.left = 0) {rest : Bytes} (hb : s.bytes = modeBytes t d ++ rest) :
    ∃ u, pullDomain t s = .ok d u ∧ u.reader.refill = .onDemand ∧ u.bytes = rest := by
  have h := BitSource.unread_of_left_eq_zero hr hl
  rw [hb] at h
  unfold modeBytes at h hb
  by_cases hm : hasMode t = true
  · rw [if_pos hm] at h
    cases d with
    | pattern => exact pullDomain_of_pattern hm h
    | fixedPoint scale => exact pullDomain_of_scale hm hd.2 h
  · rw [if_neg hm] at hb
    cases d with
    | pattern =>
      refine ⟨s, ?_, hr, hb⟩
      unfold pullDomain
      rw [if_neg hm]
      rfl
    | fixedPoint scale => exact absurd hd.1 hm

/-- Where a stream begins, the mode is read with the first value. -/
theorem nextWord_start {u : BitSource} (h : pullDomain t ⟨reader, bytes⟩ = .ok d u) :
    nextWord t ⟨{}, reader, bytes⟩ = nextWord t ⟨⟨some d, []⟩, u.reader, u.bytes⟩ := by
  have hb := Feed.onBits_of_eq (f := (⟨{}, reader, bytes⟩ : Feed State)) h
  have hd : domain t ⟨{}, reader, bytes⟩ = .ok d ⟨⟨some d, []⟩, u.reader, u.bytes⟩ := by
    show (Feed.onBits (pullDomain t) >>= _) _ = _
    rw [bind_of_eq hb]
    rfl
  have hd' : domain t ⟨⟨some d, []⟩, u.reader, u.bytes⟩ = .ok d ⟨⟨some d, []⟩, u.reader, u.bytes⟩ := rfl
  rw [nextWord, bind_of_eq hd, bind_of_eq hd']

theorem nextWord_start_of_error {e : CodecError} {u : BitSource} (h : pullDomain t ⟨reader, bytes⟩ = .error e u) :
    nextWord t ⟨{}, reader, bytes⟩ = .error e ⟨{}, u.reader, u.bytes⟩ := by
  have hb := Feed.onBits_of_error (f := (⟨{}, reader, bytes⟩ : Feed State)) h
  have hd : domain t ⟨{}, reader, bytes⟩ = .error e ⟨{}, u.reader, u.bytes⟩ := by
    show (Feed.onBits (pullDomain t) >>= _) _ = _
    rw [bind_of_error hb]
  exact bind_of_error hd

/-- A payload gives its words, in the domain that it was made for. -/
theorem run_words (hd : d.Speakable t) (hlt : ∀ w ∈ words, w < 2 ^ d.width t) (hr : reader.refill = .onDemand)
    (hl : reader.left = 0) (rest : Bytes) :
    ∃ (state : State) (after : BitReader), state.ready = [] ∧
      Run (nextWord t) more ⟨{}, reader, payload t d words ++ rest⟩ (words.map (d, ·)) ⟨state, after, rest⟩ := by
  cases words with
  | nil => exact ⟨{}, reader, rfl, .nil _⟩
  | cons word words =>
    rw [payload, if_neg (List.cons_ne_nil _ _), List.append_assoc]
    obtain ⟨u, hu, hur, hub⟩ := pullDomain_of_modeBytes hd hr hl
      (s := ⟨reader, modeBytes t d ++ (blocks (d.width t) (word :: words) ++ rest)⟩) rfl
    obtain ⟨after, -, hrun⟩ := run_blocks hlt hur rest
    rw [← hub] at hrun
    have hmore : more ⟨{}, reader, modeBytes t d ++ (blocks (d.width t) (word :: words) ++ rest)⟩ = true := by
      simp [more, hasNext, blocks_cons_ne_nil]
    exact ⟨⟨some d, []⟩, after, rfl, hrun.of_first hmore (nextWord_start hu)⟩

/-- A payload gives the values that its words stand for. -/
theorem run_payload (hd : d.Speakable t) (hlt : ∀ w ∈ words, w < 2 ^ d.width t) (hr : reader.refill = .onDemand)
    (hl : reader.left = 0) (rest : Bytes) :
    ∃ (state : State) (after : BitReader), state.ready = [] ∧
      Run (next t) more ⟨{}, reader, payload t d words ++ rest⟩ (words.map (ofWord t d)) ⟨state, after, rest⟩ := by
  obtain ⟨state, after, hready, hrun⟩ := run_words hd hlt hr hl rest
  refine ⟨state, after, hready, ?_⟩
  have e : words.map (ofWord t d) = (words.map (d, ·)).map fun w => ofWord t w.1 w.2 := by
    rw [List.map_map]
    rfl
  rw [e]
  refine hrun.map id _ ?_ ?_
  · intro _ hs
    exact hs
  · intro f w g hw
    rw [next_eq]
    exact map_of_eq hw

end Chronicle.Delta
