/-
  Chronicle.Proofs.Stream.DeltaGrammar — what TS_2DIFF makes of any bytes.

  (1) The grammar. `parse` reads a whole stream at once: a mode where the type has one, and blocks. Of a
  block it takes all fields before it makes words of them, and each word is a sum from the front of the
  block (`Block.words`), not made of the word before it. It knows nothing of readers, of a byte that one is
  in the middle of, or of calls. Blocks end, as each has four bits at least (`shortens_block`).

  (2) What is found. A stream is whole or has a `Fault` (`ending_parse`). The values have bit patterns: the
  words themselves, except at a scale (`bits?_parse`).

  (3) The decoder. It yields the values that the parser finds, block by block and up to the same fault
  (`yields_parse`). That it makes each word of the one before it is no difference (`sums_eq_following`).
  Where a block begins, only the bytes that are left matter, and of a block that is not whole it gives
  nothing: all words are read when the first one is asked for (`nextWord_of_block`).
-/

import Mathlib.Algebra.GroupWithZero.Nat
import Mathlib.Data.List.Infix
import Chronicle.Proofs.Column.Value
import Chronicle.Proofs.Stream.Delta

namespace Chronicle.Delta.Grammar

open Reading BitParser Ieee

/-! ## The grammar -/

def field (width : Nat) : Parser (List Bool) Nat := number 0 width

def fields (width : Nat) : (count : Nat) → Parser (List Bool) (List Nat)
  | 0 => return []
  | count + 1 => do
    let n ← field width
    return n :: (← fields width count)

/-- A scale is finite and positive. -/
def scale : Parser (List Bool) Domain := do
  let scale : Binary64 := ⟨UInt64.ofNat (← field 64)⟩
  if scale.isFinite = true ∧ Binary64.zero < scale then return .fixedPoint scale
  else throw (.malformed (.fixedPointScale scale))

/-- The mode in front of floating-point numbers: 0 for bit patterns, or 1 and a scale. -/
def mode : Parser (List Bool) Domain := do
  match ← field 8 with
  | 0 => return .pattern
  | 1 => scale
  | other => throw (.malformed (.streamMode other))

def header : NumberType → Parser (List Bool) Domain
  | .int32 | .int64 => return .pattern
  | .float | .double => mode

def wordWidth : NumberType → Domain → Nat
  | .int32, .pattern | .float, .pattern => 32
  | _, _ => 64

/-- The fields of a block: the first word, and for each of the others what its difference from
    the word before it is above the least one. -/
structure Block where
  seed : Nat
  least : Nat := 0
  members : List Nat := []

/-- The words of a block: the first one, with the sum of the differences so far. -/
def Block.words (width : Nat) (b : Block) : List Nat :=
  b.members.inits.map fun front => (b.seed + (front.map (b.least + ·)).sum) % 2 ^ width

def block (width : Nat) : Parser (List Bool) Block := do
  let count ← field 4
  if count = 0 ∨ 8 < count then throw (.malformed (.blockCount count))
  else
    let seed ← field width
    if count = 1 then return { seed }
    else
      let least ← field width
      let memberWidth ← field 7
      if width < memberWidth then throw (.malformed (.blockWidth memberWidth width))
      else return { seed, least, members := ← fields memberWidth (count - 1) }

section Shortens

open Chronicle.Parser

theorem shortens_fields (width count : Nat) : Shortens 0 (fields width count) := by
  induction count with
  | zero => exact shortens_pure _
  | succ count ih =>
    have hfield : Shortens 0 (field width) := (shortens_number 0 width).mono (Nat.zero_le _)
    exact hfield.bind fun _ => ih.bind fun _ => shortens_pure _

/-- A block has at least the four bits of its count. -/
theorem shortens_block (width : Nat) : Shortens 4 (block width) := by
  have hfield : ∀ count, Shortens 0 (field count) := by
    intro count
    exact (shortens_number 0 count).mono (Nat.zero_le _)
  apply (shortens_number 0 4).bind (n := 0)
  intro count
  refine .ite (shortens_throw _) ?_
  apply (hfield width).bind (n := 0)
  intro seed
  refine .ite (shortens_pure _) ?_
  apply (hfield width).bind (n := 0)
  intro least
  apply (hfield 7).bind (n := 0)
  intro memberWidth
  exact .ite (shortens_throw _) ((shortens_fields _ _).bind fun _ => shortens_pure _)

end Shortens

/-- The words of blocks, each of which begins with a byte, up to the end of the bits or to the
    first block that is not one. There is at least one block. -/
def blocks (width : Nat) (bits : List Bool) : Findings Nat :=
  match _ : block width bits with
  | .error e => .failed e
  | .ok (b, behind) =>
    (if nextByte behind = [] then .finished else blocks width (nextByte behind)).after (b.words width)
termination_by bits.length
decreasing_by
  have := shortens_block width bits b behind ‹_›
  have := length_nextByte_le behind
  omega

/-- The value that a word stands for: the word is its bit pattern, or a signed number that is
    divided by the scale. -/
def valueOf (t : NumberType) (d : Domain) (word : Nat) : Value :=
  match t, d with
  | .float, .fixedPoint scale => .float (Binary64.ofInt (signedOf 64 word) / scale).narrow
  | .double, .fixedPoint scale => .double (Binary64.ofInt (signedOf 64 word) / scale)
  | t, _ => .ofBits (.number t) word

def parse (t : NumberType) (bytes : Bytes) : Findings Value :=
  if bytes = [] then .finished
  else
    match header t bytes.toBits with
    | .error e => .failed e
    | .ok (d, bits) => (blocks (wordWidth t d) bits).map (valueOf t d)

def patternOf (t : NumberType) (d : Domain) (word : Nat) : Nat :=
  match t, d with
  | .float, .fixedPoint scale => (Binary64.ofInt (signedOf 64 word) / scale).narrow.bits.toNat
  | .double, .fixedPoint scale => (Binary64.ofInt (signedOf 64 word) / scale).bits.toNat
  | _, _ => word

def patterns (t : NumberType) (bytes : Bytes) : List Nat :=
  if bytes = [] then []
  else
    match header t bytes.toBits with
    | .error _ => []
    | .ok (d, bits) => (blocks (wordWidth t d) bits).items.map (patternOf t d)

/-- What can be wrong with a stream: its bits end inside a field, or one of its fields is not one
    that an encoder writes. -/
inductive Fault (t : NumberType) : CodecError → Prop
  | bitsEnd : Fault t .underflow
  | mode {n : Nat} (h : 2 ≤ n) : Fault t (.malformed (.streamMode n))
  | scale {scale : Binary64} (h : ¬ (scale.isFinite = true ∧ Binary64.zero < scale)) :
    Fault t (.malformed (.fixedPointScale scale))
  | count {n : Nat} (h : n = 0 ∨ 8 < n) : Fault t (.malformed (.blockCount n))
  | width {n : Nat} {d : Domain} (h : wordWidth t d < n) : Fault t (.malformed (.blockWidth n (wordWidth t d)))

/-! ## What is found -/

section Parse

open Chronicle.Parser

variable {t : NumberType}

theorem faults_field (width : Nat) : Faults (Fault t) (field width) := faults_number .bitsEnd _ _

theorem faults_header : Faults (Fault t) (header t) := by
  have hscale : Faults (Fault t) scale := by
    apply (faults_field 64).bind
    intro n
    show Faults _ (if (Binary64.mk (UInt64.ofNat n)).isFinite = true ∧ _ then _ else _)
    split
    · exact faults_pure _
    · next h => exact faults_throw (.scale h)
  have hmode : Faults (Fault t) mode := by
    apply (faults_field 8).bind
    intro n
    match n with
    | 0 => exact faults_pure _
    | 1 => exact hscale
    | n + 2 => exact faults_throw (.mode (Nat.le_add_left 2 n))
  cases t with
  | int32 => exact faults_pure _
  | int64 => exact faults_pure _
  | float => exact hmode
  | double => exact hmode

theorem faults_fields (width count : Nat) : Faults (Fault t) (fields width count) := by
  induction count with
  | zero => exact faults_pure _
  | succ count ih => exact (faults_field width).bind fun _ => ih.bind fun _ => faults_pure _

theorem faults_block (d : Domain) : Faults (Fault t) (block (wordWidth t d)) := by
  apply (faults_field 4).bind
  intro count
  by_cases hcount : count = 0 ∨ 8 < count
  · simp only [if_pos hcount]
    exact faults_throw (.count hcount)
  simp only [if_neg hcount]
  apply (faults_field _).bind
  intro seed
  by_cases hone : count = 1
  · simp only [if_pos hone]
    exact faults_pure _
  simp only [if_neg hone]
  apply (faults_field _).bind
  intro least
  apply (faults_field 7).bind
  intro memberWidth
  by_cases hwide : wordWidth t d < memberWidth
  · simp only [if_pos hwide]
    exact faults_throw (.width hwide)
  · simp only [if_neg hwide]
    exact (faults_fields _ _).bind fun _ => faults_pure _

theorem ending_blocks (t : NumberType) (d : Domain) (bits : List Bool) :
    (blocks (wordWidth t d) bits).ending = .finished ∨
      ∃ e, Fault t e ∧ (blocks (wordWidth t d) bits).ending = .failed e := by
  fun_induction blocks (wordWidth t d) bits with
  | case1 bits e h => exact .inr ⟨e, faults_block d _ _ h, rfl⟩
  | case2 bits b behind h ih =>
    by_cases hend : nextByte behind = []
    · rw [if_pos hend]
      exact .inl rfl
    · rw [if_neg hend]
      exact ih

/-- A stream that is not whole has a fault. -/
theorem ending_parse (t : NumberType) (bytes : Bytes) :
    (parse t bytes).ending = .finished ∨ ∃ e, Fault t e ∧ (parse t bytes).ending = .failed e := by
  unfold parse
  split
  · exact .inl rfl
  cases hheader : header t bytes.toBits with
  | error e => exact .inr ⟨e, faults_header _ _ hheader, rfl⟩
  | ok r => exact ending_blocks t r.1 r.2

/-- Only floating-point numbers have words that are not their bit patterns. -/
theorem bits?_valueOf {bits rest : List Bool} {word : Nat} (hd : header t bits = .ok (d, rest))
    (hword : word < 2 ^ wordWidth t d) : (valueOf t d word).bits? = some (patternOf t d word) := by
  cases t with
  | int32 =>
    cases hd
    exact Value.bits?_ofBits (t := .number .int32) hword
  | int64 =>
    cases hd
    exact Value.bits?_ofBits (t := .number .int64) hword
  | float =>
    cases d with
    | pattern => exact Value.bits?_ofBits (t := .number .float) hword
    | fixedPoint scale => rfl
  | double =>
    cases d with
    | pattern => exact Value.bits?_ofBits (t := .number .double) hword
    | fixedPoint scale => rfl

theorem blocks_lt (width : Nat) (bits : List Bool) : ∀ word ∈ (blocks width bits).items, word < 2 ^ width := by
  have hwords : ∀ (b : Block), ∀ word ∈ b.words width, word < 2 ^ width := by
    intro b word hword
    obtain ⟨front, -, rfl⟩ := List.mem_map.1 hword
    exact Nat.mod_lt _ (Nat.two_pow_pos width)
  fun_induction blocks width bits with
  | case1 bits e h => exact List.forall_mem_nil _
  | case2 bits b behind h ih =>
    refine List.forall_mem_append.2 ⟨hwords b, ?_⟩
    by_cases hend : nextByte behind = []
    · rw [if_pos hend]
      exact List.forall_mem_nil _
    · rw [if_neg hend]
      exact ih

theorem bits?_parse (t : NumberType) (bytes : Bytes) :
    (parse t bytes).items.map Value.bits? = (patterns t bytes).map some := by
  unfold parse patterns
  by_cases hne : bytes = []
  · rw [if_pos hne, if_pos hne]
    rfl
  rw [if_neg hne, if_neg hne]
  cases hheader : header t bytes.toBits with
  | error e => rfl
  | ok r =>
    obtain ⟨d, bits⟩ := r
    dsimp only [Findings.map]
    rw [List.map_map, List.map_map]
    exact List.map_congr_left fun word hword => bits?_valueOf hheader (blocks_lt _ _ word hword)

end Parse

/-! ## Words -/

variable {width : Nat} {t : NumberType} {d : Domain}

theorem wordWidth_eq (t : NumberType) (d : Domain) : wordWidth t d = d.width t := by
  cases t <;> cases d <;> rfl

theorem valueOf_eq (t : NumberType) (d : Domain) : valueOf t d = ofWord t d := by
  funext word
  cases t <;> cases d <;> rfl

def following (width least : Nat) : (previous : Nat) → (members : List Nat) → List Nat
  | _, [] => []
  | previous, offset :: members =>
    let word := (previous + least + offset) % 2 ^ width
    word :: following width least word members

/-- Sums from the front of a block are made step by step. -/
theorem sums_eq_following (width least seed : Nat) (members : List Nat) :
    (members.inits.map fun front => (seed + (front.map (least + ·)).sum) % 2 ^ width) =
      seed % 2 ^ width :: following width least (seed % 2 ^ width) members := by
  induction members generalizing seed with
  | nil => simp [following]
  | cons offset members ih =>
    have hstep : (seed % 2 ^ width + (least + offset)) % 2 ^ width = (seed + (least + offset)) % 2 ^ width :=
      Nat.mod_add_mod ..
    have htail := ih (seed + (least + offset))
    simp only [Nat.add_assoc] at htail
    simp only [List.inits_cons, List.map_cons, List.map_map, Function.comp_def, List.map_nil, List.sum_nil,
      List.sum_cons, Nat.add_zero, Nat.add_assoc, following, hstep, htail]

theorem Block.words_eq {b : Block} (h : b.seed < 2 ^ width) :
    b.words width = b.seed :: following width b.least b.seed b.members := by
  have hsums := sums_eq_following width b.least b.seed b.members
  rw [Nat.mod_eq_of_lt h] at hsums
  exact hsums

/-- The first word of a block is not larger than a word can be. -/
theorem gives_block (width : Nat) : Parser.Gives (fun b => b.seed < 2 ^ width) (block width) := by
  refine Parser.gives_bind fun count => .ite (Parser.gives_throw _) ?_
  refine (BitParser.gives_number 0 width).bind fun seed hseed => .ite (Parser.gives_pure hseed) ?_
  refine Parser.gives_bind fun least => Parser.gives_bind fun memberWidth => .ite (Parser.gives_throw _) ?_
  exact Parser.gives_bind fun members => Parser.gives_pure hseed

/-! ## Fields -/

theorem follows_field (width : Nat) : Follows (Stands .onDemand) (BitSource.pullBits width) (field width) :=
  follows_pullBits width

theorem follows_pullDomain (t : NumberType) : Follows (Stands .onDemand) (pullDomain t) (header t) := by
  have hscale : ∀ n, Follows (Stands .onDemand)
      (if isScale ⟨UInt64.ofNat n⟩ then return .fixedPoint ⟨UInt64.ofNat n⟩
        else throw (.malformed (.fixedPointScale ⟨UInt64.ofNat n⟩)) : Reading BitSource Domain)
      (if (Binary64.mk (UInt64.ofNat n)).isFinite = true ∧ Binary64.zero < ⟨UInt64.ofNat n⟩ then
          return .fixedPoint ⟨UInt64.ofNat n⟩
        else throw (.malformed (.fixedPointScale ⟨UInt64.ofNat n⟩))) := by
    intro n
    have hiff : isScale ⟨UInt64.ofNat n⟩ = true ↔
        (Binary64.mk (UInt64.ofNat n)).isFinite = true ∧ Binary64.zero < ⟨UInt64.ofNat n⟩ := by
      simp [isScale]
    simp only [hiff]
    exact .ite (follows_pure _) (follows_throw _)
  have hmode : Follows (Stands .onDemand) (do
      match ← BitSource.pullBits 8 with
      | 0 => return .pattern
      | 1 =>
        let scale : Binary64 := ⟨UInt64.ofNat (← BitSource.pullBits 64)⟩
        if isScale scale then return .fixedPoint scale
        else throw (.malformed (.fixedPointScale scale))
      | mode => throw (.malformed (.streamMode mode)) : Reading BitSource Domain) mode := by
    apply (follows_field 8).bind
    intro n
    match n with
    | 0 => exact follows_pure _
    | 1 => exact (follows_field 64).bind hscale
    | n + 2 => exact follows_throw _
  cases t with
  | int32 => exact follows_pure _
  | int64 => exact follows_pure _
  | float => exact hmode
  | double => exact hmode

theorem follows_pullWords (width least memberWidth previous count : Nat) :
    Follows (Stands .onDemand) (pullWords width least memberWidth previous count)
      (do return following width least previous (← fields memberWidth count)) := by
  induction count generalizing previous with
  | zero => exact follows_pure _
  | succ count ih =>
    rw [pullWords, fields, bind_assoc]
    apply (follows_field memberWidth).bind
    intro offset
    have htail := (ih ((previous + least + offset) % 2 ^ width)).map ((previous + least + offset) % 2 ^ width :: ·)
    simp only [bind_assoc, pure_bind] at htail ⊢
    exact htail

def nextBlock (width : Nat) : Parser (List Bool) (Nat × List Nat) := do
  align
  let b ← block width
  return (b.seed, following width b.least b.seed b.members)

theorem nextBlock_eq (width : Nat) (bits : List Bool) :
    nextBlock width bits =
      (block width (nextByte bits)).map fun r => ((r.1.seed, following width r.1.least r.1.seed r.1.members), r.2) := by
  show (block width (nextByte bits) >>= _) = _
  cases block width (nextByte bits) <;> rfl

theorem follows_pullBlock (width : Nat) : Follows (Stands .onDemand) (pullBlock width) (nextBlock width) := by
  unfold pullBlock nextBlock block
  apply follows_align.bind
  intro _
  rw [bind_assoc]
  apply (follows_field 4).bind
  intro count
  by_cases hcount : count = 0 ∨ 8 < count
  · have hcount' : count = 0 ∨ blockSize < count := hcount
    simp only [if_pos hcount, if_pos hcount']
    exact follows_throw _
  have hcount' : ¬ (count = 0 ∨ blockSize < count) := hcount
  simp only [if_neg hcount, if_neg hcount']
  rw [bind_assoc]
  apply (follows_field width).bind
  intro seed
  by_cases hone : count = 1
  · simp only [if_pos hone]
    exact follows_pure _
  simp only [if_neg hone]
  rw [bind_assoc]
  apply (follows_field width).bind
  intro least
  rw [bind_assoc]
  apply (follows_field 7).bind
  intro memberWidth
  by_cases hwide : width < memberWidth
  · simp only [if_pos hwide]
    exact follows_throw _
  simp only [if_neg hwide]
  have hwords := (follows_pullWords width least memberWidth seed (count - 1)).map (seed, ·)
  simp only [bind_assoc, pure_bind] at hwords ⊢
  exact hwords

/-- What stands in front of the blocks is whole bytes. -/
theorem length_of_header {bits rest : List Bool} (h : header t bits = .ok (d, rest)) :
    rest.length % 8 = bits.length % 8 := by
  have hmode : mode bits = .ok (d, rest) → rest.length % 8 = bits.length % 8 := by
    intro h
    obtain ⟨⟨n, behind⟩, hn, h⟩ := exists_of_bind_eq_ok h
    have hbehind := length_of_number hn
    match n with
    | 0 =>
      cases h
      omega
    | 1 =>
      obtain ⟨⟨m, tail⟩, hm, h⟩ := exists_of_bind_eq_ok h
      have htail := length_of_number hm
      dsimp only at h
      split at h
      · cases h
        omega
      · cases h
    | n + 2 => cases h
  cases t with
  | int32 => cases h; rfl
  | int64 => cases h; rfl
  | float => exact hmode h
  | double => exact hmode h

/-! ## Blocks -/

section Blocks

variable {reader : BitReader} {bytes : Bytes} {bits behind : List Bool}

/-- Of a block that begins with the next byte the first word is read, and the others are kept. -/
theorem nextWord_of_block {b : Block} (hs : Stands .onDemand ⟨reader, bytes⟩ bits)
    (h : block (d.width t) (nextByte bits) = .ok (b, behind)) :
    ∃ (first : Nat) (others : List Nat) (u : BitSource),
      nextWord t ⟨⟨some d, []⟩, reader, bytes⟩ = .ok (d, first) ⟨⟨some d, others⟩, u.reader, u.bytes⟩ ∧
        b.words (d.width t) = first :: others ∧ Stands .onDemand u behind := by
  have hparse := nextBlock_eq (d.width t) bits
  rw [h] at hparse
  obtain ⟨u, hu, hbehind⟩ := (follows_pullBlock (d.width t)).ok hs hparse
  exact ⟨b.seed, _, u, nextWord_of_pullBlock hu, Block.words_eq (gives_block _ _ _ _ h), hbehind⟩

theorem nextWord_of_block_error {e : CodecError} (hs : Stands .onDemand ⟨reader, bytes⟩ bits)
    (h : block (d.width t) (nextByte bits) = .error e) :
    ∃ g, nextWord t ⟨⟨some d, []⟩, reader, bytes⟩ = .error e g := by
  have hparse := nextBlock_eq (d.width t) bits
  rw [h] at hparse
  obtain ⟨u, hu⟩ := (follows_pullBlock (d.width t)).error hs hparse
  exact ⟨_, nextWord_of_pullBlock_error hu⟩

/-- From where a block can begin a decoder yields the words of the blocks. The first of them may
    be read along with the mode. -/
theorem yields_blocks {f : Feed State} (hmore : more f = true)
    (hf : nextWord t f = nextWord t ⟨⟨some d, []⟩, reader, bytes⟩) (hs : Stands .onDemand ⟨reader, bytes⟩ bits) :
    Yields (nextWord t) more f ((blocks (d.width t) (nextByte bits)).items.map (d, ·))
      (blocks (d.width t) (nextByte bits)).ending := by
  generalize hwhole : nextByte bits = whole
  fun_induction blocks (d.width t) whole generalizing f reader bytes bits with
  | case1 whole e h =>
    subst hwhole
    obtain ⟨g, hg⟩ := nextWord_of_block_error hs h
    exact .failed hmore (hf.trans hg)
  | case2 whole b behind h ih =>
    subst hwhole
    obtain ⟨first, others, u, hu, hwords, hbehind⟩ := nextWord_of_block hs h
    have hbytes := toBits_bytes hbehind
    have hlater : Yields (nextWord t) more ⟨⟨some d, []⟩, u.reader, u.bytes⟩
        ((if nextByte behind = [] then .finished else blocks (d.width t) (nextByte behind)).items.map (d, ·))
        (if nextByte behind = [] then .finished else blocks (d.width t) (nextByte behind)).ending := by
      by_cases hend : nextByte behind = []
      · have hnil : u.bytes = [] := Bytes.toBits_injective (hbytes.trans hend)
        rw [if_pos hend, hnil]
        exact .finished rfl
      · have hnext : more ⟨⟨some d, []⟩, u.reader, u.bytes⟩ = true := by
          cases hu : u.bytes with
          | nil => rw [hu] at hbytes; exact absurd hbytes.symm hend
          | cons byte rest => rfl
        rw [if_neg hend]
        exact ih hnext rfl hbehind rfl
    rw [Findings.after, hwords, List.map_append, List.map_cons, List.cons_append]
    exact .cons hmore (hf.trans hu) ((run_ready others).yields hlater)

end Blocks

/-! ## Streams -/

/-- A decoder that has read nothing yields what is to be found in its bytes. -/
theorem yields_parse (t : NumberType) (bytes : Bytes) :
    Yields (next t) more ⟨{}, { refill := .onDemand }, bytes⟩ (parse t bytes).items (parse t bytes).ending := by
  unfold parse
  by_cases hne : bytes = []
  · subst hne
    exact .finished rfl
  rw [if_neg hne]
  have hmore : more ⟨{}, { refill := .onDemand }, bytes⟩ = true := by simp [more, hasNext, hne]
  have hstart : Stands .onDemand ⟨{ refill := .onDemand }, bytes⟩ bytes.toBits :=
    BitSource.unread_of_left_eq_zero rfl rfl
  cases hheader : header t bytes.toBits with
  | error e =>
    obtain ⟨u, hu⟩ := (follows_pullDomain t).error hstart hheader
    refine .failed (t := ⟨{}, u.reader, u.bytes⟩) hmore ?_
    rw [next_eq]
    exact map_of_error (nextWord_start_of_error hu)
  | ok r =>
    obtain ⟨d, bits⟩ := r
    obtain ⟨u, hu, hbits⟩ := (follows_pullDomain t).ok hstart hheader
    have hwhole : bits.length % 8 = 0 := by
      rw [length_of_header hheader, Bytes.length_toBits]
      omega
    have hwords := yields_blocks hmore (nextWord_start hu) hbits
    rw [nextByte_of_whole hwhole, ← wordWidth_eq] at hwords
    dsimp only [Findings.map]
    rw [valueOf_eq]
    have hvalues : ∀ words : List Nat, words.map (ofWord t d) = (words.map (d, ·)).map fun w => ofWord t w.1 w.2 := by
      intro words
      rw [List.map_map]
      rfl
    rw [hvalues]
    refine hwords.map id _ ?_ ?_ ?_
    · intro _
      rfl
    · intro f w g hw
      rw [next_eq]
      exact map_of_eq hw
    · intro f e g he
      rw [next_eq]
      exact map_of_error he

end Chronicle.Delta.Grammar
