/-
  Chronicle.Proofs.Wire.Parser — what a reading finds in an input that lies there whole.

  A parser takes from the front of a list, and has no state but what is left of it: either it gives a result
  or it says what is wrong. It says nothing about calls, about what a failed one leaves, or about a byte that
  is partly used. So a format that is described by a parser is described apart from its decoder.

  - A reading follows a parser if the two agree wherever the source of the one stands for the list of the
    other (`Follows`); this is proved step by step (`Follows.bind`).
  - Numbers of any width (`BitParser.follows_pullBits`) and LEB128 (`Varint.follows_pull`) are such parsers,
    which count what they need before they take anything, where the readings take it bit by bit and byte by
    byte.
  - A parser that takes something in any case can be repeated (`Parser.Shortens`). What can be wrong
    (`Parser.Faults`) and what holds of whatever it gives (`Parser.Gives`) is proved step by step as well.
  - `Findings` are what is in a whole input, and what is wrong with the rest of it.
-/

import Chronicle.Proofs.Wire.BitSource
import Chronicle.Proofs.Wire.Varint

namespace Chronicle

abbrev Parser (τ : Type) := StateT τ (Except CodecError)

/-- The items that an input has, and how they end. -/
structure Findings (α : Type) where
  items : List α
  ending : Ending

namespace Findings

variable {α : Type}

def finished : Findings α := ⟨[], .finished⟩

def failed (e : CodecError) : Findings α := ⟨[], .failed e⟩

def cons (a : α) (behind : Findings α) : Findings α := ⟨a :: behind.items, behind.ending⟩

def after (items : List α) (behind : Findings α) : Findings α := ⟨items ++ behind.items, behind.ending⟩

def map {β : Type} (f : α → β) (found : Findings α) : Findings β := ⟨found.items.map f, found.ending⟩

end Findings

namespace Parser

variable {τ α β : Type}

/-- What goes wrong in two steps goes wrong in the first one, or in the second one behind it. -/
theorem error_of_bind {p : Parser τ α} {g : α → Parser τ β} {x : τ} {e : CodecError} (h : (p >>= g) x = .error e) :
    p x = .error e ∨ ∃ a y, p x = .ok (a, y) ∧ g a y = .error e := by
  have h : (p x >>= fun r => g r.1 r.2) = .error e := h
  cases hp : p x with
  | error fault =>
    rw [hp] at h
    cases h
    exact .inl rfl
  | ok r =>
    rw [hp] at h
    exact .inr ⟨r.1, r.2, rfl, h⟩

/-- Nothing else can go wrong than what `E` says. -/
def Faults (E : CodecError → Prop) (p : Parser τ α) : Prop := ∀ x e, p x = .error e → E e

section Faults

variable {E : CodecError → Prop} {p p' : Parser τ α} {g : α → Parser τ β}

theorem faults_pure (a : α) : Faults E (pure a : Parser τ α) := by
  intro x e h
  cases h

theorem faults_throw {e : CodecError} (he : E e) : Faults E (throw e : Parser τ α) := by
  intro x fault h
  cases h
  exact he

theorem Faults.bind (hp : Faults E p) (hg : ∀ a, Faults E (g a)) : Faults E (p >>= g) := by
  intro x e h
  rcases error_of_bind h with h | ⟨a, y, -, h⟩
  · exact hp x e h
  · exact hg a y e h

end Faults

/-- What is left is shorter than the input by so many elements at least. -/
def Shortens (n : Nat) (p : Parser (List τ) α) : Prop := ∀ x a y, p x = .ok (a, y) → y.length + n ≤ x.length

section Shortens

variable {p p' : Parser (List τ) α} {g : α → Parser (List τ) β} {k n : Nat}

theorem shortens_pure (a : α) : Shortens 0 (pure a : Parser (List τ) α) := by
  intro x b y h
  cases h
  exact Nat.le_refl _

theorem shortens_throw (e : CodecError) : Shortens n (throw e : Parser (List τ) α) := by
  intro x a y h
  cases h

theorem Shortens.bind (hp : Shortens k p) (hg : ∀ a, Shortens n (g a)) : Shortens (k + n) (p >>= g) := by
  intro x b z h
  obtain ⟨⟨a, y⟩, ha, h⟩ := exists_of_bind_eq_ok h
  have := hp x a y ha
  have := hg a y b z h
  omega

theorem Shortens.mono (hp : Shortens n p) (hk : k ≤ n) : Shortens k p := by
  intro x a y h
  have := hp x a y h
  omega

theorem Shortens.ite {c : Prop} [Decidable c] (h : Shortens n p) (h' : Shortens n p') :
    Shortens n (if c then p else p') := by
  split
  · exact h
  · exact h'

end Shortens

/-- What is given is as `P` says. -/
def Gives (P : α → Prop) (p : Parser τ α) : Prop := ∀ x a y, p x = .ok (a, y) → P a

section Gives

variable {P : α → Prop} {Q : β → Prop} {p p' : Parser τ α} {g : α → Parser τ β}

theorem gives_pure {a : α} (h : P a) : Gives P (pure a : Parser τ α) := by
  intro x b y hb
  cases hb
  exact h

theorem gives_throw (e : CodecError) : Gives P (throw e : Parser τ α) := by
  intro x a y h
  cases h

/-- What the second step is told of the first one is what that one gives. -/
theorem Gives.bind (hp : Gives P p) (hg : ∀ a, P a → Gives Q (g a)) : Gives Q (p >>= g) := by
  intro x b z h
  obtain ⟨⟨a, y⟩, ha, h⟩ := exists_of_bind_eq_ok h
  exact hg a (hp x a y ha) y b z h

theorem gives_bind (hg : ∀ a, Gives Q (g a)) : Gives Q (p >>= g) := by
  intro x b z h
  obtain ⟨⟨a, y⟩, -, h⟩ := exists_of_bind_eq_ok h
  exact hg a y b z h

theorem Gives.ite {c : Prop} [Decidable c] (h : Gives P p) (h' : Gives P p') : Gives P (if c then p else p') := by
  split
  · exact h
  · exact h'

end Gives

end Parser

/-! ## Readings that follow a parser -/

namespace Reading

variable {σ τ α β : Type}

/-- Where the source stands for the input, the reading gives what the parser gives and leaves
    what the parser leaves, and where the parser fails it fails with the same error. -/
structure Follows (Stands : σ → τ → Prop) (m : Reading σ α) (p : Parser τ α) : Prop where
  ok : ∀ {s x a y}, Stands s x → p x = .ok (a, y) → ∃ t, m s = .ok a t ∧ Stands t y
  error : ∀ {s x e}, Stands s x → p x = .error e → ∃ t, m s = .error e t

variable {Stands : σ → τ → Prop} {m : Reading σ α} {p : Parser τ α} {f : α → Reading σ β} {g : α → Parser τ β}

theorem follows_pure (a : α) : Follows Stands (pure a) (pure a) where
  ok := by
    intro s x b y hs h
    cases h
    exact ⟨s, rfl, hs⟩
  error := by
    intro s x e _ h
    cases h

theorem follows_throw (e : CodecError) : Follows Stands (throw e : Reading σ α) (throw e) where
  ok := by
    intro s x b y _ h
    cases h
  error := by
    intro s x fault _ h
    cases h
    exact ⟨s, rfl⟩

theorem Follows.bind (hm : Follows Stands m p) (hf : ∀ a, Follows Stands (f a) (g a)) :
    Follows Stands (m >>= f) (p >>= g) where
  ok := by
    intro s x b z hs h
    obtain ⟨⟨a, y⟩, ha, h⟩ := exists_of_bind_eq_ok h
    obtain ⟨t, ht, hy⟩ := hm.ok hs ha
    obtain ⟨u, hu, hz⟩ := (hf a).ok hy h
    exact ⟨u, by rw [bind_of_eq ht, hu], hz⟩
  error := by
    intro s x e hs h
    rcases Parser.error_of_bind h with hp | ⟨a, y, hp, h⟩
    · obtain ⟨t, ht⟩ := hm.error hs hp
      exact ⟨t, bind_of_error ht⟩
    · obtain ⟨t, ht, hy⟩ := hm.ok hs hp
      obtain ⟨u, hu⟩ := (hf a).error hy h
      exact ⟨u, by rw [bind_of_eq ht, hu]⟩

theorem Follows.map (hm : Follows Stands m p) (f : α → β) :
    Follows Stands (do return f (← m)) (do return f (← p)) :=
  hm.bind fun a => follows_pure (f a)

theorem Follows.ite {c : Prop} [Decidable c] {m' : Reading σ α} {p' : Parser τ α} (h : Follows Stands m p)
    (h' : Follows Stands m' p') : Follows Stands (if c then m else m') (if c then p else p') := by
  split
  · exact h
  · exact h'

end Reading

open Reading

/-! ## Bits -/

namespace BitParser

/-- The number that the next `count` bits write, if these and `ahead` more are there. -/
def number (ahead count : Nat) : Parser (List Bool) Nat := fun bits =>
  if count + ahead ≤ bits.length then .ok (numberOf (bits.take count), bits.drop count)
  else .error .underflow

theorem faults_number {E : CodecError → Prop} (hE : E .underflow) (ahead count : Nat) :
    Parser.Faults E (number ahead count) := by
  intro bits e h
  unfold number at h
  split at h <;> cases h
  exact hE

/-- A number takes as many bits as it has. -/
theorem length_of_number {ahead count n : Nat} {bits rest : List Bool} (h : number ahead count bits = .ok (n, rest)) :
    rest.length + count = bits.length := by
  unfold number at h
  split at h
  · cases h
    rw [List.length_drop]
    omega
  · cases h

theorem gives_number (ahead count : Nat) : Parser.Gives (· < 2 ^ count) (number ahead count) := by
  intro bits n rest h
  unfold number at h
  split at h
  · cases h
    refine Nat.lt_of_lt_of_le (numberOf_lt _) (Nat.pow_le_pow_right (by decide) ?_)
    exact List.length_take_le _ _
  · cases h

theorem shortens_number (ahead count : Nat) : Parser.Shortens count (number ahead count) := by
  intro bits n rest h
  exact Nat.le_of_eq (length_of_number h)

def bit (ahead : Nat) : Parser (List Bool) Bool := do return (← number ahead 1) == 1

/-- The bits behind the byte that the first one is in the middle of. An input is whole bytes, so
    what is left of that byte is what is left over from eights. -/
def nextByte (bits : List Bool) : List Bool := bits.drop (bits.length % 8)

theorem nextByte_of_whole {bits : List Bool} (h : bits.length % 8 = 0) : nextByte bits = bits := by
  rw [nextByte, h, List.drop_zero]

theorem length_nextByte_le (bits : List Bool) : (nextByte bits).length ≤ bits.length := by
  rw [nextByte, List.length_drop]
  exact Nat.sub_le _ _

def align : Parser (List Bool) Unit := fun bits => .ok ((), nextByte bits)

open BitSource

section Number

variable (s : BitSource) {count : Nat}

/-- A source gives what its bits write. It may be at the start of its bytes. -/
theorem pullBits_of_number {n : Nat} {rest : List Bool} (hpos : 0 < count) (hl : s.reader.left ≤ 8)
    (h : number s.reader.refill.ahead count s.toBits = .ok (n, rest)) :
    ∃ t, pullBits count s = .ok n t ∧ t.Unread s.reader.refill rest := by
  unfold number at h
  split at h
  · next henough =>
    cases h
    exact pullBits_of_enough hpos hl henough
  · cases h

theorem pullBits_of_number_error {e : CodecError} (hpos : 0 < count) (hl : s.reader.left ≤ 8)
    (h : number s.reader.refill.ahead count s.toBits = .error e) : ∃ t, pullBits count s = .error e t := by
  unfold number at h
  split at h
  · cases h
  · next hshort =>
    cases h
    exact pullBits_of_short hpos hl (Nat.lt_of_not_le hshort)

end Number

variable {refill : Refill}

/-- A source between two readings stands for the bits that it has still to give. -/
def Stands (refill : Refill) (s : BitSource) (bits : List Bool) : Prop := s.Unread refill bits

/-- No bits at all are always there: between two readings an eager reader has one. -/
theorem number_zero {s : BitSource} (h : refill.Leaves s.reader.left) :
    number refill.ahead 0 s.toBits = .ok (0, s.toBits) := by
  apply if_pos
  cases refill with
  | onDemand => exact Nat.zero_le _
  | eager =>
    rw [toBits, List.length_append, length_bitsOf]
    exact Nat.le_trans h.1 (Nat.le_add_right ..)

theorem follows_pullBits (count : Nat) : Follows (Stands refill) (pullBits count) (number refill.ahead count) where
  ok := by
    intro s bits n rest hs h
    obtain ⟨rfl, hleaves, rfl⟩ := hs
    cases count with
    | zero =>
      rw [number_zero hleaves] at h
      cases h
      exact ⟨s, rfl, rfl, hleaves, rfl⟩
    | succ count => exact pullBits_of_number s (Nat.succ_pos count) hleaves.le h
  error := by
    intro s bits e hs h
    obtain ⟨rfl, hleaves, rfl⟩ := hs
    cases count with
    | zero =>
      rw [number_zero hleaves] at h
      cases h
    | succ count => exact pullBits_of_number_error s (Nat.succ_pos count) hleaves.le h

theorem pullBit_eq : pullBit = (do return (← pullBits 1) == 1) := by
  simp only [pullBits, pure_bind, bind_assoc]
  have e : ∀ b : Bool, (b.toNat * 2 ^ 0 + 0 == 1) = b := by decide
  simp only [e, bind_pure]

theorem follows_pullBit : Follows (Stands refill) pullBit (bit refill.ahead) := by
  rw [pullBit_eq]
  exact (follows_pullBits 1).map _

/-- Between two readings on demand the bytes of a source are the bits behind the current byte. -/
theorem toBits_bytes {s : BitSource} {bits : List Bool} (h : Stands .onDemand s bits) :
    s.bytes.toBits = nextByte bits := by
  obtain ⟨-, hleaves, rfl⟩ := h
  have hlt : s.reader.left < 8 := hleaves
  have hlen : s.toBits.length % 8 = s.reader.left := by
    rw [toBits, List.length_append, length_bitsOf, Bytes.length_toBits]
    omega
  rw [nextByte, hlen, toBits, List.drop_left' (length_bitsOf _ _)]

theorem follows_align : Follows (Stands .onDemand) BitSource.align align where
  ok := by
    intro s bits _ rest hs h
    cases h
    refine ⟨_, rfl, ?_⟩
    rw [← toBits_bytes hs]
    exact unread_of_left_eq_zero (s := { s with reader := s.reader.align }) hs.refill_eq rfl
  error := by
    intro s bits e _ h
    cases h

end BitParser

/-! ## Bytes -/

namespace Bytes

def byte : Parser Bytes UInt8
  | [] => .error .underflow
  | b :: rest => .ok (b, rest)

def number (count : Nat) : Parser Bytes Nat := fun bytes =>
  if count ≤ bytes.length then .ok (toNat (bytes.take count), bytes.drop count) else .error .underflow

theorem faults_number {E : CodecError → Prop} (hE : E .underflow) (count : Nat) :
    Parser.Faults E (number count) := by
  intro bytes e h
  unfold number at h
  split at h <;> cases h
  exact hE

theorem follows_pullByte : Follows Eq pullByte byte where
  ok := by
    rintro bytes _ b rest rfl h
    cases bytes with
    | nil => cases h
    | cons x bytes =>
      cases h
      exact ⟨_, rfl, rfl⟩
  error := by
    rintro bytes _ e rfl h
    cases bytes with
    | nil =>
      cases h
      exact ⟨_, rfl⟩
    | cons x bytes => cases h

theorem follows_pullNat (count : Nat) : Follows Eq (pullNat count) (number count) where
  ok := by
    rintro bytes _ n rest rfl h
    unfold number at h
    split at h
    · next henough =>
      cases h
      have hpull : pull count bytes = .ok (bytes.take count) (bytes.drop count) := if_pos henough
      exact ⟨_, map_of_eq hpull, rfl⟩
    · cases h
  error := by
    rintro bytes _ e rfl h
    unfold number at h
    split at h
    · cases h
    · next hshort =>
      cases h
      have hpull : pull count bytes = .error .underflow bytes := if_neg hshort
      exact ⟨_, bind_of_error hpull⟩

end Bytes

/-! ## LEB128 -/

namespace Varint

/-- The number that the low seven bits of some bytes write, the low ones first. -/
def weigh : Bytes → Nat
  | [] => 0
  | b :: bytes => b.toNat % 128 + 128 * weigh bytes

/-- How many bytes there are in front that say that another one follows. -/
def continued (bytes : Bytes) : Nat := (bytes.takeWhile fun b => 128 ≤ b).length

/-- A number below `2 * 128 ^ more`, in at most `more + 1` bytes, found at once. -/
def parseWithin (more : Nat) : Parser Bytes Nat := fun bytes =>
  let count := continued bytes + 1
  if more + 1 < count then .error (.malformed .varintTooLarge)
  else if bytes.length < count then .error .underflow
  else if 2 * 128 ^ more ≤ weigh (bytes.take count) then .error (.malformed .varintTooLarge)
  else .ok (weigh (bytes.take count), bytes.drop count)

def parse : Parser Bytes Nat := parseWithin 9

theorem faults_parse {E : CodecError → Prop} (hshort : E .underflow) (hlarge : E (.malformed .varintTooLarge)) :
    Parser.Faults E parse := by
  intro bytes e h
  unfold parse parseWithin at h
  dsimp only at h
  split at h
  · cases h
    exact hlarge
  split at h
  · cases h
    exact hshort
  split at h <;> cases h
  exact hlarge

theorem continued_of_lt {b : UInt8} (h : b < 128) (rest : Bytes) : continued (b :: rest) = 0 := by
  have h : ¬ 128 ≤ b := UInt8.not_le.2 h
  simp [continued, h]

theorem continued_of_le {b : UInt8} (h : ¬ b < 128) (rest : Bytes) : continued (b :: rest) = continued rest + 1 := by
  have h : 128 ≤ b := UInt8.not_lt.1 h
  simp [continued, h]

/-- Where only one byte is allowed, it is 0 or 1. -/
theorem parseWithin_zero :
    parseWithin 0 = (do
      let b ← Bytes.byte
      if 1 < b then throw (.malformed .varintTooLarge) else return b.toNat) := by
  funext bytes
  cases bytes with
  | nil => rfl
  | cons b rest =>
    show parseWithin 0 (b :: rest) =
      (if 1 < b then throw (.malformed .varintTooLarge) else pure b.toNat : Parser Bytes Nat) rest
    unfold parseWithin
    by_cases hb : b < 128
    · have hlow : b.toNat % 128 = b.toNat := Nat.mod_eq_of_lt (UInt8.lt_iff_toNat_lt.1 hb)
      simp only [continued_of_lt hb, weigh, List.take_succ_cons, List.take_zero, List.drop_succ_cons, List.drop_zero,
        hlow]
      by_cases h1 : 1 < b
      · have h2 : 2 ≤ b.toNat := UInt8.lt_iff_toNat_lt.1 h1
        rw [if_neg (by omega), if_neg (by simp), if_pos (by omega), if_pos h1]
        rfl
      · have h2 : ¬ 2 ≤ b.toNat := fun h => h1 (UInt8.lt_iff_toNat_lt.2 h)
        rw [if_neg (by omega), if_neg (by simp), if_neg (by omega), if_neg h1]
        rfl
    · have h1 : 1 < b := UInt8.lt_of_lt_of_le (by decide) (UInt8.not_lt.1 hb)
      simp only [continued_of_le hb]
      rw [if_pos (by omega), if_pos h1]
      rfl

/-- Where more than one byte is allowed, the first says whether there is another one. -/
theorem parseWithin_succ (more : Nat) :
    parseWithin (more + 1) = (do
      let b ← Bytes.byte
      if b < 128 then return b.toNat else return (b.toNat - 128) + 128 * (← parseWithin more)) := by
  funext bytes
  cases bytes with
  | nil => rfl
  | cons b rest =>
    show parseWithin (more + 1) (b :: rest) =
      (if b < 128 then pure b.toNat else (do return (b.toNat - 128) + 128 * (← parseWithin more)) : Parser Bytes Nat)
        rest
    unfold parseWithin
    by_cases hb : b < 128
    · have hlt : b.toNat < 128 := UInt8.lt_iff_toNat_lt.1 hb
      have hpow : 128 ≤ 2 * 128 ^ (more + 1) := by
        rw [Nat.pow_succ]
        have := Nat.one_le_pow more 128 (by decide)
        omega
      simp only [continued_of_lt hb, weigh, List.take_succ_cons, List.take_zero, List.drop_succ_cons, List.drop_zero,
        Nat.mod_eq_of_lt hlt]
      rw [if_neg (by omega), if_neg (by simp), if_neg (by omega), if_pos hb]
      rfl
    · have hle : 128 ≤ b.toNat := UInt8.le_iff_toNat_le.1 (UInt8.not_lt.1 hb)
      have hmod : b.toNat % 128 = b.toNat - 128 := by
        have := b.toNat_lt
        omega
      have hpow : 2 * 128 ^ (more + 1) = 128 * (2 * 128 ^ more) := by
        rw [Nat.pow_succ]
        omega
      simp only [continued_of_le hb, weigh, List.take_succ_cons, List.drop_succ_cons, List.length_cons, hmod, hpow]
      rw [if_neg hb]
      show _ = (parseWithin more rest >>= fun r => pure (b.toNat - 128 + 128 * r.1, r.2))
      unfold parseWithin
      by_cases hmany : more + 1 < continued rest + 1
      · rw [if_pos (by omega)]
        simp only [if_pos hmany]
        rfl
      · rw [if_neg (by omega)]
        simp only [if_neg hmany]
        by_cases hshort : rest.length < continued rest + 1
        · rw [if_pos (by omega), if_pos hshort]
          rfl
        · rw [if_neg (by omega), if_neg hshort]
          have hsub : b.toNat - 128 < 128 := by
            have := b.toNat_lt
            omega
          by_cases hlarge : 2 * 128 ^ more ≤ weigh (rest.take (continued rest + 1))
          · rw [if_pos (by omega), if_pos hlarge]
            rfl
          · rw [if_neg (by omega), if_neg hlarge]
            rfl

/-- Reading byte by byte finds what there is to find. -/
theorem follows_pullWithin (more : Nat) : Follows Eq (pullWithin more) (parseWithin more) := by
  induction more with
  | zero =>
    rw [parseWithin_zero]
    apply Bytes.follows_pullByte.bind
    intro b
    exact .ite (follows_throw _) (follows_pure _)
  | succ more ih =>
    rw [parseWithin_succ]
    apply Bytes.follows_pullByte.bind
    intro b
    exact .ite (follows_pure _) (ih.map _)

theorem follows_pull : Follows Eq pull parse := follows_pullWithin 9

end Varint

end Chronicle
