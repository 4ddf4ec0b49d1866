/-
  Chronicle.Proofs.Stream.GorillaGrammar — what GORILLA makes of any bytes.

  (1) The grammar. `parse` reads a whole stream at once: a count, a pattern as it is, and codes. It keeps no
  byte that it is in the middle of and no count of what it has used; between two codes it has the pattern
  and the window and the bits that are left, and a field is the number that the bits in front write. In the
  second version a field needs one bit behind it that it does not take (`ahead`), which is all that is left
  of reading a byte ahead.

  (2) What is found. There are as many patterns as the count says, or there is a `Fault` (`ending_parse`).
  All of them are patterns of the type, whatever the windows are (`parse_lt`): the bits inside a window do
  not reach above the pattern, as there are none where the window would (`inside_lt`).

  (3) The decoder. It yields what the parser finds, item by item and up to the same fault (`yields_parse`):
  it follows the parser through each field (`follows_pullFollowing`), from the first bit on.
-/

import Chronicle.Proofs.Stream.Gorilla

namespace Chronicle.Gorilla.Grammar

open Reading BitParser

/-! ## The grammar -/

/-- How many bits have to lie behind those of a field. A stream of the second version has a last
    byte that no field takes all of. -/
def ahead : GorillaVersion → Nat
  | .v1 => 0
  | .v2 => 1

def windowField : NumberType → Nat
  | .int32 | .float => 5
  | .int64 | .double => 6

def meaningful (version : GorillaVersion) (t : NumberType) (field : Nat) : Nat :=
  match version with
  | .v1 => if field = 0 then t.width else field
  | .v2 => field + 1

/-- A window of its own: the zeros above, the bits inside, and what remains as zeros below. -/
def newWindow (version : GorillaVersion) (t : NumberType) : Parser (List Bool) Window := do
  let leading ← number (ahead version) (windowField t)
  let size := meaningful version t (← number (ahead version) (windowField t))
  if t.width < leading + size then throw (.malformed (.windowTooWide leading size t.width))
  else return ⟨leading, t.width - leading - size⟩

def sameWindow : Option Window → Parser (List Bool) Window
  | some window => pure window
  | none => throw (.malformed .windowMissing)

/-- Behind 0 the window is that of an earlier code, behind 1 it is a new one. -/
def window (version : GorillaVersion) (t : NumberType) (window? : Option Window) : Parser (List Bool) Window := do
  if ← bit (ahead version) then newWindow version t else sameWindow window?

/-- A code, as the pattern that it makes of the one before and the window for later codes: 0 says
    that the pattern is the same, 1 that a window and the bits in which it differs follow. -/
def code (version : GorillaVersion) (t : NumberType) (previous : Nat) (window? : Option Window) :
    Parser (List Bool) (Nat × Option Window) := do
  if ← bit (ahead version) then
    let window ← window version t window?
    let inside ← number (ahead version) (t.width - window.leading - window.trailing)
    return (previous ^^^ (inside * 2 ^ window.trailing), some window)
  else return (previous, window?)

def patterns (version : GorillaVersion) (t : NumberType) :
    (left previous : Nat) → Option Window → List Bool → Findings Nat
  | 0, _, _, _ => .finished
  | left + 1, previous, window?, bits =>
    match code version t previous window? bits with
    | .error e => .failed e
    | .ok ((value, window?), rest) => (patterns version t left value window? rest).cons value

def header : GorillaVersion → Parser Bytes Nat
  | .v1 => Bytes.number 4
  | .v2 => Varint.parse

/-- How many patterns a stream says that it has. It has at least one. -/
def count (version : GorillaVersion) : Parser Bytes Nat := do
  let count ← header version
  if count = 0 then throw (.malformed .zeroCount) else return count

/-- The patterns of a stream. What follows the last one is not looked at. -/
def parse (version : GorillaVersion) (t : NumberType) (bytes : Bytes) : Findings Nat :=
  if bytes = [] then .finished
  else
    match count version bytes with
    | .error e => .failed e
    | .ok (count, rest) =>
      match number (ahead version) t.width rest.toBits with
      | .error e => .failed e
      | .ok (value, bits) => (patterns version t (count - 1) value none bits).cons value

/-- What can be wrong with a stream: its bytes end inside a field, or one of its fields is not one
    that an encoder writes. -/
inductive Fault (t : NumberType) : CodecError → Prop
  | bytesEnd : Fault t .underflow
  | varintTooLarge : Fault t (.malformed .varintTooLarge)
  | zeroCount : Fault t (.malformed .zeroCount)
  | windowMissing : Fault t (.malformed .windowMissing)
  | windowTooWide {leading size : Nat} (h : t.width < leading + size) :
    Fault t (.malformed (.windowTooWide leading size t.width))

/-! ## What is found -/

section Parse

open Chronicle.Parser

variable {version : GorillaVersion} {t : NumberType}

theorem faults_field (width : Nat) : Faults (Fault t) (number (ahead version) width) :=
  faults_number .bytesEnd _ _

theorem faults_flag : Faults (Fault t) (bit (ahead version)) :=
  (faults_field 1).bind fun _ => faults_pure _

theorem faults_newWindow : Faults (Fault t) (newWindow version t) := by
  apply (faults_field _).bind
  intro leading
  apply (faults_field _).bind
  intro field
  show Faults _ (if t.width < leading + meaningful version t field then _ else _)
  split
  · next h => exact faults_throw (.windowTooWide h)
  · exact faults_pure _

theorem faults_code (previous : Nat) (window? : Option Window) :
    Faults (Fault t) (code version t previous window?) := by
  apply faults_flag.bind
  intro differs
  cases differs with
  | false => exact faults_pure _
  | true =>
    have hwindow : Faults (Fault t) (window version t window?) := by
      apply faults_flag.bind
      intro isNew
      cases isNew with
      | true => exact faults_newWindow
      | false =>
        cases window? with
        | none => exact faults_throw .windowMissing
        | some window => exact faults_pure window
    exact hwindow.bind fun window => (faults_field _).bind fun _ => faults_pure _

theorem faults_count : Faults (Fault t) (count version) := by
  have hheader : Faults (Fault t) (header version) := by
    cases version with
    | v1 => exact Bytes.faults_number .bytesEnd 4
    | v2 => exact Varint.faults_parse .bytesEnd .varintTooLarge
  apply hheader.bind
  intro n
  cases n with
  | zero => exact faults_throw .zeroCount
  | succ n => exact faults_pure _

theorem gives_count : Gives (0 < ·) (count version) := by
  refine gives_bind fun n => ?_
  cases n with
  | zero => exact gives_throw _
  | succ n => exact gives_pure (Nat.succ_pos n)

theorem count_pos {bytes rest : Bytes} {n : Nat} (h : count version bytes = .ok (n, rest)) : 0 < n :=
  gives_count _ _ _ h

/-- What stands inside a window does not reach above the pattern, also where the window itself does:
    then there are no bits inside. -/
theorem inside_lt {width leading trailing inside : Nat} (h : inside < 2 ^ (width - leading - trailing)) :
    inside * 2 ^ trailing < 2 ^ width := by
  by_cases hle : trailing ≤ width
  · calc inside * 2 ^ trailing < 2 ^ (width - leading - trailing) * 2 ^ trailing :=
          Nat.mul_lt_mul_of_pos_right h (Nat.two_pow_pos trailing)
      _ ≤ 2 ^ (width - trailing) * 2 ^ trailing :=
          Nat.mul_le_mul_right _ (Nat.pow_le_pow_right (by decide) (by omega))
      _ = 2 ^ width := by rw [← Nat.pow_add, Nat.sub_add_cancel hle]
  · have hzero : width - leading - trailing = 0 := by omega
    rw [hzero, Nat.pow_zero, Nat.lt_one_iff] at h
    rw [h, Nat.zero_mul]
    exact Nat.two_pow_pos width

theorem gives_code {previous : Nat} (hprevious : previous < 2 ^ t.width) (window? : Option Window) :
    Gives (fun found => found.1 < 2 ^ t.width) (code version t previous window?) := by
  refine gives_bind fun differs => .ite (gives_bind fun window => ?_) (gives_pure hprevious)
  refine (gives_number _ _).bind fun inside hinside => ?_
  exact gives_pure (Nat.xor_lt_two_pow hprevious (inside_lt hinside))

theorem patterns_lt {left previous : Nat} {window? : Option Window} {bits : List Bool}
    (hprevious : previous < 2 ^ t.width) :
    ∀ n ∈ (patterns version t left previous window? bits).items, n < 2 ^ t.width := by
  induction left generalizing previous window? bits with
  | zero => exact List.forall_mem_nil _
  | succ left ih =>
    rw [patterns]
    cases hcode : code version t previous window? bits with
    | error e => exact List.forall_mem_nil _
    | ok r =>
      have hvalue := gives_code hprevious window? _ _ _ hcode
      exact List.forall_mem_cons.2 ⟨hvalue, ih hvalue⟩

/-- What is found are patterns of the type. -/
theorem parse_lt (version : GorillaVersion) (t : NumberType) (bytes : Bytes) :
    ∀ n ∈ (parse version t bytes).items, n < 2 ^ t.width := by
  unfold parse
  by_cases hne : bytes = []
  · rw [if_pos hne]
    exact List.forall_mem_nil _
  rw [if_neg hne]
  cases count version bytes with
  | error e => exact List.forall_mem_nil _
  | ok r =>
    dsimp only
    cases hfirst : number (ahead version) t.width r.2.toBits with
    | error e => exact List.forall_mem_nil _
    | ok r =>
      have hvalue := gives_number _ _ _ _ _ hfirst
      exact List.forall_mem_cons.2 ⟨hvalue, patterns_lt hvalue⟩

/-- All the patterns are there, or there is a fault. -/
theorem ending_patterns (version : GorillaVersion) (t : NumberType) (left previous : Nat) (window? : Option Window)
    (bits : List Bool) :
    ((patterns version t left previous window? bits).ending = .finished ∧
        (patterns version t left previous window? bits).items.length = left) ∨
      ∃ e, Fault t e ∧ (patterns version t left previous window? bits).ending = .failed e := by
  induction left generalizing previous window? bits with
  | zero => exact .inl ⟨rfl, rfl⟩
  | succ left ih =>
    rw [patterns]
    cases hcode : code version t previous window? bits with
    | error e => exact .inr ⟨e, faults_code _ _ _ _ hcode, rfl⟩
    | ok r =>
      obtain ⟨⟨value, after⟩, rest⟩ := r
      rcases ih value after rest with ⟨hend, hlen⟩ | hfault
      · exact .inl ⟨hend, congrArg Nat.succ hlen⟩
      · exact .inr hfault

/-- There are as many patterns as the count says, or there is a fault. -/
theorem ending_parse {bytes : Bytes} (hne : bytes ≠ []) :
    ((parse version t bytes).ending = .finished ∧
        ∃ rest, count version bytes = .ok ((parse version t bytes).items.length, rest)) ∨
      ∃ e, Fault t e ∧ (parse version t bytes).ending = .failed e := by
  rw [parse, if_neg hne]
  cases hcount : count version bytes with
  | error e => exact .inr ⟨e, faults_count _ _ hcount, rfl⟩
  | ok r =>
    obtain ⟨n, rest⟩ := r
    have hpos := count_pos hcount
    dsimp only
    cases hfirst : number (ahead version) t.width rest.toBits with
    | error e => exact .inr ⟨e, faults_field _ _ _ hfirst, rfl⟩
    | ok r =>
      obtain ⟨value, bits⟩ := r
      rcases ending_patterns version t (n - 1) value none bits with ⟨hend, hlen⟩ | hfault
      · refine .inl ⟨hend, rest, ?_⟩
        have hn : n = (patterns version t (n - 1) value none bits).items.length + 1 := by omega
        exact congrArg (fun k => Except.ok (k, rest)) hn
      · exact .inr hfault

end Parse

/-! ## Fields -/

variable {version : GorillaVersion} {t : NumberType}

theorem ahead_refill (version : GorillaVersion) : (refill version).ahead = ahead version := by
  cases version <;> rfl

theorem fieldWidth_width (t : NumberType) : fieldWidth t.width = windowField t := by
  cases t <;> rfl

theorem follows_field (version : GorillaVersion) (width : Nat) :
    Follows (Stands (refill version)) (BitSource.pullBits width) (number (ahead version) width) := by
  rw [← ahead_refill]
  exact follows_pullBits width

theorem follows_flag (version : GorillaVersion) :
    Follows (Stands (refill version)) BitSource.pullBit (bit (ahead version)) := by
  rw [← ahead_refill]
  exact follows_pullBit

theorem follows_pullWindow (version : GorillaVersion) (t : NumberType) :
    Follows (Stands (refill version)) (pullWindow version t.width) (newWindow version t) := by
  unfold pullWindow newWindow
  rw [fieldWidth_width]
  apply (follows_field version _).bind
  intro leading
  apply (follows_field version _).bind
  intro field
  exact .ite (follows_throw _) (follows_pure _)

/-- The bits inside a window make the pattern out of the one before. -/
theorem follows_pullDifference (version : GorillaVersion) (t : NumberType) (previous : Nat) (window : Window) :
    Follows (Feed.Stands (refill version))
      (do return (previous ^^^ (← Feed.onBits (pullDifference t.width window)), some window) :
        Reading (Feed State) (Nat × Option Window))
      (do
        let inside ← number (ahead version) (t.width - window.leading - window.trailing)
        return (previous ^^^ (inside * 2 ^ window.trailing), some window)) := by
  have hfield := (follows_field version (t.width - window.leading - window.trailing)).map (· * 2 ^ window.trailing)
  have h := (Feed.follows_onBits (σ := State) hfield).map fun difference => (previous ^^^ difference, some window)
  rw [bind_assoc] at h
  exact h

/-! ## Codes -/

theorem follows_pullFollowing (version : GorillaVersion) (t : NumberType) (left previous : Nat)
    (window? : Option Window) :
    Follows (Feed.Stands (refill version)) (pullFollowing version t.width left previous window?)
      (code version t previous window?) := by
  unfold pullFollowing code
  apply (Feed.follows_onBits (follows_flag version)).bind
  intro differs
  cases differs with
  | false => exact follows_pure _
  | true =>
    show Follows _ (Feed.onBits BitSource.pullBit >>= _) ((bit (ahead version) >>= _) >>= _)
    rw [bind_assoc]
    apply (Feed.follows_onBits (follows_flag version)).bind
    intro isNew
    cases isNew with
    | false =>
      cases window? with
      | none => exact follows_throw _
      | some window => exact follows_pullDifference version t previous window
    | true =>
      apply (Feed.follows_onBits (follows_pullWindow version t)).bind
      intro window
      exact (Feed.follows_setState _ _).bind fun _ => follows_pullDifference version t previous window

/-! ## Streams -/

variable {f : Feed State} {bits : List Bool}

theorem yields_patterns {left previous : Nat} {window? : Option Window} (hf : Feed.Stands (refill version) f bits)
    (hs : f.state = .following left previous window?) :
    Yields (next version t.width) more f (patterns version t left previous window? bits).items
      (patterns version t left previous window? bits).ending := by
  induction left generalizing f previous window? bits with
  | zero =>
    apply Yields.finished
    rw [more, hs]
    rfl
  | succ left ih =>
    have hmore : more f = true := by
      rw [more, hs]
      rfl
    obtain ⟨state, reader, bytes⟩ := f
    obtain rfl : state = _ := hs
    rw [patterns]
    cases hcode : code version t previous window? bits with
    | error e =>
      obtain ⟨g, hg⟩ := (follows_pullFollowing version t (left + 1) previous window?).error hf hcode
      exact .failed hmore (next_following_of_error hg)
    | ok r =>
      obtain ⟨⟨value, after⟩, rest⟩ := r
      obtain ⟨g, hg, hrest⟩ := (follows_pullFollowing version t (left + 1) previous window?).ok hf hcode
      exact .cons hmore (next_following hg) (ih hrest rfl)

theorem follows_pullCount (version : GorillaVersion) : Follows Eq (pullCount version) (count version) := by
  cases version with
  | v1 => exact (Bytes.follows_pullNat 4).bind fun n => .ite (follows_throw _) (follows_pure n)
  | v2 => exact Varint.follows_pull.bind fun n => .ite (follows_throw _) (follows_pure n)

/-- A decoder that has read nothing yields what is to be found in its bytes. -/
theorem yields_parse (version : GorillaVersion) (t : NumberType) (bytes : Bytes) :
    Yields (next version t.width) more ⟨.start, { refill := refill version }, bytes⟩ (parse version t bytes).items
      (parse version t bytes).ending := by
  unfold parse
  split
  · next hnil =>
    subst hnil
    exact .finished rfl
  · next hne =>
    have hmore : more ⟨.start, { refill := refill version }, bytes⟩ = true := by simp [more, hasNext, hne]
    cases hcount : count version bytes with
    | error e =>
      obtain ⟨rest, hrest⟩ := (follows_pullCount version).error rfl hcount
      exact .failed hmore (next_start_of_error hrest)
    | ok r =>
      obtain ⟨n, behind⟩ := r
      obtain ⟨rest, hpull, rfl⟩ := (follows_pullCount version).ok rfl hcount
      obtain ⟨left, rfl⟩ : ∃ left, n = left + 1 := ⟨n - 1, by have := count_pos hcount; omega⟩
      have hpos : 0 < t.width := by cases t <;> decide
      dsimp only
      -- the first pattern is read by a reader that has no byte yet
      let s : BitSource := ⟨{ refill := refill version }, rest⟩
      have hahead : s.reader.refill.ahead = ahead version := ahead_refill version
      have hbits : s.toBits = rest.toBits := rfl
      rw [← hahead, ← hbits]
      cases hfirst : number s.reader.refill.ahead t.width s.toBits with
      | error e =>
        obtain ⟨u, hu⟩ := pullBits_of_number_error s hpos (Nat.zero_le 8) hfirst
        exact .failed hmore (next_counted_of_error hpull hu)
      | ok r =>
        obtain ⟨value, bits⟩ := r
        obtain ⟨u, hu, hrest⟩ := pullBits_of_number s hpos (Nat.zero_le 8) hfirst
        exact .cons hmore (next_start hpull hu) (yields_patterns hrest rfl)

end Chronicle.Gorilla.Grammar
