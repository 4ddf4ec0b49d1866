/-
  Chronicle.Wire.Reading — steps on a state that can fail, and steps that can be trapped.

  Model.
  - A `Reading σ α` takes from a source of type `σ`. It succeeds with a result or fails with a
    `CodecError`; either way it says what is left of the source, so a failed reading shows how
    much it had taken.
  - A `Guarded σ α` can stop in one way more. A failure is an answer. But a step can also be asked
    for something outside its domain, such as a shift by more places than a word has, a byte where
    there is none, or a sum that its word cannot hold: then it is trapped, and there is no answer
    (`Halt`). Each such step has its domain in front of it (`Guarded.require`).
  - Readings of either kind can be repeated up to a limit; what has been gathered by then is a
    `Harvest`, which says why it ended.
  - They can also be asked for one at a time (`Iteration`). A reading that has no further result ends
    the iteration, and so does one that fails. From then on it answers that there is nothing
    (`item_of_ended`), and leaves its source alone.

  The same errors are possible in both kinds, so a guarded step can be compared with a reading: it
  follows it as long as it is not trapped. That none of them is, for any input, is what is proved of
  the modules in `Chronicle.Machine`.
-/

import Chronicle.Error

namespace Chronicle

abbrev Reading (σ : Type) := EStateM CodecError σ

namespace Reading

variable {σ α : Type}

def ofExcept : Except CodecError α → Reading σ α
  | .ok a => return a
  | .error e => throw e

def times (m : Reading σ α) : (count : Nat) → Reading σ (List α)
  | 0 => return []
  | count + 1 => do
    let a ← m
    return a :: (← m.times count)

def answer : EStateM.Result CodecError σ α → Except CodecError α × σ
  | .ok a s => (.ok a, s)
  | .error e s => (.error e, s)

end Reading

/-- What a step was asked for. -/
inductive Trap
  /-- A shift by all the places of a word, or by more. -/
  | shift
  /-- A difference below zero. -/
  | difference
  /-- A number above the greatest of its type. -/
  | sum
  /-- A place outside a block. -/
  | index
  /-- More bytes than there are. -/
  | bytes
  /-- A number of more than 64 bits. -/
  | width
  /-- Another round of a loop that should have ended. -/
  | rounds
  /-- A timestamp that is no INT64 value. -/
  | timestamp
  deriving DecidableEq

inductive Halt
  | failed (e : CodecError)
  | trapped (t : Trap)
  deriving DecidableEq

def Halt.ofExcept {α : Type} : Except CodecError α → Except Halt α
  | .ok a => .ok a
  | .error e => .error (.failed e)

abbrev Guarded (σ : Type) := EStateM Halt σ

namespace Guarded

variable {σ α : Type}

def fail (e : CodecError) : Guarded σ α := throw (.failed e)

def trap (t : Trap) : Guarded σ α := throw (.trapped t)

def require (domain : Prop) [Decidable domain] (t : Trap) (a : α) : Guarded σ α :=
  if domain then return a else trap t

def ofExcept : Except CodecError α → Guarded σ α
  | .ok a => return a
  | .error e => fail e

/-- What has been found out already, or nothing if that was trapped. -/
def ofOutcome : Except Halt α → Guarded σ α
  | .ok a => return a
  | .error h => throw h

def answer : EStateM.Result Halt σ α → Except Trap (Except CodecError α × σ)
  | .ok a s => .ok (.ok a, s)
  | .error (.failed e) s => .ok (.error e, s)
  | .error (.trapped t) _ => .error t

end Guarded

/-! ## Readings in a row -/

inductive Ending
  | finished
  | failed (e : CodecError)
  | limited
  deriving DecidableEq

/-- The results of a series of readings, why it ended, and what it left of the source. -/
structure Harvest (σ α : Type) where
  items : List α
  ending : Ending
  source : σ

namespace Reading

variable {σ α : Type}

def collectInto (step : Reading σ (Option α)) (items : Array α) : (limit : Nat) → σ → Harvest σ α
  | 0, s => ⟨items.toList, .limited, s⟩
  | limit + 1, s =>
    match step s with
    | .ok (some a) s => collectInto step (items.push a) limit s
    | .ok none s => ⟨items.toList, .finished, s⟩
    | .error e s => ⟨items.toList, .failed e, s⟩

/-- Repeats a reading until it has no further result, fails, or has been done `limit` times. -/
def collect (step : Reading σ (Option α)) (limit : Nat) (s : σ) : Harvest σ α :=
  collectInto step #[] limit s

end Reading

namespace Guarded

variable {σ α : Type}

def collectInto (step : Guarded σ (Option α)) (items : Array α) : (limit : Nat) → σ → Except Trap (Harvest σ α)
  | 0, s => .ok ⟨items.toList, .limited, s⟩
  | limit + 1, s =>
    match step s with
    | .ok (some a) s => collectInto step (items.push a) limit s
    | .ok none s => .ok ⟨items.toList, .finished, s⟩
    | .error (.failed e) s => .ok ⟨items.toList, .failed e, s⟩
    | .error (.trapped t) _ => .error t

def collect (step : Guarded σ (Option α)) (limit : Nat) (s : σ) : Except Trap (Harvest σ α) :=
  collectInto step #[] limit s

end Guarded

/-! ## Iterations -/

structure Iteration (σ : Type) where
  source : σ
  done : Bool := false

namespace Iteration

variable {σ α : Type}

def next (step : Reading σ (Option α)) (it : Iteration σ) : Option (Except CodecError α) × Iteration σ :=
  if it.done then (none, it)
  else
    match step it.source with
    | .ok (some a) s => (some (.ok a), { source := s })
    | .ok none s => (none, { source := s, done := true })
    | .error e s => (some (.error e), { source := s, done := true })

/-- The answer to the request number `i`, counted from 0. -/
def item (step : Reading σ (Option α)) (it : Iteration σ) : (i : Nat) → Option (Except CodecError α)
  | 0 => (it.next step).1
  | i + 1 => (it.next step).2.item step i

variable {step : Reading σ (Option α)} {it : Iteration σ}

theorem item_of_done (h : it.done = true) (i : Nat) : it.item step i = none := by
  have hnext : it.next step = (none, it) := by rw [next, if_pos h]
  induction i with
  | zero => rw [item, hnext]
  | succ i ih => rw [item, hnext, ih]

/-- An answer that is no result is the last one. -/
theorem done_of_next (h : ∀ a, (it.next step).1 ≠ some (.ok a)) : (it.next step).2.done = true := by
  unfold next at h ⊢
  by_cases hd : it.done = true
  · rw [if_pos hd]
    exact hd
  · rw [if_neg hd] at h ⊢
    cases hs : step it.source with
    | error e s => rfl
    | ok a? s =>
      cases a? with
      | none => rfl
      | some a =>
        rw [hs] at h
        exact absurd rfl (h a)

theorem item_of_ended {i j : Nat} (h : ∀ a, it.item step i ≠ some (.ok a)) (hj : i < j) : it.item step j = none := by
  induction i generalizing it j with
  | zero =>
    obtain ⟨j, rfl⟩ : ∃ k, j = k + 1 := ⟨j - 1, by omega⟩
    exact item_of_done (done_of_next h) j
  | succ i ih =>
    obtain ⟨j, rfl⟩ : ∃ k, j = k + 1 := ⟨j - 1, by omega⟩
    show (it.next step).2.item step j = none
    exact ih h (by omega)

end Iteration

end Chronicle
