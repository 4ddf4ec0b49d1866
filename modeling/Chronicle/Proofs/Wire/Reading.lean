/-
  Chronicle.Proofs.Wire.Reading — readings in a row.

  A `Run` is what a loop over a reading sees: as long as there is more, one result after another. `Yields`
  goes to the end of the loop: the items of a run and why there is no further one.

  - Collecting along a run gives its items (`collect_of_run`), and what is collected is always a run, up to
    its end or up to the limit (`collect_cases`). A higher limit changes nothing if the lower one was not met
    (`collectInto_of_le`).
  - Two readings that do the same on sources that correspond have the same runs (`Run.map`, `Yields.map`).
  - What every reading keeps, a run keeps (`Run.keeps`), and what holds of any source that a reading leaves
    is said by `Keeps`, whether it succeeds or not.
  - A reading that lowers a measure of its source (`Lowers`) can be repeated only so often (`Run.length_le`).
-/

import Chronicle.Wire.Reading

namespace Chronicle

/-! ## Two steps -/

section Steps

variable {ε σ α β : Type}

/-- What comes out of two steps comes out of the second one, from what the first one gave. -/
theorem exists_of_bind_eq_ok {m : Except ε α} {f : α → Except ε β} {b : β} (h : m >>= f = .ok b) :
    ∃ a, m = .ok a ∧ f a = .ok b := by
  cases m with
  | ok a => exact ⟨a, rfl, h⟩
  | error e => cases h

theorem bind_of_eq {m : EStateM ε σ α} {f : α → EStateM ε σ β} {s t : σ} {a : α} (h : m s = .ok a t) :
    (m >>= f) s = f a t := by
  show EStateM.bind m f s = f a t
  unfold EStateM.bind
  rw [h]

theorem bind_of_error {m : EStateM ε σ α} {f : α → EStateM ε σ β} {s t : σ} {e : ε} (h : m s = .error e t) :
    (m >>= f) s = .error e t := by
  show EStateM.bind m f s = .error e t
  unfold EStateM.bind
  rw [h]

/-- What follows a step depends on its outcome only. -/
theorem bind_congr_left {m m' : EStateM ε σ α} {s s' : σ} (f : α → EStateM ε σ β) (h : m s = m' s') :
    (m >>= f) s = (m' >>= f) s' := by
  show EStateM.bind m f s = EStateM.bind m' f s'
  unfold EStateM.bind
  rw [h]

theorem ok_of_bind {m : EStateM ε σ α} {f : α → EStateM ε σ β} {s u : σ} {b : β} (h : (m >>= f) s = .ok b u) :
    ∃ a t, m s = .ok a t ∧ f a t = .ok b u := by
  cases hm : m s with
  | ok a t =>
    rw [bind_of_eq hm] at h
    exact ⟨a, t, rfl, h⟩
  | error e t =>
    rw [bind_of_error hm] at h
    cases h

theorem map_of_eq {m : EStateM ε σ α} {f : α → β} {s t : σ} {a : α} (h : m s = .ok a t) :
    (do return f (← m) : EStateM ε σ β) s = .ok (f a) t := by
  rw [bind_of_eq h]
  rfl

theorem map_of_error {m : EStateM ε σ α} {f : α → β} {s t : σ} {e : ε} (h : m s = .error e t) :
    (do return f (← m) : EStateM ε σ β) s = .error e t :=
  bind_of_error h

theorem get_bind (f : σ → EStateM ε σ β) (s : σ) : (get >>= f) s = f s s := rfl

theorem modify_bind (g : σ → σ) (f : Unit → EStateM ε σ β) (s : σ) : (modify g >>= f) s = f () (g s) := rfl

@[simp] theorem Halt.ofExcept_eq_ok {r : Except CodecError α} {a : α} : ofExcept r = .ok a ↔ r = .ok a := by
  cases r <;> simp [ofExcept]

theorem Halt.ofExcept_bind (r : Except CodecError α) (f : α → Except CodecError β) :
    ofExcept (r >>= f) = ofExcept r >>= fun a => ofExcept (f a) := by
  cases r <;> rfl

theorem Guarded.require_eq {domain : Prop} [Decidable domain] (h : domain) {t : Trap} {a : α} {s : σ} :
    require domain t a s = .ok a s := by
  unfold require
  rw [if_pos h]
  rfl

end Steps

/-! ## Runs -/

namespace Reading

variable {σ τ α β : Type}

/-- Reading again and again gives the items and leads from the first source to the second.
    Before each of them there was more to read. -/
inductive Run (m : Reading σ α) (more : σ → Bool) : σ → List α → σ → Prop
  | nil (s : σ) : Run m more s [] s
  | cons {s t u : σ} {a : α} {items : List α} : more s = true → m s = .ok a t → Run m more t items u →
      Run m more s (a :: items) u

theorem Run.append {m : Reading σ α} {more : σ → Bool} {s t u : σ} {items others : List α}
    (h : Run m more s items t) (h' : Run m more t others u) : Run m more s (items ++ others) u := by
  induction h with
  | nil => exact h'
  | cons hm ha _ ih => exact .cons hm ha (ih h')

/-- Where the first reading comes from does not matter, as long as it is the same. -/
theorem Run.of_first {m : Reading σ α} {more : σ → Bool} {s s' t : σ} {a : α} {items : List α}
    (h : Run m more s' (a :: items) t) (hs : more s = true) (hm : m s = m s') : Run m more s (a :: items) t := by
  cases h with
  | cons _ ha h => exact .cons hs (hm.trans ha) h

/-- A run of one reading is a run of another one that does the same on wrapped sources. -/
theorem Run.map {m : Reading σ α} {more : σ → Bool} {n : Reading τ β} {more' : τ → Bool} (wrap : σ → τ) (f : α → β)
    (hmore : ∀ s, more s = true → more' (wrap s) = true)
    (hm : ∀ s a t, m s = .ok a t → n (wrap s) = .ok (f a) (wrap t)) {s t : σ} {items : List α}
    (h : Run m more s items t) : Run n more' (wrap s) (items.map f) (wrap t) := by
  induction h with
  | nil => exact .nil _
  | cons hs ha _ ih => exact .cons (hmore _ hs) (hm _ _ _ ha) ih

/-- A run with items begins with a reading that succeeds. -/
theorem Run.first {m : Reading σ α} {more : σ → Bool} {s t : σ} {items : List α} (h : Run m more s items t)
    (hne : items ≠ []) : more s = true ∧ ∃ a u, m s = .ok a u := by
  cases h with
  | nil => exact absurd rfl hne
  | cons hs ha _ => exact ⟨hs, _, _, ha⟩

/-- What every reading keeps, a run keeps. -/
theorem Run.keeps {m : Reading σ α} {more : σ → Bool} {P : σ → Prop} (hm : ∀ s a t, P s → m s = .ok a t → P t)
    {s t : σ} {items : List α} (h : Run m more s items t) (hs : P s) : P t := by
  induction h with
  | nil => exact hs
  | cons _ ha _ ih => exact ih (hm _ _ _ hs ha)

/-- A run from the same source as one that cannot go on is the beginning of that one. -/
theorem Run.split {m : Reading σ α} {more : σ → Bool} {s t u : σ} {items all : List α} (h : Run m more s items t)
    (hall : Run m more s all u) (hu : more u = true → ∀ a v, m u ≠ .ok a v) :
    ∃ rest, all = items ++ rest ∧ Run m more t rest u := by
  induction h generalizing all with
  | nil s => exact ⟨all, rfl, hall⟩
  | cons hs ha _ ih =>
    cases hall with
    | nil => exact absurd ha (hu hs _ _)
    | cons _ hb hall =>
      rw [ha] at hb
      cases hb
      obtain ⟨rest, rfl, hrest⟩ := ih hall
      exact ⟨rest, rfl, hrest⟩

/-- Reading again and again gives the items and then ends: there is no more to read, or the next
    reading fails. -/
inductive Yields (m : Reading σ α) (more : σ → Bool) : σ → List α → Ending → Prop
  | finished {s : σ} : more s = false → Yields m more s [] .finished
  | failed {s t : σ} {e : CodecError} : more s = true → m s = .error e t → Yields m more s [] (.failed e)
  | cons {s t : σ} {a : α} {items : List α} {ending : Ending} : more s = true → m s = .ok a t →
      Yields m more t items ending → Yields m more s (a :: items) ending

section Yields

variable {m : Reading σ α} {more : σ → Bool} {s t : σ} {items others : List α} {ending : Ending}

/-- What comes behind a run comes behind its items. -/
theorem Run.yields (h : Run m more s items t) (ht : Yields m more t others ending) :
    Yields m more s (items ++ others) ending := by
  induction h with
  | nil => exact ht
  | cons hs ha _ ih => exact .cons hs ha (ih ht)

/-- What is read to its end is a run, and the end. -/
theorem Yields.exists_run (h : Yields m more s items ending) :
    ∃ t, Run m more s items t ∧ (more t = false ∧ ending = .finished ∨
      ∃ e u, more t = true ∧ m t = .error e u ∧ ending = .failed e) := by
  induction h with
  | finished hs => exact ⟨_, .nil _, .inl ⟨hs, rfl⟩⟩
  | failed hs he => exact ⟨_, .nil _, .inr ⟨_, _, hs, he, rfl⟩⟩
  | cons hs ha _ ih =>
    obtain ⟨u, hrun, hend⟩ := ih
    exact ⟨u, .cons hs ha hrun, hend⟩

/-- What is read to its end has not met a limit. -/
theorem Yields.ne_limited (h : Yields m more s items ending) : ending ≠ .limited := by
  induction h with
  | finished _ => exact nofun
  | failed _ _ => exact nofun
  | cons _ _ _ ih => exact ih

/-- Where the first reading comes from does not matter, as long as it is the same. -/
theorem Yields.of_first {s' : σ} (h : Yields m more s' items ending) (hs' : more s' = true) (hs : more s = true)
    (hm : m s = m s') : Yields m more s items ending := by
  cases h with
  | finished hnone =>
    rw [hs'] at hnone
    cases hnone
  | failed _ he => exact .failed hs (hm.trans he)
  | cons _ ha h => exact .cons hs (hm.trans ha) h

/-- Another reading that does the same on wrapped sources yields the same. -/
theorem Yields.map {n : Reading τ β} {more' : τ → Bool} (wrap : σ → τ) (f : α → β)
    (hmore : ∀ s, more' (wrap s) = more s) (hok : ∀ s a t, m s = .ok a t → n (wrap s) = .ok (f a) (wrap t))
    (herror : ∀ s e t, m s = .error e t → n (wrap s) = .error e (wrap t)) (h : Yields m more s items ending) :
    Yields n more' (wrap s) (items.map f) ending := by
  induction h with
  | finished hs => exact .finished ((hmore _).trans hs)
  | failed hs he => exact .failed ((hmore _).trans hs) (herror _ _ _ he)
  | cons hs ha _ ih => exact .cons ((hmore _).trans hs) (hok _ _ _ ha) ih

end Yields

section Collect

variable {m : Reading σ α} {more : σ → Bool} {step : Reading σ (Option α)}

theorem collectInto_of_run (hsome : ∀ s a t, more s = true → m s = .ok a t → step s = .ok (some a) t) {s t : σ}
    {items : List α} (h : Run m more s items t) (hnone : step t = .ok none t) {limit : Nat} (hl : items.length < limit)
    (before : Array α) : collectInto step before limit s = ⟨before.toList ++ items, .finished, t⟩ := by
  induction h generalizing limit before with
  | nil s =>
    obtain ⟨limit, rfl⟩ : ∃ k, limit = k + 1 := ⟨limit - 1, by omega⟩
    rw [collectInto, hnone, List.append_nil]
  | cons hs ha _ ih =>
    rw [List.length_cons] at hl
    obtain ⟨limit, rfl⟩ : ∃ k, limit = k + 1 := ⟨limit - 1, by omega⟩
    rw [collectInto, hsome _ _ _ hs ha]
    show collectInto step (before.push _) limit _ = _
    rw [ih hnone (by omega), Array.toList_push, List.append_assoc, List.singleton_append]

/-- Collecting along a run gives its items, and finishes where there is no further one. -/
theorem collect_of_run (hsome : ∀ s a t, more s = true → m s = .ok a t → step s = .ok (some a) t) {s t : σ}
    {items : List α} (h : Run m more s items t) (hnone : step t = .ok none t) {limit : Nat}
    (hl : items.length < limit) : collect step limit s = ⟨items, .finished, t⟩ :=
  collectInto_of_run hsome h hnone hl #[]

/-- What is collected comes behind what there was. -/
theorem collectInto_eq (items : Array α) (limit : Nat) (s : σ) :
    collectInto step items limit s =
      ⟨items.toList ++ (collect step limit s).items, (collect step limit s).ending, (collect step limit s).source⟩ := by
  induction limit generalizing items s with
  | zero => simp [collect, collectInto]
  | succ limit ih =>
    unfold collect
    rw [collectInto, collectInto]
    cases step s with
    | error e t => simp
    | ok a? t =>
      cases a? with
      | none => simp
      | some a =>
        simp only
        rw [ih (items.push a), ih (#[].push a)]
        simp

theorem collect_succ {s t : σ} {a : α} (h : step s = .ok (some a) t) (limit : Nat) :
    collect step (limit + 1) s =
      ⟨a :: (collect step limit t).items, (collect step limit t).ending, (collect step limit t).source⟩ := by
  rw [collect, collectInto, h]
  exact collectInto_eq _ _ _

/-- How collecting can end behind a run: where there is no further result, at a reading that
    fails, or after as many readings as were allowed. -/
theorem collectInto_cases (hstep : ∀ s a t, step s = .ok (some a) t → more s = true ∧ m s = .ok a t) (before : Array α)
    (limit : Nat) (s : σ) :
    ∃ items t, Run m more s items t ∧ (collectInto step before limit s).items = before.toList ++ items ∧
      (step t = .ok none (collectInto step before limit s).source ∧
          (collectInto step before limit s).ending = .finished ∨
        (∃ e, step t = .error e (collectInto step before limit s).source ∧
          (collectInto step before limit s).ending = .failed e) ∨
        items.length = limit) := by
  induction limit generalizing before s with
  | zero => exact ⟨[], s, .nil s, (List.append_nil _).symm, .inr (.inr rfl)⟩
  | succ limit ih =>
    cases hs : step s with
    | ok a? t =>
      cases a? with
      | none =>
        rw [collectInto, hs]
        exact ⟨[], s, .nil s, (List.append_nil _).symm, .inl ⟨hs, rfl⟩⟩
      | some a =>
        obtain ⟨hmore, ha⟩ := hstep s a t hs
        obtain ⟨items, u, hrun, hitems, hend⟩ := ih (before.push a) t
        rw [collectInto, hs]
        refine ⟨a :: items, u, .cons hmore ha hrun, ?_, ?_⟩
        · rw [hitems, Array.toList_push, List.append_assoc, List.singleton_append]
        · rw [List.length_cons, Nat.succ_inj]
          exact hend
    | error e t =>
      rw [collectInto, hs]
      exact ⟨[], s, .nil s, (List.append_nil _).symm, .inr (.inl ⟨e, hs, rfl⟩)⟩

/-- If collecting does not stop at its limit, it gives the items of a run, and ends like it. -/
theorem collect_cases (hstep : ∀ s a t, step s = .ok (some a) t → more s = true ∧ m s = .ok a t) {limit : Nat} {s : σ}
    (hl : ∀ items t, Run m more s items t → items.length < limit) :
    ∃ t, Run m more s (collect step limit s).items t ∧
      (step t = .ok none (collect step limit s).source ∧ (collect step limit s).ending = .finished ∨
        ∃ e, step t = .error e (collect step limit s).source ∧ (collect step limit s).ending = .failed e) := by
  obtain ⟨items, t, hrun, hitems, hend⟩ := collectInto_cases hstep #[] limit s
  have hlt := hl items t hrun
  have hitems : (collect step limit s).items = items := hitems
  rw [hitems]
  refine ⟨t, hrun, ?_⟩
  rcases hend with hend | hend | hend
  · exact .inl hend
  · exact .inr hend
  · omega

/-- A higher limit changes nothing if the lower one was not met. -/
theorem collectInto_of_le {limit limit' : Nat} (hle : limit ≤ limit') {before : Array α} {s : σ}
    (h : (collectInto step before limit s).ending ≠ .limited) :
    collectInto step before limit' s = collectInto step before limit s := by
  induction limit generalizing before s limit' with
  | zero => exact absurd rfl h
  | succ limit ih =>
    obtain ⟨limit', rfl⟩ : ∃ k, limit' = k + 1 := ⟨limit' - 1, by omega⟩
    rw [collectInto] at h ⊢
    rw [collectInto]
    cases hs : step s with
    | error e t => rfl
    | ok a? t =>
      cases a? with
      | none => rfl
      | some a =>
        rw [hs] at h
        exact ih (Nat.le_of_succ_le_succ hle) h

end Collect

/-! ## What readings keep -/

/-- What holds of a source also holds of what the reading leaves of it, whether it succeeds or not. -/
def Keeps (P : σ → Prop) (m : Reading σ α) : Prop := ∀ s, P s → P (answer (m s)).2

section Keeps

variable {P : σ → Prop} {m : Reading σ α} {f : α → Reading σ β}

theorem Keeps.ok (h : Keeps P m) {s t : σ} {a : α} (hs : P s) (hm : m s = .ok a t) : P t := by
  have ht := h s hs
  rw [hm] at ht
  exact ht

theorem Keeps.error (h : Keeps P m) {s t : σ} {e : CodecError} (hs : P s) (hm : m s = .error e t) : P t := by
  have ht := h s hs
  rw [hm] at ht
  exact ht

theorem keeps_pure (a : α) : Keeps P (pure a) := fun _ hs => hs

theorem keeps_throw (e : CodecError) : Keeps P (throw e : Reading σ α) := fun _ hs => hs

theorem Keeps.bind (hm : Keeps P m) (hf : ∀ a, Keeps P (f a)) : Keeps P (m >>= f) := by
  intro s hs
  cases ha : m s with
  | ok a t =>
    rw [bind_of_eq ha]
    exact hf a t (hm.ok hs ha)
  | error e t =>
    rw [bind_of_error ha]
    exact hm.error hs ha

theorem Keeps.ite {c : Prop} [Decidable c] {m' : Reading σ α} (h : Keeps P m) (h' : Keeps P m') :
    Keeps P (if c then m else m') := by
  split
  · exact h
  · exact h'

theorem Keeps.times (h : Keeps P m) (count : Nat) : Keeps P (m.times count) := by
  induction count with
  | zero => exact keeps_pure _
  | succ count ih => exact h.bind fun _ => ih.bind fun _ => keeps_pure _

theorem Keeps.collectInto {step : Reading σ (Option α)} (h : Keeps P step) (items : Array α) (limit : Nat) {s : σ}
    (hs : P s) : P (collectInto step items limit s).source := by
  induction limit generalizing items s with
  | zero => exact hs
  | succ limit ih =>
    rw [Reading.collectInto]
    cases hstep : step s with
    | error e t => exact h.error hs hstep
    | ok a? t =>
      cases a? with
      | none => exact h.ok hs hstep
      | some a => exact ih (items.push a) (h.ok hs hstep)

end Keeps

/-! ## Measures -/

/-- Whenever the reading succeeds, what the measure says of its source is less by at least `n`. -/
def Lowers (μ : σ → Nat) (n : Nat) (m : Reading σ α) : Prop := ∀ s a t, m s = .ok a t → μ t + n ≤ μ s

section Lowers

variable {μ : σ → Nat} {m : Reading σ α} {f : α → Reading σ β} {k n : Nat}

theorem Lowers.bind (hm : Lowers μ k m) (hf : ∀ a, Lowers μ n (f a)) : Lowers μ (k + n) (m >>= f) := by
  intro s b u h
  obtain ⟨a, t, ha, hb⟩ := ok_of_bind h
  have := hm s a t ha
  have := hf a t b u hb
  omega

/-- What follows a reading may lower the measure further. -/
theorem Lowers.bind_zero (hm : Lowers μ n m) (hf : ∀ a, Lowers μ 0 (f a)) : Lowers μ n (m >>= f) := hm.bind hf

theorem lowers_pure (a : α) : Lowers μ 0 (pure a) := by
  intro s b t h
  cases h
  exact Nat.le_refl _

theorem lowers_throw (e : CodecError) : Lowers μ n (throw e : Reading σ α) := by
  intro s b t h
  cases h

theorem Lowers.ite {c : Prop} [Decidable c] {m' : Reading σ α} (h : Lowers μ n m) (h' : Lowers μ n m') :
    Lowers μ n (if c then m else m') := by
  split
  · exact h
  · exact h'

theorem Lowers.mono (h : Lowers μ n m) (hk : k ≤ n) : Lowers μ k m := by
  intro s a t ht
  have := h s a t ht
  omega

theorem Lowers.times (h : Lowers μ 0 m) (count : Nat) : Lowers μ 0 (m.times count) := by
  induction count with
  | zero => exact lowers_pure _
  | succ count ih => exact h.bind fun a => ih.bind fun _ => lowers_pure _

end Lowers

/-- A run in which every reading lowers the measure has no more items than the measure says. -/
theorem Run.length_le {m : Reading σ α} {more : σ → Bool} {μ : σ → Nat}
    (hm : ∀ s a t, more s = true → m s = .ok a t → μ t < μ s) {s t : σ} {items : List α} (h : Run m more s items t) :
    items.length ≤ μ s := by
  induction h with
  | nil => exact Nat.zero_le _
  | cons hs ha _ ih =>
    have := hm _ _ _ hs ha
    rw [List.length_cons]
    omega

end Reading

end Chronicle
