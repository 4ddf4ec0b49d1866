/-
  Chronicle.Proofs.Machine.Guarded — a step on machine words and the step that it stands for.

  (1) Readings. `Matches` compares two outcomes: the machine was not trapped, and either both succeeded or both
  failed with the same error, with what is asked of their results and sources. It is proved step by step
  (`Matches.bind`); a guarded step counts as one that cannot fail once its domain is known (`require_eq` and the
  lemmas on words).

  (2) Calls that store. `Keeps` compares a call that changes a state in place with one that gives a new state or
  an error. If it fails, nothing has been changed; otherwise what it leaves stands for what is given. What is
  found out before anything is stored keeps this (`keeps_ofExcept_bind`), and so does a call on a part
  (`Keeps.within`).

  (3) Series. Readings that match can be repeated, and then harvest the same (`SameHarvest`).

  (4) Words. Shifts, masks and signs are numbers modulo the weight of the word, as long as no step leaves its
  domain. A shift up to the top and back with the sign gives the signed number of the low bits (`shiftBack_mod`,
  `shiftBack_bounds`), and sums of words have the low bits of the sum.
-/

import Chronicle.Machine.Guarded
import Chronicle.Proofs.Wire.Bits
import Chronicle.Proofs.Wire.Reading

namespace Chronicle

namespace Machine

variable {σ τ α β γ δ : Type}

/-- Both succeed, and `Q` holds of results and sources; or both fail with the same error, and
    `E` holds of the sources. -/
inductive Matches (Q : α → β → σ → τ → Prop) (E : σ → τ → Prop) :
    EStateM.Result Halt σ α → EStateM.Result CodecError τ β → Prop
  | ok {a : α} {b : β} {s : σ} {t : τ} : Q a b s t → Matches Q E (.ok a s) (.ok b t)
  | error {e : CodecError} {s : σ} {t : τ} : E s t → Matches Q E (.error (.failed e) s) (.error e t)

section Matches

variable {Q : α → β → σ → τ → Prop} {E : σ → τ → Prop} {Q' : γ → δ → σ → τ → Prop} {m : Guarded σ α} {n : Reading τ β}
  {f : α → Guarded σ γ} {g : β → Reading τ δ} {s : σ} {t : τ}

theorem Matches.bind (h : Matches Q E (m s) (n t)) (hf : ∀ a b s t, Q a b s t → Matches Q' E (f a s) (g b t)) :
    Matches Q' E ((m >>= f) s) ((n >>= g) t) := by
  show Matches Q' E (EStateM.bind m f s) (EStateM.bind n g t)
  unfold EStateM.bind
  cases hm : m s with
  | ok a s' =>
    cases hn : n t with
    | ok b t' =>
      rw [hm, hn] at h
      cases h with
      | ok hq => exact hf a b s' t' hq
    | error e t' =>
      rw [hm, hn] at h
      cases h
  | error e s' =>
    cases hn : n t with
    | ok b t' =>
      rw [hm, hn] at h
      cases h
    | error e' t' =>
      rw [hm, hn] at h
      cases h with
      | error he => exact .error he

theorem Matches.mono {E' : σ → τ → Prop} {Q' : α → β → σ → τ → Prop} {r : EStateM.Result Halt σ α}
    {r' : EStateM.Result CodecError τ β} (h : Matches Q E r r') (hQ : ∀ a b s t, Q a b s t → Q' a b s t)
    (hE : ∀ s t, E s t → E' s t) : Matches Q' E' r r' := by
  cases h with
  | ok h => exact .ok (hQ _ _ _ _ h)
  | error h => exact .error (hE _ _ h)

theorem matches_pure {a : α} {b : β} (h : Q a b s t) : Matches Q E ((pure a : Guarded σ α) s) ((pure b : Reading τ β) t) :=
  .ok h

/-- Both ask the same question. -/
theorem Matches.ite {p q : Prop} [Decidable p] [Decidable q] {m' : Guarded σ α} {n' : Reading τ β} (hpq : p ↔ q)
    (h : p → Matches Q E (m s) (n t)) (h' : ¬ p → Matches Q E (m' s) (n' t)) :
    Matches Q E ((if p then m else m') s) ((if q then n else n') t) := by
  by_cases hp : p
  · rw [if_pos hp, if_pos (hpq.mp hp)]
    exact h hp
  · rw [if_neg hp, if_neg fun hq => hp (hpq.mpr hq)]
    exact h' hp

/-- A last step that only renames the results. -/
theorem Matches.map {f : α → γ} {g : β → δ} (h : Matches Q E (m s) (n t))
    (hq : ∀ a b s t, Q a b s t → Q' (f a) (g b) s t) :
    Matches Q' E ((do return f (← m) : Guarded σ γ) s) ((do return g (← n) : Reading τ δ) t) :=
  h.bind fun a b s t hab => matches_pure (hq a b s t hab)

/-- A last step on one side, which only renames its results. -/
theorem Matches.map_right {g : β → δ} {Q' : α → δ → σ → τ → Prop} (h : Matches Q E (m s) (n t))
    (hq : ∀ a b s t, Q a b s t → Q' a (g b) s t) : Matches Q' E (m s) ((do return g (← n) : Reading τ δ) t) := by
  generalize m s = r at h ⊢
  cases hn : n t with
  | ok b t' =>
    rw [hn] at h
    rw [map_of_eq hn]
    cases h with
    | ok hab => exact .ok (hq _ _ _ _ hab)
  | error e t' =>
    rw [hn] at h
    rw [bind_of_error hn]
    cases h with
    | error he => exact .error he

theorem Matches.exists_ok {r : EStateM.Result Halt σ α} {b : β} (h : Matches Q E r (.ok b t)) :
    ∃ a s, r = .ok a s ∧ Q a b s t := by
  cases h with
  | ok hq => exact ⟨_, _, rfl, hq⟩

theorem Matches.exists_error {r : EStateM.Result Halt σ α} {e : CodecError} (h : Matches Q E r (.error e t)) :
    ∃ s, r = .error (.failed e) s ∧ E s t := by
  cases h with
  | error he => exact ⟨_, rfl, he⟩

theorem Matches.exists_ok_right {r : EStateM.Result CodecError τ β} {a : α} (h : Matches Q E (.ok a s) r) :
    ∃ b t, r = .ok b t ∧ Q a b s t := by
  cases h with
  | ok hq => exact ⟨_, _, rfl, hq⟩

theorem Matches.exists_error_right {r : EStateM.Result CodecError τ β} {e : CodecError} (h : Matches Q E (.error (.failed e) s) r) :
    ∃ t, r = .error e t ∧ E s t := by
  cases h with
  | error he => exact ⟨_, rfl, he⟩

/-- What an answer leaves stands for what is left on the other side. -/
theorem Matches.of_answer {V : σ → τ → Prop} {r : EStateM.Result Halt σ α} {r' : EStateM.Result CodecError τ β}
    {outcome : Except CodecError α} (h : Matches (fun _ _ s t => V s t) V r r')
    (hr : Guarded.answer r = .ok (outcome, s)) : V s (Reading.answer r').2 := by
  cases h with
  | ok hv =>
    cases hr
    exact hv
  | error hv =>
    cases hr
    exact hv

/-- Last steps on the other side that cannot fail. -/
theorem Matches.bind_left {r : EStateM.Result CodecError τ β} {Q' : γ → β → σ → τ → Prop} (h : Matches Q E (m s) r)
    (hf : ∀ a b s t, Q a b s t → ∃ c s', f a s = .ok c s' ∧ Q' c b s' t) : Matches Q' E ((m >>= f) s) r := by
  show Matches Q' E (EStateM.bind m f s) r
  unfold EStateM.bind
  generalize m s = r' at h
  cases h with
  | ok hab =>
    obtain ⟨c, s', hc, hq⟩ := hf _ _ _ _ hab
    dsimp only
    rw [hc]
    exact .ok hq
  | error he => exact .error he

/-- What is known of a result that is read. -/
theorem Matches.with_right {r : EStateM.Result Halt σ α} (h : Matches Q E r (n t)) :
    Matches (fun a b s' t' => Q a b s' t' ∧ n t = .ok b t') E r (n t) := by
  cases hn : n t with
  | ok b t' =>
    rw [hn] at h
    cases h with
    | ok hab => exact .ok ⟨hab, rfl⟩
  | error e t' =>
    rw [hn] at h
    cases h with
    | error he => exact .error he

end Matches

/-! ## Calls that store -/

section Keeps

variable {τ' : Type} {V : σ → τ → Prop} {before : σ}

/-- A call on a state that stands for another one, of which an outcome is known. It ends as that
    does and leaves what that stands for, or it is refused as that is and has changed nothing. -/
def Keeps (V : σ → τ → Prop) (before : σ) (r : EStateM.Result Halt σ Unit) : Except CodecError τ → Prop
  | .ok t => ∃ s, r = .ok () s ∧ V s t
  | .error e => r = .error (.failed e) before

/-- What is found out before anything is stored. -/
theorem keeps_ofExcept_bind {x : Except CodecError α} {f : α → Guarded σ Unit} {g : α → Except CodecError τ}
    (h : ∀ a, x = .ok a → Keeps V before (f a before) (g a)) :
    Keeps V before ((Guarded.ofExcept x >>= f) before) (x >>= g) := by
  cases x with
  | ok a => exact h a rfl
  | error e => rfl

theorem within_of_eq {σ' : Type} {wrap : σ → σ'} {m : Guarded σ α} {a : α} {s' : σ} (h : m before = .ok a s') (s : σ') :
    Machine.within wrap before m s = .ok a (wrap s') := by
  unfold Machine.within
  rw [h]

/-- A call on a part. -/
theorem Keeps.within {σ' : Type} {V' : σ' → τ' → Prop} {wrap : σ → σ'} {wrap' : τ → τ'} {m : Guarded σ Unit}
    {outcome : Except CodecError τ} (h : Keeps V before (m before) outcome)
    (hwrap : ∀ s t, V s t → V' (wrap s) (wrap' t)) (s : σ') :
    Keeps V' (wrap before) (Machine.within wrap before m s) (do return wrap' (← outcome)) := by
  cases outcome with
  | ok t =>
    obtain ⟨s', hm, hv⟩ := h
    exact ⟨wrap s', within_of_eq hm s, hwrap s' t hv⟩
  | error e =>
    have hm : m before = .error (.failed e) before := h
    show Machine.within wrap before m s = .error (.failed e) (wrap before)
    unfold Machine.within
    rw [hm]

end Keeps

/-! ## Series -/

section Series

variable {V : σ → τ → Prop} {step : Guarded σ (Option α)} {step' : Reading τ (Option α)}

/-- The same results and the same end, with sources that stand for the same. -/
structure SameHarvest (V : σ → τ → Prop) (h : Harvest σ α) (h' : Harvest τ α) : Prop where
  items : h.items = h'.items
  ending : h.ending = h'.ending
  source : V h.source h'.source

theorem collectInto_matches (hstep : ∀ s t, V s t → Matches (fun a a' s' t' => a = a' ∧ V s' t') V (step s) (step' t))
    (before : Array α) (limit : Nat) {s : σ} {t : τ} (h : V s t) :
    ∃ harvest, Guarded.collectInto step before limit s = .ok harvest ∧
      SameHarvest V harvest (Reading.collectInto step' before limit t) := by
  induction limit generalizing before s t with
  | zero => exact ⟨_, rfl, rfl, rfl, h⟩
  | succ limit ih =>
    have hmatches := hstep s t h
    unfold Guarded.collectInto Reading.collectInto
    generalize step s = r at hmatches ⊢
    generalize step' t = r' at hmatches ⊢
    cases hmatches with
    | error hv => exact ⟨_, rfl, rfl, rfl, hv⟩
    | @ok a a' _ _ hab =>
      obtain ⟨rfl, hv⟩ := hab
      cases a with
      | none => exact ⟨_, rfl, rfl, rfl, hv⟩
      | some a => exact ih (before.push a) hv

end Series

end Machine

namespace Guarded

variable {σ : Type} {s : σ}

/-! ## Words in their domain -/

theorem minus_eq {W : Type} [LE W] [DecidableLE W] [Sub W] {a b : W} (h : b ≤ a) : minus a b s = .ok (a - b) s :=
  require_eq h

theorem plus8_eq {a b : UInt8} (h : a.toNat + b.toNat < 2 ^ 8) : plus8 a b s = .ok (a + b) s := require_eq h

theorem plus64_eq {a b : UInt64} (h : a.toNat + b.toNat < 2 ^ 64) : plus64 a b s = .ok (a + b) s := require_eq h

theorem negate32_eq {a : Int32} (h : a ≠ Int32.minValue) : negate32 a s = .ok (-a) s := require_eq h

theorem shiftRight8_eq {a places : UInt8} (h : places.toNat < 8) : shiftRight8 a places s = .ok (a >>> places) s :=
  require_eq (UInt8.lt_iff_toNat_lt.mpr h)

theorem shiftLeft8_eq {a places : UInt8} (h : places.toNat < 8) : shiftLeft8 a places s = .ok (a <<< places) s :=
  require_eq (UInt8.lt_iff_toNat_lt.mpr h)

theorem shiftLeft64_eq {a : UInt64} {places : UInt8} (h : places.toNat < 64) :
    shiftLeft64 a places s = .ok (a <<< places.toUInt64) s :=
  require_eq (UInt8.lt_iff_toNat_lt.mpr h)

theorem shiftRight64_eq {a : UInt64} {places : UInt8} (h : places.toNat < 64) :
    shiftRight64 a places s = .ok (a >>> places.toUInt64) s :=
  require_eq (UInt8.lt_iff_toNat_lt.mpr h)

/-- The low bits of a byte, as many as it has or fewer. -/
theorem lowBits8_eq {count : UInt8} (h : count.toNat ≤ 8) :
    ∃ mask : UInt8, mask.toNat = 2 ^ count.toNat - 1 ∧ lowBits8 count s = .ok mask s := by
  have hpow : 2 ^ count.toNat ≤ 2 ^ 8 := Nat.pow_le_pow_right (by decide) h
  have htop : ((1 : UInt16) <<< count.toUInt16).toNat = 2 ^ count.toNat := by
    have hplaces : count.toNat % 16 = count.toNat := Nat.mod_eq_of_lt (by omega)
    rw [UInt16.toNat_shiftLeft, UInt8.toNat_toUInt16, hplaces, Nat.shiftLeft_eq, UInt16.toNat_one, Nat.one_mul]
    exact Nat.mod_eq_of_lt (by omega)
  have hle : (1 : UInt16) ≤ 1 <<< count.toUInt16 := by
    rw [UInt16.le_iff_toNat_le, htop]
    exact Nat.one_le_two_pow
  refine ⟨((1 : UInt16) <<< count.toUInt16 - 1).toUInt8, ?_, ?_⟩
  · rw [UInt16.toNat_toUInt8, UInt16.toNat_sub_of_le _ _ hle, htop, UInt16.toNat_one]
    exact Nat.mod_eq_of_lt (by omega)
  · have hplaces : count < 16 := UInt8.lt_iff_toNat_lt.mpr (Nat.lt_of_le_of_lt h (by decide))
    unfold lowBits8 shiftLeft16
    rw [bind_of_eq (require_eq hplaces), bind_of_eq (minus_eq hle)]
    rfl

/-- The low bits of a word, all of them if there are 64. -/
theorem lowBits64_eq {count : UInt8} (h : count.toNat ≤ 64) :
    ∃ mask : UInt64, mask.toNat = 2 ^ count.toNat - 1 ∧ lowBits64 count s = .ok mask s := by
  have hge : (64 : UInt8) ≤ count ↔ 64 ≤ count.toNat := UInt8.le_iff_toNat_le
  unfold lowBits64
  by_cases hall : count.toNat = 64
  · refine ⟨0xFFFFFFFFFFFFFFFF, ?_, ?_⟩
    · rw [hall]
      rfl
    · rw [if_pos (hge.mpr (Nat.le_of_eq hall.symm))]
      rfl
  · have hplaces : count.toNat < 64 := by omega
    have hpow : 2 ^ count.toNat < 2 ^ 64 := Nat.pow_lt_pow_right (by decide) hplaces
    have htop : ((1 : UInt64) <<< count.toUInt64).toNat = 2 ^ count.toNat := by
      rw [UInt64.toNat_shiftLeft, UInt8.toNat_toUInt64, Nat.mod_eq_of_lt hplaces, Nat.shiftLeft_eq, UInt64.toNat_one,
        Nat.one_mul]
      exact Nat.mod_eq_of_lt hpow
    have hle : (1 : UInt64) ≤ 1 <<< count.toUInt64 := by
      rw [UInt64.le_iff_toNat_le, htop]
      exact Nat.one_le_two_pow
    refine ⟨(1 : UInt64) <<< count.toUInt64 - 1, ?_, ?_⟩
    · rw [UInt64.toNat_sub_of_le _ _ hle, htop, UInt64.toNat_one]
    · rw [if_neg fun hall' => hall (Nat.le_antisymm h (hge.mp hall'))]
      show (shiftLeft64 1 count >>= fun top => minus top 1) s = _
      rw [bind_of_eq (shiftLeft64_eq hplaces)]
      exact minus_eq hle

/-- A shift by a signed number of places below 64 is a shift by that number. -/
theorem smod_of_lt {places : UInt64} (h : places.toNat < 64) : places.toInt64.toBitVec.smod 64 = places.toBitVec := by
  have hlt : places.toBitVec.toNat < 64 := h
  have hint : places.toBitVec.toInt = places.toBitVec.toNat := BitVec.toInt_eq_toNat_of_lt (by omega)
  have hall : (64 : BitVec 64).toInt = 64 := by decide
  apply BitVec.eq_of_toInt_eq
  rw [UInt64.toBitVec_toInt64, BitVec.toInt_smod, hint, hall, Int.fmod_eq_emod_of_nonneg _ (by decide)]
  omega

/-- Shifting up to the top and back with the sign keeps the low bits. -/
theorem shiftBack_mod (bits : UInt64) {places : UInt64} {width : Nat} (hplaces : places.toNat + width = 64) (hw : 0 < width) :
    ((bits <<< places).toInt64 >>> places.toInt64).toUInt64.toNat % 2 ^ width = bits.toNat % 2 ^ width := by
  have hlt : places.toNat < 64 := by omega
  have hleft : places.toBitVec % 64 = places.toBitVec := by
    apply BitVec.eq_of_toNat_eq
    exact Nat.mod_eq_of_lt hlt
  apply Nat.eq_of_testBit_eq
  intro i
  simp only [Nat.testBit_mod_two_pow]
  by_cases hi : i < width
  · show (decide (i < width) && ((bits <<< places).toInt64 >>> places.toInt64).toBitVec.getLsbD i) =
      (decide (i < width) && bits.toBitVec.getLsbD i)
    have hback : places.toNat + i < 64 := by omega
    have hnot : ¬ 64 ≤ i := by omega
    have hbelow : ¬ places.toNat + i < places.toNat := by omega
    rw [Int64.toBitVec_shiftRight, smod_of_lt hlt, BitVec.getLsbD_sshiftRight', UInt64.toBitVec_toInt64,
      UInt64.toBitVec_shiftLeft, hleft, BitVec.getLsbD_shiftLeft', UInt64.toNat_toBitVec, if_pos hback]
    simp [hback, hnot, hbelow]
  · simp only [hi, decide_false, Bool.false_and]

/-- Shifting up to the top and back with the sign leaves a signed number of the width. -/
theorem shiftBack_bounds (bits : UInt64) {places : UInt64} {width : Nat} (hplaces : places.toNat + width = 64) (hw : 1 < width) :
    leastSigned width ≤ ((bits <<< places).toInt64 >>> places.toInt64).toInt ∧
      ((bits <<< places).toInt64 >>> places.toInt64).toInt < leastSigned width + 2 ^ width := by
  have hback : ((bits <<< places).toInt64 >>> places.toInt64).toInt = (bits <<< places).toInt64.toInt / 2 ^ places.toNat := by
    rw [← Int64.toInt_toBitVec, Int64.toBitVec_shiftRight, smod_of_lt (by omega), BitVec.toInt_sshiftRight',
      Int.shiftRight_eq_div_pow, Int64.toInt_toBitVec, UInt64.toNat_toBitVec]
    rfl
  have hpow : (2 : Int) ^ 63 = 2 ^ (width - 1) * 2 ^ places.toNat := by
    rw [← Int.pow_add]
    congr 1
    omega
  have hdouble : (2 : Int) ^ width = 2 ^ (width - 1) * 2 := by
    rw [← Int.pow_succ]
    congr 1
    omega
  have hlow := (bits <<< places).toInt64.le_toInt
  have hhigh := (bits <<< places).toInt64.toInt_lt
  have hend : leastSigned width + 2 ^ width = 2 ^ (width - 1) := by
    rw [leastSigned, if_neg (by omega), hdouble]
    omega
  rw [hback, hend, leastSigned, if_neg (by omega)]
  refine ⟨?_, ?_⟩
  · rw [Int.le_ediv_iff_mul_le (two_pow_int_pos _), Int.neg_mul, ← hpow]
    exact hlow
  · rw [Int.ediv_lt_iff_lt_mul (two_pow_int_pos _), ← hpow]
    exact hhigh

theorem toInt_eq_bmod (v : Int64) : v.toInt = (v.toUInt64.toNat : Int).bmod (2 ^ 64) := by
  rw [← Int64.toInt_toBitVec, BitVec.toInt_eq_toNat_bmod, Int64.toNat_toBitVec]

/-- The pattern of a signed word is its low bits. -/
theorem patternOf_toInt {width : Nat} (hw : width ≤ 64) (v : Int64) :
    patternOf width v.toInt = v.toUInt64.toNat % 2 ^ width := by
  rw [← patternOf_natCast]
  apply patternOf_congr hw
  rw [toInt_eq_bmod]
  exact Int.bmod_emod

theorem signExtend_eq {bits : UInt64} {width : UInt8} (hw : width.toNat ≤ 64) (hb : bits.toNat < 2 ^ width.toNat) :
    ∃ v : Int64, signExtend bits width s = .ok v s ∧ v.toInt = signedOf width.toNat bits.toNat := by
  have hone : width ≤ (1 : UInt8) ↔ width.toNat ≤ 1 := UInt8.le_iff_toNat_le
  have hall : (64 : UInt8) ≤ width ↔ 64 ≤ width.toNat := UInt8.le_iff_toNat_le
  -- a signed number of the width is known by its low bits
  have hsigned {v : Int64} (hlow : leastSigned width.toNat ≤ v.toInt)
      (hhigh : v.toInt < leastSigned width.toNat + 2 ^ width.toNat)
      (hbits : v.toUInt64.toNat % 2 ^ width.toNat = bits.toNat) : v.toInt = signedOf width.toNat bits.toNat := by
    rw [← hbits, ← patternOf_toInt hw, signedOf_patternOf hlow hhigh]
  unfold signExtend
  by_cases h : width ≤ 1 ∨ 64 ≤ width
  · refine ⟨bits.toInt64, ?_, ?_⟩
    · rw [if_pos h]
      rfl
    · rw [hone, hall] at h
      rcases h with h | h
      · have hlt : bits.toNat < 2 := Nat.lt_of_lt_of_le hb (Nat.pow_le_pow_right Nat.two_pos h)
        rw [toInt_eq_bmod, UInt64.toUInt64_toInt64, signedOf, if_pos h, Int.bmod_eq_of_le (by omega) (by omega)]
      · have hfull : width.toNat = 64 := Nat.le_antisymm hw h
        rw [toInt_eq_bmod, UInt64.toUInt64_toInt64, signedOf, hfull, if_neg (by decide)]
  · rw [hone, hall] at h
    have hle : width ≤ 64 := UInt8.le_iff_toNat_le.mpr hw
    have hplaces : ((64 : UInt8) - width).toNat = 64 - width.toNat := UInt8.toNat_sub_of_le _ _ hle
    have hlt : ((64 : UInt8) - width).toNat < 64 := by omega
    have hwhole : ((64 : UInt8) - width).toUInt64.toNat + width.toNat = 64 := by
      rw [UInt8.toNat_toUInt64, hplaces]
      omega
    have hback := (shiftBack_mod bits hwhole (by omega)).trans (Nat.mod_eq_of_lt hb)
    obtain ⟨hlow, hhigh⟩ := shiftBack_bounds bits hwhole (by omega)
    refine ⟨_, ?_, hsigned hlow hhigh hback⟩
    rw [if_neg (by rw [hone, hall]; exact h)]
    show (minus 64 width >>= fun places => shiftLeft64 bits places >>= fun top =>
      shiftRightSigned64 top.toInt64 places) s = _
    rw [bind_of_eq (minus_eq hle), bind_of_eq (shiftLeft64_eq hlt)]
    exact require_eq (UInt8.lt_iff_toNat_lt.mpr hlt)

/-- A word that was read with its sign has the low bits that were read. -/
theorem toNat_mod_of_toInt {v : Int64} {width n : Nat} (hw : width ≤ 64) (hn : n < 2 ^ width) (hv : v.toInt = signedOf width n) :
    v.toUInt64.toNat % 2 ^ width = n := by
  rw [← patternOf_toInt hw, hv, patternOf_signedOf hn]

/-! ## Sums of words, up to their low bits -/

theorem toNat_and_mask {a mask : UInt64} {width : Nat} (hmask : mask.toNat = 2 ^ width - 1) :
    (a &&& mask).toNat = a.toNat % 2 ^ width := by
  rw [UInt64.toNat_and, hmask, Nat.and_two_pow_sub_one_eq_mod]

theorem toNat_add_mod {a b : UInt64} {width : Nat} (hw : width ≤ 64) :
    (a + b).toNat % 2 ^ width = (a.toNat + b.toNat) % 2 ^ width := by
  rw [UInt64.toNat_add, Nat.mod_mod_of_dvd _ (Nat.pow_dvd_pow 2 hw)]

end Guarded

end Chronicle
