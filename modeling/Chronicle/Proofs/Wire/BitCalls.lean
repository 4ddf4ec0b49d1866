/-
  Chronicle.Proofs.Wire.BitCalls — sequences of calls on a writer and on readers of bits.

  (1) A writer answers each call like the list of its bits (`call_eq_onBits`), so it answers any calls like
  that list (`map_answers`). The answers hold bytes and the list has bits, so bytes are compared by their
  bits.

  (2) A reading that fails leaves nothing (`spends_pullBits`), neither bits nor bytes: it takes what there
  is, bit by bit, before it can find out that there are not enough.

  (3) A lazy and an eager reader that have the same bits to read agree as long as one of them is left behind
  the last one read (`agrees_answers`): agreeing is kept by what follows one another (`Agrees.bind`), so it
  is shown of one bit only.
-/

import Chronicle.Proofs.Wire.BitSource
import Chronicle.Wire.BitCalls

namespace Chronicle

/-! ## Writing -/

namespace BitWriter

theorem padded_eq (bits : List Bool) : padded bits = bits ++ List.replicate ((8 - bits.length % 8) % 8) false := by
  unfold padded List.rightpad
  congr 2
  omega

theorem terminated_eq (bits : List Bool) : terminated bits = bits ++ List.replicate (8 - bits.length % 8) false := by
  unfold terminated List.rightpad
  congr 2
  omega

theorem isEmpty_eq (w : BitWriter) : w.isEmpty = w.toBits.isEmpty := by
  rw [isEmpty, ← length_toBits]
  cases w.toBits <;> rfl

/-- A writer answers like the list of its bits. -/
theorem call_eq_onBits (w : BitWriter) (c : Call) :
    (w.call c).1.map Bytes.toBits = (c.onBits w.toBits).1 ∧ (w.call c).2.toBits = (c.onBits w.toBits).2 := by
  have hused := w.used_eq
  cases c with
  | bit b => exact ⟨rfl, toBits_writeBit w b⟩
  | bits word count _ => exact ⟨rfl, toBits_write w _⟩
  | align =>
    refine ⟨rfl, ?_⟩
    show w.align.toBits = padded w.toBits
    rw [padded_eq, toBits_align, hused]
  | clear => exact ⟨rfl, rfl⟩
  | finish =>
    refine ⟨congrArg Answer.bytes ?_, rfl⟩
    rw [padded_eq, toBits_finish, hused]
  | terminate =>
    refine ⟨congrArg Answer.bytes ?_, rfl⟩
    rw [terminated_eq, toBits_finishWithTerminator, hused]
  | length => exact ⟨congrArg Answer.number (length_toBits w).symm, rfl⟩
  | isEmpty => exact ⟨congrArg Answer.truth (isEmpty_eq w), rfl⟩
  | isAligned =>
    refine ⟨congrArg Answer.truth ?_, rfl⟩
    rw [isAligned, hused]

theorem map_answers (w : BitWriter) (calls : List Call) :
    (w.answers calls).map (Answer.map Bytes.toBits) = Call.answersOnBits w.toBits calls := by
  induction calls generalizing w with
  | nil => rfl
  | cons c calls ih =>
    obtain ⟨hanswer, hbehind⟩ := w.call_eq_onBits c
    rw [answers, Call.answersOnBits, List.map_cons, ih, hanswer, hbehind]

theorem Answer.map_injective {β γ : Type} {f : β → γ} (hf : Function.Injective f) : Function.Injective (Answer.map f) := by
  intro a b h
  cases a <;> cases b <;> simp only [map, reduceCtorEq, bytes.injEq, number.injEq, truth.injEq] at h ⊢
  case bytes.bytes => exact hf h
  case number.number | truth.truth => exact h

end BitWriter

/-! ## Reading to the end -/

namespace BitSource

open Reading

variable {α β : Type} {s s' t t' : BitSource}

structure Spent (s : BitSource) : Prop where
  left_eq : s.reader.left = 0
  bytes_eq : s.bytes = []

/-- Where a reading fails nothing is left. -/
def Spends (m : Reading BitSource α) : Prop := ∀ s e t, m s = .error e t → Spent t

theorem spends_pure (a : α) : Spends (pure a) := fun _ _ _ h => nomatch h

theorem Spends.bind {m : Reading BitSource α} {f : α → Reading BitSource β} (hm : Spends m) (hf : ∀ a, Spends (f a)) :
    Spends (m >>= f) := by
  intro s e t h
  cases ha : m s with
  | ok a u =>
    rw [bind_of_eq ha] at h
    exact hf a u e t h
  | error e' u =>
    rw [bind_of_error ha] at h
    cases h
    exact hm s e t ha

theorem spends_fill : Spends fill := by
  rintro ⟨⟨refill, byte, left⟩, bytes⟩ e t h
  cases left with
  | succ left => cases h
  | zero =>
    cases bytes with
    | cons b bytes => cases h
    | nil =>
      cases h
      exact ⟨rfl, rfl⟩

/-- An eager reader may fail behind the bit that was asked for, but only where there is no byte. -/
theorem spends_pullBit : Spends pullBit := by
  refine spends_fill.bind fun _ => .bind (fun _ _ _ h => nomatch h) fun bit => ?_
  refine .bind (fun _ _ _ h => nomatch h) fun s => ?_
  dsimp only
  split
  · exact spends_fill.bind fun _ => spends_pure bit
  · exact spends_pure bit

theorem spends_pullBits (count : Nat) : Spends (pullBits count) := by
  induction count with
  | zero => exact spends_pure 0
  | succ count ih => exact spends_pullBit.bind fun bit => ih.bind fun n => spends_pure _

/-! ## Reading with either refill -/

/-- A lazy and an eager reader with the same bits to read. -/
structure Beside (s s' : BitSource) : Prop where
  lazy : s.reader.refill = .onDemand
  eager : s'.reader.refill = .eager
  left_le : s.reader.left ≤ 8
  left_le' : s'.reader.left ≤ 8
  toBits_eq : s.toBits = s'.toBits

/-- The eager reader reads what the lazy one does if a bit is left behind it, and the lazy one
    whatever the eager one does. Without a bit there is none behind it. -/
structure Agrees (m : Reading BitSource α) : Prop where
  eager_of_lazy {s s' t : BitSource} {a : α} : Beside s s' → m s = .ok a t → t.toBits ≠ [] →
    ∃ t', m s' = .ok a t' ∧ Beside t t'
  lazy_of_eager {s s' t' : BitSource} {a : α} : Beside s s' → m s' = .ok a t' → ∃ t, m s = .ok a t ∧ Beside t t'
  keeps_nil : Keeps (fun s => s.toBits = []) m

theorem agrees_pure (a : α) : Agrees (pure a) where
  eager_of_lazy h ha _ := by
    cases ha
    exact ⟨_, rfl, h⟩
  lazy_of_eager h ha := by
    cases ha
    exact ⟨_, rfl, h⟩
  keeps_nil := keeps_pure a

theorem Agrees.bind {m : Reading BitSource α} {f : α → Reading BitSource β} (hm : Agrees m) (hf : ∀ a, Agrees (f a)) :
    Agrees (m >>= f) where
  eager_of_lazy h hb hmore := by
    obtain ⟨a, u, ha, hb⟩ := ok_of_bind hb
    have hmore' : u.toBits ≠ [] := fun hnil => hmore ((hf a).keeps_nil.ok hnil hb)
    obtain ⟨u', ha', hu⟩ := hm.eager_of_lazy h ha hmore'
    obtain ⟨t', hb', ht⟩ := (hf a).eager_of_lazy hu hb hmore
    exact ⟨t', (bind_of_eq ha').trans hb', ht⟩
  lazy_of_eager h hb := by
    obtain ⟨a, u', ha, hb⟩ := ok_of_bind hb
    obtain ⟨u, ha', hu⟩ := hm.lazy_of_eager h ha
    obtain ⟨t, hb', ht⟩ := (hf a).lazy_of_eager hu hb
    exact ⟨t, (bind_of_eq ha').trans hb', ht⟩
  keeps_nil := hm.keeps_nil.bind fun a => (hf a).keeps_nil

theorem Beside.of_unread {bits : List Bool} (ht : t.Unread .onDemand bits) (ht' : t'.Unread .eager bits) : Beside t t' :=
  ⟨ht.refill_eq, ht'.refill_eq, ht.leaves.le, ht'.leaves.le, ht.toBits_eq.trans ht'.toBits_eq.symm⟩

/-- Both read a bit that another one follows. -/
theorem Beside.pullBit (h : Beside s s') {b : Bool} {bits : List Bool} (hbits : s.toBits = b :: bits) (hmore : bits ≠ []) :
    ∃ t t', BitSource.pullBit s = .ok b t ∧ BitSource.pullBit s' = .ok b t' ∧ t.toBits = bits ∧ Beside t t' := by
  obtain ⟨t, ht, hunread⟩ := pullBit_of_toBits h.left_le hbits fun _ => hmore
  obtain ⟨t', ht', hunread'⟩ := pullBit_of_toBits h.left_le' (h.toBits_eq ▸ hbits) fun _ => hmore
  rw [h.lazy] at hunread
  rw [h.eager] at hunread'
  exact ⟨t, t', ht, ht', hunread.toBits_eq, .of_unread hunread hunread'⟩

theorem agrees_pullBit : Agrees pullBit where
  eager_of_lazy {s s' t b} h hb hmore := by
    cases hbits : s.toBits with
    | nil =>
      rw [pullBit_of_toBits_eq_nil hbits] at hb
      cases hb
    | cons b' bits =>
      have hlazy : s.reader.refill = .eager → bits ≠ [] := fun he => nomatch h.lazy.symm.trans he
      obtain ⟨u, hu, hunread⟩ := pullBit_of_toBits h.left_le hbits hlazy
      rw [hb] at hu
      cases hu
      obtain ⟨u, u', hu, hu', -, hbeside⟩ := h.pullBit hbits (hunread.toBits_eq ▸ hmore)
      rw [hb] at hu
      cases hu
      exact ⟨u', hu', hbeside⟩
  lazy_of_eager {s s' t' b} h hb := by
    cases hbits : s.toBits with
    | nil =>
      rw [pullBit_of_toBits_eq_nil (h.toBits_eq ▸ hbits)] at hb
      cases hb
    | cons b' bits =>
      have hmore : bits ≠ [] := by
        rintro rfl
        obtain ⟨u, hu⟩ := pullBit_of_last h.eager (h.toBits_eq ▸ hbits)
        rw [hb] at hu
        cases hu
      obtain ⟨u, u', hu, hu', -, hbeside⟩ := h.pullBit hbits hmore
      rw [hb] at hu'
      cases hu'
      exact ⟨u, hu, hbeside⟩
  keeps_nil s hs := by
    rw [pullBit_of_toBits_eq_nil hs]
    exact hs

theorem agrees_pullBits (count : Nat) : Agrees (pullBits count) := by
  induction count with
  | zero => exact agrees_pure 0
  | succ count ih => exact agrees_pullBit.bind fun bit => ih.bind fun n => agrees_pure _

theorem agrees_pullToClearBit (code limit : Nat) : Agrees (pullToClearBit code limit) := by
  induction limit generalizing code with
  | zero => exact agrees_pure code
  | succ limit ih =>
    refine agrees_pullBit.bind fun bit => ?_
    cases bit with
    | true => exact ih _
    | false => exact agrees_pure _

/-- A number of one bit. -/
theorem call_bits_one (h : (1 : UInt8) ≤ 64) : call (.bits 1 h) = call .bit := by
  show (do return (← pullBit).toNat * 2 ^ 0 + 0 : Reading BitSource Nat) = _
  simp only [Nat.pow_zero, Nat.mul_one, Nat.add_zero]
  rfl

theorem agrees_call (c : Call) : Agrees (call c) := by
  cases c with
  | bit => exact agrees_pullBit.bind fun bit => agrees_pure _
  | bits count _ => exact agrees_pullBits count.toNat
  | toClearBit limit => exact agrees_pullToClearBit 0 limit.toNat

/-- Whatever is read, one after the other. -/
theorem agrees_answers (calls : List Call) : Agrees (answers calls) := by
  induction calls with
  | nil => exact agrees_pure []
  | cons c calls ih => exact (agrees_call c).bind fun n => ih.bind fun numbers => agrees_pure _

end BitSource

end Chronicle
