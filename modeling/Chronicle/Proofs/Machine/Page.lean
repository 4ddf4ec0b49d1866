/-
  Chronicle.Proofs.Machine.Page — pages read on machine words are pages.

  Whatever is taken from the bytes of a page stands behind a check that they are there, so nothing is trapped
  (`read_eq`, `ofBytes_eq`). Header, statistics and body are read one after another, and each part is proved to
  match the reading of that part. The lengths in a header have 64 bits (`bodyLength_lt`), so sums and
  differences of places in a body are in range.
-/

import Chronicle.Machine.Page
import Chronicle.Proofs.Machine.Bytes

namespace Chronicle

namespace Machine


variable {bound : Nat} {s s' : Bytes} {α : Type}

/-- Outcomes that match are answered alike. -/
theorem answer_eq {Q : α → α → Bytes → Bytes → Prop} {r : EStateM.Result Halt Bytes α} {r' : EStateM.Result CodecError Bytes α}
    (h : Matches (fun a a' t t' => a = a' ∧ Q a a' t t' ∧ SameBytes bound t t') (SameBytes bound) r r') :
    Guarded.answer r = .ok (Reading.answer r') := by
  cases h with
  | ok h =>
    obtain ⟨rfl, -, rfl, -⟩ := h
    rfl
  | error h =>
    obtain ⟨rfl, -⟩ := h
    rfl

/-! ## Headers -/

/-- What has been found out already takes nothing. -/
theorem matches_ofExcept {σ τ : Type} {V : σ → τ → Prop} {s : σ} {t : τ} (h : V s t) (r : Except CodecError α) :
    Matches (fun a a' s t => a = a' ∧ V s t) V (Guarded.ofExcept r s) (Reading.ofExcept r t) := by
  cases r with
  | ok a => exact .ok ⟨rfl, h⟩
  | error e => exact .error h

theorem matches_discard {σ τ : Type} {V : σ → τ → Prop} {s : σ} {t : τ} (h : V s t) (r : Except CodecError α) :
    Matches (fun _ _ s t => V s t) V (discard (Guarded.ofExcept r) s) (discard (Reading.ofExcept r) t) := by
  cases r with
  | ok a => exact .ok h
  | error e => exact .error h

namespace Header

theorem takeId_matches (ofId : Nat → Except CodecError α) (h : SameBytes bound s s') (hpos : 0 < s.length) :
    Matches (fun a a' t t' => a = a' ∧ t.length + 1 = s.length ∧ SameBytes bound t t') (SameBytes bound) (takeId ofId s)
      (Header.pullId ofId s') := by
  refine (takeByte_matches h hpos).bind ?_
  rintro b _ t t' ⟨rfl, hlength, ht⟩
  refine (matches_ofExcept (V := fun x x' => x = t ∧ x' = t') ⟨rfl, rfl⟩ (ofId b.toNat)).mono ?_ ?_
  · rintro a _ _ _ ⟨rfl, rfl, rfl⟩
    exact ⟨rfl, hlength, ht⟩
  · rintro _ _ ⟨rfl, rfl⟩
    exact ht

theorem matches_read (h : SameBytes bound s s') :
    Matches (fun x x' t t' => x = x' ∧ x.bodyLength < 2 ^ 64 ∧ SameBytes bound t t') (SameBytes bound) (read s)
      (Chronicle.Header.pull s') := by
  refine (matches_ensure h).bind ?_
  rintro _ _ t₀ t₀' ⟨hlength, ht₀⟩
  refine (takeId_matches Encoding.ofId ht₀ (by omega)).bind ?_
  rintro valueEncoding _ t₁ t₁' ⟨rfl, h₁, ht₁⟩
  refine (takeId_matches DataType.ofId ht₁ (by omega)).bind ?_
  rintro dataType _ t₂ t₂' ⟨rfl, h₂, ht₂⟩
  refine (takeId_matches Encoding.ofId ht₂ (by omega)).bind ?_
  rintro timeEncoding _ t₃ t₃' ⟨rfl, h₃, ht₃⟩
  refine (takeId_matches Compressor.ofId ht₃ (by omega)).bind ?_
  rintro compressor _ t₄ t₄' ⟨rfl, -, ht₄⟩
  refine (Varint.matches_read ht₄).bind ?_
  rintro bodyLength _ t₅ t₅' ⟨rfl, ht₅⟩
  refine (Varint.matches_read ht₅).bind ?_
  rintro dataLength _ t₆ t₆' ⟨rfl, ht₆⟩
  refine (Varint.matches_read ht₆).bind ?_
  rintro timeLength _ t₇ t₇' ⟨rfl, ht₇⟩
  refine (matches_discard ht₇ _).bind ?_
  intro _ _ t₈ t₈' ht₈
  refine (matches_discard ht₈ _).bind ?_
  intro _ _ t₉ t₉' ht₉
  refine .ite Iff.rfl ?_ ?_
  · intro _
    exact .error ht₉
  · intro _
    exact .ok ⟨rfl, bodyLength.toNat_lt, ht₉⟩

end Header

/-! ## Statistics -/

theorem NumericSummary.matches_read {α σ : Type} [BigEndian α] [BigEndian σ] (h : SameBytes bound s s') :
    Matches (fun u u' t t' => u = u' ∧ SameBytes bound t t') (SameBytes bound) (read (α := α) (σ := σ) s)
      (Chronicle.NumericSummary.pull s') := by
  refine (matches_ensure h).bind ?_
  rintro _ _ t₀ t₀' ⟨hlength, ht₀⟩
  refine (takeWord_matches ht₀ (by omega)).bind ?_
  rintro min _ t₁ t₁' ⟨rfl, h₁, ht₁⟩
  refine (takeWord_matches ht₁ (by omega)).bind ?_
  rintro max _ t₂ t₂' ⟨rfl, h₂, ht₂⟩
  refine (takeWord_matches ht₂ (by omega)).bind ?_
  rintro first _ t₃ t₃' ⟨rfl, h₃, ht₃⟩
  refine (takeWord_matches ht₃ (by omega)).bind ?_
  rintro last _ t₄ t₄' ⟨rfl, h₄, ht₄⟩
  refine (takeWord_matches ht₄ (by omega)).map ?_
  rintro sum _ t₅ t₅' ⟨rfl, -, ht₅⟩
  exact ⟨rfl, ht₅⟩

theorem ValueSummary.matches_read (t : DataType) (h : SameBytes bound s s') :
    Matches (fun u u' t t' => u = u' ∧ SameBytes bound t t') (SameBytes bound) (read t s)
      (Chronicle.ValueSummary.pull t s') := by
  rcases t with (_ | (_ | _ | _ | _)) | _
  · refine (matches_ensure h).bind ?_
    rintro _ _ t₀ t₀' ⟨hlength, ht₀⟩
    refine (takeBool_matches _ ht₀ (by omega)).bind ?_
    rintro first _ t₁ t₁' ⟨rfl, h₁, ht₁⟩
    refine (takeBool_matches _ ht₁ (by omega)).bind ?_
    rintro last _ t₂ t₂' ⟨rfl, -, ht₂⟩
    refine (Varint.matches_read ht₂).map ?_
    rintro trues _ t₃ t₃' ⟨rfl, ht₃⟩
    exact ⟨by rw [UInt64.ofNat_toNat], ht₃⟩
  · exact (NumericSummary.matches_read h).map fun _ _ _ _ h => ⟨congrArg _ h.1, h.2⟩
  · exact (NumericSummary.matches_read h).map fun _ _ _ _ h => ⟨congrArg _ h.1, h.2⟩
  · exact (NumericSummary.matches_read h).map fun _ _ _ _ h => ⟨congrArg _ h.1, h.2⟩
  · exact (NumericSummary.matches_read h).map fun _ _ _ _ h => ⟨congrArg _ h.1, h.2⟩
  · refine (matches_readText h).bind ?_
    rintro first _ t₁ t₁' ⟨rfl, ht₁⟩
    refine (matches_readText ht₁).map ?_
    rintro last _ t₂ t₂' ⟨rfl, ht₂⟩
    exact ⟨rfl, ht₂⟩

theorem Statistics.matches_read (t : DataType) (h : SameBytes bound s s') :
    Matches (fun u u' t t' => u = u' ∧ SameBytes bound t t') (SameBytes bound) (read t s)
      (Chronicle.Statistics.pull t s') := by
  refine (Varint.matches_read h).bind ?_
  rintro count _ t₀ t₀' ⟨rfl, ht₀⟩
  refine .ite (by rw [← UInt64.toNat_inj]; rfl) ?_ ?_
  · intro _
    exact .ok ⟨rfl, ht₀⟩
  · intro _
    unfold Summary.pull
    simp only [bind_assoc]
    refine (matches_ensure ht₀).bind ?_
    rintro _ _ t₁ t₁' ⟨hlength, ht₁⟩
    have hsize : BigEndian.size Int64 = 8 := rfl
    refine (takeWord_matches ht₁ (by omega)).bind ?_
    rintro start _ t₂ t₂' ⟨rfl, h₂, ht₂⟩
    refine (takeWord_matches ht₂ (by omega)).bind ?_
    rintro stop _ t₃ t₃' ⟨rfl, -, ht₃⟩
    by_cases hrange : stop < start
    · rw [if_pos hrange, if_pos hrange]
      exact .error ht₃
    · rw [if_neg hrange, if_neg hrange, bind_assoc, UInt64.ofNat_toNat]
      refine (ValueSummary.matches_read t ht₃).map ?_
      rintro values _ t₄ t₄' ⟨rfl, ht₄⟩
      exact ⟨rfl, ht₄⟩

/-! ## Pages -/

namespace Page

theorem matches_read (h : SameBytes bound s s') :
    Matches (fun p p' t t' => p = p' ∧ p.header.bodyLength < 2 ^ 64 ∧ SameBytes bound t t') (SameBytes bound) (read s)
      (Chronicle.Page.pull s') := by
  refine (Header.matches_read h).bind ?_
  rintro header _ t₀ t₀' ⟨rfl, hbody, ht₀⟩
  refine (Statistics.matches_read _ ht₀).bind ?_
  rintro statistics _ t₁ t₁' ⟨rfl, ht₁⟩
  have hread : (do
      ensure header.dataLength
      return ({ header, statistics, data := ← takeBytes header.dataLength } : Page) : Guarded Bytes Page) =
      (do return { header, statistics, data := ← (do ensure header.dataLength; takeBytes header.dataLength) }) := by
    simp only [bind_assoc]
  rw [hread]
  refine (matches_ensure_takeBytes header.dataLength ht₁).map ?_
  rintro data _ t₂ t₂' ⟨rfl, -, ht₂⟩
  exact ⟨rfl, hbody, ht₂⟩

theorem read_eq (bytes : Bytes) : Guarded.answer (read bytes) = .ok (Reading.answer (Chronicle.Page.pull bytes)) :=
  answer_eq (matches_read ⟨rfl, Nat.le_refl _⟩)

theorem ofBytes_eq (bytes : Bytes) : ofBytes bytes = .ok (Chronicle.Page.ofBytes bytes) := by
  unfold ofBytes Chronicle.Page.ofBytes
  rw [read_eq]
  cases Chronicle.Page.pull bytes with
  | error e rest => rfl
  | ok page rest => cases rest <;> rfl

theorem bodyLength_lt {bytes rest : Bytes} {p : Page} (h : Chronicle.Page.pull bytes = .ok p rest) :
    p.header.bodyLength < 2 ^ 64 := by
  have hread := matches_read (show SameBytes bytes.length bytes bytes from ⟨rfl, Nat.le_refl _⟩)
  rw [h] at hread
  generalize read bytes = r at hread
  cases hread with
  | ok hp => exact hp.1 ▸ hp.2.1

end Page

end Machine

end Chronicle
