/-
  Chronicle.Proofs.Page.Framing — pages that follow one another.

  Nothing stands between two pages, so a page has to say itself where it ends.
  - What follows a page has no influence on how it is read (`Page.stable_pull`): header, statistics and body
    are each read by readings that look at no more than they take.
  - Bytes that are a page once more bytes have come run out before (`Reading.underflow_of_cut`), wherever
    they are cut, so the beginning of a page is never taken for one (`pull_of_cut`).
  - Pages in a row are read one by one, each where the one before it ends (`run_flatMap`), and the end of the
    last one is the end of reading.

  `pages_are_self_delimiting` says all of this of pages that are legal: their header names what exists and
  goes together, and their statistics are some that calls lead to (`Legal`).
-/

import Chronicle.Proofs.Page.Layout
import Chronicle.Proofs.Stream.Extension

namespace Chronicle

open Reading

/-! ## Readings with more behind them -/

section Stable

variable (extra : Bytes)

theorem NumericSummary.stable_pull {α σ : Type} [BigEndian α] [BigEndian σ] :
    Stable (· ++ extra) (pull (α := α) (σ := σ)) := by
  apply (Bytes.stable_need extra _).bind
  intro _
  apply (BigEndian.stable_pull extra).bind
  intro min
  apply (BigEndian.stable_pull extra).bind
  intro max
  apply (BigEndian.stable_pull extra).bind
  intro first
  apply (BigEndian.stable_pull extra).bind
  intro last
  exact (BigEndian.stable_pull extra).bind fun _ => stable_pure _

theorem ValueSummary.stable_pullBoolean : Stable (· ++ extra) pullBoolean := by
  apply (Bytes.stable_need extra _).bind
  intro _
  apply (Plain.stable_pullBool extra _).bind
  intro first
  apply (Plain.stable_pullBool extra _).bind
  intro last
  exact (Varint.stable_pull extra).bind fun _ => stable_pure _

theorem ValueSummary.stable_pullText : Stable (· ++ extra) pullText := by
  apply (Plain.stable_pullText extra).bind
  intro first
  exact (Plain.stable_pullText extra).bind fun _ => stable_pure _

theorem ValueSummary.stable_pull (t : DataType) : Stable (· ++ extra) (pull t) := by
  rcases t with (_ | (_ | _ | _ | _)) | _
  · exact stable_pullBoolean extra
  · exact (NumericSummary.stable_pull extra).bind fun _ => stable_pure _
  · exact (NumericSummary.stable_pull extra).bind fun _ => stable_pure _
  · exact (NumericSummary.stable_pull extra).bind fun _ => stable_pure _
  · exact (NumericSummary.stable_pull extra).bind fun _ => stable_pure _
  · exact stable_pullText extra

theorem Summary.stable_pull (t : DataType) (count : UInt64) : Stable (· ++ extra) (pull t count) := by
  apply (Bytes.stable_need extra _).bind
  intro _
  apply (BigEndian.stable_pull extra).bind
  intro start
  apply (BigEndian.stable_pull extra).bind
  intro stop
  exact .ite (stable_throw _) ((ValueSummary.stable_pull extra t).bind fun _ => stable_pure _)

theorem Statistics.stable_pull (t : DataType) : Stable (· ++ extra) (pull t) := by
  apply (Varint.stable_pull extra).bind
  intro count
  exact .ite (stable_pure _) ((Summary.stable_pull extra t _).bind fun _ => stable_pure _)

theorem Header.stable_pullId {α : Type} (ofId : Nat → Except CodecError α) : Stable (· ++ extra) (pullId ofId) :=
  (Bytes.stable_pullByte extra).bind fun _ => stable_ofExcept _

theorem Header.stable_pull : Stable (· ++ extra) pull := by
  apply (Bytes.stable_need extra _).bind
  intro _
  apply (stable_pullId extra _).bind
  intro valueEncoding
  apply (stable_pullId extra _).bind
  intro dataType
  apply (stable_pullId extra _).bind
  intro timeEncoding
  apply (stable_pullId extra _).bind
  intro compressor
  apply (Varint.stable_pull extra).bind
  intro bodyLength
  apply (Varint.stable_pull extra).bind
  intro dataLength
  apply (Varint.stable_pull extra).bind
  intro timeLength
  apply (stable_ofExcept _).discard.bind
  intro _
  apply (stable_ofExcept _).discard.bind
  intro _
  exact .ite (stable_throw _) (stable_pure _)

theorem Page.stable_pull : Stable (· ++ extra) pull := by
  apply (Header.stable_pull extra).bind
  intro header
  apply (Statistics.stable_pull extra _).bind
  intro statistics
  exact (Bytes.stable_pull extra _).bind fun _ => stable_pure _

end Stable

namespace Page

/-! ## One page -/

theorem ofBytes_toBytes_append {p : Page} (h : p.Sound) {rest : Bytes} (hrest : rest ≠ []) :
    ofBytes (p.toBytes ++ rest) = .error (.malformed (.bytesAfterPage rest.length)) := by
  cases rest with
  | nil => exact absurd rfl hrest
  | cons b rest =>
    unfold ofBytes
    rw [pull_toBytes_append h (b :: rest)]

/-- Of a page that has lost its end the rest is missing, wherever it was cut. -/
theorem pull_of_cut {p : Page} (h : p.Sound) {cut missing : Bytes} (hcut : cut ++ missing = p.toBytes)
    (hmissing : missing ≠ []) : ∃ left, pull cut = .error .underflow left := by
  have hwhole := pull_toBytes_append h []
  rw [List.append_nil, ← hcut] at hwhole
  exact underflow_of_cut (stable_pull missing) hwhole hmissing

theorem ofBytes_of_error {bytes left : Bytes} {e : CodecError} (h : pull bytes = .error e left) :
    ofBytes bytes = .error e := by
  unfold ofBytes
  rw [h]

/-! ## Pages in a row -/

theorem length_toBytes_pos (p : Page) : 0 < p.toBytes.length := by
  simp [toBytes, Header.toBytes]

theorem next_of_pull {bytes rest : Bytes} {p : Page} (hne : (!bytes.isEmpty) = true) (h : pull bytes = .ok p rest) :
    next bytes = .ok (some p) rest := by
  unfold next
  rw [get_bind]
  simp only [Bool.not_eq_true'] at hne
  simp only [hne]
  exact map_of_eq h

/-- Pages that follow one another are read one after another. -/
theorem run_flatMap {pages : List Page} (h : ∀ p ∈ pages, p.Sound) (rest : Bytes) :
    Run pull (!·.isEmpty) (pages.flatMap toBytes ++ rest) pages rest := by
  induction pages with
  | nil => exact .nil rest
  | cons p pages ih =>
    have hpos := p.length_toBytes_pos
    rw [List.flatMap_cons, List.append_assoc]
    refine .cons ?_ (pull_toBytes_append (h p (by simp)) _) (ih fun q hq => h q (by simp [hq]))
    cases hbytes : p.toBytes with
    | nil => simp [hbytes] at hpos
    | cons b bytes => rfl

theorem length_le_flatMap (pages : List Page) : pages.length ≤ (pages.flatMap toBytes).length := by
  induction pages with
  | nil => simp
  | cons p pages ih =>
    have hpos := p.length_toBytes_pos
    simp only [List.flatMap_cons, List.length_append, List.length_cons]
    omega

theorem drain_flatMap {pages : List Page} (h : ∀ p ∈ pages, p.Sound) :
    drain (pages.flatMap toBytes) = ⟨pages, .finished, []⟩ := by
  have hrun := run_flatMap h []
  rw [List.append_nil] at hrun
  exact collect_of_run (fun _ _ _ => next_of_pull) hrun rfl (Nat.lt_succ_of_le (length_le_flatMap pages))

/-! ## Legal pages -/

/-- A page whose header is legal and whose statistics were reached by calls. -/
structure Legal (p : Page) : Prop where
  header : p.header.Sound
  data : p.data.length = p.header.dataLength
  statistics : p.statistics.Reached p.header.dataType

theorem Legal.sound {p : Page} (h : p.Legal) : p.Sound := ⟨h.header, h.data, h.statistics.sound⟩

/-- A legal page says where it ends. What follows it is left to the next reader and not accepted
    as part of it, and no proper prefix of it is taken for a page. So pages in a row are read
    back as they are. -/
theorem pages_are_self_delimiting :
    (∀ p : Page, p.Legal →
      (∀ rest, pull (p.toBytes ++ rest) = .ok p rest) ∧
      ofBytes p.toBytes = .ok p ∧
      (∀ rest, rest ≠ [] → ofBytes (p.toBytes ++ rest) = .error (.malformed (.bytesAfterPage rest.length))) ∧
      ∀ cut, cut <+: p.toBytes → cut ≠ p.toBytes →
        (∃ left, pull cut = .error .underflow left) ∧ ofBytes cut = .error .underflow) ∧
    ∀ pages : List Page, (∀ p ∈ pages, p.Legal) → drain (pages.flatMap toBytes) = ⟨pages, .finished, []⟩ := by
  refine ⟨?_, ?_⟩
  · intro p hp
    have hsound := hp.sound
    refine ⟨pull_toBytes_append hsound, ofBytes_toBytes hsound, fun rest => ofBytes_toBytes_append hsound, ?_⟩
    intro cut hprefix hne
    obtain ⟨missing, hcut⟩ := hprefix
    have hmissing : missing ≠ [] := by
      intro hnil
      rw [hnil, List.append_nil] at hcut
      exact hne hcut
    obtain ⟨left, hleft⟩ := pull_of_cut hsound hcut hmissing
    exact ⟨⟨left, hleft⟩, ofBytes_of_error hleft⟩
  · intro pages hpages
    exact drain_flatMap fun p hp => (hpages p hp).sound

/-- A page with one text, and an empty page of booleans behind it. -/
theorem pages_are_self_delimiting_text :
    let p : Page := ⟨⟨.text, .plain, .plain, .uncompressed, 10, 10, 8⟩,
      ⟨.text, some ⟨1, 7, 7, .text [0x61] [0x61]⟩⟩, [0, 0, 0, 0, 0, 0, 0, 7, 1, 0x61]⟩
    let q : Page := ⟨⟨.boolean, .runLength, .plain, .uncompressed, 0, 0, 0⟩, .empty .boolean, []⟩
    p.Legal ∧ q.Legal ∧ drain ([p, q].flatMap toBytes) = ⟨[p, q], .finished, []⟩ ∧
      ofBytes (p.toBytes ++ [0]) = .error (.malformed (.bytesAfterPage 1)) ∧
      ofBytes (p.toBytes.take 5) = .error .underflow := by
  intro p q
  have hp : p.Legal := by
    refine ⟨⟨by decide, by decide, by decide, by decide, by decide⟩, rfl, ?_⟩
    have hupdate : (Statistics.empty .text).update 7 (.text [0x61]) = .ok ⟨.text, some ⟨1, 7, 7, .text [0x61] [0x61]⟩⟩ := rfl
    exact .update .empty (by simp [Value.Sized]) hupdate
  have hq : q.Legal := ⟨⟨by decide, by decide, by decide, by decide, by decide⟩, rfl, .empty⟩
  obtain ⟨honly, hrow⟩ := pages_are_self_delimiting
  obtain ⟨-, -, hfollowed, hcut⟩ := honly p hp
  refine ⟨hp, hq, hrow [p, q] ?_, hfollowed [0] (by decide), ?_⟩
  · intro r hr
    rcases List.mem_pair.1 hr with rfl | rfl
    · exact hp
    · exact hq
  · exact (hcut _ (List.take_prefix 5 _) (by decide +kernel)).2

end Page

end Chronicle
