/-
  Chronicle.Proofs.Page.Session — whatever is called on a writer, in whatever order.

  A session keeps, next to the writer, the points that it has accepted since its last page, and every page
  with the points that were accepted for it. Points of any type are offered, pages are cut at any time, and
  calls go on behind calls that failed.

  - Between two calls the writer is closed for good, or it is what a fresh writer comes to that is given only
    the points since the last page (`Current`): a write that fails on its type leaves no trace, and a flush
    leaves a fresh writer. That is one invariant (`Sound`), kept by each call.
  - So every page is one that a fresh writer cuts (`Cuts`), and what is known of such pages is known of it.
  - It is read back, gives exactly the points that were accepted for it, bit for bit, and their statistics
    (`session_round_trip`).
-/

import Chronicle.Proofs.Page.RoundTrip

namespace Chronicle

open Reading PageWriter

inductive Call
  | write (time : Int64) (v : Value)
  | flush

structure Session where
  writer : PageWriter
  /-- The points that were accepted since the last page. -/
  points : List (Int64 × Value) := []
  /-- The pages so far, each with the points that were accepted for it. -/
  pages : List (Page × List (Int64 × Value)) := []

namespace Session

variable {first : PageWriter}

/-! ## What a writer can take -/

def Countable (points : List (Int64 × Value)) : Prop := points.length < 2 ^ 32 - 1

theorem countable_of_append {points others : List (Int64 × Value)} (h : Countable (points ++ others)) :
    Countable points := by
  unfold Countable at h ⊢
  rw [List.length_append] at h
  omega

/-- A writer without points that takes all points of its type, as long as they can be counted. -/
structure Fresh (first : PageWriter) : Prop where
  opened : first.Open
  cleared : first.cleared = first
  column : first.values.dataType = first.statistics.dataType
  takes : ∀ points : List (Int64 × Value), (∀ p ∈ points, p.2.dataType = first.statistics.dataType) →
    points.length < 2 ^ 32 → ∃ w, writes points first = .ok () w

/-- A point that the first writer takes after the others is taken. -/
theorem write_of_countable (hf : Fresh first) {points : List (Int64 × Value)} (hc : Countable points) {w : PageWriter}
    (hw : writes points first = .ok () w) {v : Value} (hv : v.dataType = first.statistics.dataType) (time : Int64) :
    ∃ w', PageWriter.write time v w = .ok () w' := by
  obtain ⟨-, -, htypes⟩ := open_of_writes hf.opened hw
  have htaken : ∀ p ∈ points ++ [(time, v)], p.2.dataType = first.statistics.dataType := by
    intro p hp
    rcases List.mem_append.1 hp with hp | hp
    · exact htypes p hp
    · obtain rfl := List.mem_singleton.1 hp
      exact hv
  have hlen : (points ++ [(time, v)]).length < 2 ^ 32 := by
    unfold Countable at hc
    simp only [List.length_append, List.length_singleton]
    omega
  obtain ⟨w', h⟩ := hf.takes _ htaken hlen
  rw [writes_append_of_eq hw] at h
  obtain ⟨_, next, hwrite, -⟩ := ok_of_bind h
  exact ⟨next, hwrite⟩

theorem fresh_fresh {config : Config} (hc : config.Exact) (compressor : Compressor) {timeCodec valueCodec : Codec}
    (ht : timeCodec.dataType = .int64) : Fresh (PageWriter.fresh config compressor timeCodec valueCodec) := by
  refine ⟨open_fresh, cleared_fresh, ?_, ?_⟩
  · simp [PageWriter.fresh, Encoder.dataType, Encoder.codec, Statistics.empty]
  · intro points hp hn
    obtain ⟨w, hw, -⟩ := exists_writes hc ht hp hn
    exact ⟨w, hw⟩

/-! ## Runs -/

variable [Snappy.Library]

def step (s : Session) : Call → Session
  | .write time v =>
    match PageWriter.write time v s.writer with
    | .ok _ w => { s with writer := w, points := s.points ++ [(time, v)] }
    | .error _ w => { s with writer := w }
  | .flush =>
    match PageWriter.flush s.writer with
    | .ok page w => { writer := w, pages := s.pages ++ [(page, s.points)] }
    | .error _ w => { s with writer := w }

def run (w : PageWriter) (calls : List Call) : Session := calls.foldl step { writer := w }

/-- The writer is closed, or is what the points since the last page make of the first one. -/
def Current (first : PageWriter) (s : Session) : Prop :=
  s.writer.Closed ∨
    s.writer.Open ∧ s.writer.cleared = first ∧ (Countable s.points → writes s.points first = .ok () s.writer)

/-- The page is the one that the first writer cuts of the points, after which it is as before. -/
def Cuts (first : PageWriter) (page : Page) (points : List (Int64 × Value)) : Prop :=
  ∃ w, writes points first = .ok () w ∧ flush w = .ok page first

structure Sound (first : PageWriter) (s : Session) : Prop where
  current : Current first s
  pages : ∀ page points, (page, points) ∈ s.pages → Countable points → Cuts first page points

variable {s : Session}

theorem sound_start (hf : Fresh first) : Sound first { writer := first } := by
  refine ⟨.inr ⟨hf.opened, hf.cleared, ?_⟩, ?_⟩
  · intro _
    rfl
  · intro page points h
    cases h

/-! ## One call -/

theorem sound_write (hf : Fresh first) (h : Sound first s) (time : Int64) (v : Value) :
    Sound first (s.step (.write time v)) := by
  obtain ⟨hclosed | ⟨hopen, hcleared, hwrites⟩, hpages⟩ := h
  · obtain ⟨e, hwrite⟩ := write_of_closed hclosed time v
    simp only [step, hwrite]
    exact ⟨.inl hclosed, hpages⟩
  rcases hwrite : PageWriter.write time v s.writer with ⟨_, w⟩ | ⟨e, w⟩
  · obtain ⟨hopen', hcleared'⟩ := open_of_write hopen (.inl hwrite)
    simp only [step, hwrite]
    refine ⟨.inr ⟨hopen', hcleared'.trans hcleared, ?_⟩, hpages⟩
    intro hc
    rw [writes_append_of_eq (hwrites (countable_of_append hc)), writes_cons_of_eq hwrite]
    rfl
  · obtain ⟨hopen', hcleared'⟩ := open_of_write hopen (.inr ⟨e, hwrite⟩)
    simp only [step, hwrite]
    refine ⟨.inr ⟨hopen', hcleared'.trans hcleared, ?_⟩, hpages⟩
    intro hc
    -- Such a point is refused only for its type, and then the writer has not been touched.
    by_cases hv : v.dataType = first.statistics.dataType
    · obtain ⟨_, htaken⟩ := write_of_countable hf hc (hwrites hc) hv time
      rw [hwrite] at htaken
      cases htaken
    · have htype : s.writer.statistics.dataType = first.statistics.dataType := congrArg (·.statistics.dataType) hcleared
      rw [← htype] at hv
      rw [write_of_type_ne hv] at hwrite
      cases hwrite
      exact hwrites hc

theorem sound_flush (hf : Fresh first) (h : Sound first s) : Sound first (s.step .flush) := by
  obtain ⟨hclosed | ⟨hopen, hcleared, hwrites⟩, hpages⟩ := h
  · simp only [step, flush_of_closed hclosed]
    exact ⟨.inl hclosed, hpages⟩
  have hvalues : s.writer.values.codec = first.values.codec :=
    Encoder.codec_eq_of_reset_eq (congrArg PageWriter.values (hcleared.trans hf.cleared.symm))
  have htype : s.writer.statistics.dataType = first.statistics.dataType := congrArg (·.statistics.dataType) hcleared
  have hcolumn : s.writer.values.dataType = s.writer.statistics.dataType := by
    rw [htype, ← hf.column, Encoder.dataType, hvalues]
    rfl
  rcases flush_cases hopen hcolumn with ⟨page, hflush⟩ | ⟨e, hflush⟩
  · rw [hcleared] at hflush
    simp only [step, hflush]
    refine ⟨.inr ⟨hf.opened, hf.cleared, ?_⟩, ?_⟩
    · intro _
      rfl
    · intro page' points hm hc
      rcases List.mem_append.1 hm with hm | hm
      · exact hpages page' points hm hc
      · cases List.mem_singleton.1 hm
        exact ⟨s.writer, hwrites hc, hflush⟩
  · simp only [step, hflush]
    exact ⟨.inl (closed_closed _), hpages⟩

theorem sound_step (hf : Fresh first) (h : Sound first s) (call : Call) : Sound first (s.step call) := by
  cases call with
  | write time v => exact sound_write hf h time v
  | flush => exact sound_flush hf h

/-! ## All calls -/

theorem sound_foldl (hf : Fresh first) (h : Sound first s) (calls : List Call) :
    Sound first (calls.foldl step s) := by
  induction calls generalizing s with
  | nil => exact h
  | cons call calls ih => exact ih (sound_step hf h call)

theorem sound_run (hf : Fresh first) (calls : List Call) : Sound first (run first calls) :=
  sound_foldl hf (sound_start hf) calls

end Session

open Session (run fresh_fresh sound_run)

/-- Every page of a session is read back, gives exactly the points that were accepted for it
    and their statistics, and is the page of a writer that was given nothing else. A body of
    texts has to be one whose length a header can say; any other is short enough. -/
theorem session_round_trip [Snappy.Library] (hl : Snappy.Library.Lossless) {t : DataType}
    {valueName compressorName : String} {config : Config} {e : Encoding} {compressor : Compressor}
    (hname : Encoding.ofName valueName = .ok e) (he : e ∈ t.encodings)
    (hcompressor : Compressor.ofName compressorName = .ok compressor) (hvalid : config.validate = .ok ())
    (hscale : config.scale? = none) :
    ∃ first, PageWriter.new t valueName compressorName config = .ok first ∧
      ∀ calls page points, (page, points) ∈ (run first calls).pages → points.length < 2 ^ 32 - 1 →
        (t = .text → page.header.bodyLength < 2 ^ 64) →
          Page.ofBytes page.toBytes = .ok page ∧
          (do (← PageReader.ofPage page).readAll) = .ok points ∧
          Statistics.ofPoints t points = .ok page.statistics ∧
          (do writes points; flush) first = .ok page first := by
  obtain ⟨hexact, htime⟩ := Config.exact_of_validate hvalid hscale
  obtain ⟨timeCodec, valueCodec, htimes, rfl, hnew⟩ := exists_new hname he hcompressor hvalid htime
  refine ⟨_, hnew, ?_⟩
  intro calls page points hm hn hb
  obtain ⟨w, hwrites, hflush⟩ := (sound_run (fresh_fresh hexact compressor htimes) calls).pages page points hm hn
  obtain ⟨-, -, htypes⟩ := open_of_writes open_fresh hwrites
  obtain ⟨w', htaken, htimeCodec, hvalueCodec, hholds⟩ := exists_writes hexact htimes htypes (by omega)
  rw [hwrites] at htaken
  cases htaken
  have hcolumn : w.values.dataType = valueCodec.dataType := congrArg Codec.dataType hvalueCodec
  have hstream : w.times.dataType = .int64 := (congrArg Codec.dataType htimeCodec).trans htimes
  rw [← hcolumn] at hb ⊢
  obtain ⟨hbytes, hpoints, hstatistics, -⟩ := hholds.page_round_trip hl hstream (by omega) hflush hb
  refine ⟨hbytes, hpoints, hstatistics, ?_⟩
  rw [bind_of_eq hwrites]
  exact hflush

/-- A NaN that carries a payload and a negative zero, with a text refused between them, and a
    point on a second page. -/
theorem session_round_trip_double :
    ∃ first pages, PageWriter.new .double "GORILLA_V2" "SNAPPY" {} = .ok first ∧
      (run first [.write 5 (.double ⟨0x7FF8000000000001⟩), .write 6 (.text [1]),
        .write 3 (.double ⟨0x8000000000000000⟩), .flush, .write 4 (.double ⟨1⟩), .flush]).pages = pages ∧
      pages.map Prod.snd = [[(5, .double ⟨0x7FF8000000000001⟩), (3, .double ⟨0x8000000000000000⟩)],
        [(4, .double ⟨1⟩)]] ∧
      ∀ page points, (page, points) ∈ pages →
        Page.ofBytes page.toBytes = .ok page ∧
        (do (← PageReader.ofPage page).readAll) = .ok points ∧
        Statistics.ofPoints .double points = .ok page.statistics ∧
        (do writes points; flush) first = .ok page first := by
  have hname : Encoding.ofName "GORILLA_V2" = .ok (.gorilla .v2) := rfl
  have hlegal : Encoding.gorilla .v2 ∈ DataType.double.encodings := by decide
  have hcompressor : Compressor.ofName "SNAPPY" = .ok .snappy := rfl
  have hvalid : ({} : Config).validate = .ok () := rfl
  obtain ⟨first, hnew, hpages⟩ := session_round_trip Snappy.Library.lossless hname hlegal hcompressor hvalid rfl
  have hrun : (do
      let first ← PageWriter.new .double "GORILLA_V2" "SNAPPY" {}
      return (run first [.write 5 (.double ⟨0x7FF8000000000001⟩), .write 6 (.text [1]),
        .write 3 (.double ⟨0x8000000000000000⟩), .flush, .write 4 (.double ⟨1⟩), .flush]).pages.map Prod.snd) =
      (.ok [[(5, .double ⟨0x7FF8000000000001⟩), (3, .double ⟨0x8000000000000000⟩)], [(4, .double ⟨1⟩)]] :
        Except CodecError _) := by
    decide +kernel
  rw [hnew] at hrun
  have hpoints := Except.ok.inj hrun
  refine ⟨first, _, hnew, rfl, hpoints, ?_⟩
  intro page points hm
  refine hpages _ page points hm ?_ (by simp)
  have hmem : points ∈ _ := List.mem_map_of_mem (f := Prod.snd) hm
  rw [hpoints] at hmem
  rcases List.mem_cons.1 hmem with rfl | h
  · decide
  · obtain rfl := List.mem_singleton.1 h
    decide

end Chronicle
