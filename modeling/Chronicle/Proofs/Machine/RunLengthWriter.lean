/-
  Chronicle.Proofs.Machine.RunLengthWriter — one pass over an array writes the canonical segments.

  (1) The pass. Where it stands, the stretches that are not written yet are those of the rest of the array, with
  the literals that are left behind as stretches of one in front of them (`ahead`). So no place has to be known
  for the border of a stretch, and what is written in the end does not depend on where the pass stands
  (`holds_scan`). Each segment begins on a whole byte, whatever was written before it (`Holds.align`).

  (2) Segments (`runLength_writes_canonical_segments`). What is written are the canonical segments of the
  patterns, each with its length in its head.

  (3) Stores. A buffer stands for the patterns that it keeps (`Views`); its writer of bits is empty between the
  calls. A value that has no pattern is refused with nothing changed (`encode_keeps`).
-/

import Chronicle.Machine.RunLengthWriter
import Chronicle.Proofs.Machine.Guarded
import Chronicle.Proofs.Stream.Segmentation
import Chronicle.Proofs.Stream.RoundTrip

namespace Chronicle

namespace BitWriter

/-- Whole bytes have been written, and nothing behind them. -/
structure Holds (out : BitWriter) (bytes : Bytes) : Prop where
  full : out.full.toList = bytes
  used : out.used = 0

variable {out : BitWriter} {bytes : Bytes}

theorem Holds.toBits_eq (h : Holds out bytes) : out.toBits = bytes.toBits := by
  rw [toBits, h.used, bitsOf_zero, List.append_nil, h.full]

/-- Bits that are written from a whole byte on are packed by themselves. -/
theorem Holds.align (h : Holds out bytes) (bits : List Bool) :
    Holds (out.write bits).align (bytes ++ packBits bits) := by
  refine ⟨?_, used_align _⟩
  apply Bytes.toBits_injective
  have hfinish := toBits_finish (out.write bits)
  have hpad : ((out.write bits).toBits.length % 8) = bits.length % 8 := by
    rw [toBits_write, h.toBits_eq, List.length_append, Bytes.length_toBits, Nat.mul_add_mod]
  rw [used_eq, hpad, toBits_write, h.toBits_eq, List.append_assoc, ← toBits_packBits, ← Bytes.toBits_append] at hfinish
  exact hfinish

/-- Bytes that are written from a whole byte on. -/
theorem Holds.write_toBits (h : Holds out bytes) (more : Bytes) :
    Holds (out.write more.toBits) (bytes ++ more) := by
  have hused : (out.write more.toBits).used = 0 := by
    rw [used_eq, toBits_write, h.toBits_eq, List.length_append, Bytes.length_toBits, Bytes.length_toBits]
    omega
  refine ⟨?_, hused⟩
  apply Bytes.toBits_injective
  have hbits := toBits_write out more.toBits
  rw [h.toBits_eq, toBits, hused, bitsOf_zero, List.append_nil, ← Bytes.toBits_append] at hbits
  exact hbits

theorem Holds.finish_eq (h : Holds out bytes) : out.finish.1 = bytes := by
  rw [finish, BitWriter.align, if_pos h.used, h.full]

theorem write_cons (out : BitWriter) (b : Bool) (bits : List Bool) :
    out.write (b :: bits) = (out.writeBit b).write bits := rfl

theorem write_flatMap {α : Type} (out : BitWriter) (bits : α → List Bool) (xs : List α) :
    out.write (xs.flatMap bits) = xs.foldl (fun out a => out.write (bits a)) out := by
  induction xs generalizing out with
  | nil => rfl
  | cons a xs ih => rw [List.flatMap_cons, write_append, ih, List.foldl_cons]

end BitWriter

namespace Machine.RunLengthWriter

open Chronicle.RunLength BitWriter

variable {w : RunLengthWriter} {out : BitWriter} {bytes : Bytes}

def written (w : RunLengthWriter) (segments : List Segment) : Bytes :=
  segments.flatMap fun s => packBits (s.bits w.width)

theorem written_append (w : RunLengthWriter) (a b : List Segment) :
    w.written (a ++ b) = w.written a ++ w.written b :=
  List.flatMap_append

/-! ## Segments -/

theorem holds_writeRun (h : Holds out bytes) (value length : Nat) :
    Holds (w.writeRun value length out) (bytes ++ w.written [.run value length]) := by
  have hwrite : ((out.writeBit true).write (bitsOf 31 length)).write (bitsOf w.width value) =
      out.write ((Segment.run value length).bits w.width) := by
    rw [Segment.bits, write_append, write_cons]
  rw [writeRun, hwrite, written, List.flatMap_singleton]
  exact h.align _

theorem writeGroup_eq (w : RunLengthWriter) (out : BitWriter) (group : List Nat) :
    w.writeGroup out group = out.write (groupBits w.width group) := by
  rw [groupBits, write_append, write_append, Packing.offsetBits, write_flatMap]
  rfl

theorem holds_writeSegment (h : Holds out bytes) (values : List Nat) :
    Holds (w.writeSegment out values) (bytes ++ w.written [.literals values]) := by
  have hwrite : (chunks groupSize values).foldl w.writeGroup ((out.writeBit false).write (bitsOf 31 values.length)) =
      out.write ((Segment.literals values).bits w.width) := by
    rw [Segment.bits, write_append, write_cons, write_flatMap]
    congr 1
    funext out group
    exact writeGroup_eq w out group
  rw [writeSegment, hwrite, written, List.flatMap_singleton]
  exact h.align _

theorem holds_writeLiterals (h : Holds out bytes) (values : List Nat) :
    Holds (w.writeLiterals values out) (bytes ++ w.written ((Segment.literals values).cut w.cap)) := by
  rw [writeLiterals, Segment.cut]
  generalize chunks w.cap values = pieces
  induction pieces generalizing out bytes with
  | nil =>
    rw [List.map_nil, written, List.flatMap_nil, List.append_nil]
    exact h
  | cons piece pieces ih =>
    have hlater := ih (holds_writeSegment (w := w) h piece)
    rw [List.append_assoc, ← written_append] at hlater
    exact hlater

/-- The first piece of a run is as long as the cap allows. -/
theorem cut_run {value left : Nat} (hleft : left ≠ 0) (hcap : 0 < w.cap) :
    (Segment.run value left).cut w.cap =
      .run value (min left w.cap) :: (Segment.run value (left - min left w.cap)).cut w.cap := by
  obtain ⟨n, rfl⟩ : ∃ n, left = n + 1 := ⟨left - 1, by omega⟩
  have hfirst : min (w.cap - 1) n + 1 = min (n + 1) w.cap := by omega
  have hlater : n - (w.cap - 1) = n + 1 - min (n + 1) w.cap := by omega
  rw [Segment.cut, List.replicate_succ, chunks_cons, List.take_replicate, List.drop_replicate, List.map_cons,
    List.length_cons, List.length_replicate, hfirst, hlater]
  rfl

theorem holds_writeRuns (value left : Nat) (bytes : Bytes) (h : Holds out bytes) :
    Holds (w.writeRuns value left out) (bytes ++ w.written ((Segment.run value left).cut w.cap)) := by
  induction left, out using writeRuns.induct w value generalizing bytes with
  | case1 out =>
    rw [writeRuns, if_pos rfl, Segment.cut, List.replicate_zero, chunks_nil, List.map_nil, written, List.flatMap_nil,
      List.append_nil]
    exact h
  | case2 left out hleft length ih =>
    have hlater := ih _ (holds_writeRun h value length)
    rw [List.append_assoc, ← written_append] at hlater
    rw [writeRuns, if_neg hleft, cut_run hleft w.cap_pos]
    exact hlater

/-! ## The pass -/

theorem drop_eq_cons {values : Array Nat} {place : Nat} (h : place < values.size) :
    values.toList.drop place = values[place] :: values.toList.drop (place + 1) := by
  rw [List.drop_eq_getElem_cons (by simpa using h), Array.getElem_toList]

/-- From a place on there are copies of the value up to the end of its stretch, and no copy
    behind it. -/
theorem drop_eq_rest {values : Array Nat} (value : Nat) {place : Nat} (h : place ≤ values.size) :
    ∃ n, stretchEnd values value place = place + n ∧ place + n ≤ values.size ∧
      values.toList.drop place = List.replicate n value ++ values.toList.drop (place + n) ∧
        ∀ v ∈ (values.toList.drop (place + n)).head?, value ≠ v := by
  fun_induction stretchEnd values value place with
  | case1 place hplace heq ih =>
    obtain ⟨n, hstop, hsize, hdrop, hhead⟩ := ih hplace
    have hshift : place + (n + 1) = place + 1 + n := by omega
    rw [drop_eq_cons hplace, heq, hdrop]
    refine ⟨n + 1, ?_⟩
    rw [hshift]
    exact ⟨hstop, hsize, rfl, hhead⟩
  | case2 place hplace hne =>
    refine ⟨0, rfl, h, rfl, ?_⟩
    intro v hv
    rw [Nat.add_zero, List.head?_drop, Array.getElem?_toList, Array.getElem?_eq_getElem hplace] at hv
    rw [← Option.mem_some.1 hv]
    exact Ne.symm hne
  | case3 place hplace =>
    refine ⟨0, rfl, h, rfl, ?_⟩
    have hnil : values.toList.drop (place + 0) = [] := by
      apply List.drop_eq_nil_of_le
      rw [Array.length_toList]
      omega
    rw [hnil]
    simp

/-- A stretch begins at every place. -/
theorem drop_eq_stretch {values : Array Nat} {place : Nat} (h : place < values.size) :
    ∃ n, 1 ≤ n ∧ stretchEnd values values[place] (place + 1) = place + n ∧ place + n ≤ values.size ∧
      values.toList.drop place = List.replicate n values[place] ++ values.toList.drop (place + n) ∧
        ∀ v ∈ (values.toList.drop (place + n)).head?, values[place] ≠ v := by
  obtain ⟨n, hstop, hsize, hdrop, hhead⟩ := drop_eq_rest values[place] (Nat.succ_le_of_lt h)
  have hshift : place + (n + 1) = place + 1 + n := by omega
  rw [Nat.succ_eq_add_one] at hstop hsize hdrop hhead
  refine ⟨n + 1, Nat.succ_pos n, ?_⟩
  rw [hshift, drop_eq_cons h, hdrop]
  exact ⟨hstop, hsize, rfl, hhead⟩

def ahead (w : RunLengthWriter) (literals rest : List Nat) : List Segment :=
  (ofStretches (literals.map ([·]) ++ rest.splitBy (· == ·))).flatMap (Segment.cut w.cap)

theorem ahead_nil (w : RunLengthWriter) (literals : List Nat) :
    w.ahead literals [] = (Segment.literals literals).cut w.cap := by
  rw [ahead, List.splitBy_nil, cut_ofStretches_singles w.cap literals (by simp)]
  simp [ofStretches]

/-- A stretch that is long enough has the literals in front of it. -/
theorem ahead_run {literals rest : List Nat} {value n : Nat} (hn : 2 ≤ n) (hrest : ∀ v ∈ rest.head?, value ≠ v) :
    w.ahead literals (List.replicate n value ++ rest) =
      (Segment.literals literals).cut w.cap ++ ((Segment.run value n).cut w.cap ++ w.ahead [] rest) := by
  have hfirst : ∀ s ∈ (List.replicate n value :: rest.splitBy (· == ·)).head?, 2 ≤ s.length := by
    intro s hs
    rw [← Option.mem_some.1 hs, List.length_replicate]
    exact hn
  rw [ahead, splitBy_replicate_append (Nat.le_of_succ_le hn) hrest, cut_ofStretches_singles w.cap literals hfirst,
    ofStretches_run hn, List.flatMap_cons]
  rfl

/-- A stretch of one is one more of the literals. -/
theorem ahead_single {literals rest : List Nat} {value : Nat} (hrest : ∀ v ∈ rest.head?, value ≠ v) :
    w.ahead literals (value :: rest) = w.ahead (literals ++ [value]) rest := by
  have hsplit := splitBy_replicate_append (Nat.le_refl 1) hrest
  rw [List.replicate_one, List.singleton_append] at hsplit
  rw [ahead, ahead, hsplit, List.map_append, List.append_assoc]
  rfl

/-- The literals that are not written yet, with the pattern behind them. -/
theorem extract_succ {values : Array Nat} {literals place : Nat} (hle : literals ≤ place) (h : place < values.size) :
    (values.extract literals (place + 1)).toList = (values.extract literals place).toList ++ [values[place]] := by
  rw [Array.extract_succ_right (by omega) h, Array.toList_push]

/-- What is not written yet is written, whatever stands in front of it. -/
theorem holds_scan {values : Array Nat} {literals place : Nat} (bytes : Bytes) (h : Holds out bytes)
    (hle : literals ≤ place) (hsize : place ≤ values.size) :
    Holds (w.scan values literals place out)
      (bytes ++ w.written (w.ahead (values.extract literals place).toList (values.toList.drop place))) := by
  induction literals, place, out using scan.induct w values generalizing bytes with
  | case1 literals place out hplace stop htwo wrote ih =>
    -- behind the run no literals are left, and the rest begins with another stretch
    obtain ⟨n, -, hstop, hend, hdrop, hhead⟩ := drop_eq_stretch hplace
    have hstop' : stop = place + n := hstop
    have hlength : place + n - place = n := Nat.add_sub_cancel_left place n
    rw [scan, dif_pos hplace, if_pos htwo, hstop, hlength]
    rw [hstop', hlength] at htwo ih
    have hwrote := holds_writeLiterals (w := w) h (values.extract literals place).toList
    have hlater := ih _ (holds_writeRuns values[place] n _ hwrote) (Nat.le_refl _) hend
    have hnone : (values.extract (place + n) (place + n)).toList = [] := by simp
    rw [hnone] at hlater
    rw [hdrop, ahead_run htwo hhead, written_append, written_append, ← List.append_assoc, ← List.append_assoc]
    exact hlater
  | case2 literals place out hplace stop hone ih =>
    obtain ⟨n, hn, hstop, hend, hdrop, hhead⟩ := drop_eq_stretch hplace
    have hstop' : stop = place + n := hstop
    obtain rfl : n = 1 := by omega
    rw [scan, dif_pos hplace, if_neg hone, hstop]
    rw [hstop'] at ih
    have hlater := ih bytes h (Nat.le_succ_of_le hle) hend
    rw [extract_succ hle hplace] at hlater
    rw [hdrop, List.replicate_one, List.singleton_append, ahead_single hhead]
    exact hlater
  | case3 literals place out hplace =>
    have hplace : place = values.size := by omega
    have hnil : values.toList.drop place = [] := by simp [hplace]
    rw [scan, dif_neg (by omega), hnil, ahead_nil, hplace]
    exact holds_writeLiterals h _

theorem flush_eq (w : RunLengthWriter) (values : Array Nat) :
    w.flush values = payload w.width w.cap values.toList := by
  have hempty : Holds .empty [] := ⟨rfl, rfl⟩
  have hscan := holds_scan (w := w) [] hempty (Nat.le_refl 0) (Nat.zero_le values.size)
  have hnone : (values.extract 0 0).toList = [] := by simp
  rw [hnone, List.nil_append, List.drop_zero] at hscan
  exact hscan.finish_eq

theorem flush_new {cap : Nat} (hcap : 0 < cap) (width : Nat) (patterns : List Nat) :
    (new width cap).flush patterns.toArray = payload width cap patterns := by
  have hmax : (new width cap).cap = cap := Nat.max_eq_left hcap
  rw [flush_eq, hmax]
  rfl

end Machine.RunLengthWriter

namespace Machine.RunLengthBuffer

/-- What a buffer stands for: the same patterns. Its writer of bits is empty between the calls. -/
structure Views (b : RunLengthBuffer) (e : RunLength.Encoder) : Prop where
  dataType : b.dataType = e.dataType
  writer : b.writer = .new e.dataType.width e.cap
  cap_pos : 0 < e.cap
  values : b.values = e.values
  out : b.out = .empty

variable {b : RunLengthBuffer} {e : RunLength.Encoder}

theorem views_new (t : FixedType) {cap : Nat} (hcap : 0 < cap) : Views (new t cap) { dataType := t, cap := cap } :=
  ⟨rfl, rfl, hcap, rfl, rfl⟩

/-- A value is kept, or refused with nothing changed. -/
theorem encode_keeps (h : Views b e) (v : Value) :
    Keeps Views b (encode v b) (do return e.push (← v.requireBits (.fixed e.dataType))) := by
  rw [← h.dataType]
  refine keeps_ofExcept_bind fun bits _ => ⟨_, rfl, h.dataType, h.writer, h.cap_pos, ?_, h.out⟩
  exact congrArg (Array.push · bits) h.values

theorem flush_views (h : Views b e) : ∃ b', flush b = .ok e.flush.1 b' ∧ Views b' e.flush.2 := by
  have hbytes : (b.writer.scan b.values 0 0 b.out).finish.1 = e.flush.1 := by
    rw [h.writer, h.out, h.values]
    exact RunLengthWriter.flush_new h.cap_pos e.dataType.width e.values.toList
  rw [← hbytes]
  exact ⟨_, rfl, h.dataType, h.writer, h.cap_pos, rfl, rfl⟩

theorem reset_views (h : Views b e) : ∃ b', reset b = .ok () b' ∧ Views b' e.reset :=
  ⟨_, rfl, h.dataType, h.writer, h.cap_pos, rfl, rfl⟩

end Machine.RunLengthBuffer

open RunLength

/-- RLE writes the canonical segments of the patterns, each with its length in its head, and the
    pass over an array writes the same bytes. -/
theorem runLength_writes_canonical_segments (t : FixedType) {cap : Nat} (hpos : 0 < cap) (hcap : cap ≤ maxCap)
    {values : List Value} (hv : ∀ v ∈ values, v.dataType = .fixed t) :
    ∃ (patterns : List Nat) (segments : List Segment) (payload : Bytes),
      values.map Value.bits? = patterns.map some ∧
      (EncoderState.runLength { dataType := t, cap := cap }).payload values = .ok payload ∧
      (Machine.RunLengthWriter.new t.width cap).flush patterns.toArray = payload ∧
      payload = segments.flatMap (fun s => packBits (s.bits t.width)) ∧
      Grammar.Spells t.width (segments.map (Segment.grouped t.width)) payload ∧
      Canonical cap patterns segments ∧ (∀ others, Canonical cap patterns others → others = segments) ∧
      (∀ s ∈ segments, 1 ≤ s.expand.length ∧ s.expand.length ≤ cap) ∧
      (∀ literals, .literals literals ∈ segments → literals.IsChain (· ≠ ·)) ∧
      (segments.map fun s => s.expand.length).sum = values.length := by
  obtain ⟨patterns, hlt, rfl⟩ := Value.exists_patterns hv
  have hcanonical : Canonical cap patterns (segments cap patterns) := (canonical_iff hpos).2 rfl
  have hfits : ∀ s ∈ segments cap patterns, s.Fits t.width := by
    intro s hs
    exact fits_of_mem_segments hpos hcap hlt hs
  have hsum : ((segments cap patterns).map fun s => s.expand.length).sum = (patterns.map (Value.ofBits t)).length := by
    rw [← List.length_flatMap, expand_segments, List.length_map]
  exact ⟨patterns, segments cap patterns, _, Value.map_bits?_ofBits hlt,
    (EncoderState.writes_runLength t cap hlt).payload_eq, Machine.RunLengthWriter.flush_new hpos t.width patterns, rfl,
    spells_segments hfits, hcanonical, fun _ h => (canonical_iff hpos).1 h, fun _ => hcanonical.length_bounds,
    fun _ => hcanonical.isChain_of_literals, hsum⟩

/-- A stretch of three is cut into two runs, the second of them of one. -/
theorem runLength_writes_canonical_segments_int32 :
    ∃ payload, (EncoderState.runLength { dataType := .number .int32, cap := 2 }).payload
        [.int32 5, .int32 7, .int32 7, .int32 7, .int32 (-1)] = .ok payload ∧
      Canonical 2 [5, 7, 7, 7, 4294967295] [.literals [5], .run 7 2, .run 7 1, .literals [4294967295]] ∧
      Grammar.Spells 32 ([Segment.literals [5], .run 7 2, .run 7 1, .literals [4294967295]].map (Segment.grouped 32))
        payload := by
  have hv : ∀ v ∈ [.int32 5, .int32 7, .int32 7, .int32 7, .int32 (-1)],
      Value.dataType v = .fixed (.number .int32) := by
    decide
  have hcap : 2 ≤ maxCap := by decide
  obtain ⟨patterns, segments, payload, hbits, hpayload, -, -, hspells, hcanonical, -⟩ :=
    runLength_writes_canonical_segments (.number .int32) Nat.two_pos hcap hv
  have hpatterns : patterns = [5, 7, 7, 7, 4294967295] :=
    (List.map_inj_right fun _ _ => Option.some.inj).1 (hbits.symm.trans (by decide))
  have hsegments : segments = [.literals [5], .run 7 2, .run 7 1, .literals [4294967295]] := by
    rw [(canonical_iff (by decide)).1 hcanonical, hpatterns]
    decide +kernel
  subst hpatterns hsegments
  exact ⟨payload, hpayload, hcanonical, hspells⟩

end Chronicle
