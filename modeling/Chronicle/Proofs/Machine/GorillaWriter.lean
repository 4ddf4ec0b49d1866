/-
  Chronicle.Proofs.Machine.GorillaWriter — GORILLA written on machine words, code by code as the codes are
  described.

  (1) No step is trapped. A difference that is not zero has a bit between the zeros above and below
  it (`zeros_eq`), and so has every window that has been written (`Views`): no width is less than the
  zeros that are taken off it, no size is 0, and every shift is by less than 64 places.

  (2) The window is two bytes. As long as there is none the upper one is 255, which no difference has
  as many zeros above as; from the first window on both are those of the last one, and a difference
  lies inside exactly where it has as many zeros on either side (`writeCode_eq`).

  (3) A pattern that is refused, because the count is full, has changed nothing (`push_keeps`). A flush
  and a reset leave what a reset leaves of the encoder that the writer stands for (`flush_views`,
  `reset_views`).
-/

import Chronicle.Machine.GorillaWriter
import Chronicle.Proofs.Column.Value
import Chronicle.Proofs.Machine.Gorilla
import Chronicle.Proofs.Stream.Gorilla

namespace Chronicle

/-- More places above a number do not change the zeros below its lowest one. -/
theorem trailingZeros_of_le {width more n : Nat} (h0 : n ≠ 0) (h : n < 2 ^ width) (hle : width ≤ more) :
    trailingZeros more n = trailingZeros width n := by
  induction width generalizing more n with
  | zero =>
    rw [Nat.pow_zero] at h
    omega
  | succ width ih =>
    obtain ⟨more, rfl⟩ : ∃ k, more = k + 1 := ⟨more - 1, by omega⟩
    unfold trailingZeros
    by_cases hodd : n % 2 = 1
    · rw [if_pos hodd, if_pos hodd]
    · have hhalf : n / 2 < 2 ^ width := by
        rw [Nat.pow_succ] at h
        omega
      rw [if_neg hodd, if_neg hodd, ih (by omega) hhalf (by omega)]

namespace Machine.GorillaWriter

open BitWriter (write_append)
open Chronicle.Gorilla (Window Code maxCount)
open Chronicle.Machine.Gorilla (IsWidth WindowViews noWindow fieldWidth toNat_sub)
open Guarded (minus_eq shiftRight64_eq lowBits64_eq toNat_and_mask)

variable {σ : Type} {s : σ} {width leading trailing : UInt8} {difference : UInt64}

/-! ## Windows -/

theorem toNat_shiftRight (word : UInt64) {places : UInt8} (h : places.toNat < 64) :
    (word >>> places.toUInt64).toNat = word.toNat / 2 ^ places.toNat := by
  rw [UInt64.toNat_shiftRight, UInt8.toNat_toUInt64, Nat.mod_eq_of_lt h, Nat.shiftRight_eq_div_pow]

/-- The zeros that are counted in 64 bits are those of the pattern of the width. -/
theorem zeros_eq (hw : IsWidth width) (h0 : difference.toNat ≠ 0) (h : difference.toNat < 2 ^ width.toNat) :
    ∃ leading trailing, zeros width difference s = .ok (leading, trailing) s ∧
      Window.around width.toNat difference.toNat = ⟨leading.toNat, trailing.toNat⟩ := by
  have hbits : bitLength difference.toNat ≤ width.toNat := bitLength_le_iff.2 h
  have hle := hw.le
  have hzeros := leadingZeros_add_trailingZeros_lt h0 h
  have htrailing := trailingZeros_of_le h0 h hle
  have hbeyond : ((64 : UInt8) - width).toNat = 64 - width.toNat := toNat_sub hle
  have hall : (UInt8.ofNat (leadingZeros 64 difference.toNat)).toNat = 64 - bitLength difference.toNat :=
    UInt8.toNat_ofNat_of_lt' (show 64 - bitLength difference.toNat < 2 ^ 8 by omega)
  have hupper : ((64 : UInt8) - width).toNat ≤ (UInt8.ofNat (leadingZeros 64 difference.toNat)).toNat := by omega
  refine ⟨UInt8.ofNat (leadingZeros 64 difference.toNat) - (64 - width), UInt8.ofNat (trailingZeros 64 difference.toNat), ?_, ?_⟩
  · unfold zeros
    rw [bind_of_eq (minus_eq (UInt8.le_iff_toNat_le.mpr hle)), bind_of_eq (minus_eq (UInt8.le_iff_toNat_le.mpr hupper))]
    rfl
  · rw [toNat_sub hupper, hall, hbeyond, UInt8.toNat_ofNat_of_lt' (show trailingZeros 64 difference.toNat < 2 ^ 8 by omega),
      htrailing, Window.around, leadingZeros]
    congr 1
    omega

theorem sizeOf_eq (h : leading.toNat + trailing.toNat < width.toNat) :
    ∃ size, sizeOf width leading trailing s = .ok size s ∧
      size.toNat = Window.size width.toNat ⟨leading.toNat, trailing.toNat⟩ := by
  have hupper : leading.toNat ≤ width.toNat := by omega
  have hbelow := toNat_sub hupper
  have hlower : trailing.toNat ≤ (width - leading).toNat := by omega
  refine ⟨width - leading - trailing, ?_, ?_⟩
  · unfold sizeOf
    rw [bind_of_eq (minus_eq (UInt8.le_iff_toNat_le.mpr hupper))]
    exact minus_eq (UInt8.le_iff_toNat_le.mpr hlower)
  · rw [toNat_sub hlower, hbelow]
    rfl

theorem sizeField_eq (version : GorillaVersion) (hw : IsWidth width) {size : UInt8} (hpos : 0 < size.toNat) :
    ∃ field, sizeField version width size s = .ok field s ∧
      field.toNat = Chronicle.Gorilla.sizeField version width.toNat size.toNat := by
  cases version with
  | v1 =>
    obtain ⟨mask, hmask, hlow⟩ := lowBits64_eq (s := s) (Nat.le_trans hw.fieldWidth_le (by decide))
    refine ⟨size.toUInt64 &&& mask, map_of_eq hlow, ?_⟩
    rw [toNat_and_mask hmask, UInt8.toNat_toUInt64, hw.fieldWidth_eq]
    rfl
  | v2 =>
    have hone : (1 : UInt8).toNat ≤ size.toNat := hpos
    refine ⟨(size - 1).toUInt64, map_of_eq (minus_eq (UInt8.le_iff_toNat_le.mpr hone)), ?_⟩
    rw [UInt8.toNat_toUInt64, toNat_sub hone]
    rfl

/-! ## Codes -/

variable {w : GorillaWriter}

theorem isWidth (w : GorillaWriter) : IsWidth w.width := by
  unfold width
  cases w.dataType <;> simp [IsWidth, NumberType.width]

theorem toNat_width (w : GorillaWriter) : w.width.toNat = w.dataType.width := by
  unfold width
  cases w.dataType <;> rfl

theorem onOut_bind {α β : Type} {m : Guarded BitWriter α} {a : α} {out : BitWriter} (h : m w.out = .ok a out)
    (f : α → Guarded GorillaWriter β) : (onOut m >>= f) w = f a { w with out := out } := by
  apply bind_of_eq
  rw [onOut, within, h]

theorem writeBits_bind {β : Type} (word : UInt64) (count : UInt8) (f : Unit → Guarded GorillaWriter β) (w : GorillaWriter) :
    (onOut (writeBits word count) >>= f) w = f () { w with out := w.out.write (bitsOf count.toNat word.toNat) } := rfl

theorem writeBit_bind {β : Type} (bit : Bool) (f : Unit → Guarded GorillaWriter β) (w : GorillaWriter) :
    (onOut (writeBit bit) >>= f) w = f () { w with out := w.out.writeBit bit } := rfl

theorem writeInside_eq (difference : UInt64) (h : w.leading.toNat + w.trailing.toNat < w.width.toNat) :
    writeInside difference w = .ok () { w with
      out := w.out.write (false :: bitsOf (Window.size w.width.toNat ⟨w.leading.toNat, w.trailing.toNat⟩)
        (difference.toNat / 2 ^ w.trailing.toNat)) } := by
  obtain ⟨size, hsize, hsizeof⟩ := sizeOf_eq (s := { w with out := w.out.writeBit false }) h
  have hle := (isWidth w).le
  have hplaces : w.trailing.toNat < 64 := by omega
  unfold writeInside
  rw [get_bind, writeBit_bind, bind_of_eq hsize, bind_of_eq (shiftRight64_eq hplaces)]
  show EStateM.Result.ok () { w with
    out := (w.out.writeBit false).write (bitsOf size.toNat (difference >>> w.trailing.toUInt64).toNat) } = _
  rw [hsizeof, toNat_shiftRight difference hplaces]
  rfl

theorem writeFresh_eq (difference : UInt64) (h : leading.toNat + trailing.toNat < w.width.toNat) :
    writeFresh difference leading trailing w = .ok () { w with
      out := w.out.write (true :: (bitsOf (Chronicle.Gorilla.fieldWidth w.width.toNat) leading.toNat ++
        (bitsOf (Chronicle.Gorilla.fieldWidth w.width.toNat) (Chronicle.Gorilla.sizeField w.version w.width.toNat
          (Window.size w.width.toNat ⟨leading.toNat, trailing.toNat⟩)) ++
        bitsOf (Window.size w.width.toNat ⟨leading.toNat, trailing.toNat⟩) (difference.toNat / 2 ^ trailing.toNat))))
      leading := leading
      trailing := trailing } := by
  have hle := (isWidth w).le
  have hplaces : trailing.toNat < 64 := by omega
  obtain ⟨size, hsize, hsizeof⟩ := sizeOf_eq (s := { w with out := w.out.writeBit true }) h
  have hpos : 0 < size.toNat := by
    rw [hsizeof]
    show 0 < w.width.toNat - leading.toNat - trailing.toNat
    omega
  obtain ⟨field, hfield, hfieldof⟩ := sizeField_eq w.version (isWidth w) hpos
    (s := { w with out := (w.out.writeBit true).write (bitsOf (fieldWidth w.width).toNat leading.toUInt64.toNat) })
  unfold writeFresh
  rw [get_bind, writeBit_bind, bind_of_eq hsize, writeBits_bind, bind_of_eq hfield, writeBits_bind,
    bind_of_eq (shiftRight64_eq hplaces)]
  show EStateM.Result.ok () { w with
    out := (((w.out.writeBit true).write (bitsOf (fieldWidth w.width).toNat leading.toUInt64.toNat)).write
      (bitsOf (fieldWidth w.width).toNat field.toNat)).write (bitsOf size.toNat (difference >>> trailing.toUInt64).toNat)
    leading := leading
    trailing := trailing } = _
  rw [hfieldof, hsizeof, toNat_shiftRight difference hplaces, (isWidth w).fieldWidth_eq, UInt8.toNat_toUInt64,
    ← write_append, ← write_append]
  rfl

/-- A difference that has as many zeros on either side as the last window lies inside. -/
theorem fits_iff {window : Window} (hwindow : WindowViews width w.leading w.trailing (some window)) :
    (w.leading ≤ leading ∧ w.trailing ≤ trailing) ↔ Window.fits ⟨leading.toNat, trailing.toNat⟩ window = true := by
  cases hwindow
  rw [UInt8.le_iff_toNat_le, UInt8.le_iff_toNat_le, Window.fits, decide_eq_true_iff]

/-- As long as there is no window, no difference lies inside one. -/
theorem not_fits_of_none (hwindow : WindowViews w.width w.leading w.trailing none) (hle : leading.toNat ≤ 64) :
    ¬ (w.leading ≤ leading ∧ w.trailing ≤ trailing) := by
  cases hwindow with
  | none hnone =>
    rintro ⟨hupper, -⟩
    rw [hnone, UInt8.le_iff_toNat_le] at hupper
    have hall : noWindow.toNat = 255 := rfl
    omega

/-- Behind a bit that says that there is a difference, it goes into the last window or into one of its own. -/
theorem writeCode_of_zeros (h0 : difference ≠ 0)
    (hzeros : zeros w.width difference { w with out := w.out.writeBit true } =
      .ok (leading, trailing) { w with out := w.out.writeBit true }) :
    writeCode difference w = (if w.leading ≤ leading ∧ w.trailing ≤ trailing then writeInside difference
      else writeFresh difference leading trailing) { w with out := w.out.writeBit true } := by
  rw [writeCode, if_neg h0, writeBit_bind, get_bind]
  exact bind_of_eq hzeros

theorem writeFresh_code (difference : UInt64) (h : leading.toNat + trailing.toNat < w.width.toNat) :
    writeFresh difference leading trailing { w with out := w.out.writeBit true } = .ok () { w with
      out := w.out.write ((Code.fresh ⟨leading.toNat, trailing.toNat⟩ (difference.toNat / 2 ^ trailing.toNat)).bits
        w.version w.width.toNat)
      leading := leading
      trailing := trailing } := by
  rw [writeFresh_eq (w := { w with out := w.out.writeBit true }) difference h, Code.bits]
  simp only [List.append_assoc]
  rfl

/-- A difference is written as the code for it, and its window is the one that the code leaves. -/
theorem writeCode_eq {window? : Option Window} (hwindow : WindowViews w.width w.leading w.trailing window?)
    (h : difference.toNat < 2 ^ w.width.toNat) :
    ∃ leading trailing, WindowViews w.width leading trailing
        ((Code.of w.width.toNat window? difference.toNat).window? window?) ∧
      writeCode difference w = .ok () { w with
        out := w.out.write ((Code.of w.width.toNat window? difference.toNat).bits w.version w.width.toNat)
        leading := leading
        trailing := trailing } := by
  have hzero : difference = 0 ↔ difference.toNat = 0 := UInt64.toNat_inj.symm
  by_cases h0 : difference.toNat = 0
  · refine ⟨w.leading, w.trailing, ?_, ?_⟩
    · rw [Code.of, if_pos h0]
      exact hwindow
    · rw [Code.of, if_pos h0, writeCode, if_pos (hzero.mpr h0)]
      rfl
  obtain ⟨leading, trailing, hzeros, haround⟩ := zeros_eq (s := { w with out := w.out.writeBit true }) (isWidth w) h0 h
  have hvalid : leading.toNat + trailing.toNat < w.width.toNat := by
    have hvalid := Window.valid_around h0 h
    rwa [haround] at hvalid
  rw [writeCode_of_zeros (fun hz => h0 (hzero.mp hz)) hzeros, Code.of, if_neg h0, haround]
  cases window? with
  | none =>
    have hle := (isWidth w).le
    rw [if_neg (not_fits_of_none hwindow (by omega))]
    exact ⟨leading, trailing, .some hvalid, writeFresh_code difference hvalid⟩
  | some window =>
    dsimp only
    by_cases hfits : Window.fits ⟨leading.toNat, trailing.toNat⟩ window = true
    · rw [if_pos ((fits_iff hwindow).mpr hfits), if_pos hfits]
      refine ⟨w.leading, w.trailing, hwindow, ?_⟩
      cases hwindow with
      | some hinside => exact writeInside_eq (w := { w with out := w.out.writeBit true }) difference hinside
    · rw [if_neg fun hle => hfits ((fits_iff hwindow).mp hle), if_neg hfits]
      exact ⟨leading, trailing, .some hvalid, writeFresh_code difference hvalid⟩

/-! ## Streams -/

/-- What a writer of words stands for: all the same, and a window that is two bytes. -/
structure Views (w : GorillaWriter) (e : Chronicle.Gorilla.Encoder) : Prop where
  version : w.version = e.version
  dataType : w.dataType = e.dataType
  out : w.out = e.out
  count : w.count = e.count
  previous : w.previous.toNat = e.previous
  previous_lt : e.previous < 2 ^ e.width
  window : WindowViews w.width w.leading w.trailing e.window?

variable {e : Chronicle.Gorilla.Encoder}

theorem Views.width_eq (h : Views w e) : w.width.toNat = e.width := by
  rw [toNat_width, h.dataType]
  rfl

theorem views_initial (version : GorillaVersion) (t : NumberType) :
    Views { version := version, dataType := t } { version := version, dataType := t } :=
  ⟨rfl, rfl, rfl, rfl, rfl, Nat.two_pow_pos _, .none rfl⟩

/-- A pattern is written, or refused with nothing changed. -/
theorem push_keeps (h : Views w e) {word : UInt64} (hword : word.toNat < 2 ^ e.width) :
    Keeps Views w (push word w) (e.push word.toNat) := by
  unfold push Chronicle.Gorilla.Encoder.push
  rw [get_bind, h.version, h.count]
  by_cases hfull : e.version = .v1 ∧ maxCount ≤ e.count
  · rw [if_pos hfull, if_pos hfull]
    rfl
  rw [if_neg hfull, if_neg hfull]
  by_cases hfirst : e.count = 0
  · rw [if_pos hfirst, if_pos hfirst]
    refine ⟨_, rfl, h.version, h.dataType, ?_, ?_, rfl, hword, h.window⟩
    · show w.out.write (bitsOf w.width.toNat word.toNat) = _
      rw [h.width_eq, h.out]
    · show w.count + 1 = 1
      rw [h.count, hfirst]
  · have hxor : (word ^^^ w.previous).toNat = word.toNat ^^^ e.previous := by
      rw [UInt64.toNat_xor, h.previous]
    have hdifference : (word ^^^ w.previous).toNat < 2 ^ w.width.toNat := by
      rw [hxor, h.width_eq]
      exact Nat.xor_lt_two_pow hword h.previous_lt
    obtain ⟨leading, trailing, hwindow, hcode⟩ := writeCode_eq h.window hdifference
    rw [hxor, h.width_eq] at hwindow hcode
    rw [if_neg hfirst, if_neg hfirst]
    refine ⟨_, bind_of_eq hcode, h.version, h.dataType, ?_, ?_, rfl, hword, hwindow⟩
    · show w.out.write _ = e.out.write _
      rw [h.version, h.out]
    · show w.count + 1 = e.count + 1
      rw [h.count]

/-- A value is written, or refused with nothing changed. -/
theorem encode_keeps (h : Views w e) {v : Value} (hv : v.dataType = .fixed (.number e.dataType)) :
    Keeps Views w (encode v w) (do e.push (← v.requireBits (.fixed (.number e.dataType)))) := by
  obtain ⟨bits, hbits, rfl⟩ := Value.exists_pattern hv
  show Keeps Views w ((Guarded.ofExcept _ >>= _) w) _
  rw [h.dataType]
  refine keeps_ofExcept_bind fun n hn => ?_
  rw [Value.requireBits_ofBits hbits] at hn
  cases hn
  have hword : (UInt64.ofNat bits).toNat = bits :=
    UInt64.toNat_ofNat_of_lt' (Nat.lt_of_lt_of_le hbits
      (Nat.pow_le_pow_right Nat.two_pos (FixedType.width_le (.number e.dataType))))
  have hlt : (UInt64.ofNat bits).toNat < 2 ^ e.width := by rwa [hword]
  have hpush := push_keeps h hlt
  rwa [hword] at hpush

/-- A reset leaves a new writer, whatever there was. -/
theorem reset_eq (w : GorillaWriter) : reset w = .ok () { version := w.version, dataType := w.dataType } := rfl

theorem reset_views (h : Views w e) : ∃ w', reset w = .ok () w' ∧ Views w' e.reset := by
  refine ⟨_, reset_eq w, ?_⟩
  rw [h.version, h.dataType]
  exact views_initial e.version e.dataType

theorem finish_eq (version : GorillaVersion) (w : GorillaWriter) :
    onOut (finish version) w =
      .ok (match version with
        | .v1 => w.out.finish.1
        | .v2 => w.out.finishWithTerminator.1) { w with out := .empty } := by
  cases version <;> rfl

theorem flush_views (h : Views w e) : ∃ w', flush w = .ok e.flush.1 w' ∧ Views w' e.flush.2 := by
  unfold flush Chronicle.Gorilla.Encoder.flush
  rw [get_bind, h.count]
  by_cases hnone : e.count = 0
  · rw [if_pos hnone, if_pos hnone]
    exact ⟨w, rfl, h⟩
  · rw [if_neg hnone, if_neg hnone, bind_of_eq (finish_eq w.version w), bind_of_eq (reset_eq _), h.version, h.dataType, h.out]
    exact ⟨_, rfl, views_initial e.version e.dataType⟩

end Machine.GorillaWriter

end Chronicle
