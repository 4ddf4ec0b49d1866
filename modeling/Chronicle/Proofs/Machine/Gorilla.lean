/-
  Chronicle.Proofs.Machine.Gorilla — GORILLA on machine words gives the patterns that GORILLA gives.

  Either no window has been read, and then there is nothing to shift; or the zeros above and below it are fewer
  than the width, and then there are bits inside it and the shift is short enough (`WindowViews`). Both outlive
  a code that is broken off behind its window (`State.Views`).

  The two bits in front of a code are read as one number, up to the first zero (`onBits_readToClearBit`), and
  the steps behind a pattern are done in another order than without words. `Decoded` is what a code comes to in
  either case: the pattern and the window behind it, with the count as it was, which goes down only when the
  pattern is given out.
-/

import Chronicle.Machine.Gorilla
import Chronicle.Proofs.Machine.Feed

namespace Chronicle.Machine

open Guarded (minus_eq plus8_eq shiftLeft64_eq)

namespace Feed

variable {σ α β : Type}

theorem onBits_bind (m : Guarded BitSource α) (k : α → Guarded BitSource β) :
    (onBits (m >>= k) : Guarded (Feed σ) β) = onBits m >>= fun a => onBits (k a) := by
  funext f
  show onBits (EStateM.bind m k) f = EStateM.bind (onBits m) (fun a => onBits (k a)) f
  unfold onBits EStateM.bind
  dsimp only
  cases m ⟨f.reader, f.bytes⟩ with
  | ok a s => rfl
  | error h s => rfl

end Feed

namespace Gorilla

open Chronicle.Gorilla (Window)

variable {frame : Frame} {width : UInt8}

/-! ## Counts and windows -/

def IsWidth (width : UInt8) : Prop := width = 32 ∨ width = 64

theorem IsWidth.le (h : IsWidth width) : width.toNat ≤ 64 := by
  rcases h with rfl | rfl <;> decide

theorem IsWidth.pos (h : IsWidth width) : 0 < width.toNat := by
  rcases h with rfl | rfl <;> decide

theorem IsWidth.fieldWidth_eq (h : IsWidth width) : (fieldWidth width).toNat = Chronicle.Gorilla.fieldWidth width.toNat := by
  rcases h with rfl | rfl <;> rfl

theorem IsWidth.fieldWidth_le (h : IsWidth width) : (fieldWidth width).toNat ≤ 6 := by
  rcases h with rfl | rfl <;> decide

def pullNumber : GorillaVersion → Reading Bytes Nat
  | .v1 => Bytes.pullNat 4
  | .v2 => Chronicle.Varint.pull

theorem matches_readNumber {bound : Nat} (version : GorillaVersion) {s s' : Bytes} (h : SameBytes bound s s') :
    Matches (fun w n t t' => w.toNat = n ∧ SameBytes bound t t') (SameBytes bound) (readNumber version s)
      (pullNumber version s') := by
  cases version with
  | v1 =>
    have hread : readNumber .v1 = (do return UInt64.ofNat (Bytes.toNat (← (do ensure 4; takeBytes 4)))) := by
      simp only [readNumber, bind_assoc]
    rw [hread]
    refine (matches_ensure_takeBytes 4 h).map ?_
    rintro b _ t t' ⟨rfl, hlength, ht⟩
    have hlt := Bytes.toNat_lt b
    rw [hlength] at hlt
    exact ⟨Nat.mod_eq_of_lt (Nat.lt_trans hlt (by decide)), ht⟩
  | v2 => exact Varint.matches_read h

theorem matches_readCount {bound : Nat} (version : GorillaVersion) {s s' : Bytes} (h : SameBytes bound s s') :
    Matches (fun w n t t' => w.toNat = n ∧ SameBytes bound t t') (SameBytes bound) (readCount version s)
      (Chronicle.Gorilla.pullCount version s') := by
  have hcheck {w : UInt64} {n : Nat} {t t' : Bytes} (hn : w.toNat = n) (ht : SameBytes bound t t') :
      Matches (fun w n t t' => w.toNat = n ∧ SameBytes bound t t') (SameBytes bound)
        ((do
          if w = 0 then Guarded.fail (.malformed .zeroCount)
          return w : Guarded Bytes UInt64) t)
        ((do
          if n = 0 then throw (.malformed .zeroCount)
          return n : Reading Bytes Nat) t') := by
    refine .ite (by rw [← hn, ← UInt64.toNat_inj]; rfl) ?_ ?_
    · intro _
      exact .error ht
    · intro _
      exact matches_pure ⟨hn, ht⟩
  cases version with
  | v1 => exact (matches_readNumber .v1 h).bind fun _ _ _ _ h => hcheck h.1 h.2
  | v2 => exact (matches_readNumber .v2 h).bind fun _ _ _ _ h => hcheck h.1 h.2

theorem ofSizeField_eq {σ : Type} (version : GorillaVersion) (hw : IsWidth width) {field : UInt64} (hfield : field.toNat < 2 ^ 6)
    (s : σ) : ∃ size, ofSizeField version width field s = .ok size s ∧
      size.toNat = Chronicle.Gorilla.ofSizeField version width.toNat field.toNat ∧ 0 < size.toNat := by
  have hbyte : field.toUInt8.toNat = field.toNat := by
    rw [UInt64.toNat_toUInt8]
    exact Nat.mod_eq_of_lt (Nat.lt_trans hfield (by decide))
  cases version with
  | v1 =>
    by_cases hzero : field = 0
    · subst hzero
      exact ⟨width, rfl, rfl, hw.pos⟩
    · have hne : field.toNat ≠ 0 := fun h => hzero (UInt64.toNat_inj.mp h)
      refine ⟨field.toUInt8, ?_, ?_, ?_⟩
      · unfold ofSizeField
        dsimp only
        rw [if_neg hzero]
        rfl
      · unfold Chronicle.Gorilla.ofSizeField
        dsimp only
        rw [if_neg hne, hbyte]
      · omega
  | v2 =>
    have hsum : field.toUInt8.toNat + (1 : UInt8).toNat < 2 ^ 8 := by
      rw [hbyte]
      exact Nat.lt_of_lt_of_le (Nat.succ_lt_succ hfield) (by decide)
    have hsize : (field.toUInt8 + 1).toNat = field.toNat + 1 := by
      rw [UInt8.toNat_add, Nat.mod_eq_of_lt hsum, hbyte]
      rfl
    exact ⟨field.toUInt8 + 1, plus8_eq hsum, hsize, by omega⟩

theorem less?_of_le {a b : UInt8} (h : b.toNat ≤ a.toNat) : less? a b = some (a - b) :=
  if_pos (UInt8.le_iff_toNat_le.mpr h)

theorem less?_of_lt {a b : UInt8} (h : a.toNat < b.toNat) : less? a b = none :=
  if_neg fun hle => Nat.not_le.mpr h (UInt8.le_iff_toNat_le.mp hle)

theorem toNat_sub {a b : UInt8} (h : b.toNat ≤ a.toNat) : (a - b).toNat = a.toNat - b.toNat :=
  UInt8.toNat_sub_of_le _ _ (UInt8.le_iff_toNat_le.mpr h)

/-- A width less two parts of it that fit. -/
theorem less?_less? {a b : UInt8} (h : a.toNat + b.toNat ≤ width.toNat) :
    ∃ rest, (less? width a >>= (less? · b)) = some rest ∧ rest.toNat = width.toNat - a.toNat - b.toNat := by
  have ha := toNat_sub (a := width) (b := a) (by omega)
  refine ⟨width - a - b, ?_, ?_⟩
  · rw [less?_of_le (by omega), Option.bind_eq_bind, Option.bind_some, less?_of_le (by omega)]
  · rw [toNat_sub (by omega), ha]

theorem less?_less?_of_lt {a b : UInt8} (h : width.toNat < a.toNat + b.toNat) : (less? width a >>= (less? · b)) = none := by
  by_cases ha : a.toNat ≤ width.toNat
  · have hrest := toNat_sub ha
    rw [less?_of_le ha, Option.bind_eq_bind, Option.bind_some, less?_of_lt (by omega)]
  · rw [less?_of_lt (Nat.lt_of_not_le ha)]
    rfl

theorem matches_readWindow (version : GorillaVersion) (hw : IsWidth width) {s : BitSource} {s' : Chronicle.BitSource}
    (h : s.Views frame s') :
    Matches (fun zeros window t t' => window = ⟨zeros.1.toNat, zeros.2.toNat⟩ ∧ zeros.1.toNat + zeros.2.toNat < width.toNat ∧
        t.Views frame t') (BitSource.Views frame) (readWindow version width s)
      (Chronicle.Gorilla.pullWindow version width.toNat s') := by
  have hfield := hw.fieldWidth_le
  unfold readWindow Chronicle.Gorilla.pullWindow
  rw [← hw.fieldWidth_eq]
  refine (BitSource.matches_readBits _ (by omega) h).bind ?_
  rintro w _ x x' ⟨rfl, hlt, hx⟩
  have hleading : w.toUInt8.toNat = w.toNat := by
    have := Nat.pow_le_pow_right (show 0 < 2 by decide) hfield
    rw [UInt64.toNat_toUInt8]
    exact Nat.mod_eq_of_lt (by omega)
  refine (BitSource.matches_readBits _ (by omega) hx).bind ?_
  rintro field _ y y' ⟨rfl, hfieldlt, hy⟩
  obtain ⟨size, hsize, hsizeof, hpos⟩ := ofSizeField_eq version hw
    (Nat.lt_of_lt_of_le hfieldlt (Nat.pow_le_pow_right (by decide) hfield)) y
  rw [bind_of_eq hsize]
  dsimp only
  rw [← hsizeof, ← hleading]
  by_cases hwide : width.toNat < w.toUInt8.toNat + size.toNat
  · rw [if_pos hwide, less?_less?_of_lt hwide]
    exact .error hy
  · obtain ⟨trailing, htrailing, hrest⟩ := less?_less? (Nat.le_of_not_lt hwide)
    rw [if_neg hwide, htrailing]
    refine .ok ⟨?_, ?_, hy⟩
    · rw [hrest, Nat.sub_sub]
    · show w.toUInt8.toNat + trailing.toNat < width.toNat
      omega

/-! ## Patterns -/

inductive WindowViews (width leading trailing : UInt8) : Option Window → Prop
  | none (h : leading = noWindow) : WindowViews width leading trailing none
  | some (h : leading.toNat + trailing.toNat < width.toNat) :
      WindowViews width leading trailing (some ⟨leading.toNat, trailing.toNat⟩)

/-- Where a decoder stands. Before the first pattern nothing is known but the count. -/
inductive State.Views (width : UInt8) : State → Chronicle.Gorilla.State → Prop
  | start : Views width {} .start
  | counted (n : UInt64) : Views width { remaining? := some n } (.counted n.toNat)
  | following {s : State} (n : UInt64) {window? : Option Window} (hremaining : s.remaining? = some n)
      (hstarted : s.started = true) (hwindow : WindowViews width s.leading s.trailing window?) :
      Views width s (.following n.toNat s.stored.toNat window?)

variable {f : Feed State} {g : Chronicle.Feed Chronicle.Gorilla.State}

/-- The bits inside a window, shifted to their places. -/
theorem matches_combine (hw : IsWidth width) (hwindow : f.state.leading.toNat + f.state.trailing.toNat < width.toNat)
    (h : f.Views (State.Views width) frame g) :
    Matches (fun _ d f' g' => (∃ x : UInt64, x.toNat = d ∧ f'.state = { f.state with stored := f.state.stored ^^^ x }) ∧
        f'.source.Views frame g'.source) (Feed.Views (State.Views width) frame) (combine width f)
      (Chronicle.Feed.onBits (Chronicle.Gorilla.pullDifference width.toNat ⟨f.state.leading.toNat, f.state.trailing.toNat⟩) g) := by
  have hle := hw.le
  obtain ⟨size, hsize, hrest⟩ := less?_less? (Nat.le_of_lt hwindow)
  have hpos : 0 < size := UInt8.lt_iff_toNat_lt.mpr (show 0 < size.toNat by omega)
  have hbits := BitSource.matches_readBits size (by omega) h.source
  rw [hrest] at hbits
  have hshifted : Matches (fun w d t t' => w.toNat * 2 ^ f.state.trailing.toNat = d ∧
        w.toNat < 2 ^ (width.toNat - f.state.leading.toNat - f.state.trailing.toNat) ∧ t.Views frame t') (BitSource.Views frame)
      (BitSource.readBits size f.source)
      (Chronicle.Gorilla.pullDifference width.toNat ⟨f.state.leading.toNat, f.state.trailing.toNat⟩ g.source) := by
    refine hbits.map_right ?_
    rintro w n t t' ⟨rfl, hlt, ht⟩
    exact ⟨rfl, hlt, ht⟩
  unfold combine
  rw [get_bind]
  dsimp only
  rw [hsize, Option.filter_some, if_pos (decide_eq_true hpos)]
  refine (Feed.matches_onBits h hshifted).bind_left ?_
  rintro w d x y ⟨⟨hw', hlt, hs⟩, -, -⟩
  have hshift : f.state.trailing.toNat < 64 := by omega
  have hroom : w.toNat * 2 ^ f.state.trailing.toNat < 2 ^ 64 := by
    calc w.toNat * 2 ^ f.state.trailing.toNat
        < 2 ^ (width.toNat - f.state.leading.toNat - f.state.trailing.toNat) * 2 ^ f.state.trailing.toNat :=
          Nat.mul_lt_mul_of_pos_right hlt (Nat.two_pow_pos _)
      _ = 2 ^ (width.toNat - f.state.leading.toNat - f.state.trailing.toNat + f.state.trailing.toNat) := (Nat.pow_add ..).symm
      _ ≤ 2 ^ 64 := Nat.pow_le_pow_right (by decide) (by omega)
  rw [bind_of_eq (shiftLeft64_eq hshift)]
  refine ⟨(), _, rfl, ⟨w <<< f.state.trailing.toUInt64, ?_, rfl⟩, hs⟩
  rw [UInt64.toNat_shiftLeft, UInt8.toNat_toUInt64, Nat.mod_eq_of_lt hshift, Nat.shiftLeft_eq, Nat.mod_eq_of_lt hroom, hw']

/-- Two bits, of which the second one is read only behind a one. -/
theorem onBits_readToClearBit :
    (Feed.onBits (BitSource.readToClearBit 0 2) : Guarded (Feed State) UInt8) = (do
      if ← Feed.onBits BitSource.readBit then
        if ← Feed.onBits BitSource.readBit then return 3 else return 2
      else return 0) := by
  unfold BitSource.readToClearBit
  rw [Feed.onBits_bind]
  congr 1
  funext differs
  cases differs with
  | false => rfl
  | true =>
    rw [if_pos rfl, if_pos rfl]
    unfold BitSource.readToClearBit
    rw [Feed.onBits_bind]
    congr 1
    funext isFresh
    cases isFresh <;> rfl

/-- The pattern and the window behind a code, with the count as it was. -/
structure Decoded (width : UInt8) (frame : Frame) (n : UInt64) (p : Nat × Option Window) (f : Feed State)
    (g : Chronicle.Feed Chronicle.Gorilla.State) : Prop where
  remaining : f.state.remaining? = some n
  started : f.state.started = true
  stored : f.state.stored.toNat = p.1
  window : WindowViews width f.state.leading f.state.trailing p.2
  source : f.source.Views frame g.source

theorem matches_combine_some (hw : IsWidth width) {n : UInt64} (hn : f.state.remaining? = some n)
    (hstarted : f.state.started = true) (hwindow : f.state.leading.toNat + f.state.trailing.toNat < width.toNat)
    (h : f.Views (State.Views width) frame g) :
    Matches (fun _ p => Decoded width frame n p) (Feed.Views (State.Views width) frame) (combine width f)
      ((do return (f.state.stored.toNat ^^^ (← Chronicle.Feed.onBits
          (Chronicle.Gorilla.pullDifference width.toNat ⟨f.state.leading.toNat, f.state.trailing.toNat⟩)),
        some ⟨f.state.leading.toNat, f.state.trailing.toNat⟩) : Reading (Chronicle.Feed Chronicle.Gorilla.State) (Nat × Option Window)) g) := by
  refine (matches_combine hw hwindow h).map_right ?_
  rintro _ d x y ⟨⟨difference, rfl, hx⟩, hs⟩
  refine ⟨?_, ?_, ?_, ?_, hs⟩ <;> rw [hx]
  · exact hn
  · exact hstarted
  · exact UInt64.toNat_xor ..
  · exact .some hwindow

theorem combine_of_noWindow (hw : IsWidth width) (hleading : f.state.leading = noWindow) :
    combine width f = .error (.failed (.malformed .windowMissing)) f := by
  have hlt : width.toNat < f.state.leading.toNat := by
    rw [hleading]
    exact Nat.lt_of_le_of_lt hw.le (by decide)
  unfold combine
  rw [get_bind, less?_less?_of_lt (Nat.lt_of_lt_of_le hlt (Nat.le_add_right _ _))]
  rfl

theorem matches_readCode (version : GorillaVersion) (hw : IsWidth width) {n : UInt64} {window? : Option Window}
    (hn : f.state.remaining? = some n) (hstarted : f.state.started = true)
    (hwindow : WindowViews width f.state.leading f.state.trailing window?)
    (hg : g.state = .following n.toNat f.state.stored.toNat window?) (h : f.source.Views frame g.source) :
    Matches (fun _ p => Decoded width frame n p) (Feed.Views (State.Views width) frame) (readCode version width f)
      (Chronicle.Gorilla.pullFollowing version width.toNat n.toNat f.state.stored.toNat window? g) := by
  have hviews {x : Feed State} {y : Chronicle.Feed Chronicle.Gorilla.State} (hx : x.state = f.state) (hy : y.state = g.state)
      (hs : x.source.Views frame y.source) : x.Views (State.Views width) frame y := by
    refine ⟨?_, hs⟩
    rw [hx, hy, hg]
    exact .following n hn hstarted hwindow
  unfold readCode Chronicle.Gorilla.pullFollowing
  rw [onBits_readToClearBit]
  simp only [bind_assoc]
  refine (Feed.matches_onBits (hviews rfl rfl h) (BitSource.matches_readBit h)).bind ?_
  rintro differs _ x y ⟨⟨rfl, hxy⟩, hx, hy⟩
  cases differs with
  | false =>
    refine .ok ⟨?_, ?_, ?_, ?_, hxy⟩ <;> rw [hx]
    · exact hn
    · exact hstarted
    · exact hwindow
  | true =>
    simp only [if_true, bind_assoc]
    rw [if_neg (by decide)]
    refine (Feed.matches_onBits (hviews hx hy hxy) (BitSource.matches_readBit hxy)).bind ?_
    rintro isFresh _ z v ⟨⟨rfl, hzv⟩, hz, hv⟩
    have hz : z.state = f.state := hz.trans hx
    have hv : v.state = g.state := hv.trans hy
    cases isFresh with
    | true =>
      -- A new window is kept, whether or not there are bits to go with it.
      simp only [if_true, pure_bind]
      refine (Feed.matches_onBits (hviews hz hv hzv) (matches_readWindow version hw hzv)).bind ?_
      rintro ⟨leading, trailing⟩ _ ⟨state, reader, bytes⟩ b ⟨⟨rfl, hlt, hab⟩, ha, -⟩
      obtain rfl : state = f.state := ha.trans hz
      exact matches_combine_some hw
        (f := ⟨{ f.state with leading := leading, trailing := trailing }, reader, bytes⟩)
        (g := { b with state := .following n.toNat f.state.stored.toNat (some ⟨leading.toNat, trailing.toNat⟩) })
        hn hstarted hlt ⟨.following n hn hstarted (.some hlt), hab⟩
    | false =>
      rw [if_neg (by decide), if_neg (by decide), pure_bind, if_neg (by decide), if_pos rfl]
      cases hwindow with
      | none hleading =>
        rw [combine_of_noWindow hw (by rw [hz]; exact hleading)]
        exact .error (hviews hz hv hzv)
      | some hlt =>
        have hviews' := hviews hz hv hzv
        rw [← hz] at hn hstarted hlt
        have hcombine := matches_combine_some hw hn hstarted hlt hviews'
        rw [hz] at hcombine
        exact hcombine

theorem matches_remaining (version : GorillaVersion) (h : f.Views (State.Views width) frame g) :
    Matches (fun n _ f' g' => f'.state.remaining? = some n ∧ f'.Views (State.Views width) frame g')
      (Feed.Views (State.Views width) frame) (remaining version f) (Chronicle.Gorilla.start version g) := by
  obtain ⟨state, reader, bytes⟩ := f
  obtain ⟨state', reader', bytes'⟩ := g
  have hstate : State.Views width state state' := h.state
  unfold remaining Chronicle.Gorilla.start
  rw [get_bind, get_bind]
  cases hstate with
  | start =>
    refine (Feed.matches_onBytes h (matches_readCount version h.bytes)).bind ?_
    rintro n _ ⟨state, reader, bytes⟩ y ⟨rfl, hx, -, hxy⟩
    cases hx
    exact .ok ⟨rfl, .counted n, hxy.source⟩
  | counted n => exact .ok ⟨rfl, h⟩
  | following n hremaining hstarted hwindow =>
    dsimp only
    rw [hremaining]
    exact .ok ⟨hremaining, h⟩

theorem matches_readFirst (hw : IsWidth width) {n : UInt64} (hn : f.state = { remaining? := some n })
    (h : f.Views (State.Views width) frame g) :
    Matches (fun _ p f' g' => f'.state = { remaining? := some n, started := true, stored := f'.state.stored } ∧
        f'.state.stored.toNat = p ∧ f'.source.Views frame g'.source) (Feed.Views (State.Views width) frame) (readFirst width f)
      (Chronicle.Feed.onBits (Chronicle.BitSource.pullBits width.toNat) g) := by
  refine (Feed.matches_onBits h (BitSource.matches_readBits _ hw.le h.source)).bind_left ?_
  rintro value _ x y ⟨⟨rfl, -, hxy⟩, hx, -⟩
  refine ⟨(), _, rfl, ?_, rfl, hxy⟩
  show ({ x.state with stored := value, started := true } : State) = _
  rw [hx, hn]

def finish (n : UInt64) : Guarded (Feed State) UInt64 := do
  let n ← Guarded.minus n 1
  modify fun f => { f with state := { f.state with remaining? := some n } }
  return (← get).state.stored

def keep (left : Nat) (p : Nat × Option Window) : Reading (Chronicle.Feed Chronicle.Gorilla.State) Nat := do
  Chronicle.Feed.setState (.following left p.1 p.2)
  return p.1

theorem matches_finish {n : UInt64} {left : Nat} (hleft : n.toNat = left + 1) {p : Nat × Option Window}
    (h : Decoded width frame n p f g) :
    Matches (fun v n f' g' => v.toNat = n ∧ f'.Views (State.Views width) frame g') (Feed.Views (State.Views width) frame)
      (finish n f) (keep left p g) := by
  have hone : (1 : UInt64) ≤ n := by
    rw [UInt64.le_iff_toNat_le, hleft]
    exact Nat.le_add_left 1 left
  have hrest : left = (n - 1).toNat := by
    rw [UInt64.toNat_sub_of_le _ _ hone, hleft]
    rfl
  unfold finish
  rw [bind_of_eq (minus_eq hone)]
  refine .ok ⟨h.stored, ?_, h.source⟩
  show State.Views width { f.state with remaining? := some (n - 1) } (.following left p.1 p.2)
  rw [← h.stored, hrest]
  exact .following (s := { f.state with remaining? := some (n - 1) }) (n - 1) rfl h.started h.window

theorem matches_next (version : GorillaVersion) (hw : IsWidth width) (h : f.Views (State.Views width) frame g) :
    Matches (fun v n f' g' => v.toNat = n ∧ f'.Views (State.Views width) frame g') (Feed.Views (State.Views width) frame)
      (next version width f) (Chronicle.Gorilla.next version width.toNat g) := by
  refine (matches_remaining version h).bind ?_
  rintro n _ ⟨state, reader, bytes⟩ ⟨state', reader', bytes'⟩ ⟨hn, hxy⟩
  have hstate : State.Views width state state' := hxy.state
  by_cases hzero : n = 0
  · subst hzero
    cases hstate with
    | start => cases hn
    | counted m =>
      cases hn
      exact .error hxy
    | following m hremaining hstarted hwindow =>
      cases hremaining.symm.trans hn
      exact .error hxy
  · obtain ⟨left, hleft⟩ : ∃ left, n.toNat = left + 1 := Nat.exists_eq_succ_of_ne_zero fun h => hzero (UInt64.toNat_inj.mp h)
    rw [if_neg hzero]
    cases hstate with
    | start => cases hn
    | counted m =>
      cases hn
      rw [hleft] at hxy ⊢
      show Matches _ _ ((readFirst width >>= fun _ => finish n) _)
        ((Chronicle.Feed.onBits (Chronicle.BitSource.pullBits width.toNat) >>= fun value => keep left (value, none)) _)
      refine (matches_readFirst hw rfl hxy).bind ?_
      rintro _ p x y ⟨hx, hp, hs⟩
      refine matches_finish hleft ⟨?_, ?_, hp, ?_, hs⟩ <;> rw [hx]
      exact .none rfl
    | following m hremaining hstarted hwindow =>
      cases hremaining.symm.trans hn
      obtain ⟨_, _, stored, leading, trailing⟩ := state
      cases hstarted
      have hcode := matches_readCode version hw hremaining rfl hwindow rfl hxy.source
      rw [hleft] at hcode ⊢
      exact hcode.bind fun _ _ _ _ hp => matches_finish hleft hp

theorem hasNext_eq (h : f.Views (State.Views width) frame g) :
    hasNext f.state f.bytes = Chronicle.Gorilla.hasNext g.state g.bytes := by
  obtain ⟨state, reader, bytes⟩ := f
  obtain ⟨state', reader', bytes'⟩ := g
  have hstate : State.Views width state state' := h.state
  have hbytes : bytes' = bytes := h.bytes.1
  subst hbytes
  cases hstate with
  | start => rfl
  | counted n => exact decide_eq_decide.mpr UInt64.lt_iff_toNat_lt
  | following n hremaining _ _ =>
    unfold hasNext
    dsimp only
    rw [hremaining]
    exact decide_eq_decide.mpr UInt64.lt_iff_toNat_lt

end Gorilla

end Chronicle.Machine
