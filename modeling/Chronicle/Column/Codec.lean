/-
  Chronicle.Column.Codec — the types of a column, its encodings, and which go together.

  A value is a number, a boolean or a text. Numbers and booleans have a bit pattern of fixed width
  (`FixedType`), a text has none; the encodings that work on bit patterns take their type from the
  subset that has one, so none of them has a case for texts.

  PLAIN writes any type, RLE any bit pattern, TS_2DIFF and GORILLA numbers only. A `Codec` is such a
  legal pair, so whatever is built for one needs no further check. `Codec.of?` finds a pair exactly
  where `DataType.encodings` lists one (`of?_isSome_iff`).

  Types and encodings have an id, under which headers name them, and a name, under which options do.
  An id is the place in the list of all of them (`all_getElem?_id`), so what a header names is found
  again, and an id beyond the list names nothing.
-/

namespace Chronicle

/-! ## Types -/

inductive NumberType
  | int32
  | int64
  | float
  | double
  deriving DecidableEq

inductive FixedType
  | boolean
  | number (t : NumberType)
  deriving DecidableEq

inductive DataType
  | fixed (t : FixedType)
  | text
  deriving DecidableEq

def NumberType.width : NumberType → Nat
  | .int32 | .float => 32
  | .int64 | .double => 64

def FixedType.width : FixedType → Nat
  | .boolean => 1
  | .number t => t.width

namespace DataType

@[match_pattern] abbrev boolean : DataType := .fixed .boolean
@[match_pattern] abbrev int32 : DataType := .fixed (.number .int32)
@[match_pattern] abbrev int64 : DataType := .fixed (.number .int64)
@[match_pattern] abbrev float : DataType := .fixed (.number .float)
@[match_pattern] abbrev double : DataType := .fixed (.number .double)

/-- Every type, in the order of the ids that page headers hold. -/
def all : List DataType := [boolean, int32, int64, float, double, text]

def id : DataType → Nat
  | boolean => 0
  | int32 => 1
  | int64 => 2
  | float => 3
  | double => 4
  | text => 5

def name : DataType → String
  | boolean => "BOOLEAN"
  | int32 => "INT32"
  | int64 => "INT64"
  | float => "FLOAT"
  | double => "DOUBLE"
  | text => "TEXT"

def width? : DataType → Option Nat
  | .fixed t => some t.width
  | .text => none

/-- The id is the place in `all`. -/
theorem all_getElem?_id (t : DataType) : all[t.id]? = some t := by
  rcases t with (_ | (_ | _ | _ | _)) | _ <;> rfl

end DataType

/-! ## Encodings -/

/-- The two layouts of a Gorilla stream. `v1` has a count of four bytes and is read byte by
    byte on demand; `v2` has a count of variable length and is closed by one byte more than
    its bits need. -/
inductive GorillaVersion
  | v1
  | v2
  deriving DecidableEq

inductive Encoding
  | plain
  | runLength
  | delta
  | gorilla (version : GorillaVersion)
  deriving DecidableEq

namespace Encoding

def all : List Encoding := [plain, runLength, delta, gorilla .v1, gorilla .v2]

def id : Encoding → Nat
  | plain => 0
  | runLength => 1
  | delta => 2
  | gorilla .v1 => 3
  | gorilla .v2 => 4

def name : Encoding → String
  | plain => "PLAIN"
  | runLength => "RLE"
  | delta => "TS_2DIFF"
  | gorilla .v1 => "GORILLA"
  | gorilla .v2 => "GORILLA_V2"

/-- The id is the place in `all`. -/
theorem all_getElem?_id (e : Encoding) : all[e.id]? = some e := by
  rcases e with _ | _ | _ | (_ | _) <;> rfl

end Encoding

/-- The encodings a type may use, the preferred ones first. -/
def DataType.encodings : DataType → List Encoding
  | .fixed .boolean => [.runLength, .plain]
  | .fixed (.number _) => [.runLength, .plain, .delta, .gorilla .v1, .gorilla .v2]
  | .text => [.plain]

/-- A type together with an encoding that it may use. -/
inductive Codec
  | plain (t : DataType)
  | runLength (t : FixedType)
  | delta (t : NumberType)
  | gorilla (version : GorillaVersion) (t : NumberType)
  deriving DecidableEq

namespace Codec

def dataType : Codec → DataType
  | plain t => t
  | runLength t => .fixed t
  | delta t => .fixed (.number t)
  | gorilla _ t => .fixed (.number t)

def encoding : Codec → Encoding
  | plain _ => .plain
  | runLength _ => .runLength
  | delta _ => .delta
  | gorilla version _ => .gorilla version

def of? : DataType → Encoding → Option Codec
  | t, .plain => some (.plain t)
  | .fixed t, .runLength => some (.runLength t)
  | .fixed (.number t), .delta => some (.delta t)
  | .fixed (.number t), .gorilla version => some (.gorilla version t)
  | _, _ => none

theorem of?_dataType_encoding (c : Codec) : of? c.dataType c.encoding = some c := by
  cases c <;> rfl

theorem of?_eq_some_iff {t : DataType} {e : Encoding} {c : Codec} :
    of? t e = some c ↔ c.dataType = t ∧ c.encoding = e := by
  constructor
  · intro h
    unfold of? at h
    split at h <;> cases h <;> exact ⟨rfl, rfl⟩
  · rintro ⟨rfl, rfl⟩
    exact of?_dataType_encoding c

theorem of?_isSome_iff {t : DataType} {e : Encoding} : (of? t e).isSome ↔ e ∈ t.encodings := by
  rcases t with (_ | t) | _ <;> rcases e with _ | _ | _ | (_ | _) <;> simp [of?, DataType.encodings]

end Codec

end Chronicle
