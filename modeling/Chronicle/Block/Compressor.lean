/-
  Chronicle.Block.Compressor — page bodies: how they are compressed, and Snappy blocks.

  Model.
  - A body is stored as it is or as a Snappy block (`compress`). Reading it back (`uncompress`) asks
    for the length that the page gives: a block that declares another one is not decompressed at
    all, and content of another length is an error.
  - A block is the length of its content and then elements that build the content from the left: a
    literal adds bytes of its own, a copy adds bytes that stand a given distance back, which may
    reach into what it adds itself. The length has at most five bytes. An element that reaches in
    front of the content, or past its length, makes the block invalid.
  - `Snappy.decompress?` reads any block, whoever wrote it. `Snappy.compress` looks for repetitions
    of at least four bytes, by a hash of the four, and writes the rest as literals.

  What pages need of blocks does not depend on the choices that a writer of blocks makes. So bodies
  use a `Snappy.Library`, of which the functions here are one; everything about pages is proved for
  any library that gives back what it was given (`Snappy.Library.Lossless`), and that this one does
  is proved as well (`Snappy.Library.lossless`, both in `Chronicle.Proofs.Block.Compressor`).
-/

import Chronicle.Wire.Varint

namespace Chronicle

inductive Compressor
  | uncompressed
  | snappy
  deriving DecidableEq

namespace Compressor

/-- Every compressor, in the order of the ids that page headers hold. -/
def all : List Compressor := [uncompressed, snappy]

def id : Compressor → Nat
  | uncompressed => 0
  | snappy => 1

def name : Compressor → String
  | uncompressed => "UNCOMPRESSED"
  | snappy => "SNAPPY"

/-- The id is the place in `all`. -/
theorem all_getElem?_id (c : Compressor) : all[c.id]? = some c := by
  cases c <;> rfl

end Compressor

end Chronicle

namespace Chronicle.Snappy

inductive Element
  | literal (bytes : Bytes)
  | copy (offset length : Nat)
  deriving DecidableEq

/-! ## Content -/

/-- Adds `length` bytes, each equal to the one `offset` back. -/
def copyBack (offset : Nat) : (length : Nat) → Array UInt8 → Option (Array UInt8)
  | 0, out => some out
  | length + 1, out =>
    if offset = 0 ∨ out.size < offset then none
    else
      match out[out.size - offset]? with
      | some b => copyBack offset length (out.push b)
      | none => none

/-- Adds what an element stands for, unless it reaches before the start of the content. -/
def Element.extend (out : Array UInt8) : Element → Option (Array UInt8)
  | literal bytes => some (out ++ bytes)
  | copy offset length => copyBack offset length out

def Element.length : Element → Nat
  | literal bytes => bytes.length
  | copy _ length => length

/-! ## Reading -/

def littleEndian : Bytes → Nat
  | [] => 0
  | b :: rest => b.toNat + 256 * littleEndian rest

def cut (count : Nat) (bytes : Bytes) : Option (Bytes × { rest : Bytes // rest.length ≤ bytes.length }) :=
  if count ≤ bytes.length then
    some (bytes.take count, ⟨bytes.drop count, by simp⟩)
  else none

/-- The element behind a tag. The length of a literal is in the tag if it is at most sixty,
    and else in one to four bytes of its own, which need not be as few as possible. -/
def element? (tag : UInt8) (bytes : Bytes) :
    Option (Element × { rest : Bytes // rest.length ≤ bytes.length }) :=
  let high := tag.toNat / 4
  match tag.toNat % 4 with
  | 0 =>
    if high < 60 then do
      let (content, rest) ← cut (high + 1) bytes
      return (.literal content, rest)
    else do
      let (length, ⟨rest, h⟩) ← cut (high - 59) bytes
      let (content, ⟨rest, h'⟩) ← cut (littleEndian length + 1) rest
      return (.literal content, ⟨rest, Nat.le_trans h' h⟩)
  | 1 => do
    let (low, rest) ← cut 1 bytes
    return (.copy (high / 8 * 256 + littleEndian low) (4 + high % 8), rest)
  | 2 => do
    let (offset, rest) ← cut 2 bytes
    return (.copy (littleEndian offset) (high + 1), rest)
  | _ => do
    let (offset, rest) ← cut 4 bytes
    return (.copy (littleEndian offset) (high + 1), rest)

def build (limit : Nat) (out : Array UInt8) (bytes : Bytes) : Option (Array UInt8) :=
  match bytes with
  | [] => some out
  | tag :: bytes =>
    match element? tag bytes with
    | none => none
    | some (e, ⟨rest, _⟩) =>
      if limit < out.size + e.length then none
      else
        match e.extend out with
        | some out => build limit out rest
        | none => none
termination_by bytes.length
decreasing_by simp only [List.length_cons]; omega

def maxHeaderBytes : Nat := 5

/-- The declared length of a content, and what follows it. A block without any byte declares
    no content. -/
def declaredLength? (block : Bytes) : Option (Nat × Bytes) :=
  if block.isEmpty then some (0, [])
  else
    match Varint.pull block with
    | .ok length rest =>
      if length < 2 ^ 32 ∧ block.length ≤ rest.length + maxHeaderBytes then some (length, rest) else none
    | .error _ _ => none

def decompress? (block : Bytes) : Option Bytes := do
  if block.isEmpty then none
  let (length, elements) ← declaredLength? block
  let out ← build length #[] elements
  if out.size = length then some out.toList else none

/-! ## Writing -/

def ofLittleEndian : (count : Nat) → Nat → Bytes
  | 0, _ => []
  | count + 1, n => UInt8.ofNat n :: ofLittleEndian count (n / 256)

/-- How many bytes the length of a literal takes, if it is not in the tag. -/
def lengthBytes (n : Nat) : Nat :=
  if n < 2 ^ 8 then 1 else if n < 2 ^ 16 then 2 else if n < 2 ^ 24 then 3 else 4

def Element.toBytes : Element → Bytes
  | literal bytes =>
    let n := bytes.length - 1
    if n < 60 then UInt8.ofNat (n * 4) :: bytes
    else UInt8.ofNat ((59 + lengthBytes n) * 4) :: ofLittleEndian (lengthBytes n) n ++ bytes
  | copy offset length => UInt8.ofNat ((length - 1) * 4 + 2) :: ofLittleEndian 2 offset

/-- How many bytes from `i` on are equal to those from `j` on, up to `limit`. -/
def matchLength (content : Array UInt8) (i j : Nat) : (limit : Nat) → Nat
  | 0 => 0
  | limit + 1 =>
    if i < content.size ∧ content[i]? = content[j]? then 1 + matchLength content (i + 1) (j + 1) limit
    else 0

def minMatch : Nat := 4

def maxMatch : Nat := 64

def maxOffset : Nat := 2 ^ 16 - 1

/-- The places in the content where four bytes were seen last, by a hash of the four. -/
abbrev Seen := Array Nat

namespace Seen

def size : Nat := 4096

def empty : Seen := Array.replicate size 0

def slot (content : Array UInt8) (i : Nat) : Nat :=
  let word := littleEndian ((List.range minMatch).map fun k => content[i + k]?.getD 0)
  word * 506832829 / 2 ^ 20 % size

end Seen

/-- How many bytes from place `i` on repeat those from an earlier place on. There are none
    if the places are too far apart for a copy. -/
def repeated (content : Array UInt8) (place i : Nat) : Nat :=
  if place < i ∧ i - place ≤ maxOffset then matchLength content i place maxMatch else 0

def elementsFrom (content : Array UInt8) (seen : Seen) (i : Nat) : List Element :=
  if h : i < content.size then
    let slot := Seen.slot content i
    let place := seen[slot]?.getD 0
    let length := repeated content place i
    if hm : minMatch ≤ length then
      .copy (i - place) length :: elementsFrom content (seen.setIfInBounds slot i) (i + length)
    else .literal [content[i]] :: elementsFrom content (seen.setIfInBounds slot i) (i + 1)
  else []
termination_by content.size - i
decreasing_by
  · unfold minMatch at hm
    show content.size - (i + length) < content.size - i
    omega
  · omega

def joinLiterals : List Element → List Element
  | [] => []
  | .copy offset length :: rest => .copy offset length :: joinLiterals rest
  | .literal bytes :: rest =>
    match joinLiterals rest with
    | .literal more :: rest => .literal (bytes ++ more) :: rest
    | rest => .literal bytes :: rest

/-- No block need be longer than this for a content of the given length. -/
def maxBlockLength (length : Nat) : Nat := 32 + length + length / 6

def compress (content : Bytes) : Bytes :=
  Varint.encode content.length ++ (joinLiterals (elementsFrom content.toArray Seen.empty 0)).flatMap Element.toBytes

/-! ## Libraries -/

/-- What page bodies use of an implementation of Snappy blocks. -/
class Library where
  /-- A block with the given content, unless the content is too long. -/
  compress? : Bytes → Option Bytes
  /-- The length that a block declares for its content. -/
  declaredLength? : Bytes → Option Nat
  /-- The content of a block. -/
  decompress? : Bytes → Option Bytes

/-- Contents are refused if their blocks might not fit 32 bits. -/
instance : Library where
  compress? content := if maxBlockLength content.length < 2 ^ 32 then some (compress content) else none
  declaredLength? block := (declaredLength? block).map Prod.fst
  decompress? := decompress?

end Chronicle.Snappy

namespace Chronicle.Compressor

variable [Snappy.Library]

def compress : Compressor → Bytes → Except CodecError Bytes
  | uncompressed, body => .ok body
  | snappy, body =>
    match Snappy.Library.compress? body with
    | some block => .ok block
    | none => .error .compression

/-- The content of a Snappy block. It is not decompressed if it declares another length. -/
def expand (block : Bytes) (length : Nat) : Except CodecError Bytes :=
  match Snappy.Library.declaredLength? block with
  | none => .error .compression
  | some declared =>
    if declared ≠ length then .error (.malformed (.expandedLength declared length))
    else
      match Snappy.Library.decompress? block with
      | some body => .ok body
      | none => .error .compression

def uncompress (c : Compressor) (data : Bytes) (length : Nat) : Except CodecError Bytes := do
  let body ←
    match c with
    | uncompressed => .ok data
    | snappy => expand data length
  if body.length = length then .ok body else .error (.malformed (.bodyLength body.length length))

end Chronicle.Compressor
