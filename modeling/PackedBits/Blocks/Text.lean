import PackedBits.Blocks
import PackedBits.Json.Token

/-!
# The text of block shapes

A block shape is written as a JSON object with the two fields `block_size` and `overlap`.  When it
is read, the fields may stand in any order and between fields of other names, which are skipped; a
list of just the two numbers, the size first, is read as well.

The text is judged from its front.  A field that is given twice, a number that is not a count below
`countLimit`, or a value of another type is a mismatch as soon as it is met, whatever follows.
-/

namespace PackedBits

open Json (Token)

/-- A field of a block shape. -/
inductive BlockField where
  | size
  | overlap
  deriving DecidableEq, Repr

namespace BlockField

/-- The name of a field. -/
def name : BlockField → String
  | size => "block_size"
  | overlap => "overlap"

/-- The field of a given name, in UTF-8. -/
def ofName? (bytes : List UInt8) : Option BlockField :=
  [size, overlap].find? fun field => field.name.toUTF8.toList == bytes

end BlockField

namespace BlockShape

/-- The shape as text. -/
def toText (s : BlockShape) : String :=
  "\x7b\"" ++ BlockField.size.name ++ s!"\":{s.size},\"" ++ BlockField.overlap.name ++
    s!"\":{s.overlap}" ++ "\x7d"

/-- Why a token cannot begin a value of the type that is wanted: the token is wrong by itself, or it
begins a value of another type. -/
def refusal : Token → Json.Error
  | .string (.error e) _ => e
  | .number (.error e) => e
  | .number (.ok parts) => if parts.isHuge then .malformed else .mismatch
  | .word (.error e) => e
  | .string (.ok _) _ | .word (.ok _) | .openList | .openObject => .mismatch
  | .closeList | .closeObject | .comma | .colon | .junk => .malformed

/-- Reads a count, and gives the tokens behind it. -/
def takeCount : List Token → Except Json.Error (Nat × List Token)
  | [] => .error .ends
  | t :: ts =>
    match t with
    | .number (.ok parts) =>
      let n := Json.NumberParts.natOfDigits parts.whole
      if parts.isPlain ∧ ¬parts.negative ∧ n < countLimit then .ok (n, ts) else .error (refusal t)
    | _ => .error (refusal t)

/-- Passes over a colon. -/
def takeColon : List Token → Except Json.Error (List Token)
  | [] => .error .ends
  | .colon :: ts => .ok ts
  | _ :: _ => .error .malformed

/-- The fields that have been read. -/
structure Fields where
  size : Option Nat := none
  overlap : Option Nat := none

namespace Fields

/-- The value of a field. -/
def get (f : Fields) : BlockField → Option Nat
  | .size => f.size
  | .overlap => f.overlap

/-- Sets the value of a field. -/
def set (f : Fields) (field : BlockField) (n : Nat) : Fields :=
  match field with
  | .size => { f with size := some n }
  | .overlap => { f with overlap := some n }

/-- The shape, if both fields are there. -/
def shape? (f : Fields) : Except Json.Error BlockShape :=
  match f.size, f.overlap with
  | some size, some overlap => .ok { size, overlap }
  | _, _ => .error .mismatch

end Fields

/-- The name that is due at the next field, and the tokens behind it; nothing at the end of the
object. Between two fields there is a comma. -/
def takeName (first : Bool) : List Token → Except Json.Error (Option (List UInt8) × List Token)
  | [] => .error .ends
  | .closeObject :: ts => .ok (none, ts)
  | .comma :: .string (.ok name) _ :: ts =>
    if first then .error .malformed else .ok (some name, ts)
  | .comma :: .string (.error e) _ :: _ => .error (if first then .malformed else e)
  | [.comma] => .error (if first then .malformed else .ends)
  | .string (.ok name) _ :: ts => if first then .ok (some name, ts) else .error .malformed
  | .string (.error e) _ :: _ => .error (if first then e else .malformed)
  | _ :: _ => .error .malformed

/-- Reads the value of a field and takes it in. -/
def takeField (fields : Fields) (name : List UInt8) (ts : List Token) :
    Except Json.Error (Fields × List Token) := do
  match BlockField.ofName? name with
  | none =>
    let ts ← takeColon ts
    let ts ← Json.skip ts
    return (fields, ts)
  | some field =>
    if (fields.get field).isSome then throw .mismatch
    let ts ← takeColon ts
    let (n, ts) ← takeCount ts
    return (fields.set field n, ts)

/-- Reads the fields of an object, at most `fuel` of them. -/
def takeFieldsIn : Nat → Bool → Fields → List Token → Except Json.Error (Fields × List Token)
  | 0, _, _, _ => .error .ends
  | fuel + 1, first, fields, ts => do
    let (name?, ts) ← takeName first ts
    match name? with
    | none => return (fields, ts)
    | some name =>
      let (fields, ts) ← takeField fields name ts
      takeFieldsIn fuel false fields ts

/-- Reads the fields of an object. A field has at least one token. -/
def takeFields (ts : List Token) : Except Json.Error (Fields × List Token) :=
  takeFieldsIn (ts.length + 1) true {} ts

/-- Reads the two numbers of a list, up to its closing bracket. -/
def takePair (ts : List Token) : Except Json.Error (BlockShape × List Token) := do
  if let .closeList :: _ := ts then throw .mismatch
  let (size, ts) ← takeCount ts
  match ts with
  | [] => throw .ends
  | .closeList :: _ => throw .mismatch
  | .comma :: ts =>
    let (overlap, ts) ← takeCount ts
    match ts with
    | [] => throw .ends
    | .closeList :: ts => return ({ size, overlap }, ts)
    | _ :: _ => throw .malformed
  | _ :: _ => throw .malformed

/-- Reads a shape, and gives the tokens behind it. -/
def takeShape : List Token → Except Json.Error (BlockShape × List Token)
  | [] => .error .ends
  | .openList :: ts => takePair ts
  | .openObject :: ts => do
    let (fields, ts) ← takeFields ts
    return (← fields.shape?, ts)
  | t :: _ => .error (refusal t)

/-- Reads a shape from a text that holds nothing else. -/
def ofText (text : String) : Except Json.Error BlockShape := do
  let (shape, ts) ← takeShape (Json.tokens text.toUTF8.toList)
  if ts.isEmpty then return shape else throw .malformed

end BlockShape

end PackedBits
