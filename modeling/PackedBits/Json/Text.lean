/-!
# Strings and numbers in JSON

The two lexemes of JSON that take some reading.  Text is a list of UTF-8 bytes.

The body of a string ends at the first quote that is not escaped.  Finding that end needs only the
shape of the escapes (`bodyLength`).  Reading the string needs their meaning as well: an escape by
number is a UTF-16 unit, and the unit that opens a surrogate pair has to be followed by the one that
closes it (`decodeBody`).

A number is divided into its parts (`NumberParts`).  It has to have digits after the sign, after the
point and after the exponent's sign, and no zero in front of other digits.
-/

namespace PackedBits.Json

/-- Why a text is not the value it should be. -/
inductive Error where
  /-- The text ends too early. -/
  | ends
  /-- The text is not JSON. -/
  | malformed
  /-- The text is JSON, but not for such a value. -/
  | mismatch
  deriving DecidableEq, Repr

/-- The byte of an ASCII character. -/
def byte (c : Char) : UInt8 :=
  c.val.toUInt8

/-! ### Strings -/

/-- The value of a hexadecimal digit. -/
def hexDigit? (b : UInt8) : Option Nat :=
  if byte '0' ≤ b ∧ b ≤ byte '9' then some (b - byte '0').toNat
  else if byte 'a' ≤ b ∧ b ≤ byte 'f' then some ((b - byte 'a').toNat + 10)
  else if byte 'A' ≤ b ∧ b ≤ byte 'F' then some ((b - byte 'A').toNat + 10)
  else none

/-- The UTF-16 unit written as four hexadecimal digits. -/
def hexUnit? (a b c d : UInt8) : Option Nat := do
  let a ← hexDigit? a
  let b ← hexDigit? b
  let c ← hexDigit? c
  let d ← hexDigit? d
  return ((a * 16 + b) * 16 + c) * 16 + d

/-- The byte that a one-letter escape stands for. -/
def escaped? (b : UInt8) : Option UInt8 :=
  if b = byte '"' ∨ b = byte '\\' ∨ b = byte '/' then some b
  else if b = byte 'b' then some 0x08
  else if b = byte 'f' then some 0x0c
  else if b = byte 'n' then some 0x0a
  else if b = byte 'r' then some 0x0d
  else if b = byte 't' then some 0x09
  else none

/-- The length of the body of a string, closing quote included. -/
def bodyLength : List UInt8 → Except Error Nat
  | [] => .error .ends
  | [b] =>
    if b = byte '"' then .ok 1
    else if b = byte '\\' ∨ 0x20 ≤ b then .error .ends
    else .error .malformed
  | b :: e :: rest =>
    if b = byte '"' then .ok 1
    else if b = byte '\\' then
      if e = byte 'u' then
        match rest with
        | a :: b :: c :: d :: rest =>
          if (hexUnit? a b c d).isSome then (bodyLength rest).map (· + 6) else .error .malformed
        | _ => .error .ends
      else if (escaped? e).isSome then (bodyLength rest).map (· + 2)
      else .error .malformed
    else if 0x20 ≤ b then (bodyLength (e :: rest)).map (· + 1)
    else .error .malformed

/-- The first four bytes as a UTF-16 unit, and the rest. -/
def takeUnit : List UInt8 → Except Error (Nat × List UInt8)
  | a :: b :: c :: d :: rest =>
    match hexUnit? a b c d with
    | some unit => .ok (unit, rest)
    | none => .error .malformed
  | _ => .error .ends

/-- The code point of an escape by number, of which the first letter has been read, and the rest. -/
def takeCodePoint (s : List UInt8) : Except Error (Nat × List UInt8) := do
  let (unit, rest) ← takeUnit s
  if 0xdc00 ≤ unit ∧ unit ≤ 0xdfff then
    throw .malformed
  else if unit < 0xd800 ∨ 0xdbff < unit then
    return (unit, rest)
  else
    match rest with
    | [] => throw .ends
    | b :: rest =>
      if b ≠ byte '\\' then throw .malformed
      match rest with
      | [] => throw .ends
      | u :: rest =>
        if u ≠ byte 'u' then throw .malformed
        let (low, rest) ← takeUnit rest
        if 0xdc00 ≤ low ∧ low ≤ 0xdfff then
          return (0x10000 + (unit - 0xd800) * 0x400 + (low - 0xdc00), rest)
        else
          throw .malformed

/-- Reads the body of a string, up to its closing quote, in at most `fuel` steps. -/
def decodeBodyIn : Nat → List UInt8 → Except Error (List UInt8)
  | 0, _ => .error .ends
  | _ + 1, [] => .error .ends
  | fuel + 1, b :: rest =>
    if b = byte '"' then
      .ok []
    else if b = byte '\\' then
      match rest with
      | [] => .error .ends
      | e :: rest =>
        if e = byte 'u' then do
          let (codePoint, rest) ← takeCodePoint rest
          let more ← decodeBodyIn fuel rest
          return (String.singleton (Char.ofNat codePoint)).toUTF8.toList ++ more
        else
          match escaped? e with
          | some c => (decodeBodyIn fuel rest).map (c :: ·)
          | none => .error .malformed
    else if 0x20 ≤ b then
      (decodeBodyIn fuel rest).map (b :: ·)
    else
      .error .malformed

/-- Reads the body of a string, up to its closing quote. Every step takes a byte, so as many steps
as there are bytes, and one for the end, are enough. -/
def decodeBody (s : List UInt8) : Except Error (List UInt8) :=
  decodeBodyIn (s.length + 1) s

/-! ### Numbers -/

/-- Whether a byte is a decimal digit. -/
def isDigit (b : UInt8) : Bool :=
  byte '0' ≤ b ∧ b ≤ byte '9'

/-- The value of a decimal digit. -/
def digitValue (b : UInt8) : Nat :=
  (b - byte '0').toNat

/-- The parts of a number. -/
structure NumberParts where
  negative : Bool
  whole : List UInt8
  fraction : Option (List UInt8) := none
  /-- Whether the exponent is negative, and its digits. -/
  exponent : Option (Bool × List UInt8) := none

namespace NumberParts

/-- The number that digits stand for. -/
def natOfDigits (digits : List UInt8) : Nat :=
  digits.foldl (fun n d => 10 * n + digitValue d) 0

/-- The first digits, as long as the number they stand for is below `limit`, and how many follow. -/
def leading (limit : Nat) (digits : List UInt8) : Nat × Nat :=
  let rec go (n : Nat) : List UInt8 → Nat × Nat
    | [] => (n, 0)
    | d :: rest =>
      if 10 * n + digitValue d < limit then go (10 * n + digitValue d) rest
      else (n, (d :: rest).length)
  go 0 digits

/-- Whether the number is a natural number without point and exponent. -/
def isPlain (p : NumberParts) : Bool :=
  p.fraction.isNone && p.exponent.isNone

/-- The power of ten by which the exponent multiplies. -/
def power (p : NumberParts) : Int :=
  match p.exponent with
  | none => 0
  | some (negative, digits) => if negative then -natOfDigits digits else natOfDigits digits

/-- A natural number to 53 significant bits, rounded to the nearest, and from the middle to an even
last bit. -/
def roundToDouble (n : Nat) : Nat :=
  let unit := 1 <<< (n.log2 + 1 - 53)
  let q := n / unit
  let r := n % unit
  if unit < 2 * r ∨ (unit = 2 * r ∧ q % 2 = 1) then (q + 1) * unit else q * unit

/-- Whether the number is too large for a binary number with 53 significant bits and an exponent
below
1024. It is taken as `n · 10 ^ power`, with the digits of `n` cut off at 64 bits; both factors are
rounded, and a product from half a unit above the largest number on is too large. -/
def isHuge (p : NumberParts) : Bool :=
  let digits := p.whole ++ p.fraction.getD []
  let (n, cut) := leading (1 <<< 64) digits
  let power := p.power - (p.fraction.getD []).length + cut
  n ≠ 0 && (308 < power ||
    (0 ≤ power &&
      1 <<< 1024 - 1 <<< 970 ≤ roundToDouble n * roundToDouble (Nat.pow 10 power.toNat)))

end NumberParts

end PackedBits.Json
