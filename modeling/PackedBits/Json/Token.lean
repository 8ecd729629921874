import PackedBits.Json.Text

/-!
# Tokens of JSON

A JSON text is read as a list of tokens.  What each token is depends on its first byte alone, so the
tokens can be found before it is known which of them are wanted.  A token that is not complete is
the last of the list and carries its error: the error counts only if a reader comes that far.

A value that nobody wants is skipped (`skip`).  Skipping keeps the open brackets on a stack, so the
depth of nesting does not matter, and it is not particular about what it skips: strings may hold
half a surrogate pair and numbers may be of any size.
-/

namespace PackedBits.Json

/-! ### Tokens -/

/-- A token. -/
inductive Token where
  | openList
  | closeList
  | openObject
  | closeObject
  | comma
  | colon
  /-- A string: what it says, and whether it is well formed as far as skipping it goes. -/
  | string (text : Except Error (List UInt8)) (skipped : Except Error Unit)
  | number (parts : Except Error NumberParts)
  /-- One of the three words of JSON. -/
  | word (spelled : Except Error Unit)
  /-- What begins no token. -/
  | junk

/-- Whether a byte may stand between tokens. -/
def isBlank (b : UInt8) : Bool :=
  b = byte ' ' || b = byte '\t' || b = byte '\n' || b = byte '\r'

/-- The error of a text that should go on differently: it ends, or something else follows. -/
def unexpected : List UInt8 → Error
  | [] => .ends
  | _ :: _ => .malformed

/-- The digits in front, of which there has to be one, and the rest. -/
def takeDigits (s : List UInt8) : Except Error (List UInt8 × List UInt8) :=
  match s.takeWhile isDigit with
  | [] => .error (unexpected s)
  | digits => .ok (digits, s.dropWhile isDigit)

/-- The digits behind a point, if there is a point, and the rest. -/
def takeFraction (s : List UInt8) : Except Error (Option (List UInt8) × List UInt8) :=
  match s with
  | b :: rest =>
    if b = byte '.' then (takeDigits rest).map fun (digits, rest) => (some digits, rest)
    else .ok (none, s)
  | [] => .ok (none, s)

/-- The sign and the digits of an exponent, if there is one, and the rest. -/
def takeExponent (s : List UInt8) : Except Error (Option (Bool × List UInt8) × List UInt8) :=
  match s with
  | b :: rest =>
    if b = byte 'e' ∨ b = byte 'E' then
      match rest with
      | sign :: digits =>
        if sign = byte '-' then
          (takeDigits digits).map fun (digits, rest) => (some (true, digits), rest)
        else if sign = byte '+' then
          (takeDigits digits).map fun (digits, rest) => (some (false, digits), rest)
        else
          (takeDigits rest).map fun (digits, rest) => (some (false, digits), rest)
      | [] => .error .ends
    else
      .ok (none, s)
  | [] => .ok (none, s)

/-- A number behind its sign, and the rest. -/
def takeNumber (negative : Bool) (s : List UInt8) : Except Error (NumberParts × List UInt8) := do
  let (whole, rest) ← takeDigits s
  if whole.head? = some (byte '0') ∧ 1 < whole.length then throw .malformed
  let (fraction, rest) ← takeFraction rest
  let (exponent, rest) ← takeExponent rest
  return ({ negative, whole, fraction, exponent }, rest)

/-- What follows the first letter of a word. -/
def wordTail? (b : UInt8) : Option (List UInt8) :=
  if b = byte 'n' then some ("ull".toList.map byte)
  else if b = byte 't' then some ("rue".toList.map byte)
  else if b = byte 'f' then some ("alse".toList.map byte)
  else none

/-- The token that begins with the byte `b`, if it does, and how many of the bytes behind `b` belong
to it; none if it is not complete. -/
def tokenAt (b : UInt8) (rest : List UInt8) : Token × Option Nat :=
  if b = byte '[' then (.openList, some 0)
  else if b = byte ']' then (.closeList, some 0)
  else if b = byte '\x7b' then (.openObject, some 0)
  else if b = byte '\x7d' then (.closeObject, some 0)
  else if b = byte ',' then (.comma, some 0)
  else if b = byte ':' then (.colon, some 0)
  else if b = byte '"' then
    match bodyLength rest with
    | .ok n => (.string (decodeBody rest) (.ok ()), some n)
    | .error e => (.string (decodeBody rest) (.error e), none)
  else if b = byte '-' ∨ isDigit b then
    match if b = byte '-' then takeNumber true rest else takeNumber false (b :: rest) with
    | .ok (parts, behind) => (.number (.ok parts), some (rest.length - behind.length))
    | .error e => (.number (.error e), none)
  else
    match wordTail? b with
    | some letters =>
      if letters.isPrefixOf rest then (.word (.ok ()), some letters.length)
      else (.word (.error (if rest.isPrefixOf letters then .ends else .malformed)), none)
    | none => (.junk, none)

/-- The tokens of a text, up to the first that is not complete. -/
def tokens : List UInt8 → List Token
  | [] => []
  | b :: rest =>
    if isBlank b then
      tokens rest
    else
      match tokenAt b rest with
      | (token, some n) => token :: tokens (rest.drop n)
      | (token, none) => [token]
  termination_by s => s.length
  decreasing_by
    · simp
    · simp only [List.length_drop, List.length_cons]
      omega

/-! ### Skipping a value -/

/-- An open bracket. -/
inductive Bracket where
  | list
  | object
  deriving DecidableEq, Repr

/-- What is due next while a value is skipped. -/
inductive Due where
  | value
  | firstItem
  | firstKey
  | key
  | colon
  | separator
  deriving DecidableEq, Repr

/-- What is due behind a token where a value is due. -/
def afterValueToken (open? : List Bracket) : Token → Except Error (Due × List Bracket)
  | .openList => .ok (.firstItem, .list :: open?)
  | .openObject => .ok (.firstKey, .object :: open?)
  | .string _ skipped => skipped.map fun _ => (.separator, open?)
  | .number (.ok _) => .ok (.separator, open?)
  | .word spelled => spelled.map fun _ => (.separator, open?)
  | _ => .error .malformed

/-- What is due behind a token where a key is due. -/
def afterKeyToken (open? : List Bracket) : Token → Except Error (Due × List Bracket)
  | .string _ skipped => skipped.map fun _ => (.colon, open?)
  | _ => .error .malformed

/-- What is due behind a token. -/
def afterToken : Due → List Bracket → Token → Except Error (Due × List Bracket)
  | .value, open?, t => afterValueToken open? t
  | .firstItem, _ :: open?, .closeList => .ok (.separator, open?)
  | .firstItem, open?, t => afterValueToken open? t
  | .firstKey, _ :: open?, .closeObject => .ok (.separator, open?)
  | .firstKey, open?, t => afterKeyToken open? t
  | .key, open?, t => afterKeyToken open? t
  | .colon, open?, .colon => .ok (.value, open?)
  | .separator, .list :: open?, .comma => .ok (.value, .list :: open?)
  | .separator, .list :: open?, .closeList => .ok (.separator, open?)
  | .separator, .object :: open?, .comma => .ok (.key, .object :: open?)
  | .separator, .object :: open?, .closeObject => .ok (.separator, open?)
  | _, _, _ => .error .malformed

/-- Skips to the end of the value that is being skipped, and gives the tokens behind it. -/
def skipFrom : Due → List Bracket → List Token → Except Error (List Token)
  | .separator, [], ts => .ok ts
  | _, _, [] => .error .ends
  | due, open?, t :: ts =>
    match afterToken due open? t with
    | .ok (due, open?) => skipFrom due open? ts
    | .error e => .error e

/-- Skips a value. -/
def skip (ts : List Token) : Except Error (List Token) :=
  skipFrom .value [] ts

end PackedBits.Json
