import PackedBits.Text.Unprintable

/-!
# Quoted text

Text in a diagnosis stands between double quotes, with the characters that would not show, or would
end the quotation, escaped: a backslash and a double quote by a backslash, the tab, the two line
ends and the null character by their letters, and every other character that does not show by itself
by its number in hexadecimal.
-/

namespace PackedBits.Text

/-- The digits of a number in base 16, with lowercase letters and no leading zeros. -/
def hex (n : Nat) : String :=
  String.ofList (Nat.toDigits 16 n)

/-- A character as it stands inside a quotation. -/
def escape (c : Char) : String :=
  match c with
  | '"' => "\\\""
  | '\\' => "\\\\"
  | '\t' => "\\t"
  | '\n' => "\\n"
  | '\r' => "\\r"
  | '\x00' => "\\0"
  | c => if isUnprintable c then "\\u\x7b" ++ hex c.toNat ++ "\x7d" else c.toString

/-- A text in double quotes. -/
def quote (s : String) : String :=
  "\"" ++ String.join (s.toList.map escape) ++ "\""

end PackedBits.Text
