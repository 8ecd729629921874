import PackedBits.Word

/-!
# End marks

A marked stream of bits carries in its last word how many bits of that word are valid.  For a word
of `b` bits that is a number from 1 to `b`, stored less one in `bitsFor b` bits, the least number of
bits that can tell `b` values apart.  The field ends just below the top bit of the word, which stays
clear: it starts at the position `shift`, and there are `payloadBits = shift + 1` bits that are not
in the field, `shift` below it and the top bit.

A last word with fewer than `payloadBits` valid bits has them below the field, and carries payload
and mark at once.  With more, the mark goes into a word of its own; since its count is then at least
`payloadBits`, a reader that looks one word ahead recognises such a word and refers the count to the
word before.
-/

namespace PackedBits.EndMark

/-- The number of bits that tell `n` values apart: the length of `n - 1` in binary. -/
def bitsFor (n : Nat) : Nat :=
  if n ≤ 1 then 0 else Nat.log2 (n - 1) + 1

/-- The number of bits that tell `n` values apart, where there has to be one value at least. -/
def bitsFor? (n : Nat) : Except Fault Nat :=
  if n = 0 then .error (.overflow .subtract) else .ok (bitsFor n)

/-- The width of the field. -/
def fieldBits (w : Width) : Nat :=
  bitsFor w.bits

/-- The number of bits of a word outside the field. -/
def payloadBits (w : Width) : Nat :=
  w.bits - fieldBits w

/-- The position of the field. -/
def shift (w : Width) : Nat :=
  payloadBits w - 1

variable {w : Width}

/-- The mark for a last word with `n` valid bits. -/
def encode (n : Nat) : Word w :=
  Word.ofSize (n - 1) <<< shift w

/-- The mark for a last word with `n` valid bits, if a word can have so many. -/
def encode? (w : Width) (n : Nat) : Except Fault (Word w) :=
  if 0 < n ∧ n ≤ w.bits then .ok (encode n) else .error (.validBits w.bits n)

/-- The number of valid bits that a mark stands for. The top bit counts for as much as the width,
and so for nothing. -/
def decode (x : Word w) : Nat :=
  match (Word.toSize (x >>> shift w) + 1) % w.bits with
  | 0 => w.bits
  | n + 1 => n + 1

theorem encode?_of_le {n : Nat} (h : 0 < n ∧ n ≤ w.bits) : encode? w n = .ok (encode n) :=
  if_pos h

end PackedBits.EndMark
