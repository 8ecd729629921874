import PackedBits.Fault

/-!
# Words and their bytes

A word of width `w` is a bit vector of `w.bits` bits.  On the wire a word is its bytes, the most
significant first, whatever the order a machine keeps them in.

The bytes are defined on natural numbers: `bigEndian k v` is the list of the `k` lowest bytes of
`v`, and `ofBigEndian` reads a list of bytes as a number in base 256, each step multiplying by 256
and adding a byte.
-/

namespace PackedBits

/-- A word of width `w`. -/
abbrev Word (w : Width) : Type := BitVec w.bits

/-! ### Bytes of a number -/

/-- The `k` lowest bytes of `v`, the most significant first. -/
def bigEndian : Nat → Nat → List UInt8
  | 0, _ => []
  | k + 1, v => UInt8.ofNat (v >>> (8 * k)) :: bigEndian k v

/-- The number whose base-256 digits are `bytes`, the most significant first. -/
def ofBigEndian (bytes : List UInt8) : Nat :=
  bytes.foldl (fun v b => 256 * v + b.toNat) 0

@[simp] theorem length_bigEndian (k v : Nat) : (bigEndian k v).length = k := by
  induction k with
  | zero => rfl
  | succ k ih => simp [bigEndian, ih]

namespace Word

variable {w : Width}

/-! ### Words on the wire -/

/-- The bytes of a word, the most significant first. -/
def toBytes (x : Word w) : List UInt8 :=
  bigEndian w.bytes x.toNat

/-- The word whose bytes are given, the most significant first. -/
def ofBytes (bytes : List UInt8) : Word w :=
  BitVec.ofNat w.bits (ofBigEndian bytes)

@[simp] theorem length_toBytes (x : Word w) : x.toBytes.length = w.bytes := by
  simp [toBytes]

/-! ### Sizes and masks -/

/-- The lowest 64 bits of a word, as a size. -/
def toSize (x : Word w) : Nat :=
  (x.setWidth Width.native.bits).toNat

/-- The word with the lowest bits of a size. -/
def ofSize (n : Nat) : Word w :=
  BitVec.ofNat w.bits n

/-- The word whose `n` lowest bits are set. -/
def lowOnes (n : Nat) : Word w :=
  ~~~(BitVec.allOnes w.bits <<< n)

/-- The word whose `n` lowest bits are set, where there has to be a bit and a word has to have so
many. -/
def lowOnes? (w : Width) (n : Nat) : Except Fault (Word w) :=
  if 0 < n ∧ n ≤ w.bits then .ok (lowOnes n) else .error .maskWidth

end Word

end PackedBits
