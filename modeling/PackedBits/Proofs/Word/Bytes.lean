import Mathlib.Algebra.Ring.Nat
import PackedBits.Word

/-!
# The bytes of a word

`bigEndian k` takes the `k` lowest base-256 digits of a number, and `ofBigEndian` is the number with
given digits.  Each step of the second multiplies by 256 and adds a byte, so it undoes the first
(`ofBigEndian_bigEndian`), and the first undoes the second on lists of the right length
(`bigEndian_ofBigEndian`).  A word has exactly `w.bytes` digits, and so is its bytes and they are
the word (`Word.ofBytes_toBytes`, `Word.toBytes_ofBytes`).
-/

namespace PackedBits

/-! ### Pieces -/

/-- The pieces of one size up to an index are the front of the bytes. -/
theorem flatMap_take_drop (d : List UInt8) (size k : Nat) :
    (List.range k).flatMap (fun i => (d.drop (i * size)).take size) = d.take (k * size) := by
  induction k with
  | zero => simp
  | succ k ih => rw [List.range_succ, List.flatMap_append, ih, List.flatMap_singleton, Nat.succ_mul,
      List.take_add]

/-! ### Digits -/

theorem bigEndian_succ (k v : Nat) :
    bigEndian (k + 1) v = UInt8.ofNat (v / 256 ^ k) :: bigEndian k v := by
  rw [bigEndian, Nat.shiftRight_eq_div_pow, Nat.pow_mul]

theorem foldl_bigEndian (k v a : Nat) :
    (bigEndian k v).foldl (fun v b => 256 * v + b.toNat) a = a * 256 ^ k + v % 256 ^ k := by
  induction k generalizing a with
  | zero => simp [bigEndian, Nat.mod_one]
  | succ k ih =>
    -- the digit in front is the one above the `k` lowest
    have hsplit : v % 256 ^ (k + 1) = v / 256 ^ k % 256 * 256 ^ k + v % 256 ^ k := by
      rw [Nat.pow_succ, Nat.mod_mul, Nat.mul_comm (256 ^ k)]
      omega
    have hbyte : (UInt8.ofNat (v / 256 ^ k)).toNat = v / 256 ^ k % 256 := UInt8.toNat_ofNat'
    rw [bigEndian_succ, List.foldl_cons, ih, hsplit, hbyte, Nat.add_mul, Nat.mul_right_comm,
      Nat.pow_succ, Nat.mul_comm (256 ^ k) 256, Nat.mul_comm a]
    omega

/-- The digits of a number make up all of it that they can. -/
theorem ofBigEndian_bigEndian (k v : Nat) : ofBigEndian (bigEndian k v) = v % 256 ^ k := by
  rw [ofBigEndian, foldl_bigEndian, Nat.zero_mul, Nat.zero_add]

theorem foldl_bytes_eq (bytes : List UInt8) (a : Nat) :
    bytes.foldl (fun v b => 256 * v + b.toNat) a = a * 256 ^ bytes.length + ofBigEndian bytes := by
  induction bytes generalizing a with
  | nil => simp [ofBigEndian]
  | cons b bytes ih =>
    have hcons : ofBigEndian (b :: bytes) = b.toNat * 256 ^ bytes.length + ofBigEndian bytes := by
      simpa [ofBigEndian] using ih b.toNat
    rw [List.foldl_cons, ih, hcons, List.length_cons, Nat.pow_succ, Nat.add_mul, Nat.mul_comm 256 a,
      Nat.mul_assoc a 256, Nat.mul_comm 256]
    omega

theorem ofBigEndian_cons (b : UInt8) (bytes : List UInt8) :
    ofBigEndian (b :: bytes) = b.toNat * 256 ^ bytes.length + ofBigEndian bytes := by
  rw [ofBigEndian, List.foldl_cons, foldl_bytes_eq, Nat.mul_zero, Nat.zero_add]

theorem ofBigEndian_lt (bytes : List UInt8) : ofBigEndian bytes < 256 ^ bytes.length := by
  induction bytes with
  | nil => simp [ofBigEndian]
  | cons b bytes ih =>
    have hb : b.toNat < 256 := b.toNat_lt
    have hdigit : (b.toNat + 1) * 256 ^ bytes.length ≤ 256 * 256 ^ bytes.length :=
      Nat.mul_le_mul_right _ (by omega)
    rw [Nat.add_mul] at hdigit
    rw [ofBigEndian_cons, List.length_cons, Nat.pow_succ, Nat.mul_comm (256 ^ bytes.length) 256]
    omega

/-- The bytes above those asked for do not matter. -/
theorem bigEndian_add_mul (k a v : Nat) : bigEndian k (a * 256 ^ k + v) = bigEndian k v := by
  induction k generalizing a with
  | zero => rfl
  | succ k ih =>
    have hshift : a * 256 ^ (k + 1) + v = a * 256 * 256 ^ k + v := by
      rw [Nat.pow_succ, Nat.mul_assoc, Nat.mul_comm 256]
    rw [hshift, bigEndian_succ, ih, bigEndian_succ]
    congr 1
    apply UInt8.toNat_inj.1
    rw [UInt8.toNat_ofNat', UInt8.toNat_ofNat', Nat.mul_comm (a * 256),
      Nat.mul_add_div (Nat.pow_pos (by decide))]
    omega

/-- As many bytes as were given are found again. -/
theorem bigEndian_ofBigEndian (bytes : List UInt8) :
    bigEndian bytes.length (ofBigEndian bytes) = bytes := by
  induction bytes with
  | nil => rfl
  | cons b bytes ih =>
    have hlt := ofBigEndian_lt bytes
    have hb : b.toNat < 256 := b.toNat_lt
    rw [List.length_cons, bigEndian_succ, ofBigEndian_cons, bigEndian_add_mul, ih]
    congr 1
    apply UInt8.toNat_inj.1
    rw [Nat.mul_comm, Nat.mul_add_div (Nat.pow_pos (by decide)), Nat.div_eq_of_lt hlt, Nat.add_zero,
      UInt8.toNat_ofNat']
    exact Nat.mod_eq_of_lt hb

/-! ### Words -/

namespace Word

variable {w : Width}

theorem pow_bytes (w : Width) : 256 ^ w.bytes = 2 ^ w.bits := by
  rw [w.bits_eq_mul_bytes, Nat.pow_mul]

/-- A word is read back from its bytes. -/
@[simp] theorem ofBytes_toBytes (x : Word w) : (ofBytes x.toBytes : Word w) = x := by
  apply BitVec.eq_of_toNat_eq
  rw [ofBytes, toBytes, ofBigEndian_bigEndian, pow_bytes, BitVec.toNat_ofNat, Nat.mod_mod]
  exact Nat.mod_eq_of_lt x.isLt

/-- As many bytes as a word has are the bytes of the word they make. -/
theorem toBytes_ofBytes {bytes : List UInt8} (h : bytes.length = w.bytes) :
    (ofBytes bytes : Word w).toBytes = bytes := by
  have hlt := ofBigEndian_lt bytes
  rw [h, pow_bytes] at hlt
  rw [toBytes, ofBytes, BitVec.toNat_ofNat, Nat.mod_eq_of_lt hlt, ← h, bigEndian_ofBigEndian]

/-- The bytes of words. -/
theorem length_flatMap_toBytes (ws : List (Word w)) :
    (ws.flatMap toBytes).length = w.bytes * ws.length := by
  induction ws with
  | nil => rfl
  | cons x ws ih =>
    rw [List.flatMap_cons, List.length_append, length_toBytes, ih, List.length_cons, Nat.mul_succ,
      Nat.add_comm]

/-- The bytes of the first words. -/
theorem take_flatMap_toBytes (ws : List (Word w)) (n : Nat) :
    (ws.flatMap toBytes).take (n * w.bytes) = (ws.take n).flatMap toBytes := by
  induction ws generalizing n with
  | nil => simp
  | cons x ws ih =>
    cases n with
    | zero => simp
    | succ n =>
      have hsize : (n + 1) * w.bytes = x.toBytes.length + n * w.bytes := by
        rw [length_toBytes, Nat.succ_mul, Nat.add_comm]
      rw [List.take_succ_cons, List.flatMap_cons, List.flatMap_cons, hsize,
        List.take_length_add_append, ih]

/-- The bytes of the other words. -/
theorem drop_flatMap_toBytes (ws : List (Word w)) (n : Nat) :
    (ws.flatMap toBytes).drop (n * w.bytes) = (ws.drop n).flatMap toBytes := by
  induction ws generalizing n with
  | nil => simp
  | cons x ws ih =>
    cases n with
    | zero => simp
    | succ n =>
      have hsize : (n + 1) * w.bytes = x.toBytes.length + n * w.bytes := by
        rw [length_toBytes, Nat.succ_mul, Nat.add_comm]
      rw [List.drop_succ_cons, List.flatMap_cons, hsize, List.drop_length_add_append, ih]

theorem toBytes_zero : (0 : Word w).toBytes = List.replicate w.bytes 0 := by
  have hzero : ∀ k, bigEndian k 0 = List.replicate k 0 := by
    intro k
    induction k with
    | zero => rfl
    | succ k ih =>
      rw [bigEndian, ih, Nat.zero_shiftRight, List.replicate_succ]
      rfl
  exact hzero w.bytes

/-- The bytes of words that are zero. -/
theorem flatMap_replicate_zero (n : Nat) :
    (List.replicate n (0 : Word w)).flatMap toBytes = List.replicate (n * w.bytes) 0 := by
  induction n with
  | zero => simp
  | succ n ih =>
    rw [List.replicate_succ, List.flatMap_cons, ih, toBytes_zero, List.replicate_append_replicate,
      Nat.succ_mul, Nat.add_comm]

end Word

end PackedBits
