import PackedBits.ByteStream

/-!
# Collecting bytes, answer by answer

What is collected from a reader is given by its next answer: an empty portion or an error ends it, a
portion with all that is wanted completes it, and after an interruption the same call is made again
(`gather_of_nil`, `gather_of_error`, `gather_of_full`, `gather_of_interrupted`).
-/

namespace PackedBits.ByteReader

variable {σ : Type} [ByteReader σ] {s s' : σ} {n : Nat} {bytes : List UInt8} {e : IoError}

theorem gather_zero (s : σ) : gather s 0 = (([], .full), s) := by
  rw [gather, if_pos rfl]

/-- What the next answer makes of the bytes to be collected. -/
theorem gather_of_ne_zero (s : σ) (hn : n ≠ 0) :
    gather s n =
      match read s n with
      | (.ok [], s') => (([], .exhausted), s')
      | (.ok (b :: bytes), s') =>
        let rest := gather s' (n - (b :: bytes).length)
        ((b :: bytes ++ rest.1.1, rest.1.2), rest.2)
      | (.error e, s') => if e.kind = .interrupted then gather s' n else (([], .failed e), s') := by
  rw [gather, if_neg hn]
  split <;> rename_i heq <;> rw [heq]
  exact dite_eq_ite

theorem gather_of_nil (hn : n ≠ 0) (h : read s n = (.ok [], s')) :
    gather s n = (([], .exhausted), s') := by
  rw [gather_of_ne_zero s hn, h]

theorem gather_of_full (hn : n ≠ 0) (h : read s n = (.ok bytes, s')) (hlen : bytes.length = n) :
    gather s n = ((bytes, .full), s') := by
  rw [gather_of_ne_zero s hn, h]
  cases bytes with
  | nil => exact absurd hlen.symm hn
  | cons b bytes =>
    dsimp only
    rw [hlen, Nat.sub_self, gather_zero, List.append_nil]

theorem gather_of_interrupted (hn : n ≠ 0) (h : read s n = (.error e, s'))
    (he : e.kind = .interrupted) : gather s n = gather s' n := by
  rw [gather_of_ne_zero s hn, h]
  exact if_pos he

theorem gather_of_error (hn : n ≠ 0) (h : read s n = (.error e, s')) (he : e.kind ≠ .interrupted) :
    gather s n = (([], .failed e), s') := by
  rw [gather_of_ne_zero s hn, h]
  exact if_neg he

/-- No more bytes are collected than were asked for. -/
theorem length_gather_le (s : σ) (n : Nat) : (gather s n).1.1.length ≤ n := by
  fun_induction gather s n with
  | case1 s => exact Nat.le_refl 0
  | case2 s n hn s' hread => exact Nat.zero_le n
  | case3 s n hn b bytes s' hread rest ih =>
    have hle := length_le hread
    have hrest : rest.1.1.length ≤ n - (b :: bytes).length := ih
    rw [List.length_append]
    omega
  | case4 s n hn e s' hread hkind ih => exact ih
  | case5 s n hn e s' hread hkind => exact Nat.zero_le n

end PackedBits.ByteReader
