import Mathlib.Data.List.Basic
import Mathlib.Tactic.Ring
import Mathlib.Algebra.Order.Ring.Nat

/-!
# Fixed-width big-endian byte strings

`toBytes n x` is the `n`-byte big-endian string of a natural number, `ofBytes` reads one back.
`ofBytes_toBytes` and `toBytes_ofBytes` are the two round trips, and `ofBytes_injective` says
that strings of one length are determined by their values.
-/

namespace BigEndian

/-- The number a big-endian byte string denotes. -/
def ofBytes : List UInt8 → ℕ
  | [] => 0
  | b :: bs => b.toNat * 256 ^ bs.length + ofBytes bs

/-- The last `n` base-256 digits of a number, most significant first. -/
def toBytes : ℕ → ℕ → List UInt8
  | 0, _ => []
  | n + 1, x => UInt8.ofNat (x / 256 ^ n) :: toBytes n (x % 256 ^ n)

/-- `toBytes n` yields `n` bytes. -/
@[simp] theorem length_toBytes (n x : ℕ) : (toBytes n x).length = n := by
  induction n generalizing x with
  | zero => rfl
  | succ n ih => simp [toBytes, ih]

/-- A string of `n` bytes denotes a number below `256 ^ n`. -/
theorem ofBytes_lt (bs : List UInt8) : ofBytes bs < 256 ^ bs.length := by
  induction bs with
  | nil => simp [ofBytes]
  | cons b bs ih =>
      have hb : b.toNat < 256 := b.toNat_lt
      have hle : (b.toNat + 1) * 256 ^ bs.length ≤ 256 * 256 ^ bs.length :=
        Nat.mul_le_mul_right _ (by omega)
      calc ofBytes (b :: bs) < b.toNat * 256 ^ bs.length + 256 ^ bs.length := by
            simpa [ofBytes] using ih
        _ = (b.toNat + 1) * 256 ^ bs.length := by ring
        _ ≤ 256 ^ (b :: bs).length := by
            rw [List.length_cons, pow_succ']
            exact hle

/-- Reading back an `n`-byte string gives the number without its higher digits. -/
theorem ofBytes_toBytes_mod (n x : ℕ) : ofBytes (toBytes n x) = x % 256 ^ n := by
  induction n generalizing x with
  | zero => simp [toBytes, ofBytes, Nat.mod_one]
  | succ n ih =>
      simp only [toBytes, ofBytes, length_toBytes, ih, UInt8.toNat_ofNat', Nat.mod_mod]
      rw [pow_succ 256 n, Nat.mod_mul]
      ring

/-- Reading back the `n`-byte string of a number that fits gives the number. -/
theorem ofBytes_toBytes {n x : ℕ} (h : x < 256 ^ n) : ofBytes (toBytes n x) = x := by
  rw [ofBytes_toBytes_mod, Nat.mod_eq_of_lt h]

/-- Writing out the value of a string gives the string. -/
theorem toBytes_ofBytes (bs : List UInt8) : toBytes bs.length (ofBytes bs) = bs := by
  induction bs with
  | nil => rfl
  | cons b bs ih =>
      have hlt := ofBytes_lt bs
      have hpos : 0 < 256 ^ bs.length := Nat.pow_pos (by omega)
      have hdiv : (b.toNat * 256 ^ bs.length + ofBytes bs) / 256 ^ bs.length = b.toNat := by
        rw [mul_comm, Nat.mul_add_div hpos, Nat.div_eq_of_lt hlt, add_zero]
      have hmod : (b.toNat * 256 ^ bs.length + ofBytes bs) % 256 ^ bs.length = ofBytes bs := by
        rw [mul_comm, Nat.mul_add_mod, Nat.mod_eq_of_lt hlt]
      simp only [List.length_cons, toBytes, ofBytes, hdiv, hmod, ih, UInt8.ofNat_toNat]

/-- Two strings of one length with one value are equal. -/
theorem ofBytes_injective {as bs : List UInt8} (hlen : as.length = bs.length)
    (hval : ofBytes as = ofBytes bs) : as = bs := by
  rw [← toBytes_ofBytes as, ← toBytes_ofBytes bs, hlen, hval]

/-- Two numbers that fit into `n` bytes and have the same string are equal. -/
theorem toBytes_injective {n x y : ℕ} (hx : x < 256 ^ n) (hy : y < 256 ^ n)
    (h : toBytes n x = toBytes n y) : x = y := by
  rw [← ofBytes_toBytes hx, ← ofBytes_toBytes hy, h]

/-- A string of known length is the string of its value. -/
theorem eq_toBytes {bs : List UInt8} {n : ℕ} (hlen : bs.length = n) :
    bs = toBytes n (ofBytes bs) := by
  subst hlen
  exact (toBytes_ofBytes bs).symm

/-- The value of a concatenation: the front is shifted by the length of the back. -/
theorem ofBytes_append (as bs : List UInt8) :
    ofBytes (as ++ bs) = ofBytes as * 256 ^ bs.length + ofBytes bs := by
  induction as with
  | nil => simp [ofBytes]
  | cons a as ih =>
      simp only [List.cons_append, ofBytes, List.length_append, ih, pow_add]
      ring

/-- Splitting a number at a byte boundary splits its string there. -/
theorem toBytes_append (m n x : ℕ) (h : x < 256 ^ (m + n)) :
    toBytes m (x / 256 ^ n) ++ toBytes n (x % 256 ^ n) = toBytes (m + n) x := by
  have hpos : 0 < 256 ^ n := Nat.pow_pos (by omega)
  have hhigh : x / 256 ^ n < 256 ^ m := by
    rw [Nat.div_lt_iff_lt_mul hpos, ← pow_add]
    exact h
  refine ofBytes_injective (by simp) ?_
  rw [ofBytes_append, ofBytes_toBytes hhigh, ofBytes_toBytes (Nat.mod_lt x hpos),
    ofBytes_toBytes h, length_toBytes, mul_comm]
  exact Nat.div_add_mod x (256 ^ n)

/-- A byte read off the value of a string. -/
theorem ofBytes_div_mod {bs : List UInt8} {i : ℕ} {b : UInt8} (h : bs[i]? = some b) :
    ofBytes bs / 256 ^ (bs.length - 1 - i) % 256 = b.toNat := by
  obtain ⟨hlt, hget⟩ := List.getElem?_eq_some_iff.mp h
  have hsplit : bs = bs.take i ++ b :: bs.drop (i + 1) := by
    rw [← hget, List.getElem_cons_drop, List.take_append_drop]
  have hrest : (bs.drop (i + 1)).length = bs.length - 1 - i := by
    rw [List.length_drop]
    omega
  have hlow := ofBytes_lt (bs.drop (i + 1))
  have hb := b.toNat_lt
  have hvalue : ofBytes bs = ofBytes (bs.drop (i + 1)) +
      256 ^ (bs.length - 1 - i) * (256 * ofBytes (bs.take i) + b.toNat) := by
    conv_lhs => rw [hsplit, ofBytes_append, ofBytes, List.length_cons, hrest, pow_succ]
    ring
  rw [hrest] at hlow
  rw [hvalue, Nat.add_mul_div_left _ _ (Nat.pow_pos (by omega)), Nat.div_eq_of_lt hlow]
  omega

/-- The string of zero is all zero bytes. -/
theorem toBytes_zero (n : ℕ) : toBytes n 0 = List.replicate n 0 := by
  induction n with
  | zero => rfl
  | succ n ih => simp [toBytes, ih, List.replicate_succ]

end BigEndian
