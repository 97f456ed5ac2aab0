import Mathlib.Data.List.Basic

/-!
# Texts made of fields

A text lists fields with a separator between them. A field that does not contain the separator comes
back from the text (`append_sep_inj`), and so does a number from its digits, also when they are
filled up with zeros (`toDigits_inj`, `zeroPadded_inj`).
-/

namespace Formats

/-- The first field of a text and what comes after it are determined by the text. -/
theorem append_sep_inj {α : Type} {sep : α} {xs xs' rest rest' : List α} (h : sep ∉ xs)
    (h' : sep ∉ xs') : xs ++ sep :: rest = xs' ++ sep :: rest' ↔ xs = xs' ∧ rest = rest' := by
  induction xs generalizing xs' with
  | nil =>
      cases xs' with
      | nil => simp
      | cons x xs' =>
          have hne : sep ≠ x := fun heq => h' (heq ▸ List.mem_cons_self)
          simp [hne]
  | cons x xs ih =>
      have hne : x ≠ sep := fun heq => h (heq ▸ List.mem_cons_self)
      cases xs' with
      | nil => simp [hne]
      | cons x' xs' =>
          have ih := ih (fun hmem => h (List.mem_cons_of_mem _ hmem))
            fun hmem => h' (List.mem_cons_of_mem _ hmem)
          simp [ih, and_assoc]

/-! ## Numbers -/

/-- The value of a digit. -/
def digitValue (c : Char) : ℕ :=
  if c.toNat < 58 then c.toNat - 48 else c.toNat - 87

/-- The number that digits denote. -/
def value (b : ℕ) (cs : List Char) : ℕ :=
  cs.foldl (fun n c => b * n + digitValue c) 0

/-- Reading digits does not lower the number. -/
theorem le_foldl_digits {b : ℕ} (hb : 0 < b) (cs : List Char) (n : ℕ) :
    n ≤ cs.foldl (fun n c => b * n + digitValue c) n := by
  induction cs generalizing n with
  | nil => exact Nat.le_refl n
  | cons c cs ih =>
      calc n ≤ b * n := Nat.le_mul_of_pos_left n hb
        _ ≤ b * n + digitValue c := Nat.le_add_right _ _
        _ ≤ _ := ih _

/-- A digit has its value. -/
theorem digitValue_digitChar : ∀ d < 16, digitValue d.digitChar = d := by
  decide

/-- A number comes back from its digits. -/
theorem value_toDigits {b : ℕ} (hb : 1 < b) (hle : b ≤ 16) (n : ℕ) :
    value b (Nat.toDigits b n) = n := by
  induction n using Nat.strongRecOn with
  | _ n ih =>
      rw [Nat.toDigits_eq_if hb]
      by_cases hn : n < b
      · rw [if_pos hn]
        show b * 0 + digitValue n.digitChar = n
        rw [digitValue_digitChar n (Nat.lt_of_lt_of_le hn hle), Nat.mul_zero, Nat.zero_add]
      · have hlt : n / b < n := Nat.div_lt_self (by omega) hb
        have hmod : n % b < 16 := Nat.lt_of_lt_of_le (Nat.mod_lt n (by omega)) hle
        rw [if_neg hn, value, List.foldl_append]
        show b * value b (Nat.toDigits b (n / b)) + digitValue (n % b).digitChar = n
        rw [ih _ hlt, digitValue_digitChar _ hmod]
        exact Nat.div_add_mod n b

/-- Zeros in front do not change the number. -/
theorem value_leftpad (b width : ℕ) (cs : List Char) :
    value b (cs.leftpad width '0') = value b cs := by
  have hzeros (k : ℕ) : value b (List.replicate k '0') = 0 := by
    induction k with
    | zero => rfl
    | succ k ih =>
        have hzero : b * 0 + digitValue '0' = 0 := Nat.mul_zero b
        rw [List.replicate_succ, value, List.foldl_cons, hzero]
        exact ih
  unfold value List.leftpad
  rw [List.foldl_append]
  show List.foldl _ (value b (List.replicate (width - cs.length) '0')) cs = _
  rw [hzeros]

/-- Digits are digits of the base. -/
theorem exists_digitChar {b n : ℕ} (hb : 1 < b) {c : Char} (hc : c ∈ Nat.toDigits b n) :
    ∃ d < b, c = d.digitChar := by
  induction n using Nat.strongRecOn with
  | _ n ih =>
      rw [Nat.toDigits_eq_if hb] at hc
      by_cases hn : n < b
      · rw [if_pos hn] at hc
        exact ⟨n, hn, List.mem_singleton.mp hc⟩
      · rw [if_neg hn, List.mem_append] at hc
        rcases hc with hc | hc
        · exact ih _ (Nat.div_lt_self (by omega) hb) hc
        · exact ⟨n % b, Nat.mod_lt n (by omega), List.mem_singleton.mp hc⟩

/-- Numbers with the same digits are the same. -/
theorem toDigits_inj {b m n : ℕ} (hb : 1 < b) (hle : b ≤ 16) :
    Nat.toDigits b m = Nat.toDigits b n ↔ m = n := by
  refine ⟨fun h => ?_, congrArg _⟩
  rw [← value_toDigits hb hle m, h, value_toDigits hb hle]

/-- The digits of a number, filled up with zeros to a width. -/
def zeroPadded (b width n : ℕ) : List Char :=
  (Nat.toDigits b n).leftpad width '0'

/-- Numbers with the same digits are the same, also when the digits are filled up with zeros. -/
theorem zeroPadded_inj {b width m n : ℕ} (hb : 1 < b) (hle : b ≤ 16) :
    zeroPadded b width m = zeroPadded b width n ↔ m = n := by
  refine ⟨fun h => ?_, congrArg _⟩
  have hvalue : value b (zeroPadded b width m) = value b (zeroPadded b width n) := congrArg _ h
  rw [zeroPadded, zeroPadded, value_leftpad, value_leftpad, value_toDigits hb hle,
    value_toDigits hb hle] at hvalue
  exact hvalue

/-- Numbers do not contain a separator that is no digit. -/
theorem notMem_toDigits {b n : ℕ} {sep : Char} (hb : 1 < b) (hsep : ∀ d < b, sep ≠ d.digitChar) :
    sep ∉ Nat.toDigits b n := by
  intro hmem
  obtain ⟨d, hd, heq⟩ := exists_digitChar hb hmem
  exact hsep d hd heq

/-- Numbers that are filled up with zeros do not contain a separator that is no digit. -/
theorem notMem_zeroPadded {b width n : ℕ} {sep : Char} (hb : 1 < b)
    (hsep : ∀ d < b, sep ≠ d.digitChar) : sep ∉ zeroPadded b width n := by
  intro hmem
  rcases List.mem_append.mp hmem with hmem | hmem
  · exact hsep 0 (by omega) (List.eq_of_mem_replicate hmem)
  · exact notMem_toDigits hb hsep hmem

end Formats
