import Mathlib.Algebra.Group.Nat.Defs
import Mathlib.Data.List.Basic

/-! Unsigned numbers in decimal, read the way the integer types of Rust read them: a plus sign
is allowed, leading zeros are, and a value beyond the type is refused. -/

set_option autoImplicit false

namespace Numeral

inductive IntError where
  | empty | invalidDigit | posOverflow
  deriving DecidableEq, Repr

/-- The text of a `ParseIntError`. -/
def IntError.text : IntError → String
  | .empty => "cannot parse integer from empty string"
  | .invalidDigit => "invalid digit found in string"
  | .posOverflow => "number too large to fit in target type"

/-- The digits that are left are put behind the value read so far. -/
def accumulate (bits : Nat) : List Char → Nat → Except IntError Nat
  | [], value => .ok value
  | c :: cs, value =>
    if ¬ c.isDigit then .error .invalidDigit
    else if 10 * value + (c.toNat - '0'.toNat) < 2 ^ bits then
      accumulate bits cs (10 * value + (c.toNat - '0'.toNat))
    else .error .posOverflow

/-- The string without a plus sign. -/
def unsigned (s : List Char) : List Char := if s.head? = some '+' then s.tail else s

/-- `str::parse` for the unsigned type of `bits` bits. -/
def fromStr (bits : Nat) (s : List Char) : Except IntError Nat :=
  if s = [] then .error .empty
  else if s = ['+'] ∨ s = ['-'] then .error .invalidDigit
  else accumulate bits (unsigned s) 0

/-- `to_string`. -/
def decimal (n : Nat) : List Char := Nat.toDigits 10 n

/-! ### What is read -/

/-- Digits, with a plus sign or without. -/
def Spells (s : List Char) (n : Nat) : Prop :=
  ∃ digits : List Char, (s = digits ∨ s = '+' :: digits) ∧ digits ≠ [] ∧
    (∀ c ∈ digits, c.isDigit) ∧ Nat.ofDigitChars 10 digits 0 = n

theorem le_ofDigitChars (digits : List Char) (value : Nat) :
    value ≤ Nat.ofDigitChars 10 digits value := by
  induction digits generalizing value with
  | nil => simp
  | cons c digits ih =>
    have h := ih (10 * value + (c.toNat - '0'.toNat))
    rw [Nat.ofDigitChars_cons]
    omega

theorem accumulate_ok {bits : Nat} {digits : List Char} {value n : Nat} (hv : value < 2 ^ bits) :
    accumulate bits digits value = .ok n ↔
      (∀ c ∈ digits, c.isDigit) ∧ Nat.ofDigitChars 10 digits value = n ∧ n < 2 ^ bits := by
  induction digits generalizing value with
  | nil =>
    simp only [accumulate, Except.ok.injEq, List.not_mem_nil, false_imp_iff, implies_true,
      Nat.ofDigitChars_nil, true_and]
    constructor
    · intro h
      exact ⟨h, h ▸ hv⟩
    · exact fun h => h.1
  | cons c digits ih =>
    unfold accumulate
    rw [List.forall_mem_cons, Nat.ofDigitChars_cons]
    by_cases hc : c.isDigit
    · rw [if_neg (not_not.mpr hc)]
      by_cases hb : 10 * value + (c.toNat - '0'.toNat) < 2 ^ bits
      · rw [if_pos hb, ih hb]
        simp only [hc, true_and]
      · -- The value only grows from here.
        have hle := le_ofDigitChars digits (10 * value + (c.toNat - '0'.toNat))
        rw [if_neg hb]
        simp only [reduceCtorEq, false_iff, not_and]
        intro _ he
        omega
    · simp [hc]

theorem isDigit_ne_plus {c : Char} (h : c.isDigit = true) : c ≠ '+' := by
  rintro rfl
  exact absurd h (by decide)

theorem spells_iff {s : List Char} {n : Nat} :
    Spells s n ↔ unsigned s ≠ [] ∧ (∀ c ∈ unsigned s, c.isDigit) ∧
      Nat.ofDigitChars 10 (unsigned s) 0 = n := by
  constructor
  · intro ⟨digits, hs, hne, hd, hv⟩
    have hu : unsigned s = digits := by
      rcases hs with rfl | rfl
      · obtain ⟨c, cs, rfl⟩ := List.exists_cons_of_ne_nil hne
        have hp := isDigit_ne_plus (hd c (by simp))
        simp [unsigned, hp]
      · simp [unsigned]
    rw [hu]
    exact ⟨hne, hd, hv⟩
  · intro ⟨hne, hd, hv⟩
    refine ⟨unsigned s, ?_, hne, hd, hv⟩
    cases s with
    | nil => exact .inl rfl
    | cons c cs =>
      by_cases hp : c = '+'
      · subst hp
        exact .inr rfl
      · simp [unsigned, hp]

theorem Spells.unique {s : List Char} {m n : Nat} (h : Spells s m) (h' : Spells s n) : m = n := by
  rw [← (spells_iff.mp h).2.2, (spells_iff.mp h').2.2]

/-- A string is accepted exactly if it spells a value of the type. -/
theorem fromStr_ok {bits : Nat} {s : List Char} {n : Nat} :
    fromStr bits s = .ok n ↔ Spells s n ∧ n < 2 ^ bits := by
  rw [spells_iff]
  unfold fromStr
  split
  · rename_i hs
    simp [hs, unsigned]
  · split
    · rename_i hs
      rcases hs with rfl | rfl
      · simp [unsigned]
      · have hd : ¬ '-'.isDigit := by decide
        simp [unsigned, hd]
    · rename_i hne hs
      rw [accumulate_ok (Nat.two_pow_pos bits)]
      have hu : unsigned s ≠ [] := by
        obtain ⟨c, cs, rfl⟩ := List.exists_cons_of_ne_nil hne
        unfold unsigned
        split
        · rename_i hp
          intro hcs
          rw [List.tail_cons] at hcs
          simp_all
        · exact hne
      simp only [hu, ne_eq, not_false_eq_true, true_and, and_assoc]

theorem spells_decimal (n : Nat) : Spells (decimal n) n :=
  ⟨decimal n, .inl rfl, Nat.toDigits_ne_nil,
    fun _ hc => Nat.isDigit_of_mem_toDigits (by decide) (by decide) hc,
    Nat.ofDigitChars_ten_toDigits⟩

theorem fromStr_decimal {bits n : Nat} (h : n < 2 ^ bits) : fromStr bits (decimal n) = .ok n :=
  fromStr_ok.mpr ⟨spells_decimal n, h⟩

theorem decimal_injective {m n : Nat} (h : decimal m = decimal n) : m = n := by
  rw [← Nat.ofDigitChars_ten_toDigits (n := m), ← @Nat.ofDigitChars_ten_toDigits n]
  exact congrArg (Nat.ofDigitChars 10 · 0) h

/-- What is not a digit is not in a number. -/
theorem notMem_decimal {c : Char} (h : c.isDigit = false) (n : Nat) : c ∉ decimal n := by
  intro hm
  have hd := Nat.isDigit_of_mem_toDigits (by decide) (by decide) hm
  simp [h] at hd

end Numeral
