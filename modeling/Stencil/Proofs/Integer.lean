import Stencil.Numeral.Integer
import Stencil.Proofs.Unescape
/-!
# Integers are read as they are written

The digits of a number are its numeral (`natural?_digits`), and every integer of 64 bits is read back
from the text that it is written as (`integer?_integerText`). No blanks are in that text, so it does
not matter that a reader trims it first (`trim_integerText`).
-/

namespace Stencil.Numeral

/-- A digit stands for its value. -/
theorem digitValue_digitChar {d : Nat} (h : d < 10) : digitValue d.digitChar = d :=
  Nat.toNat_digitChar_sub_48_of_lt_ten h

theorem isDigit_of_mem_digits {n : Nat} {c : Char} (h : c ∈ digits n) : c.isDigit = true :=
  Nat.isDigit_of_mem_toDigits (by decide) (by decide) h

/-- By induction on the digits from the last one on. -/
theorem digitsValue_digits (n : Nat) : digitsValue (digits n) = n := by
  induction n using Nat.strong_induction_on with
  | _ n ih =>
    by_cases hn : n < 10
    · have hdigits : digits n = [] ++ [n.digitChar] := Nat.toDigits_of_lt_base hn
      rw [hdigits, digitsValue_concat, digitValue_digitChar hn, digitsValue_nil]
      omega
    · have hdigits : digits n = digits (n / 10) ++ [(n % 10).digitChar] :=
        Nat.toDigits_of_base_le (by decide) (by omega)
      rw [hdigits, digitsValue_concat, ih (n / 10) (by omega), digitValue_digitChar (by omega)]
      omega

/-- The numeral of a number is read as that number. -/
theorem natural?_digits (n : Nat) : natural? (digits n) = some n := by
  have hnonempty : (digits n).isEmpty = false := List.isEmpty_eq_false_iff.2 Nat.toDigits_ne_nil
  have hall : (digits n).all Char.isDigit = true :=
    List.all_eq_true.2 fun c hc => isDigit_of_mem_digits hc
  rw [natural?, hnonempty, hall, digitsValue_digits]
  rfl

/-- A sign is no digit. -/
theorem signed?_digits (n : Nat) : signed? natural? (digits n) = some (n : Int) := by
  unfold signed?
  split
  · next heq => exact absurd (isDigit_of_mem_digits (heq ▸ List.mem_cons_self)) (by decide)
  · next heq => exact absurd (isDigit_of_mem_digits (heq ▸ List.mem_cons_self)) (by decide)
  · rw [natural?_digits]
    rfl

/-- A sign is written for negative numbers only, and it is read in front of the digits. -/
theorem signed?_integerText (n : Int) : signed? natural? (integerText n) = some n := by
  cases n with
  | ofNat n => exact signed?_digits n
  | negSucc n =>
    rw [integerText, signed?, natural?_digits]
    rfl

/-- Within the bounds of 64 bits an integer is read back from its text. -/
theorem integer?_integerText {n : Int} (hlow : -integerBound ≤ n) (hhigh : n < integerBound) :
    integer? (integerText n) = some n := by
  rw [integer?, signed?_integerText, Option.filter_some, if_pos]
  rw [decide_eq_true hlow, decide_eq_true hhigh]
  rfl

theorem integerBound_pos : 0 < integerBound := by decide

theorem isBlank_of_isDigit {c : Char} (h : c.isDigit = true) : isBlank c = false := by
  have hbounds : 48 ≤ c.toNat ∧ c.toNat ≤ 57 := by
    simpa [Char.isDigit, UInt32.le_iff_toNat_le] using h
  simp only [isBlank, Bool.or_eq_false_iff, Bool.and_eq_false_iff, decide_eq_false_iff_not,
    beq_eq_false_iff_ne]
  omega

/-- There are no blanks in the text of an integer. -/
theorem isBlank_of_mem_integerText {n : Int} {c : Char} (h : c ∈ integerText n) :
    isBlank c = false := by
  cases n with
  | ofNat n => exact isBlank_of_isDigit (isDigit_of_mem_digits h)
  | negSucc n =>
    rcases List.mem_cons.1 h with rfl | hdigit
    · decide
    · exact isBlank_of_isDigit (isDigit_of_mem_digits hdigit)

theorem trim_integerText (n : Int) : Text.trim (integerText n) = integerText n :=
  Text.Trimmed.trim_eq
    ⟨fun _ hc => isBlank_of_mem_integerText (List.mem_of_mem_head? hc),
      fun _ hc => isBlank_of_mem_integerText (List.mem_of_getLast? hc)⟩

end Stencil.Numeral
