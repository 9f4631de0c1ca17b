import Stencil.Text.Basic
/-!
# Whole numbers

A numeral is a row of ASCII digits, at least one. Counts may carry a plus sign and have 64 bits;
integers may carry either sign and have 64 bits with the sign.
-/

namespace Stencil.Numeral

def digitValue (d : Char) : Nat := d.toNat - '0'.toNat

/-! ### The value of a row of digits

Digits are gathered in pieces, so that a long row asks for few operations on large numbers. The
piece counts less than `scale`; what stands before it is `value`. -/

structure Reading where
  value : Nat
  scale : Nat
  piece : Nat

namespace Reading

def empty : Reading := ⟨0, 1, 0⟩

def total (r : Reading) : Nat := r.value * r.scale + r.piece

/-- The scale at which a piece is complete. -/
def fullScale : Nat := Nat.pow 10 1000

def push (r : Reading) (d : Char) : Reading :=
  if r.scale < fullScale then ⟨r.value, 10 * r.scale, 10 * r.piece + digitValue d⟩
  else ⟨r.total, 10, digitValue d⟩

/-- Where a piece ends makes no difference to the total. -/
theorem total_push (r : Reading) (d : Char) : (r.push d).total = 10 * r.total + digitValue d := by
  unfold push
  split
  · have hscale : r.value * (10 * r.scale) = 10 * (r.value * r.scale) := Nat.mul_left_comm _ _ _
    simp only [total, hscale]
    omega
  · simp only [total]
    omega

end Reading

def digitsValue (ds : Text) : Nat := (ds.foldl Reading.push .empty).total

theorem digitsValue_nil : digitsValue [] = 0 := rfl

/-- Each digit is worth ten times what it would be one place further to the right. -/
theorem digitsValue_concat (ds : Text) (d : Char) :
    digitsValue (ds ++ [d]) = 10 * digitsValue ds + digitValue d := by
  simp only [digitsValue, List.foldl_append, List.foldl_cons, List.foldl_nil, Reading.total_push]

def natural? (t : Text) : Option Nat :=
  if !t.isEmpty && t.all Char.isDigit then some (digitsValue t) else none

/-- The number that an optional sign and a magnitude write. -/
def signed? (magnitude? : Text → Option Nat) : Text → Option Int
  | '-' :: ds => (magnitude? ds).map fun n => -(n : Int)
  | '+' :: ds => (magnitude? ds).map fun n => (n : Int)
  | ds => (magnitude? ds).map fun n => (n : Int)

/-- The bound of counts, `2 ^ 64`. -/
def countBound : Nat := 18446744073709551616

/-- The bound of integers with a sign, `2 ^ 63`. -/
def integerBound : Int := 9223372036854775808

def integer? (t : Text) : Option Int :=
  (signed? natural? t).filter fun n => -integerBound ≤ n && n < integerBound

/-- A count of 64 bits. A minus sign is refused, also before a zero. -/
def count? : Text → Option Nat
  | '+' :: ds => (natural? ds).filter (· < countBound)
  | ds => (natural? ds).filter (· < countBound)

def digits (n : Nat) : Text := Nat.toDigits 10 n

def integerText : Int → Text
  | .ofNat n => digits n
  | .negSucc n => '-' :: digits (n + 1)

/-- An integer that is read has 64 bits. -/
theorem integer?_bounds {t : Text} {n : Int} (h : integer? t = some n) :
    -integerBound ≤ n ∧ n < integerBound := by
  simpa using (Option.filter_eq_some_iff.1 h).2

end Stencil.Numeral
