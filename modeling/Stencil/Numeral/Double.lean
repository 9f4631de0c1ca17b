import Stencil.Numeral.Integer
/-!
# Double-precision numbers

Every finite double is a whole multiple of the least positive one, which is `2 ^ -1074`. A `Double`
is that multiple, so sums and comparisons are those of integers, and rounding is the choice of the
nearest integer on a grid: a magnitude of more than 53 bits keeps its 53 leading ones, and a tie
goes to the even neighbour.

`Double.ofDecimal?` reads a decimal, `Double.text` writes the shortest one that reads back. An
overflowing sum is `Total.infinite`.
-/

namespace Stencil.Numeral

/-- The quotient rounded to the nearest whole number, a tie to the even one. -/
def roundRatio (num den : Nat) : Nat :=
  let q := num / den
  let r := num % den
  if 2 * r < den then q else if den < 2 * r then q + 1 else q + q % 2

def bitLength (n : Nat) : Nat := if n = 0 then 0 else n.log2 + 1

/-- The distance of neighbouring doubles around a magnitude of whole units. -/
def spacing (units : Nat) : Nat := Nat.pow 2 (bitLength units - 53)

/-- The magnitude `num / den`, in units, rounded to a double. -/
def roundUnits (num den : Nat) : Nat :=
  let step := spacing (num / den)
  roundRatio num (den * step) * step

def unitsPerOne : Nat := Nat.pow 2 1074

/-- The least magnitude, in units, that is too large for a double. -/
def overflowUnits : Nat := Nat.pow 2 2098

/-- A finite double, as a multiple of the least positive one. -/
structure Double where
  units : Int
deriving DecidableEq, Repr

/-- A decimal: digits and a power of ten. -/
structure Decimal where
  negative : Bool
  digits : Nat
  exponent : Int
deriving DecidableEq, Repr

namespace Decimal

/-- The magnitude at which an exponent is far out of the range of doubles. -/
def farExponent : Nat := 65536

/-- The magnitude of an exponent. Digits behind one that makes it far count no more. -/
def exponentMagnitude? (ds : Text) : Option Nat :=
  if !ds.isEmpty && ds.all Char.isDigit then
    some (ds.foldl (fun n d => if n < farExponent then 10 * n + digitValue d else n) 0)
  else none

/-- The exponent part of a decimal: nothing, or a letter and a whole number. -/
def exponent? : Text → Option Int
  | [] => some 0
  | c :: cs => if c == 'e' || c == 'E' then signed? exponentMagnitude? cs else none

/-- The decimal without its sign: digits with at most one point among them, then an exponent. -/
def unsigned? (negative : Bool) (t : Text) : Option Decimal :=
  let whole := t.takeWhile Char.isDigit
  let rest := t.dropWhile Char.isDigit
  let (fraction, rest) :=
    match rest with
    | '.' :: r => (r.takeWhile Char.isDigit, r.dropWhile Char.isDigit)
    | _ => ([], rest)
  if whole.isEmpty && fraction.isEmpty then none
  else (exponent? rest).map fun e =>
    ⟨negative, digitsValue (whole ++ fraction), e - fraction.length⟩

def parse? : Text → Option Decimal
  | '-' :: t => unsigned? true t
  | '+' :: t => unsigned? false t
  | t => unsigned? false t

/-- The magnitude of a decimal in units, or none if a double cannot hold it. -/
def units? (d : Decimal) : Option Nat :=
  let n :=
    if 0 ≤ d.exponent then roundUnits (d.digits * Nat.pow 10 d.exponent.toNat * unitsPerOne) 1
    else roundUnits (d.digits * unitsPerOne) (Nat.pow 10 (-d.exponent).toNat)
  if n < overflowUnits then some n else none

end Decimal

/-- A running total: a double, or an overflow with its sign. -/
inductive Total where
  | finite (value : Double)
  | infinite (negative : Bool)
deriving DecidableEq, Repr

namespace Double

def zero : Double := ⟨0⟩

/-- The double nearest to a decimal, or none if the decimal is out of range. -/
def ofDecimal? (d : Decimal) : Option Double :=
  d.units?.map fun n => ⟨if d.negative then -(n : Int) else n⟩

def parse? (t : Text) : Option Double := (Decimal.parse? t).bind ofDecimal?

def add (a b : Double) : Total :=
  let exact := a.units + b.units
  let n := roundUnits exact.natAbs 1
  if n < overflowUnits then .finite ⟨if exact < 0 then -(n : Int) else n⟩
  else .infinite (exact < 0)

/-! ### The shortest decimal

A decimal reads back as a double when it lies in the interval of magnitudes that round to it. The
search goes from coarse grids of powers of ten to fine ones; on each grid only the two neighbours of
the double matter. The first grid that has one of them in the interval gives the fewest digits. -/

/-- The interval of magnitudes that round to a positive magnitude, in quarters of a unit, and
whether its ends belong to it. -/
structure Interval where
  low : Nat
  high : Nat
  closed : Bool

/-- The magnitudes that round to `n` units. Below a power of two the neighbour is half as far. -/
def intervalOf (n : Nat) : Interval :=
  let step := spacing n
  let below := if 1 < step && n == Nat.pow 2 n.log2 then step else 2 * step
  ⟨4 * n - below, 4 * n + 2 * step, n / step % 2 == 0⟩

/-- Whether the fraction `num / den`, in quarters of a unit, lies in the interval. -/
def Interval.has (i : Interval) (num den : Nat) : Bool :=
  if i.closed then i.low * den ≤ num && num ≤ i.high * den
  else i.low * den < num && num < i.high * den

/-- The multiple of `10 ^ k` that is in the interval of `n` and nearest to `n`, if there is one; of
two that are equally near the larger. -/
def onGrid? (n : Nat) (k : Int) : Option Nat :=
  let grid := 4 * unitsPerOne * Nat.pow 10 k.toNat
  let scale := Nat.pow 10 (-k).toNat
  let i := intervalOf n
  let lower := 4 * n * scale / grid
  let upper := lower + 1
  match i.has (lower * grid) scale, i.has (upper * grid) scale with
  | true, true =>
    if 4 * n * scale - lower * grid < upper * grid - 4 * n * scale then some lower else some upper
  | true, false => some lower
  | false, true => some upper
  | false, false => none

/-- The digits and the power of ten of the shortest decimal, with at most `fuel` grids to try. -/
def shortestFrom (n : Nat) : Nat → Int → Nat × Int
  | 0, k => (4 * n * Nat.pow 10 (-k).toNat / (4 * unitsPerOne * Nat.pow 10 k.toNat), k)
  | fuel + 1, k =>
    match onGrid? n k with
    | some d => (d, k)
    | none => shortestFrom n fuel (k - 1)

/-- The digits and the power of ten of the shortest decimal that rounds to `n` units. -/
def shortest (n : Nat) : Nat × Int :=
  let top := (Numeral.digits (n / unitsPerOne)).length
  shortestFrom n (top + 345) top

/-- Digits and a power of ten in positional notation. -/
def positional (d : Nat) (k : Int) : Text :=
  let ds := Numeral.digits d
  if 0 ≤ k then ds ++ List.replicate k.toNat '0'
  else
    let places := (-k).toNat
    if places < ds.length then
      ds.take (ds.length - places) ++ '.' :: ds.drop (ds.length - places)
    else '0' :: '.' :: List.replicate (places - ds.length) '0' ++ ds

/-- The shortest decimal that reads back as the double, without an exponent. -/
def text (x : Double) : Text :=
  if x.units = 0 then ['0']
  else
    let (d, k) := shortest x.units.natAbs
    if x.units < 0 then '-' :: positional d k else positional d k

end Double

namespace Total

/-- The total after one more number. An overflow stays. -/
def add : Total → Double → Total
  | finite a, b => a.add b
  | infinite s, _ => infinite s

def text : Total → Text
  | finite a => a.text
  | infinite false => ['i', 'n', 'f']
  | infinite true => ['-', 'i', 'n', 'f']

end Total

end Stencil.Numeral
