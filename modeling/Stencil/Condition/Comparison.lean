import Stencil.Numeral.Double
import Stencil.Text.Blank
import Stencil.Text.Escape
import Stencil.Text.Order
import Stencil.Text.Split
/-!
# Comparisons

A comparison is a run of text with an operator in it. The operators are tried in a fixed order, the
longer ones first, so that `>=` is never read as `>`; the operands are what stands before the first
occurrence and between it and the next one, without the blanks around them and with codes read.

Equality is that of texts. The four relations compare numbers when both operands are finite numbers
and texts otherwise, by code points.
-/

namespace Stencil

inductive Operator where
  | equal
  | unequal
  | atLeast
  | atMost
  | above
  | below
deriving DecidableEq, Repr

namespace Operator

/-- The operators in the order in which they are tried. -/
def all : List Operator := [equal, unequal, atLeast, atMost, above, below]

def symbol : Operator → Text
  | equal => ['=', '=']
  | unequal => ['!', '=']
  | atLeast => ['>', '=']
  | atMost => ['<', '=']
  | above => ['>']
  | below => ['<']

/-- Whether the relation holds between operands in this order. -/
def accepts : Operator → Ordering → Bool
  | equal, o => o == .eq
  | unequal, o => o != .eq
  | atLeast, o => o != .lt
  | atMost, o => o != .gt
  | above, o => o == .gt
  | below, o => o == .lt

end Operator

structure Comparison where
  left : Text
  op : Operator
  right : Text
deriving DecidableEq, Repr

namespace Comparison

/-- An operand as written: without the blanks around it and with codes read. -/
def operand (t : Text) : Text := Text.unescape (Text.trim t)

def parse? (t : Text) : Option Comparison :=
  (Operator.all.find? fun op => Text.contains op.symbol t).map fun op =>
    let parts := Text.split op.symbol t
    ⟨operand (parts.headD []), op, operand (parts.getD 1 [])⟩

/-- The order of two operands: by value if both are finite numbers, else by code points. -/
def order (a b : Text) : Ordering :=
  match Numeral.Double.parse? a, Numeral.Double.parse? b with
  | some x, some y => compare x.units y.units
  | _, _ => Text.order a b

def holds (c : Comparison) : Bool :=
  match c.op with
  | .equal => c.left == c.right
  | .unequal => c.left != c.right
  | op => op.accepts (order c.left c.right)

end Comparison

end Stencil
