import Stencil.Condition.Basic
import Stencil.Condition.Token
/-!
# Reading conditions

Tokens are read one by one. Between two tokens the reader is in one of two states: it needs an
operand next, or it has just read a term and can go on with a connective or a closing bracket.
Either way it keeps the group it is in and the groups around that one, the innermost first.

`and` binds tighter than `or`, so a group keeps the finished operands of `or` and, apart from them,
the finished operands of the current chain of `and`. Groups nest at most `maxNesting` deep.
-/

namespace Stencil.Condition

inductive ParseError where
  | empty
  | unexpected (found : Option Token)
  | tooDeep
deriving DecidableEq, Repr

def maxNesting : Nat := 256

def ParseError.message : ParseError → String
  | empty => "empty condition"
  | unexpected found => "unexpected " ++ Token.describe found
  | tooDeep => "groups nested deeper than " ++ toString maxNesting

/-- The finished operands of an open group, newest first. -/
structure Group where
  ors : List Condition
  ands : List Condition

namespace Group

def empty : Group := ⟨[], []⟩

/-- The group after a term and `and`. -/
def conjoin (g : Group) (term : Condition) : Group := ⟨g.ors, term :: g.ands⟩

/-- The group after a term and `or`, which ends the chain of `and`. -/
def disjoin (g : Group) (term : Condition) : Group := ⟨join all (term :: g.ands) :: g.ors, []⟩

/-- The condition of the whole group, whose last term is given. -/
def close (g : Group) (term : Condition) : Condition := join any (g.disjoin term).ors

end Group

/-- The state of the reader between two tokens. -/
inductive Reader where
  | needsOperand (group : Group) (outer : List Group)
  | hasTerm (group : Group) (term : Condition) (outer : List Group)

namespace Reader

def start : Reader := needsOperand .empty []

def step : Reader → Token → Except ParseError Reader
  | needsOperand g outer, .run t => .ok (hasTerm g (ofRun t) outer)
  | needsOperand g outer, .opening =>
    if maxNesting ≤ outer.length then .error .tooDeep else .ok (needsOperand .empty (g :: outer))
  | hasTerm g term outer, .and => .ok (needsOperand (g.conjoin term) outer)
  | hasTerm g term outer, .or => .ok (needsOperand (g.disjoin term) outer)
  | hasTerm g term (o :: outer), .closing => .ok (hasTerm o (g.close term) outer)
  | _, tok => .error (.unexpected (some tok))

/-- The condition that was read, if the tokens may end here. -/
def finish : Reader → Except ParseError Condition
  | hasTerm g term [] => .ok (g.close term)
  | _ => .error (.unexpected none)

end Reader

def ofTokens (ts : List Token) : Except ParseError Condition :=
  (ts.foldlM Reader.step .start).bind Reader.finish

/-- The condition that a text writes. Missing closing brackets are supplied. -/
def parse (t : Text) : Except ParseError Condition :=
  if Text.isBlankText t then .error .empty else ofTokens (Token.closed (Token.ofText t))

/-- Whether the text writes a condition that is true. A malformed text does not. -/
def evaluate (t : Text) : Bool :=
  match parse t with
  | .ok c => c.holds
  | .error _ => false

end Stencil.Condition
