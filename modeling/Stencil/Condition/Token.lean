import Stencil.Text.Blank
/-!
# Tokens of conditions

A condition is cut into connectives, brackets and the runs of text between them. A run of blanks
alone is no token. `closed` supplies the closing brackets that are missing at the end.
-/

namespace Stencil.Condition

inductive Token where
  | run (text : Text)
  | and
  | or
  | opening
  | closing
deriving DecidableEq, Repr

namespace Token

/-- A token as an error message names it; the end of the condition is no token. -/
def describe : Option Token → String
  | some (run t) => "'" ++ t.string ++ "'"
  | some and => "'&&'"
  | some or => "'||'"
  | some opening => "'('"
  | some closing => "')'"
  | none => "end of condition"

/-- The tokens with a finished run, given newest first, in front, unless it is blank. -/
def pushRun (run : Text) (done : List Token) : List Token :=
  if Text.isBlankText run then done else .run run.reverse :: done

/-- The cut in progress: the current run and the finished tokens, both newest first. -/
def scan (run : Text) (done : List Token) : Text → List Token
  | '&' :: '&' :: cs => scan [] (and :: pushRun run done) cs
  | '|' :: '|' :: cs => scan [] (or :: pushRun run done) cs
  | '(' :: cs => scan [] (opening :: pushRun run done) cs
  | ')' :: cs => scan [] (closing :: pushRun run done) cs
  | c :: cs => scan (c :: run) done cs
  | [] => (pushRun run done).reverse

def ofText (t : Text) : List Token := scan [] [] t

/-- The tokens with a closing bracket for every opening one in excess. -/
def closed (ts : List Token) : List Token :=
  ts ++ List.replicate (ts.count opening - ts.count closing) closing

end Token

end Stencil.Condition
