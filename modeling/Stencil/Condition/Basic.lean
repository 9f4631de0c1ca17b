import Stencil.Condition.Comparison
/-!
# Conditions

A condition is built from comparisons by conjunction and disjunction. A run of text without an
operator is the condition that is never true. Chains of one connective are flat: a connective joins
two or more terms, and a single term stands for itself, which is what `join` sees to.
-/

namespace Stencil

inductive Condition where
  /-- A run of text without an operator. -/
  | never
  | test (comparison : Comparison)
  | all (terms : List Condition)
  | any (terms : List Condition)

namespace Condition

mutual

def holds : Condition → Bool
  | never => false
  | test c => c.holds
  | all terms => allHold terms
  | any terms => anyHolds terms

def allHold : List Condition → Bool
  | [] => true
  | c :: cs => c.holds && allHold cs

def anyHolds : List Condition → Bool
  | [] => false
  | c :: cs => c.holds || anyHolds cs

end

theorem allHold_eq_all (cs : List Condition) : allHold cs = cs.all holds := by
  induction cs with
  | nil => simp [allHold]
  | cons c cs ih => simp [allHold, ih]

theorem anyHolds_eq_any (cs : List Condition) : anyHolds cs = cs.any holds := by
  induction cs with
  | nil => simp [anyHolds]
  | cons c cs ih => simp [anyHolds, ih]

def ofRun (t : Text) : Condition :=
  match Comparison.parse? t with
  | some c => test c
  | none => never

/-- Terms under a connective, given newest first; a single term stands for itself. -/
def join (connective : List Condition → Condition) : List Condition → Condition
  | [term] => term
  | terms => connective terms.reverse

end Condition

end Stencil
