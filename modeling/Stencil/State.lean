import Stencil.Table
/-!
# The state of an evaluation

Functions share one state: variables, arrays, the pieces of the last split text, the random draws
that have a name, and the time zone. There are no scopes; what one call writes, every later call
reads.
-/

namespace Stencil

structure ExecutionState where
  vars : Table Text
  arrays : Table (List Text)
  splits : List Text
  draws : Table Int
  timezone : Text

namespace ExecutionState

/-- The state without any entries, in the given time zone. -/
def inTimezone (timezone : Text) : ExecutionState := ⟨.empty, .empty, [], .empty, timezone⟩

/-- The state without any entries, in universal time. -/
def initial : ExecutionState := inTimezone ['U', 'T', 'C']

def getVariable (s : ExecutionState) (name : Text) : Option Text := s.vars.get? name

def setVariable (s : ExecutionState) (name value : Text) : ExecutionState :=
  { s with vars := s.vars.set name value }

def unsetVariable (s : ExecutionState) (name : Text) : ExecutionState :=
  { s with vars := s.vars.erase name }

def getArray (s : ExecutionState) (name : Text) : Option (List Text) := s.arrays.get? name

def setArray (s : ExecutionState) (name : Text) (items : List Text) : ExecutionState :=
  { s with arrays := s.arrays.set name items }

def getDraw (s : ExecutionState) (name : Text) : Option Int := s.draws.get? name

/-- The draw of a name and the state that keeps it; the first draw of a name stays. -/
def drawOnce (s : ExecutionState) (name : Text) (fresh : Int) : Int × ExecutionState :=
  match s.getDraw name with
  | some n => (n, s)
  | none => (fresh, { s with draws := s.draws.set name fresh })

end ExecutionState

end Stencil
