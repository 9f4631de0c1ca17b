import Stencil.Library.Argument
/-!
# Random numbers and time

A draw lies between two bounds, both included. A draw with a name is made once and kept in the
state. Waiting changes nothing that an evaluation can see, so the function that waits only checks
its argument.
-/

namespace Stencil.Library

/-- A number between two bounds, drawn from a natural number. -/
def drawBetween (low high : Int) (entropy : Nat) : Int := low + (entropy : Int) % (high - low + 1)

theorem drawBetween_bounds {low high : Int} (h : low ≤ high) (entropy : Nat) :
    low ≤ drawBetween low high entropy ∧ drawBetween low high entropy ≤ high := by
  have hspan : 0 < high - low + 1 := by omega
  have hnonneg := Int.emod_nonneg (entropy : Int) (Int.ne_of_gt hspan)
  have hlt := Int.emod_lt_of_pos (entropy : Int) hspan
  unfold drawBetween
  omega

def random : Body := fun ctx args => do
  let low ← integer args 0
  let high ← integer args 1
  if high < low then throw (.emptyRange low high)
  else
    let fresh := drawBetween low high ctx.entropy
    match text? args 2 with
    | none => reply (Numeral.integerText fresh)
    | some name =>
      let n ← modifyGet (·.drawOnce name fresh)
      reply (Numeral.integerText n)

/-- The time zone, or the change to another one. Its name has no blanks in it. -/
def timezone : Body := fun _ args => do
  match text? args 0 with
  | none => reply (← get).timezone
  | some t =>
    let zone := Text.trim t
    if zone.isEmpty || zone.any isBlank then throw (.badTimezone zone)
    else
      modify fun s => { s with timezone := zone }
      return .nothing

def sleep : Body := fun _ args => do
  let milliseconds ← integer args 0
  if milliseconds < 0 then throw (.negativeDuration milliseconds) else return .nothing

def chanceFunctions : List Function :=
  [standard "random" true ["min", "max", "name"] random,
    standard "timezone" false ["timezone"] timezone,
    standard "sleep" true ["milliseconds"] sleep]

end Stencil.Library
