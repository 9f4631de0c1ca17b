import Stencil.Bracket
import Stencil.Keyword
import Stencil.Text.Fold
/-!
# Blocks

A block runs from `$if[` to `$endif`. It has a condition and a body, any number of alternatives that
`$elseif[` opens, each with a condition and a body of its own, and a body behind `$else`.

`Block.findInnermost` takes the last `$if[` of a text and the first `$endif` behind its condition,
so no other block begins in between. Alternatives are cut out of the region first; what they leave
is split at the first `$else`. A body can therefore consist of several spans. `$endelseif` ends an
alternative; where it is missing the alternative ends at the next one, at `$else` or with the
region, unless it is required.
-/

namespace Stencil

inductive BlockError where
  | missingEndIf
  | missingIf
  | unclosedCondition
  | missingEndElseIf
  | unclosedElseIfCondition
deriving DecidableEq, Repr

def BlockError.message : BlockError → String
  | missingEndIf => "Invalid $if usage: Missing $endif"
  | missingIf => "Invalid $if usage: Missing $if[ before $endif"
  | unclosedCondition => "Invalid $if usage: Unclosed condition bracket"
  | missingEndElseIf => "Invalid $elseif usage: Missing $endelseif"
  | unclosedElseIfCondition => "Invalid $elseif usage: Unclosed condition bracket"

structure Alternative where
  condition : Span
  body : Span
deriving DecidableEq, Repr

/-- The parts of a block, as spans of the text that holds it. -/
structure Block where
  /-- From `$if[` to the end of `$endif`. -/
  span : Span
  condition : Span
  body : List Span
  /-- In the order of the text. -/
  alternatives : List Alternative
  /-- Empty without `$else`. -/
  otherwise : List Span
deriving DecidableEq, Repr

namespace Block

/-- The span as a list of parts, none if it is empty. -/
def part (s : Span) : List Span := if s.isEmpty then [] else [s]

/-- Whether a text goes on with `if` in either case. -/
def goesOnWithIf (t : Text) : Bool := Text.lowerAscii (t.take 2) == ['i', 'f']

/-- The first of some occurrences of `$else` that lies in a span and does not begin `$elseif`. -/
def firstElse? (t : Text) (within : Span) : List Span → Option Span
  | [] => none
  | e :: es =>
    if within.stop < e.stop then none
    else if e.start < within.start || goesOnWithIf (t.drop e.stop) then firstElse? t within es
    else some e

/-- The first `$else` in a span that does not begin `$elseif`. -/
def findElse? (t : Text) (within : Span) : Option Span :=
  firstElse? t within (Keyword.otherwise.findAll t)

/-! ### Alternatives

`alternatives` runs along the occurrences of `$elseif[` up to the end of the region. Those before
the position are conditions' text and are skipped. -/

/-- The alternative that an occurrence of `$elseif[` opens and the position behind it; `next` is
where the next alternative or the end of the region is. -/
def alternativeAt (t : Text) (strict : Bool) (condition : Span) (next : Nat) :
    Except BlockError (Alternative × Nat) :=
  let start := condition.stop + 1
  match (Keyword.endElseIf.find? t start).filter (·.stop ≤ next) with
  | some e => .ok (⟨condition, ⟨start, e.start⟩⟩, e.stop)
  | none =>
    if strict then .error .missingEndElseIf
    else
      let stop := ((findElse? t ⟨start, next⟩).map (·.start)).getD next
      .ok (⟨condition, ⟨start, stop⟩⟩, stop)

/-- What the alternatives leave of a region from a position on, and the alternatives, given the
occurrences of `$elseif[` in the region. -/
def cutAlternatives (t : Text) (strict : Bool) (regionEnd : Nat) (position : Nat) :
    List Span → Except BlockError (List Span × List Alternative)
  | [] => .ok (part ⟨position, regionEnd⟩, [])
  | opener :: later =>
    if opener.start < position then cutAlternatives t strict regionEnd position later
    else
      match (Bracket.closing? t (opener.stop - 1)).filter (· < regionEnd) with
      | none => .error .unclosedElseIfCondition
      | some closing =>
        let next := ((later.find? (closing < ·.start)).map (·.start)).getD regionEnd
        match alternativeAt t strict ⟨opener.stop, closing⟩ next with
        | .error e => .error e
        | .ok (alternative, position') =>
          match cutAlternatives t strict regionEnd position' later with
          | .error e => .error e
          | .ok (parts, alternatives) =>
            .ok (part ⟨position, opener.start⟩ ++ parts, alternative :: alternatives)

/-- What remains of a region, split at the first `$else`. -/
def splitAtElse (t : Text) : List Span → List Span × List Span
  | [] => ([], [])
  | p :: ps =>
    match findElse? t p with
    | some e => (part ⟨p.start, e.start⟩, part ⟨e.stop, p.stop⟩ ++ ps)
    | none =>
      let (body, otherwise) := splitAtElse t ps
      (p :: body, otherwise)

/-- The block that the last `$if[` of a text opens. -/
def findInnermost (t : Text) (strict : Bool) : Except BlockError Block :=
  if !Keyword.endIf.isPresent t then .error .missingEndIf
  else
    match Keyword.ifOpen.findLast? t with
    | none => .error .missingIf
    | some opener =>
      match Bracket.closing? t (opener.stop - 1) with
      | none => .error .unclosedCondition
      | some closing =>
        match Keyword.endIf.find? t (closing + 1) with
        | none => .error .missingEndIf
        | some endIf =>
          let openers := (Keyword.elseIfOpen.findAll t).filter (·.start < endIf.start)
          match cutAlternatives t strict endIf.start (closing + 1) openers with
          | .error e => .error e
          | .ok (parts, alternatives) =>
            let (body, otherwise) := splitAtElse t parts
            .ok ⟨⟨opener.start, endIf.stop⟩, ⟨opener.stop, closing⟩, body, alternatives, otherwise⟩

/-! ### Positions inside blocks

The marks of a text are its `$if[` and `$endif`. A position is inside a block when the marks before
it leave a block open; an `$endif` without a block to close counts for nothing. -/

inductive Mark where
  | opening
  | closing
deriving DecidableEq, Repr

def marks : Text → List Mark
  | [] => []
  | c :: cs =>
    if Keyword.ifOpen.startsIn (c :: cs) then .opening :: marks cs
    else if Keyword.endIf.startsIn (c :: cs) then .closing :: marks cs
    else marks cs

/-- The number of open blocks after one more mark. -/
def openAfter (depth : Nat) : Mark → Nat
  | .opening => depth + 1
  | .closing => depth - 1

def isInside (t : Text) (i : Nat) : Bool := 0 < (marks (t.take i)).foldl openAfter 0

end Block

end Stencil
