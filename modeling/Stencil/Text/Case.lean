import Stencil.Text.CaseTable
import Stencil.Text.Basic
/-!
# Upper and lower case

`upper` and `lower` map every character of a text by the full case mappings of Unicode, under which
a character can become several: `ß` has the upper case `SS`. One mapping depends on its
neighbours: a capital sigma at the end of a word becomes the final form `ς`.
-/

namespace Stencil.Text

/-- The code point mapped by the first run that covers it. -/
def mapByRuns (runs : List CaseRun) (n : Nat) : Nat :=
  match runs.findSome? (·.shift? n) with
  | some d => (n + d).toNat
  | none => n

/-- The case mapping of one character: the table of expansions first, then the runs. -/
def mapCase (expansions : List (Nat × List Nat)) (runs : List CaseRun) (c : Char) : Text :=
  match expansions.lookup c.toNat with
  | some ns => ns.map Char.ofNat
  | none => [Char.ofNat (mapByRuns runs c.toNat)]

def upperChar (c : Char) : Text :=
  if c.toNat < 0x80 then [c.toUpper]
  else mapCase CaseTable.upperExpansions CaseTable.upperRuns c

/-- The lower case of one character that stands by itself. -/
def lowerChar (c : Char) : Text :=
  if c.toNat < 0x80 then [c.toLower]
  else mapCase CaseTable.lowerExpansions CaseTable.lowerRuns c

def inRanges (ranges : List (Nat × Nat)) (n : Nat) : Bool :=
  ranges.any fun r => r.1 ≤ n && n ≤ r.2

/-- Whether the first character that counts is a cased one. -/
def meetsCased (t : Text) : Bool :=
  match t.dropWhile (fun c => inRanges CaseTable.ignorableRanges c.toNat) with
  | c :: _ => inRanges CaseTable.casedRanges c.toNat
  | [] => false

def upper (t : Text) : Text := t.flatMap upperChar

/-- Lower case in progress: the characters already read and those already written, both newest
first. A capital sigma is final when a cased character precedes it and none follows. -/
def lowerLoop (before out : Text) : Text → Text
  | [] => out.reverse
  | c :: cs =>
    let image :=
      if c = 'Σ' then (if meetsCased before && !meetsCased cs then ['ς'] else ['σ'])
      else lowerChar c
    lowerLoop (c :: before) (image.reverse ++ out) cs

def lower (t : Text) : Text := lowerLoop [] [] t

end Stencil.Text
