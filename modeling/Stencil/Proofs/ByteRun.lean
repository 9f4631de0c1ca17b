import Stencil.Proofs.ByteBlocks
import Stencil.Proofs.Run
/-!
# Evaluations by byte offsets

An evaluation can be done on texts with ranges: calls and blocks are found by byte offsets
(`CallSite.findByte?`, `Block.findInnermostByte?`), and what is between offsets is sliced out. A
slice that is not there ends such an evaluation without any outcome. No evaluation ends so: each step
does what the step on documents does (`Mirrors`), and so does a whole resolution
(`mirrors_resolve`).
-/

namespace Stencil

open Text (byteLength byteOffset cut? inBytes)

/-! ### Checked slices of documents -/

namespace Ranged

def literal (t : Text) : Ranged := ⟨t, if t.isEmpty then [] else [⟨0, byteLength t⟩]⟩

def rendered (d : Ranged) : Text := Text.trim (Text.unescape d.text)

/-- `slice`, if the range is one of the text. -/
def slice? (d : Ranged) (r : Span) : Option Ranged := do
  let text ← cut? d.text r
  return ⟨text, d.literals.filterMap r.clip?⟩

def gather? (d : Ranged) (rs : List Span) : Option Ranged :=
  rs.foldlM (fun out r => (d.slice? r).map out.push) ⟨[], []⟩

def splice? (d : Ranged) (r : Span) (e : Ranged) : Option Ranged := do
  let tail ← d.slice? ⟨r.stop, byteLength d.text⟩
  let kept ← d.slice? ⟨0, r.start⟩
  return (kept.push e).push tail

/-- `piecesFrom`, if the ranges are ones of the text. -/
def piecesFrom? (d : Ranged) (b : Nat) : List Span → Option (List Fragment)
  | [] =>
    if b < byteLength d.text then do
      let rest ← cut? d.text ⟨b, byteLength d.text⟩
      return [⟨.source, rest⟩]
    else some []
  | r :: rs => do
    let before ← if b < r.start then (cut? d.text ⟨b, r.start⟩).map fun t => [⟨.source, t⟩]
      else some []
    let returned ← cut? d.text r
    let behind ← d.piecesFrom? r.stop rs
    return before ++ ⟨.literal, returned⟩ :: behind

def hasMarker? (d : Ranged) : Option Bool := do
  let fragments ← d.piecesFrom? 0 d.literals
  return fragments.any fun f => f.origin == .source && Text.hasMarker f.text

end Ranged

/-! ### The evaluation by offsets -/

/-- A step of an evaluation that can also end because a slice is not there. -/
abbrev SlicedEval := ExceptT EvalError (StateT Session Option)

namespace SlicedEval

variable {α : Type}

/-- What is read of a text. -/
def reading (o : Option α) : SlicedEval α := fun s => o.map fun a => (.ok a, s)

/-- A step that reads no text. -/
def lift (x : Eval α) : SlicedEval α := fun s => some (x s)

end SlicedEval

namespace Block

/-- All that a block is made of. -/
def ranges (b : Block) : List Span :=
  b.span :: b.conditions ++ b.choices.flatten

end Block

namespace Evaluator

open SlicedEval (reading lift)

/-- Resolves a part of a text with ranges. -/
abbrev NestedSlices := Ranged → SlicedEval Ranged

def slicedArgument (nested : NestedSlices) (d : Ranged) : Option Span → SlicedEval Arg
  | none => pure none
  | some r => do
    let part ← reading (d.slice? r)
    if ← reading part.hasMarker? then return some (← nested part).rendered
    else return some (Text.unescape part.text)

def slicedArguments (nested : NestedSlices) (d : Ranged) (slots : List (Option Span)) :
    SlicedEval (List Arg) :=
  slots.mapM (slicedArgument nested d)

def slicedPerform (ev : Evaluator) (nested : NestedSlices) (d : Ranged) (f : Function) (span : Span)
    (slots : List (Option Span)) : SlicedEval Ranged := do
  lift ev.countWork
  let args ← slicedArguments nested d slots
  let result ← lift (ev.callFunction f args)
  reading (d.splice? span (.literal (Text.escape result)))

def slicedInvoke (ev : Evaluator) (nested : NestedSlices) (d : Ranged) (name : Text) :
    SlicedEval Ranged :=
  match ev.registry.get? name with
  | none => pure d
  | some f => do
    match ← reading (CallSite.findByte? d name) with
    | .absent | .escaped _ | .unterminated _ => pure d
    | .bare span =>
      if f.brackets then throw (.usage f.name.text f.params) else ev.slicedPerform nested d f span []
    | .call span slots => ev.slicedPerform nested d f span slots

def slicedConditionHolds (nested : NestedSlices) (d : Ranged) (r : Span) : SlicedEval Bool := do
  let part ← reading (d.slice? r)
  let resolved ← nested part
  return Condition.evaluate resolved.text

def slicedChooseAlternative (nested : NestedSlices) (d : Ranged) (otherwise : List Span) :
    List Alternative → SlicedEval (List Span)
  | [] => pure otherwise
  | a :: rest => do
    if ← slicedConditionHolds nested d a.condition then return [a.body]
    else slicedChooseAlternative nested d otherwise rest

def slicedChooseBody (nested : NestedSlices) (d : Ranged) (b : Block) : SlicedEval (List Span) := do
  if ← slicedConditionHolds nested d b.condition then return b.body
  else slicedChooseAlternative nested d b.otherwise b.alternatives

/-- Every range of the block is tried, also those of the bodies that are not chosen. -/
def slicedResolveBlock (ev : Evaluator) (nested : NestedSlices) (d : Ranged) : SlicedEval Ranged := do
  match ← reading (Block.findInnermostByte? d.text ev.strict) with
  | .error cause => throw (.structural cause)
  | .ok b =>
    let _ ← reading (b.ranges.mapM (cut? d.text))
    lift ev.countWork
    let body ← slicedChooseBody nested d b
    let chosen ← reading (d.gather? body)
    reading (d.splice? b.span chosen)

def slicedIsPending (d : Ranged) (name : Text) : Option Bool :=
  if Worklist.isControl name then some true
  else
    match d.findName? name 0 with
    | none => some false
    | some b => Block.isInsideByte? d.text b

inductive SlicedPass where
  | settled (document : Ranged)
  | restarted (document : Ranged)

def slicedRunPass (ev : Evaluator) (nested : NestedSlices) :
    List Text → Ranged → SlicedEval SlicedPass
  | [], d => pure (.settled d)
  | name :: rest, d => do
    if ← reading (slicedIsPending d name) then return .restarted (← ev.slicedResolveBlock nested d)
    else
      let d' ← ev.slicedInvoke nested d name
      slicedRunPass ev nested rest d'

def slicedPasses (ev : Evaluator) (nested : NestedSlices) : Nat → Ranged → SlicedEval Ranged
  | 0, d => pure d
  | n + 1, d => do
    match ← ev.slicedRunPass nested (Worklist.ofText ev.names d.text) d with
    | .settled d' => return d'
    | .restarted d' => slicedPasses ev nested n d'

def slicedResolve (ev : Evaluator) : Nat → Ranged → SlicedEval Ranged
  | 0, _ => throw (.tooDeep ev.limits.depth)
  | levels + 1, d => ev.slicedPasses (ev.slicedResolve levels) (d.text.count '$') d

/-- The evaluation of a source, if every slice that it reads is there. -/
def slicedEvaluate (ev : Evaluator) (source : Text) (state : ExecutionState) : Option Report :=
  (ev.slicedResolve (ev.limits.depth + 1) ⟨source, []⟩ (.start state)).map fun
    | (.ok d, s) => ⟨.ok ⟨d.rendered, s.artifacts, s.state⟩, s.calls⟩
    | (.error e, s) => ⟨.error e, s.calls⟩

end Evaluator

/-! ### The slices are there -/

namespace Ranged

variable {d : Ranged} {r : Span} {rs : List Span} {b : Nat}

/-- A slice in range is there, and it is the slice without a check. -/
theorem slice?_of_inRange (h : Text.InRange d.text r) : d.slice? r = some (d.slice r) := by
  rw [slice?, Text.cut?_of_inRange h]
  rfl

/-- So a row of slices in range is gathered. -/
theorem gather?_of_inRange (h : ∀ r ∈ rs, Text.InRange d.text r) :
    d.gather? rs = some (d.gather rs) := by
  rw [gather?, gather]
  generalize (⟨[], []⟩ : Ranged) = out
  induction rs generalizing out with
  | nil => rfl
  | cons r rs ih =>
    rw [List.foldlM_cons, slice?_of_inRange (h r List.mem_cons_self)]
    exact ih (fun r' hr' => h r' (List.mem_cons_of_mem r hr')) _

/-- What is replaced is in range, so what is kept before it and behind it is in range too. -/
theorem splice?_of_inRange (h : Text.InRange d.text r) (e : Ranged) :
    d.splice? r e = some (d.splice r e) := by
  have hbefore : Text.InRange d.text ⟨0, r.start⟩ :=
    ⟨Nat.zero_le _, Text.isBoundary_zero _, h.start⟩
  have hbehind : Text.InRange d.text ⟨r.stop, byteLength d.text⟩ :=
    ⟨h.stop.le_byteLength, h.stop, Text.isBoundary_byteLength _⟩
  rw [splice?, slice?_of_inRange hbefore, slice?_of_inRange hbehind]
  rfl

/-- The pieces between ranges begin and end at boundaries, so each of them is there. -/
theorem piecesFrom?_of_inRange (hb : Text.IsBoundary d.text b)
    (h : ∀ r ∈ rs, Text.InRange d.text r) : d.piecesFrom? b rs = some (d.piecesFrom b rs) := by
  induction rs generalizing b with
  | nil =>
    rw [piecesFrom?, piecesFrom]
    split
    -- the rest of the text behind the last range
    · next hlt =>
      rw [Text.cut?_of_inRange ⟨hlt.le, hb, Text.isBoundary_byteLength _⟩]
      rfl
    · rfl
  | cons r rs ih =>
    have hr := h r List.mem_cons_self
    have hrest := ih hr.stop fun r' hr' => h r' (List.mem_cons_of_mem r hr')
    rw [piecesFrom?, piecesFrom, Text.cut?_of_inRange hr, hrest]
    split
    -- what stands before the range, if anything does
    · next hlt =>
      rw [Text.cut?_of_inRange ⟨hlt.le, hb, hr.start⟩]
      rfl
    · rfl

end Ranged

namespace Document

variable {d : Document} {s : Span}

/-- Ranges within the bounds of a document are in range in its text. -/
theorem InBounds.inRange {r : Span} (h : d.InBounds r) : Text.InRange d.ranged.text r :=
  ⟨h.start_le_stop, h.start, h.stop⟩

/-- A span in bytes is within bounds, and it is read back as the span. -/
theorem inBounds_inBytes (hle : s.start ≤ s.stop) (hstop : s.stop ≤ d.text.length) :
    d.InBounds (inBytes d.text s) ∧ d.spanOf (inBytes d.text s) = s :=
  have h := Text.inRange_inBytes hle hstop
  ⟨⟨h.start_le_stop, h.start, h.stop⟩, Text.spanOfBytes_inBytes (hle.trans hstop) hstop⟩

/-- A slice by byte offsets is the slice by positions. -/
theorem slice?_ranged (hle : s.start ≤ s.stop) (hstop : s.stop ≤ d.text.length) :
    d.ranged.slice? (inBytes d.text s) = some (d.slice s).ranged := by
  obtain ⟨hbounds, hspan⟩ := inBounds_inBytes hle hstop
  rw [Ranged.slice?_of_inRange hbounds.inRange, ← ranged_slice hbounds, hspan]

/-- The same for the slices of a body. -/
theorem gather?_ranged {spans : List Span}
    (h : ∀ s ∈ spans, s.start ≤ s.stop ∧ s.stop ≤ d.text.length) :
    d.ranged.gather? (spans.map (inBytes d.text)) = some (d.gather spans).ranged := by
  -- each range is read back as its span
  have hback : (spans.map (inBytes d.text)).map d.spanOf = spans := by
    rw [List.map_map]
    exact (List.map_congr_left fun s hs => (inBounds_inBytes (h s hs).1 (h s hs).2).2).trans
      (List.map_id spans)
  have hbounds : ∀ r ∈ spans.map (inBytes d.text), d.InBounds r := by
    intro r hr
    obtain ⟨s, hs, rfl⟩ := List.mem_map.1 hr
    exact (inBounds_inBytes (h s hs).1 (h s hs).2).1
  rw [Ranged.gather?_of_inRange fun r hr => (hbounds r hr).inRange, ← ranged_gather hbounds, hback]

/-- The same for a replacement. -/
theorem splice?_ranged (hle : s.start ≤ s.stop) (hstop : s.stop ≤ d.text.length) (e : Document) :
    d.ranged.splice? (inBytes d.text s) e.ranged = some (d.splice s e).ranged := by
  obtain ⟨hbounds, hspan⟩ := inBounds_inBytes hle hstop
  rw [Ranged.splice?_of_inRange hbounds.inRange, ← ranged_splice hbounds, hspan]

/-- Literal text begins and ends between characters. -/
theorem inBounds_of_mem_literals {r : Span} (h : r ∈ d.literals) : d.InBounds r := by
  -- the ranges begin behind the fragments that were passed
  have hfrom : ∀ (before : Text) (fs : List Fragment), d.text = before ++ Fragment.rowText fs →
      r ∈ Fragment.literalsFrom (byteLength before) fs → d.InBounds r := by
    intro before fs
    induction fs generalizing before with
    | nil => exact fun _ h => nomatch h
    | cons f fs ih =>
      obtain ⟨origin, t⟩ := f
      intro htext hr
      rw [Fragment.rowText_cons] at htext
      have hlater := ih (before ++ t) (by rw [htext, List.append_assoc])
      rw [Text.byteLength_append] at hlater
      cases origin with
      | source => exact hlater hr
      -- the fragment is literal, so its own range comes first, and it ends where its text does
      | literal =>
        rcases List.mem_cons.1 hr with rfl | hr
        · refine ⟨Nat.le_add_right _ _, ?_, ?_⟩
          · rw [htext]
            exact Text.isBoundary_append _ _
          · rw [htext, ← List.append_assoc, ← Text.byteLength_append]
            exact Text.isBoundary_append _ _
        · exact hlater hr
  exact hfrom [] d.fragments rfl h

/-- Whether a document has a marker is told by its pieces between the literal ranges. -/
theorem hasMarker?_ranged (d : Document) : d.ranged.hasMarker? = some d.hasMarker := by
  have hpieces : d.ranged.piecesFrom? 0 d.ranged.literals = some d.fragments := by
    rw [← ranged_fragments]
    exact Ranged.piecesFrom?_of_inRange (Text.isBoundary_zero _)
      fun r hr => (inBounds_of_mem_literals hr).inRange
  rw [Ranged.hasMarker?, hpieces]
  rfl

end Document

/-! ### An evaluation by offsets is the evaluation -/

namespace SlicedEval

variable {α β : Type}

/-- A bind of such an evaluation, on a session: what is not there ends it without any outcome. -/
theorem bind_apply (x : SlicedEval α) (k : α → SlicedEval β) (s : Session) :
    (x >>= k) s = (x s).bind fun
      | (.ok a, s') => k a s'
      | (.error e, s') => some (.error e, s') := by
  change Option.bind (x s) (fun p => ExceptT.bindCont k p.1 p.2) = _
  congr 1
  funext p
  rcases p with ⟨_ | _, _⟩ <;> rfl

end SlicedEval

open SlicedEval (reading lift)

/-- The step by offsets ends, and as the step on documents does; what it gives is the same thing in
offsets. -/
def Mirrors {α β : Type} (f : α → β) (x : SlicedEval β) (y : Eval α) : Prop :=
  ∀ s, x s = some ((y s).1.map f, (y s).2)

namespace Mirrors

variable {α β γ δ : Type} {f : α → β} {g : γ → δ} {x : SlicedEval β} {y : Eval α}

theorem pure (f : α → β) (a : α) : Mirrors f (pure (f a)) (pure a) := fun _ => rfl

theorem throw (f : α → β) (e : EvalError) : Mirrors f (throw e) (throw e) := fun _ => rfl

theorem lift (y : Eval α) : Mirrors id (lift y) y := fun s => by
  rw [SlicedEval.lift]
  rcases y s with ⟨_ | _, _⟩ <;> rfl

/-- What is there is read without a change of the session. -/
theorem reading {o : Option β} {a : α} (h : o = some (f a)) : Mirrors f (reading o) (Pure.pure a) :=
  fun s => by rw [SlicedEval.reading, h]; rfl

/-- What follows need only be the same for what the first step can give. -/
theorem bind_of_given {k : β → SlicedEval δ} {l : α → Eval γ} (h : Mirrors f x y)
    (hk : ∀ a s s', y s = (.ok a, s') → Mirrors g (k (f a)) (l a)) :
    Mirrors g (x >>= k) (y >>= l) := fun s => by
  rw [SlicedEval.bind_apply, Eval.bind_apply, h s]
  rcases hy : y s with ⟨e | a, s'⟩
  · rfl
  · exact hk a s s' hy s'

theorem bind {k : β → SlicedEval δ} {l : α → Eval γ} (h : Mirrors f x y)
    (hk : ∀ a, Mirrors g (k (f a)) (l a)) : Mirrors g (x >>= k) (y >>= l) :=
  h.bind_of_given fun a _ _ _ => hk a

/-- What is read is there. -/
theorem of_reading {o : Option β} {b : β} {k : β → SlicedEval δ} {l : Eval γ} (h : o = some b)
    (hk : Mirrors g (k b) l) : Mirrors g (SlicedEval.reading o >>= k) l := fun s => by
  rw [SlicedEval.bind_apply, SlicedEval.reading, h]
  exact hk s

end Mirrors

namespace CallSite

/-- The slots of a call are spans of the text. -/
theorem Covers.slot_le {d : Document} {name : Text} {span slot : Span} {slots : List (Option Span)}
    (h : Covers d name span slots) (hslot : some slot ∈ slots) :
    slot.start ≤ slot.stop ∧ slot.stop ≤ d.text.length := by
  obtain ⟨inner, -, horder, -⟩ := h.slots_inOrder
  obtain ⟨-, hle, hstop⟩ := horder.bounds (List.mem_filterMap.2 ⟨some slot, hslot, rfl⟩)
  exact ⟨hle, hstop.trans h.stop_le⟩

end CallSite

namespace Block

variable {t : Text} {b : Block}

/-- All ranges of a block that was found are within the text. -/
theorem Laid.range_le (h : Laid t b) {s : Span} (hs : s ∈ b.ranges) :
    s.start ≤ s.stop ∧ s.stop ≤ t.length := by
  have hstop := h.stop_le
  have hregion : b.regionEnd ≤ t.length := (Nat.sub_le _ _).trans hstop
  -- the block itself, then its conditions, then the texts that it can choose
  rcases List.mem_cons.1 hs with rfl | hs
  · exact ⟨by have := h.start_le_stop; omega, hstop⟩
  rcases List.mem_append.1 hs with hs | hs
  · obtain ⟨-, hle, hle'⟩ := h.conditions_inOrder.bounds hs
    exact ⟨hle, hle'.trans hregion⟩
  · obtain ⟨chosen, hchosen, hs⟩ := List.mem_flatten.1 hs
    obtain ⟨-, hle, hle'⟩ := (h.choice_inOrder hchosen).bounds hs
    exact ⟨hle, hle'.trans hstop⟩

/-- The ranges of a block in bytes are its ranges. -/
theorem ranges_inBytes (t : Text) (b : Block) :
    (b.inBytes t).ranges = b.ranges.map (Text.inBytes t) := by
  simp [ranges, conditions, choices, Block.inBytes, Alternative.inBytes, Function.comp_def,
    List.map_flatten]

end Block

namespace Evaluator

variable {ev : Evaluator} {nested : Nested} {sliced : NestedSlices} {d : Document} {name : Text}

/-- Resolving a part by offsets is resolving it. -/
def MirrorsNested (sliced : NestedSlices) (nested : Nested) : Prop :=
  ∀ d : Document, Mirrors Document.ranged (sliced d.ranged) (nested d)

/-- An argument is a slice, which is resolved on the level below if it has a marker. -/
theorem mirrors_argument (h : MirrorsNested sliced nested) {slot : Option Span}
    (hslot : ∀ s, slot = some s → s.start ≤ s.stop ∧ s.stop ≤ d.text.length) :
    Mirrors id (slicedArgument sliced d.ranged (slot.map (inBytes d.text)))
      (argument nested d slot) := by
  cases slot with
  | none => exact .pure id none
  | some s =>
    obtain ⟨hle, hstop⟩ := hslot s rfl
    refine .of_reading (Document.slice?_ranged hle hstop) ?_
    refine .of_reading (Document.hasMarker?_ranged (d.slice s)) ?_
    unfold argument
    simp only
    split
    · exact (h (d.slice s)).bind fun part => .pure id (some part.rendered)
    · exact .pure id (some (Text.unescape (d.slice s).text))

/-- All slots of a call are ranges of its argument list, so every argument is there. -/
theorem mirrors_arguments (h : MirrorsNested sliced nested) {slots : List (Option Span)}
    (hslots : ∀ s, some s ∈ slots → s.start ≤ s.stop ∧ s.stop ≤ d.text.length) :
    Mirrors id (slicedArguments sliced d.ranged (slots.map (·.map (inBytes d.text))))
      (arguments nested d slots) := by
  induction slots with
  | nil => exact .pure id []
  | cons slot slots ih =>
    rw [slicedArguments, arguments, List.map_cons, List.mapM_cons, List.mapM_cons]
    refine (mirrors_argument h fun s hs => hslots s (hs ▸ List.mem_cons_self)).bind fun arg => ?_
    exact (ih fun s hs => hslots s (List.mem_cons_of_mem slot hs)).bind fun args =>
      .pure id (arg :: args)

theorem ranged_literal_eq (t : Text) : Ranged.literal t = (Document.literal t).ranged :=
  (Document.ranged_literal t).symm

/-- A call is performed by offsets as it is by positions: the work, the arguments, the function
and the replacement. -/
theorem mirrors_perform (h : MirrorsNested sliced nested) {f : Function} {span : Span}
    {slots : List (Option Span)} (hcovers : CallSite.Covers d name span slots) :
    Mirrors Document.ranged
      (ev.slicedPerform sliced d.ranged f (inBytes d.text span)
        (slots.map (·.map (inBytes d.text))))
      (ev.perform nested d f span slots) := by
  refine (Mirrors.lift ev.countWork).bind fun _ => ?_
  refine (mirrors_arguments h fun s hs => hcovers.slot_le hs).bind fun args => ?_
  refine (Mirrors.lift (ev.callFunction f args)).bind fun result => ?_
  refine .reading ?_
  rw [id, ranged_literal_eq]
  exact Document.splice?_ranged ((Nat.le_add_right _ _).trans hcovers.name_le) hcovers.stop_le _

/-- A name is looked up, found and called in the same cases. -/
theorem mirrors_invoke (h : MirrorsNested sliced nested) (hname : name.head? = some '$') :
    Mirrors Document.ranged (ev.slicedInvoke sliced d.ranged name) (ev.invoke nested d name) := by
  have hne : name ≠ [] := by
    rintro rfl
    cases hname
  -- the sites are the same, case by case
  unfold slicedInvoke invoke
  cases hget : ev.registry.get? name with
  | none => cases CallSite.find d name <;> exact .pure Document.ranged d
  | some f =>
    refine .of_reading (CallSite.findByte?_eq hname d) ?_
    cases hfind : CallSite.find d name with
    | absent => exact .pure Document.ranged d
    | escaped => exact .pure Document.ranged d
    | unterminated => exact .pure Document.ranged d
    | bare span =>
      simp only [CallSite.inBytes]
      split
      · exact .throw Document.ranged _
      · exact mirrors_perform h (CallSite.covers_of_bare hne hfind)
    | call span slots => exact mirrors_perform h (CallSite.covers_of_call hfind)

/-- A condition is a slice that is resolved and evaluated. -/
theorem mirrors_conditionHolds (h : MirrorsNested sliced nested) {s : Span}
    (hle : s.start ≤ s.stop) (hstop : s.stop ≤ d.text.length) :
    Mirrors id (slicedConditionHolds sliced d.ranged (inBytes d.text s))
      (conditionHolds nested d s) := by
  refine .of_reading (Document.slice?_ranged hle hstop) ?_
  exact (h (d.slice s)).bind fun resolved => .pure id (Condition.evaluate resolved.text)

/-- The alternatives are asked in the same order, and the ranges of the chosen one are the
same. -/
theorem mirrors_chooseAlternative (h : MirrorsNested sliced nested) (otherwise : List Span)
    {alternatives : List Alternative} (halternatives : ∀ a ∈ alternatives,
      a.condition.start ≤ a.condition.stop ∧ a.condition.stop ≤ d.text.length) :
    Mirrors (·.map (inBytes d.text))
      (slicedChooseAlternative sliced d.ranged (otherwise.map (inBytes d.text))
        (alternatives.map (·.inBytes d.text)))
      (chooseAlternative nested d otherwise alternatives) := by
  induction alternatives with
  | nil => exact .pure _ otherwise
  | cons a alternatives ih =>
    obtain ⟨hle, hstop⟩ := halternatives a List.mem_cons_self
    refine (mirrors_conditionHolds h hle hstop).bind fun holds => ?_
    cases holds with
    | true => exact .pure (List.map (inBytes d.text)) [a.body]
    | false => exact ih fun a' ha' => halternatives a' (List.mem_cons_of_mem a ha')

/-- The body that is chosen is the same, in bytes. -/
theorem mirrors_chooseBody (h : MirrorsNested sliced nested) {b : Block}
    (hranges : ∀ s ∈ b.ranges, s.start ≤ s.stop ∧ s.stop ≤ d.text.length) :
    Mirrors (·.map (inBytes d.text)) (slicedChooseBody sliced d.ranged (b.inBytes d.text))
      (chooseBody nested d b) := by
  have hconditions : ∀ s ∈ b.conditions, s.start ≤ s.stop ∧ s.stop ≤ d.text.length :=
    fun s hs => hranges s (List.mem_cons_of_mem _ (List.mem_append_left _ hs))
  obtain ⟨hle, hstop⟩ := hconditions b.condition List.mem_cons_self
  refine (mirrors_conditionHolds h hle hstop).bind fun holds => ?_
  cases holds with
  | true => exact .pure (List.map (inBytes d.text)) b.body
  | false =>
    exact mirrors_chooseAlternative h b.otherwise fun a ha =>
      hconditions a.condition (List.mem_cons_of_mem _ (List.mem_map_of_mem ha))

/-- A block is found by offsets where it is found by positions, all of its ranges can be sliced,
and the chosen ones take its place. -/
theorem mirrors_resolveBlock (h : MirrorsNested sliced nested) :
    Mirrors Document.ranged (ev.slicedResolveBlock sliced d.ranged) (ev.resolveBlock nested d) := by
  refine .of_reading (Block.findInnermostByte?_eq d.text ev.strict) ?_
  unfold resolveBlock
  cases hfind : Block.findInnermost d.text ev.strict with
  | error cause => exact .throw Document.ranged _
  | ok b =>
    have hranges := fun s (hs : s ∈ b.ranges) => (Block.laid_of_findInnermost hfind).range_le hs
    obtain ⟨hle, hstop⟩ := hranges b.span List.mem_cons_self
    have hcut : (b.inBytes d.text).ranges.mapM (cut? d.ranged.text) =
        some (b.ranges.map d.text.slice) := by
      rw [Block.ranges_inBytes]
      exact Text.mapM_cut?_inBytes hranges
    refine .of_reading hcut ?_
    refine (Mirrors.lift ev.countWork).bind fun _ => ?_
    refine (mirrors_chooseBody h hranges).bind_of_given fun chosen _ _ hchosen => ?_
    -- what is chosen is among the ranges that were tried
    have hmem : ∀ s ∈ chosen, s ∈ b.ranges := fun s hs => List.mem_cons_of_mem _
      (List.mem_append_right _ (List.mem_flatten.2 ⟨chosen, mem_choices_of_chooseBody hchosen, hs⟩))
    refine .of_reading (Document.gather?_ranged fun s hs => hranges s (hmem s hs)) ?_
    exact .reading (Document.splice?_ranged hle hstop (d.gather chosen))

/-- A name is pending in the same cases. -/
theorem slicedIsPending_ranged (hname : name.head? = some '$') :
    slicedIsPending d.ranged name = some (isPending d name) := by
  unfold slicedIsPending isPending
  rw [Document.ranged_findName? hname]
  cases Worklist.isControl name with
  | true => rfl
  | false =>
    cases hfind : d.findName? name 0 with
    | none => rfl
    | some i =>
      obtain ⟨-, hi, -⟩ := Document.findName?_eq_some_iff.1 hfind
      exact Block.isInsideByte?_byteOffset hi

/-- The outcome of a pass in ranges. -/
def Pass.ranged : Pass → SlicedPass
  | .settled d => .settled d.ranged
  | .restarted d => .restarted d.ranged

/-- A pass on ranges goes through the same worklist, by induction on it. -/
theorem mirrors_runPass (h : MirrorsNested sliced nested) {worklist : List Text}
    (hworklist : ∀ name ∈ worklist, name.head? = some '$') :
    Mirrors Pass.ranged (ev.slicedRunPass sliced worklist d.ranged)
      (ev.runPass nested worklist d) := by
  induction worklist generalizing d with
  | nil => exact .pure Pass.ranged (.settled d)
  | cons name rest ih =>
    have hname := hworklist name List.mem_cons_self
    have hrest := fun d => @ih d fun other hother => hworklist other (List.mem_cons_of_mem name hother)
    -- resolve a block, or invoke the name and go on
    refine .of_reading (slicedIsPending_ranged hname) ?_
    unfold runPass
    split
    · exact (mirrors_resolveBlock h).bind fun d' => .pure Pass.ranged (.restarted d')
    · exact (mirrors_invoke h hname).bind hrest

/-- Passes are made as often, and each of them is over the same names. -/
theorem mirrors_passes (h : MirrorsNested sliced nested) (n : Nat) :
    Mirrors Document.ranged (ev.slicedPasses sliced n d.ranged) (ev.passes nested n d) := by
  induction n generalizing d with
  | zero => exact .pure Document.ranged d
  | succ n ih =>
    have hnames : ∀ name ∈ Worklist.ofText ev.names d.text, name.head? = some '$' :=
      fun name hname => head?_of_mem_names (Worklist.mem_of_mem_ofText hname)
    refine (mirrors_runPass h hnames).bind fun outcome => ?_
    cases outcome with
    | settled d' => exact .pure Document.ranged d'
    | restarted d' => exact ih

/-- On every level both evaluations do the same, by induction on the levels below. -/
theorem mirrors_resolve (ev : Evaluator) (levels : Nat) :
    MirrorsNested (ev.slicedResolve levels) (ev.resolve levels) := by
  induction levels with
  | zero => exact fun d => .throw Document.ranged _
  | succ levels ih => exact fun d => mirrors_passes ih _

/-- A slice is there exactly if its range is in order, within the text, and cuts no character. Whatever
the source, the registry, the limits and the state are, every slice that an evaluation reads at byte
offsets is there, and the evaluation by offsets gives the report of the evaluation. -/
theorem byte_ranges_are_valid :
    (∀ (t : Text) (r : Span), (cut? t r).isSome = true ↔ r.start ≤ r.stop ∧
      r.stop ≤ byteLength t ∧ Text.IsBoundary t r.start ∧ Text.IsBoundary t r.stop) ∧
    ∀ (ev : Evaluator) (source : Text) (state : ExecutionState),
      ev.slicedEvaluate source state = some (ev.evaluate source state) := by
  refine ⟨fun t r => Text.isSome_cut?_iff.trans ⟨fun h => ?_, fun h => ?_⟩,
    fun ev source state => ?_⟩
  · exact ⟨h.start_le_stop, h.stop.le_byteLength, h.start, h.stop⟩
  · obtain ⟨hle, -, hstart, hstop⟩ := h
    exact ⟨hle, hstart, hstop⟩
  -- a source has no literal ranges
  · have h := mirrors_resolve ev (ev.limits.depth + 1) (.source source) (.start state)
    rw [Document.ranged_source] at h
    rw [slicedEvaluate, h, evaluate]
    rcases ev.resolve (ev.limits.depth + 1) (.source source) (.start state) with ⟨e | d, s⟩ <;> rfl

end Evaluator

end Stencil
