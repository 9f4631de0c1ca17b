import Mathlib.Logic.Relation
import Stencil.Proofs.Step
import Stencil.Proofs.Worklist
/-!
# Runs

A `Point` of a run is what the evaluator holds between two steps: how deep it is, the rest of the
worklist, the document and the session. A `Move` leads from a point to the one after the step, or
into a part that the step resolves: an argument of the call that is next, or a condition of the
block that is next. The moves from a point are therefore a branching: one for each part, and the
one that has all parts behind it. `Reached` points are those that moves lead to from the start.

Every point also tells the *places* of its characters: where in the source each of them was
written, and `none` for what a function returned. The evaluator does not know them.
-/

namespace Stencil

structure Point where
  /-- How deep the document is nested in arguments and conditions. -/
  depth : Nat
  /-- The names still to do in this pass. -/
  worklist : List Text
  document : Document
  /-- For each character where it was written in the source. -/
  places : List (Option Nat)
  session : Session

namespace Evaluator

/-- Resolves a document at a depth. -/
def resolveAt (ev : Evaluator) (depth : Nat) : Nested := ev.resolve (ev.limits.depth + 1 - depth)

/-- The point at which a pass over a document begins. -/
def enter (ev : Evaluator) (depth : Nat) (d : Document) (places : List (Option Nat))
    (s : Session) : Point :=
  ⟨depth, Worklist.ofText ev.names d.text, d, places, s⟩

/-- The point at which an evaluation begins. -/
def start (ev : Evaluator) (source : Text) (state : ExecutionState) : Point :=
  ev.enter 0 (.source source) ((List.range source.length).map some) (.start state)

/-- The point at which a part of a document is entered. -/
def enterPart (ev : Evaluator) (p : Point) (part : Span) (s : Session) : Point :=
  ev.enter (p.depth + 1) (p.document.slice part) (part.cut p.places) s

/-- The point after a call. -/
def afterCall (p : Point) (span : Span) (result : Text) (s : Session) : Point where
  depth := p.depth
  worklist := p.worklist.tail
  document := replaced p.document span result
  places := span.graft (List.replicate (Text.escape result).length none) p.places
  session := s

/-- The point after a block. A new pass begins there. -/
def afterBlock (ev : Evaluator) (p : Point) (b : Block) (chosen : List Span) (s : Session) :
    Point :=
  ev.enter p.depth (restarted p.document b chosen) (b.span.graft (Span.gather chosen p.places)
    p.places) s

/-- The name is next, and the depth is within the limit. -/
def Next (ev : Evaluator) (p : Point) (name : Text) : Prop :=
  p.depth ≤ ev.limits.depth ∧ p.worklist.head? = some name

/-- A call is next. -/
def Calls (ev : Evaluator) (p : Point) (f : Function) (span : Span) (slots : List (Option Span)) :
    Prop :=
  ∃ name, ev.Next p name ∧ isPending p.document name = false ∧
    ev.orderFor p.document name = .call f span slots

/-- A block is next. -/
def Resolves (ev : Evaluator) (p : Point) (b : Block) : Prop :=
  ∃ name, ev.Next p name ∧ isPending p.document name = true ∧
    Block.findInnermost p.document.text ev.strict = .ok b

/-- One step of a run, or the way into a part that the step resolves. -/
inductive Move (ev : Evaluator) (p : Point) : Point → Prop
  /-- The name is left as text. -/
  | leave {name : Text} (next : ev.Next p name) (free : isPending p.document name = false)
      (order : ev.orderFor p.document name = .leave) :
      Move ev p { p with worklist := p.worklist.tail }
  /-- The call returns. -/
  | call {f : Function} {span : Span} {slots : List (Option Span)} {result : Text} {s : Session}
      (calls : ev.Calls p f span slots)
      (returns : ev.callResult (ev.resolveAt (p.depth + 1)) p.document f slots p.session =
        (.ok result, s)) :
      Move ev p (afterCall p span result s)
  /-- An argument of the call is resolved, after those before it. -/
  | argument {f : Function} {span slot : Span} {slots done more : List (Option Span)}
      {args : List Arg} {s : Session} (calls : ev.Calls p f span slots)
      (within : p.session.work + 1 ≤ ev.limits.invocations)
      (slots_eq : slots = done ++ some slot :: more)
      (earlier : arguments (ev.resolveAt (p.depth + 1)) p.document done p.session.counted =
        (.ok args, s))
      (marked : (p.document.slice slot).hasMarker = true) :
      Move ev p (ev.enterPart p slot s)
  /-- The block is replaced by what is chosen of it. -/
  | block {b : Block} {chosen : List Span} {s : Session} (resolves : ev.Resolves p b)
      (chooses : ev.chosenBody (ev.resolveAt (p.depth + 1)) p.document b p.session =
        (.ok chosen, s)) :
      Move ev p (ev.afterBlock p b chosen s)
  /-- A condition of the block is asked, after those before it. -/
  | condition {b : Block} {c : Span} {asked later : List Span} {s : Session}
      (resolves : ev.Resolves p b) (within : p.session.work + 1 ≤ ev.limits.invocations)
      (conditions_eq : b.conditions = asked ++ c :: later)
      (earlier : Refuted (ev.resolveAt (p.depth + 1)) p.document asked p.session.counted s) :
      Move ev p (ev.enterPart p c s)

/-- Moves lead from one point to another. -/
def Leads (ev : Evaluator) : Point → Point → Prop := Relation.ReflTransGen ev.Move

/-- The points of the run of an evaluation. -/
def Reached (ev : Evaluator) (source : Text) (state : ExecutionState) (p : Point) : Prop :=
  ev.Leads (ev.start source state) p

variable {ev : Evaluator} {p q : Point} {name : Text}

/-- What every move keeps is kept wherever moves lead. -/
theorem Leads.invariant (inv : Point → Prop) (h : ev.Leads p q)
    (hmove : ∀ p q, inv p → ev.Move p q → inv q) (hp : inv p) : inv q := by
  induction h with
  | refl => exact hp
  | tail _ move ih => exact hmove _ _ ih move

/-! ### Names -/

/-- Every name to look for begins with a marker. -/
theorem head?_of_mem_names (h : name ∈ ev.names) : name.head? = some '$' := by
  rcases List.mem_append.1 h with h | h
  · obtain ⟨f, -, rfl⟩ := List.mem_map.1 h
    rfl
  · have hcontrol := (List.mem_filter.1 h).1
    simp only [Worklist.controlNames, List.mem_cons, List.not_mem_nil, or_false] at hcontrol
    rcases hcontrol with rfl | rfl <;> rfl

/-- The worklist of every point that is entered holds names that were looked for. -/
def Listed (ev : Evaluator) (p : Point) : Prop := ∀ name ∈ p.worklist, name ∈ ev.names

theorem listed_enter (ev : Evaluator) (depth : Nat) (d : Document) (places : List (Option Nat))
    (s : Session) : ev.Listed (ev.enter depth d places s) :=
  fun _ h => Worklist.mem_of_mem_ofText h

theorem Listed.move (h : ev.Listed p) (move : ev.Move p q) : ev.Listed q := by
  cases move with
  | leave | call => exact fun name hname => h name (List.mem_of_mem_tail hname)
  | argument | block | condition => exact ev.listed_enter _ _ _ _

theorem Leads.listed (h : ev.Leads p q) (hp : ev.Listed p) : ev.Listed q :=
  h.invariant ev.Listed (fun _ _ hp move => hp.move move) hp

theorem Reached.listed {source : Text} {state : ExecutionState} (h : ev.Reached source state p) :
    ev.Listed p :=
  Leads.listed h (ev.listed_enter _ _ _ _)

/-- What holds at the start and is kept by every move holds at every point of a run. -/
theorem Reached.invariant {source : Text} {state : ExecutionState} (inv : Point → Prop)
    (h : ev.Reached source state p) (hstart : inv (ev.start source state))
    (hmove : ∀ p q, ev.Listed p → inv p → ev.Move p q → inv q) : inv p := by
  have hboth : ev.Listed p ∧ inv p :=
    Leads.invariant (fun p => ev.Listed p ∧ inv p) h
      (fun p q hp move => ⟨hp.1.move move, hmove p q hp.1 hp.2 move⟩)
      ⟨ev.listed_enter _ _ _ _, hstart⟩
  exact hboth.2

theorem Next.mem_names (h : ev.Next p name) (hp : ev.Listed p) : name ∈ ev.names :=
  hp name (List.mem_of_mem_head? h.2)

/-- What the call that is next covers. -/
theorem Calls.covers {f : Function} {span : Span} {slots : List (Option Span)}
    (h : ev.Calls p f span slots) (hp : ev.Listed p) :
    ∃ name, name.head? = some '$' ∧ name ∈ ev.names ∧
      CallSite.Covers p.document name span slots := by
  obtain ⟨name, hnext, -, horder⟩ := h
  have hmem := hnext.mem_names hp
  have hhead := head?_of_mem_names hmem
  exact ⟨name, hhead, hmem, (orderFor_eq_call hhead horder).1⟩

/-- The function that is called is one of the registry. -/
theorem Calls.mem_functions {f : Function} {span : Span} {slots : List (Option Span)}
    (h : ev.Calls p f span slots) : f ∈ ev.registry.functions := by
  obtain ⟨name, -, -, horder⟩ := h
  exact mem_functions_of_orderFor horder

theorem Resolves.laid {b : Block} (h : ev.Resolves p b) : Block.Laid p.document.text b := by
  obtain ⟨name, -, -, hb⟩ := h
  exact Block.laid_of_findInnermost hb

/-! ### Small evaluators -/

/-- The evaluator with these functions, the default limits and nothing that calls could read. -/
def withFunctions (fs : List Function) : Evaluator :=
  ⟨Registry.empty.addAll fs, .default, false, ⟨[], [], 0⟩⟩

end Evaluator

/-- The function of a name that gives the same result for every call. -/
def Function.constant (stem result : Text) : Function :=
  ⟨⟨stem⟩, false, [], fun _ _ state => (.text result, state)⟩

end Stencil
