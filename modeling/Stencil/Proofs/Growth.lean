import Stencil.Proofs.Run
/-!
# Sessions along a run

Only two things change a session: a unit of work is counted, and a function is called. What these
two keep of a session is therefore kept by every step, whether it succeeds or not, and by every
move (`Kept.move`). That completed calls stay in the log is one such thing (`keptLog`).
-/

namespace Stencil.Evaluator

variable {ev : Evaluator} {R : Session → Session → Prop} {p q : Point}

/-- A relation between a session and a later one that holds for the two primitive steps. Functions
that the registry does not hold are never called. -/
structure Kept (ev : Evaluator) (R : Session → Session → Prop) : Prop where
  refl : ∀ s, R s s
  trans : ∀ {s₁ s₂ s₃}, R s₁ s₂ → R s₂ s₃ → R s₁ s₃
  counted : ∀ s, R s s.counted
  called : ∀ f ∈ ev.registry.functions, ∀ args s, R s (ev.callFunction f args s).2

/-- From every session the step leads to a related one. -/
def Follows (R : Session → Session → Prop) {α : Type} (x : Eval α) : Prop := ∀ s, R s (x s).2

namespace Kept

variable {α β : Type} {x : Eval α} {f : α → Eval β} {nested : Nested} {d : Document}

theorem pure (h : ev.Kept R) (a : α) : Follows R (Pure.pure a : Eval α) := h.refl

theorem throw (h : ev.Kept R) (e : EvalError) : Follows R (throw e : Eval α) := h.refl

/-- A relation goes through a bind: the session in the middle joins the two parts, and an error
ends the run there. -/
theorem bind (h : ev.Kept R) (hx : Follows R x) (hf : ∀ a, Follows R (f a)) :
    Follows R (x >>= f) := by
  intro s
  have hfirst := hx s
  rw [Eval.bind_apply]
  -- after an error there is no second part
  rcases hrun : x s with ⟨e | a, s'⟩
  · rwa [hrun] at hfirst
  · rw [hrun] at hfirst
    exact h.trans hfirst (hf a s')

theorem countWork (h : ev.Kept R) : Follows R ev.countWork := by
  intro s
  rw [countWork_apply]
  split <;> exact h.counted s

/-- Only an argument with a marker is resolved at all. -/
theorem argument (h : ev.Kept R) (hn : ∀ d, Follows R (nested d)) (slot : Option Span) :
    Follows R (argument nested d slot) := by
  cases slot with
  | none => exact h.pure _
  | some span =>
    simp only [Evaluator.argument]
    split
    · exact h.bind (hn _) fun _ => h.pure _
    · exact h.pure _

/-- The arguments of a call are resolved one behind the other. -/
theorem arguments (h : ev.Kept R) (hn : ∀ d, Follows R (nested d)) (slots : List (Option Span)) :
    Follows R (arguments nested d slots) := by
  induction slots with
  | nil => exact h.pure _
  | cons slot slots ih =>
    rw [Evaluator.arguments, List.mapM_cons]
    exact h.bind (h.argument hn slot) fun _ => h.bind ih fun _ => h.pure _

/-- A call counts its work, resolves its arguments and calls the function, in this order. -/
theorem callResult (h : ev.Kept R) (hn : ∀ d, Follows R (nested d)) {f : Function}
    (hf : f ∈ ev.registry.functions) (slots : List (Option Span)) :
    Follows R (ev.callResult nested d f slots) :=
  h.bind h.countWork fun _ => h.bind (h.arguments hn slots) fun args => h.called f hf args

theorem conditionHolds (h : ev.Kept R) (hn : ∀ d, Follows R (nested d)) (c : Span) :
    Follows R (conditionHolds nested d c) :=
  h.bind (hn _) fun _ => h.pure _

/-- What conditions that turned out false leave behind is related to what was there before
them. -/
theorem refuted (h : ev.Kept R) (hn : ∀ d, Follows R (nested d)) {asked : List Span}
    {s s' : Session} (hasked : Refuted nested d asked s s') : R s s' := by
  induction hasked with
  | nil => exact h.refl _
  | @cons c later s s₁ s' first _ ih =>
    have hfirst := h.conditionHolds (d := d) hn c s
    rw [first] at hfirst
    exact h.trans hfirst ih

/-- Alternatives are asked in their order, until one of them holds. -/
theorem chooseAlternative (h : ev.Kept R) (hn : ∀ d, Follows R (nested d))
    (otherwise : List Span) (alternatives : List Alternative) :
    Follows R (chooseAlternative nested d otherwise alternatives) := by
  induction alternatives with
  | nil => exact h.pure _
  | cons a later ih =>
    refine h.bind (h.conditionHolds hn _) fun holds => ?_
    cases holds with
    | true => exact h.pure _
    | false => exact ih

/-- The work of a block is counted before its first condition is asked. -/
theorem chosenBody (h : ev.Kept R) (hn : ∀ d, Follows R (nested d)) (b : Block) :
    Follows R (ev.chosenBody nested d b) := by
  refine h.bind h.countWork fun _ => h.bind (h.conditionHolds hn _) fun holds => ?_
  cases holds with
  | true => exact h.pure _
  | false => exact h.chooseAlternative hn _ _

/-- An order to leave a name or to refuse it touches no session. -/
theorem invoke (h : ev.Kept R) (hn : ∀ d, Follows R (nested d)) (name : Text) :
    Follows R (ev.invoke nested d name) := by
  rw [invoke_eq]
  cases horder : ev.orderFor d name with
  | leave => exact h.pure _
  | refuse f => exact h.throw _
  | call f span slots =>
    simp only
    rw [perform_eq]
    exact h.bind (h.callResult hn (mem_functions_of_orderFor horder) slots) fun _ => h.pure _

/-- A block that is not well formed ends the run without any work. -/
theorem resolveBlock (h : ev.Kept R) (hn : ∀ d, Follows R (nested d)) :
    Follows R (ev.resolveBlock nested d) := by
  rw [resolveBlock_eq]
  cases Block.findInnermost d.text ev.strict with
  | error cause => exact h.throw _
  | ok b => exact h.bind (h.chosenBody hn b) fun _ => h.pure _

/-- A pass keeps the relation by induction on the names that are left on its worklist. -/
theorem runPass (h : ev.Kept R) (hn : ∀ d, Follows R (nested d)) (worklist : List Text)
    (d : Document) : Follows R (ev.runPass nested worklist d) := by
  induction worklist generalizing d with
  | nil => exact h.pure _
  | cons name rest ih =>
    rw [Evaluator.runPass]
    split
    · exact h.bind (h.resolveBlock hn) fun _ => h.pure _
    · exact h.bind (h.invoke hn name) fun d' => ih d'

/-- The passes of one level, by induction on how many of them are left. -/
theorem passes (h : ev.Kept R) (hn : ∀ d, Follows R (nested d)) (n : Nat) (d : Document) :
    Follows R (ev.passes nested n d) := by
  induction n generalizing d with
  | zero => exact h.pure _
  | succ n ih =>
    rw [Evaluator.passes]
    refine h.bind (h.runPass hn _ d) fun pass => ?_
    cases pass with
    | settled d' => exact h.pure _
    | restarted d' => exact ih d'

/-- Every level, by induction on the levels below it, which resolve arguments and conditions. -/
theorem resolve (h : ev.Kept R) (levels : Nat) (d : Document) : Follows R (ev.resolve levels d) := by
  induction levels generalizing d with
  | zero => exact h.throw _
  | succ levels ih => exact h.passes ih _ d

theorem resolveAt (h : ev.Kept R) (depth : Nat) (d : Document) : Follows R (ev.resolveAt depth d) :=
  h.resolve _ d

/-- What the primitive steps keep of a session is kept by every move. -/
theorem move (h : ev.Kept R) (move : ev.Move p q) : R p.session q.session := by
  cases move with
  | leave => exact h.refl _
  -- a call that is completed
  | @call f span slots result s calls returns =>
    have hresult := h.callResult (d := p.document) (h.resolveAt (p.depth + 1)) calls.mem_functions
      slots p.session
    rwa [returns] at hresult
  -- an argument comes behind the arguments that were resolved before it
  | @argument f span slot slots done more args s calls within slots_eq earlier marked =>
    have hargs := h.arguments (d := p.document) (h.resolveAt (p.depth + 1)) done p.session.counted
    rw [earlier] at hargs
    exact h.trans (h.counted _) hargs
  | @block b chosen s resolves chooses =>
    have hchosen := h.chosenBody (d := p.document) (h.resolveAt (p.depth + 1)) b p.session
    rwa [chooses] at hchosen
  -- a condition comes behind those that turned out false
  | condition resolves within conditions_eq earlier =>
    exact h.trans (h.counted _) (h.refuted (h.resolveAt (p.depth + 1)) earlier)

/-- The sessions of a run are related, since those of each move are. -/
theorem leads (h : ev.Kept R) (hleads : ev.Leads p q) : R p.session q.session := by
  induction hleads with
  | refl => exact h.refl _
  | tail _ move ih => exact h.trans ih (h.move move)

end Kept

/-- A call that the log records is put on top of it. -/
theorem callFunction_log_suffix (f : Function) (args : List Arg) (s : Session) :
    s.log <:+ (ev.callFunction f args s).2.log := by
  obtain ⟨record, hlog⟩ := callFunction_log f args s
  rw [hlog]
  exact List.suffix_cons _ _

/-- Completed calls stay in the log. -/
theorem keptLog (ev : Evaluator) : ev.Kept fun s s' => s.log <:+ s'.log where
  refl _ := List.suffix_rfl
  trans := List.IsSuffix.trans
  counted _ := List.suffix_rfl
  called f _ args s := callFunction_log_suffix f args s

/-- Of two sessions of a run the second one is the later one: calls were added to the log, and where
none were, the state is the same. -/
def Precedes (s s' : Session) : Prop := s.log <:+ s'.log ∧ (s'.log = s.log → s'.state = s.state)

/-- The log only grows, and as long as it does not grow the state stays, because a state changes
by calls alone. -/
theorem keptPrecedes (ev : Evaluator) : ev.Kept Precedes where
  refl s := ⟨List.suffix_rfl, fun _ => rfl⟩
  trans := by
    rintro s₁ s₂ s₃ ⟨hlog, hstate⟩ ⟨hlog', hstate'⟩
    refine ⟨hlog.trans hlog', fun heq => ?_⟩
    -- nothing was added in between
    have hmid : s₂.log = s₁.log := (hlog.eq_of_length (le_antisymm hlog.length_le
      (heq ▸ hlog'.length_le))).symm
    rw [hstate' (heq.trans hmid.symm), hstate hmid]
  counted s := ⟨List.suffix_rfl, fun _ => rfl⟩
  -- a call is always logged, so the log cannot have stayed
  called f _ args s := by
    obtain ⟨record, hlog⟩ := callFunction_log f args s
    refine ⟨callFunction_log_suffix f args s, fun heq => ?_⟩
    rw [hlog] at heq
    exact absurd heq (List.cons_ne_self _ _)

end Stencil.Evaluator
