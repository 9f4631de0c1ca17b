import Stencil.Proofs.Growth
import Stencil.Proofs.Work
/-!
# Runs and outcomes

`outcome` is what resolving a document comes to from a point on. It is the loop of passes as one
would write it without a bound on their number: `resolveAt_eq_outcome` says that the bound is never
what ends it. Every move goes on with the same outcome, or enters a part whose failure is the
failure of the whole (`progress`), and moves come to an end (`acc_move`). So every outcome can be
traced to a point of the run: a success to a point at which nothing is left to do, a failure to one
that `Stops` the run (`exists_stop`).
-/

namespace Stencil

namespace Evaluator

variable {ev : Evaluator} {nested : Nested} {d d' : Document} {s s' : Session} {p q : Point}

/-! ### The loop of passes -/

/-- A pass and what follows it, given what follows a block. -/
def afterPass (ev : Evaluator) (nested again : Nested) (worklist : List Text) : Nested := fun d => do
  match ← ev.runPass nested worklist d with
  | .settled d' => return d'
  | .restarted d' => again d'

/-- What becomes of the document of a point and of the session. -/
def outcome (ev : Evaluator) (p : Point) : Except EvalError Document × Session :=
  if p.depth ≤ ev.limits.depth then
    ev.afterPass (ev.resolveAt (p.depth + 1)) (ev.resolveAt p.depth) p.worklist p.document p.session
  else (.error (.tooDeep ev.limits.depth), p.session)

theorem markers_invoke_le {name : Text} (hname : name.head? = some '$')
    (h : ev.invoke nested d name s = (.ok d', s')) :
    Text.markers '$' d'.text ≤ Text.markers '$' d.text := by
  rw [invoke_eq] at h
  cases horder : ev.orderFor d name with
  | leave =>
    rw [horder] at h
    cases h
    exact le_rfl
  | refuse f =>
    rw [horder] at h
    cases h
  | call f span slots =>
    rw [horder] at h
    simp only [perform_eq] at h
    obtain ⟨result, -, rfl⟩ := Eval.map_eq_ok.1 h
    have hcovers := (orderFor_eq_call hname horder).1
    have := markers_replaced (d := d) (start_le_stop_of_covers hcovers) result (m := '$') rfl
    omega

theorem markers_resolveBlock_lt (h : ev.resolveBlock nested d s = (.ok d', s')) :
    Text.markers '$' d'.text < Text.markers '$' d.text := by
  rw [resolveBlock_eq] at h
  cases hb : Block.findInnermost d.text ev.strict with
  | error cause =>
    rw [hb] at h
    cases h
  | ok b =>
    rw [hb] at h
    obtain ⟨chosen, hchosen, rfl⟩ := Eval.map_eq_ok.1 h
    have := markers_restarted (Block.laid_of_findInnermost hb) (mem_choices_of_chosenBody hchosen)
      (m := '$') (.inl rfl)
    omega

/-- A pass that ends at a block leaves a document with fewer `$`. -/
theorem markers_runPass_lt {worklist : List Text} (hlist : ∀ name ∈ worklist, name ∈ ev.names)
    (h : ev.runPass nested worklist d s = (.ok (.restarted d'), s')) :
    Text.markers '$' d'.text < Text.markers '$' d.text := by
  induction worklist generalizing d s with
  | nil => cases h
  | cons name rest ih =>
    rw [runPass] at h
    split at h
    · obtain ⟨d₁, hblock, hd⟩ := Eval.map_eq_ok.1 h
      cases hd
      exact markers_resolveBlock_lt hblock
    · obtain ⟨d₁, s₁, hinvoke, hrest⟩ := Eval.bind_eq_ok.1 h
      have hfirst := markers_invoke_le (head?_of_mem_names (hlist name List.mem_cons_self)) hinvoke
      have hlater := ih (fun n hn => hlist n (List.mem_cons_of_mem name hn)) hrest
      omega

theorem ofText_eq_nil (h : Text.markers '$' d.text = 0) : Worklist.ofText ev.names d.text = [] := by
  refine List.eq_nil_iff_forall_not_mem.2 fun name hname => ?_
  obtain ⟨i, hi⟩ := Worklist.stands_of_mem_ofText hname
  have hdollar := Text.getElem?_of_startsFolded
    (head?_of_mem_names (Worklist.mem_of_mem_ofText hname)) hi
  exact List.countP_eq_zero.1 h _ (List.mem_of_getElem? hdollar) rfl

theorem bind_congr_ok {α β : Type} {x : Eval α} {f g : α → Eval β}
    (h : ∀ a s', x s = (.ok a, s') → f a s' = g a s') : (x >>= f) s = (x >>= g) s := by
  rw [Eval.bind_apply, Eval.bind_apply]
  rcases hx : x s with ⟨_ | a, s'⟩
  · rfl
  · exact h a s' hx

/-- More passes than there are `$` change nothing. -/
theorem passes_eq_of_le (n : Nat) (d : Document) (s : Session)
    (h : Text.markers '$' d.text ≤ n) :
    ev.passes nested n d s = ev.passes nested (Text.markers '$' d.text) d s := by
  induction n using Nat.strong_induction_on generalizing d s with
  | _ n ih =>
    cases n with
    | zero => rw [Nat.le_zero.1 h]
    | succ n =>
      cases hcount : Text.markers '$' d.text with
      -- without a `$` the worklist is empty, and one pass ends it
      | zero =>
        have honce : ev.passes nested (n + 1) d s = (.ok d, s) := by
          rw [passes, ofText_eq_nil hcount]
          rfl
        exact honce
      | succ k =>
        rw [passes, passes]
        refine bind_congr_ok fun pass s₁ hpass => ?_
        cases pass with
        | settled d' => rfl
        | restarted d' =>
          -- the document that is left has fewer `$`, so both numbers of passes are enough for it
          have hlt := markers_runPass_lt (fun _ => Worklist.mem_of_mem_ofText) hpass
          simp only
          rw [ih n (by omega) d' s₁ (by omega), ih k (by omega) d' s₁ (by omega)]

/-- Resolving a document is a pass over it, and resolving what is left where a block was resolved:
the number of passes is no bound. -/
theorem resolveAt_eq_afterPass {depth : Nat} (hdepth : depth ≤ ev.limits.depth) (d : Document)
    (s : Session) :
    ev.resolveAt depth d s =
      ev.afterPass (ev.resolveAt (depth + 1)) (ev.resolveAt depth)
        (Worklist.ofText ev.names d.text) d s := by
  -- one level is open for the document itself, the others are for its parts
  have hlevels : ev.limits.depth + 1 - depth = (ev.limits.depth + 1 - (depth + 1)) + 1 := by omega
  have hresolve : ∀ d s, ev.resolveAt depth d s =
      ev.passes (ev.resolveAt (depth + 1)) (Text.markers '$' d.text) d s := by
    intro d s
    rw [resolveAt, hlevels]
    rfl
  rw [hresolve, ← passes_eq_of_le (Text.markers '$' d.text + 1) d s (Nat.le_succ _), passes,
    afterPass]
  refine bind_congr_ok fun pass s₁ hpass => ?_
  cases pass with
  | settled d' => rfl
  | restarted d' =>
    have hlt := markers_runPass_lt (fun _ => Worklist.mem_of_mem_ofText) hpass
    simp only
    rw [hresolve, passes_eq_of_le _ d' s₁ hlt.le]

theorem resolveAt_eq_outcome (depth : Nat) (d : Document) (places : List (Option Nat))
    (s : Session) : ev.resolveAt depth d s = ev.outcome (ev.enter depth d places s) := by
  unfold outcome
  split
  · next hdepth => exact resolveAt_eq_afterPass hdepth d s
  · next hdepth =>
    have hlevels : ev.limits.depth + 1 - depth = 0 := by
      change ¬ depth ≤ ev.limits.depth at hdepth
      omega
    rw [resolveAt, hlevels]
    rfl

theorem afterPass_cons (again : Nested) (name : Text) (rest : List Text) (d : Document) :
    ev.afterPass nested again (name :: rest) d =
      if isPending d name then ev.resolveBlock nested d >>= again
      else ev.invoke nested d name >>= ev.afterPass nested again rest := by
  rw [afterPass, runPass]
  split
  · simp only [bind_assoc, pure_bind]
  · rw [bind_assoc]
    rfl

/-! ### Progress -/

/-- What ends a run at a point, with an error. -/
inductive Stops (ev : Evaluator) (p : Point) : EvalError → Session → Prop
  | tooDeep (deep : ev.limits.depth < p.depth) :
      Stops ev p (.tooDeep ev.limits.depth) p.session
  | structural {name : Text} {cause : BlockError} (next : ev.Next p name)
      (pending : isPending p.document name = true)
      (malformed : Block.findInnermost p.document.text ev.strict = .error cause) :
      Stops ev p (.structural cause) p.session
  | usage {name : Text} {f : Function} (next : ev.Next p name)
      (free : isPending p.document name = false)
      (order : ev.orderFor p.document name = .refuse f) :
      Stops ev p (.usage f.name.text f.params) p.session
  | tooManyInvocations
      (next : (∃ f span slots, ev.Calls p f span slots) ∨ ∃ b, ev.Resolves p b)
      (exhausted : ev.limits.invocations < p.session.work + 1) :
      Stops ev p (.tooManyInvocations ev.limits.invocations) p.session.counted
  | failure {f : Function} {span : Span} {slots : List (Option Span)} {args : List Arg}
      {message : Text} {s s' : Session} (calls : ev.Calls p f span slots)
      (resolved : arguments (ev.resolveAt (p.depth + 1)) p.document slots p.session.counted =
        (.ok args, s))
      (fails : ev.callFunction f args s = (.error (.failure f.name.text message), s')) :
      Stops ev p (.failure f.name.text message) s'

/-- How a run goes on from a point. -/
inductive Progress (ev : Evaluator) (p : Point) : Prop
  | done (settled : p.worklist = []) (outcome : ev.outcome p = (.ok p.document, p.session))
  | stops {e : EvalError} {s : Session} (stop : ev.Stops p e s)
      (outcome : ev.outcome p = (.error e, s))
  | moves {q : Point} (move : ev.Move p q) (depth : q.depth = p.depth)
      (outcome : ev.outcome p = ev.outcome q)
  | fails {q : Point} {e : EvalError} {s : Session} (move : ev.Move p q)
      (part : ev.outcome q = (.error e, s)) (outcome : ev.outcome p = (.error e, s))

theorem outcome_of_le (hdepth : p.depth ≤ ev.limits.depth) :
    ev.outcome p = ev.afterPass (ev.resolveAt (p.depth + 1)) (ev.resolveAt p.depth) p.worklist
      p.document p.session :=
  if_pos hdepth

/-- The outcome of a part is that of the point at which it is entered. -/
theorem outcome_enterPart (p : Point) (part : Span) (s : Session) :
    ev.outcome (ev.enterPart p part s) =
      ev.resolveAt (p.depth + 1) (p.document.slice part) s :=
  (resolveAt_eq_outcome _ _ _ _).symm

theorem worklist_of_next {name : Text} (h : ev.Next p name) :
    p.worklist = name :: p.worklist.tail := by
  obtain ⟨-, hhead⟩ := h
  cases hlist : p.worklist with
  | nil =>
    rw [hlist] at hhead
    cases hhead
  | cons n rest =>
    rw [hlist] at hhead
    cases hhead
    rfl

/-- Where a name is left as text the run goes on with the rest of the worklist. -/
theorem outcome_leave {name : Text} (hnext : ev.Next p name)
    (hfree : isPending p.document name = false) (horder : ev.orderFor p.document name = .leave) :
    ev.outcome p = ev.outcome { p with worklist := p.worklist.tail } := by
  have hlater := outcome_of_le (p := { p with worklist := p.worklist.tail }) hnext.1
  rw [hlater, outcome_of_le hnext.1, worklist_of_next hnext, afterPass_cons, hfree, invoke_eq,
    horder]
  rfl

/-- Where a call is next the run goes on with its result. -/
theorem outcome_call {f : Function} {span : Span} {slots : List (Option Span)}
    (h : ev.Calls p f span slots) :
    ev.outcome p = (ev.callResult (ev.resolveAt (p.depth + 1)) p.document f slots >>=
      fun result => ev.afterPass (ev.resolveAt (p.depth + 1)) (ev.resolveAt p.depth)
        p.worklist.tail (replaced p.document span result)) p.session := by
  obtain ⟨name, hnext, hfree, horder⟩ := h
  rw [outcome_of_le hnext.1, worklist_of_next hnext, afterPass_cons, hfree, invoke_eq, horder]
  simp only [perform_eq, Bool.false_eq_true, if_false, bind_assoc, pure_bind, List.tail_cons]

theorem outcome_afterCall {f : Function} {span : Span} {slots : List (Option Span)} {result : Text}
    {s : Session} (h : ev.Calls p f span slots)
    (hresult : ev.callResult (ev.resolveAt (p.depth + 1)) p.document f slots p.session =
      (.ok result, s)) : ev.outcome p = ev.outcome (afterCall p span result s) := by
  rw [outcome_call h, Eval.bind_of_ok hresult]
  obtain ⟨name, hnext, -⟩ := h
  exact (outcome_of_le (p := afterCall p span result s) hnext.1).symm

/-- Where a block is next the run goes on with what is chosen of it. -/
theorem outcome_block {b : Block} (h : ev.Resolves p b) :
    ev.outcome p = (ev.chosenBody (ev.resolveAt (p.depth + 1)) p.document b >>=
      fun chosen => ev.resolveAt p.depth (restarted p.document b chosen)) p.session := by
  obtain ⟨name, hnext, hpending, hblock⟩ := h
  rw [outcome_of_le hnext.1, worklist_of_next hnext, afterPass_cons, hpending, if_pos rfl,
    resolveBlock_eq, hblock]
  simp only [bind_assoc, pure_bind]

theorem outcome_afterBlock {b : Block} {chosen : List Span} {s : Session} (h : ev.Resolves p b)
    (hchosen : ev.chosenBody (ev.resolveAt (p.depth + 1)) p.document b p.session =
      (.ok chosen, s)) : ev.outcome p = ev.outcome (ev.afterBlock p b chosen s) := by
  rw [outcome_block h, Eval.bind_of_ok hchosen, resolveAt_eq_outcome]
  rfl

theorem progress_call {f : Function} {span : Span} {slots : List (Option Span)}
    (hcalls : ev.Calls p f span slots) : ev.Progress p := by
  have hrun := outcome_call hcalls
  rcases hresult : ev.callResult (ev.resolveAt (p.depth + 1)) p.document f slots p.session with
    ⟨e | result, s⟩
  · rw [Eval.bind_of_error hresult] at hrun
    rw [callResult, Eval.bind_eq_error] at hresult
    rcases hresult with hcount | ⟨⟨⟩, s₁, hcount, hresult⟩
    · obtain ⟨hlt, rfl, rfl⟩ := countWork_eq_error.1 hcount
      exact .stops (.tooManyInvocations (.inl ⟨f, span, slots, hcalls⟩) hlt) hrun
    · obtain ⟨hwithin, rfl⟩ := countWork_eq_ok.1 hcount
      rcases Eval.bind_eq_error.1 hresult with hargs | ⟨args, s₂, hargs, hcall⟩
      -- an argument fails at the point at which it is entered
      · obtain ⟨done, slot, more, args, s₂, hslots, hdone, hmark, hpart⟩ := arguments_eq_error hargs
        refine .fails (.argument hcalls hwithin hslots hdone hmark) ?_ hrun
        rw [outcome_enterPart, hpart]
      · obtain ⟨message, rfl⟩ := callFunction_eq_error hcall
        exact .stops (.failure hcalls hargs hcall) hrun
  · exact .moves (.call hcalls hresult) rfl (outcome_afterCall hcalls hresult)

theorem progress_block {b : Block} (hresolves : ev.Resolves p b) : ev.Progress p := by
  have hrun := outcome_block hresolves
  rcases hchosen : ev.chosenBody (ev.resolveAt (p.depth + 1)) p.document b p.session with
    ⟨e | chosen, s⟩
  · rw [Eval.bind_of_error hchosen] at hrun
    rw [chosenBody, Eval.bind_eq_error] at hchosen
    rcases hchosen with hcount | ⟨⟨⟩, s₁, hcount, hchoose⟩
    · obtain ⟨hlt, rfl, rfl⟩ := countWork_eq_error.1 hcount
      exact .stops (.tooManyInvocations (.inr ⟨b, hresolves⟩) hlt) hrun
    · obtain ⟨hwithin, rfl⟩ := countWork_eq_ok.1 hcount
      -- a condition fails at the point at which it is entered
      obtain ⟨asked, c, later, s₂, hconds, hasked, hpart⟩ := chooseBody_eq_error hchoose
      refine .fails (.condition hresolves hwithin hconds hasked) ?_ hrun
      rw [outcome_enterPart, hpart]
  · exact .moves (.block hresolves hchosen) rfl (outcome_afterBlock hresolves hchosen)

/-- The structure of the document fails where a block is next and there is none. -/
theorem outcome_malformed {name : Text} {cause : BlockError} (hnext : ev.Next p name)
    (hpending : isPending p.document name = true)
    (hblock : Block.findInnermost p.document.text ev.strict = .error cause) :
    ev.outcome p = (.error (.structural cause), p.session) := by
  rw [outcome_of_le hnext.1, worklist_of_next hnext, afterPass_cons, hpending, if_pos rfl,
    resolveBlock_eq, hblock]
  rfl

/-- From every point a run is done, or stops there, or goes on with the same outcome, or fails with
a part. -/
theorem progress (ev : Evaluator) (p : Point) : ev.Progress p := by
  by_cases hdepth : p.depth ≤ ev.limits.depth
  · cases hlist : p.worklist with
    | nil =>
      refine .done hlist ?_
      rw [outcome_of_le hdepth, hlist]
      rfl
    | cons name rest =>
      have hnext : ev.Next p name := ⟨hdepth, by rw [hlist]; rfl⟩
      cases hpending : isPending p.document name with
      | true =>
        cases hblock : Block.findInnermost p.document.text ev.strict with
        | error cause =>
          exact .stops (.structural hnext hpending hblock)
            (outcome_malformed hnext hpending hblock)
        | ok b => exact progress_block ⟨name, hnext, hpending, hblock⟩
      | false =>
        cases horder : ev.orderFor p.document name with
        | leave =>
          exact .moves (.leave hnext hpending horder) rfl (outcome_leave hnext hpending horder)
        | refuse f =>
          refine .stops (.usage hnext hpending horder) ?_
          rw [outcome_of_le hdepth, hlist, afterPass_cons, hpending, invoke_eq, horder]
          rfl
        | call f span slots => exact progress_call ⟨name, hnext, hpending, horder⟩
  · refine .stops (.tooDeep (Nat.lt_of_not_le hdepth)) ?_
    rw [outcome, if_neg hdepth]

/-- An error at a point that a move leads to is the error of the point before it. -/
theorem Move.outcome_eq_error {e : EvalError} (move : ev.Move p q)
    (h : ev.outcome q = (.error e, s)) : ev.outcome p = (.error e, s) := by
  cases move with
  | leave next free order => rwa [outcome_leave next free order]
  | call calls returns => rwa [outcome_afterCall calls returns]
  | block resolves chooses => rwa [outcome_afterBlock resolves chooses]
  | argument calls within slots_eq earlier marked =>
    rw [outcome_enterPart] at h
    rw [outcome_call calls]
    refine Eval.bind_of_error ?_
    rw [callResult, Eval.bind_of_ok (countWork_eq_ok.2 ⟨within, rfl⟩), slots_eq]
    exact Eval.bind_of_error (arguments_of_error earlier marked h)
  | condition resolves within conditions_eq earlier =>
    rw [outcome_enterPart] at h
    rw [outcome_block resolves]
    refine Eval.bind_of_error ?_
    rw [chosenBody, Eval.bind_of_ok (countWork_eq_ok.2 ⟨within, rfl⟩)]
    exact chooseBody_of_error conditions_eq earlier h

/-- An error at any point of a run is the error of the run. -/
theorem Leads.outcome_eq_error {e : EvalError} (h : ev.Leads p q)
    (hq : ev.outcome q = (.error e, s)) : ev.outcome p = (.error e, s) := by
  induction h using Relation.ReflTransGen.head_induction_on with
  | refl => exact hq
  | head move _ ih => exact move.outcome_eq_error ih

/-! ### Parts of a success -/

namespace Kept

variable {R : Session → Session → Prop}

/-- What comes first in a success succeeds, and the rest goes on from its session. -/
theorem exists_of_bind_eq_ok {α β : Type} {x : Eval α} {f : α → Eval β} {b : β}
    (hf : ∀ a, Follows R (f a)) (hok : (x >>= f) s = (.ok b, s')) :
    ∃ a s₁, x s = (.ok a, s₁) ∧ R s₁ s' := by
  obtain ⟨a, s₁, hx, hrest⟩ := Eval.bind_eq_ok.1 hok
  have hfollows := hf a s₁
  rw [hrest] at hfollows
  exact ⟨a, s₁, hx, hfollows⟩

theorem afterPass (h : ev.Kept R) {again : Nested} (hn : ∀ d, Follows R (nested d))
    (hagain : ∀ d, Follows R (again d)) (worklist : List Text) (d : Document) :
    Follows R (ev.afterPass nested again worklist d) := by
  refine h.bind (h.runPass hn worklist d) fun pass => ?_
  cases pass with
  | settled d' => exact h.pure _
  | restarted d' => exact hagain d'

/-- A condition that is asked on the way to a choice is resolved. -/
theorem exists_condition (h : ev.Kept R) (hn : ∀ d, Follows R (nested d)) {b : Block}
    {asked later chosen : List Span} {c : Span} {s₁ : Session}
    (hconds : b.conditions = asked ++ c :: later) (hasked : Refuted nested d asked s s₁)
    (hok : chooseBody nested d b s = (.ok chosen, s')) :
    ∃ part s₂, nested (d.slice c) s₁ = (.ok part, s₂) ∧ R s₂ s' := by
  -- the part is what is asked first of what is left to do
  have hfirst : ∀ {f : Bool → Eval (List Span)} {s s' : Session}, (∀ holds, Follows R (f holds)) →
      (Evaluator.conditionHolds nested d c >>= f) s = (.ok chosen, s') →
      ∃ part s₂, nested (d.slice c) s = (.ok part, s₂) ∧ R s₂ s' := by
    intro f s s' hf hok
    obtain ⟨holds, s₂, hholds, hrest⟩ := exists_of_bind_eq_ok hf hok
    obtain ⟨part, hpart, -⟩ := Eval.map_eq_ok.1 hholds
    exact ⟨part, s₂, hpart, hrest⟩
  rw [chooseBody] at hok
  cases hasked with
  | nil =>
    obtain ⟨rfl, -⟩ := List.cons.inj hconds
    refine hfirst (fun holds => ?_) hok
    cases holds with
    | true => exact h.pure _
    | false => exact h.chooseAlternative hn _ _
  | cons first rest =>
    obtain ⟨rfl, hmore⟩ := List.cons.inj hconds
    rw [Eval.bind_of_ok first] at hok
    obtain ⟨left, hleft, heq⟩ := chooseAlternative_of_refuted b.otherwise hmore rest
    obtain ⟨a, more, rfl, rfl, -⟩ := List.map_eq_cons_iff.1 hleft
    simp only [Bool.false_eq_true, if_false] at hok
    rw [heq, Evaluator.chooseAlternative] at hok
    refine hfirst (fun holds => ?_) hok
    cases holds with
    | true => exact h.pure _
    | false => exact h.chooseAlternative hn _ _

/-- An argument of a call that returns is resolved before it returns. -/
theorem exists_argument (h : ev.Kept R) {f : Function} {slot : Span}
    {slots done more : List (Option Span)} {args : List Arg} {result : Text} {s₁ s₂ : Session}
    (hf : f ∈ ev.registry.functions) (hresult : ev.callResult (ev.resolveAt (p.depth + 1)) p.document f slots
      p.session = (.ok result, s₁)) (hslots : slots = done ++ some slot :: more)
    (hdone : Evaluator.arguments (ev.resolveAt (p.depth + 1)) p.document done p.session.counted =
      (.ok args, s₂)) (hmark : (p.document.slice slot).hasMarker = true) :
    ∃ d' s', ev.outcome (ev.enterPart p slot s₂) = (.ok d', s') ∧ R s' s₁ := by
  obtain ⟨-, all, s₃, hargs, hcall⟩ := callResult_eq_ok.1 hresult
  rw [hslots] at hargs
  obtain ⟨part, s₄, rest, hpart, hrest⟩ := exists_part_of_arguments hdone hmark hargs
  have hmore := h.arguments (d := p.document) (h.resolveAt (p.depth + 1)) more s₄
  have hcalled := h.called f hf all s₃
  rw [hrest] at hmore
  rw [hcall] at hcalled
  exact ⟨part, s₄, by rw [outcome_enterPart, hpart], h.trans hmore hcalled⟩

/-- Where a run succeeds, what a move leads to does, before the run comes to its end. -/
theorem exists_outcome (h : ev.Kept R) (move : ev.Move p q) (hok : ev.outcome p = (.ok d, s)) :
    ∃ d' s', ev.outcome q = (.ok d', s') ∧ R s' s := by
  have hnested := h.resolveAt (p.depth + 1)
  have hlater : ∀ worklist d, Follows R (ev.afterPass (ev.resolveAt (p.depth + 1))
      (ev.resolveAt p.depth) worklist d) := h.afterPass hnested (h.resolveAt p.depth)
  cases move with
  | leave next free order => exact ⟨d, s, by rw [← outcome_leave next free order, hok], h.refl s⟩
  | call calls returns =>
    exact ⟨d, s, by rw [← outcome_afterCall calls returns, hok], h.refl s⟩
  | block resolves chooses =>
    exact ⟨d, s, by rw [← outcome_afterBlock resolves chooses, hok], h.refl s⟩
  | argument calls within slots_eq earlier marked =>
    rw [outcome_call calls] at hok
    obtain ⟨result, s₁, hresult, hend⟩ := exists_of_bind_eq_ok (fun _ => hlater _ _) hok
    obtain ⟨d', s', hpart, hrest⟩ :=
      h.exists_argument calls.mem_functions hresult slots_eq earlier marked
    exact ⟨d', s', hpart, h.trans hrest hend⟩
  | condition resolves within conditions_eq earlier =>
    rw [outcome_block resolves] at hok
    obtain ⟨chosen, s₁, hchosen, hend⟩ :=
      exists_of_bind_eq_ok (fun _ => h.resolveAt p.depth _) hok
    obtain ⟨-, hchoose⟩ := chosenBody_eq_ok.1 hchosen
    obtain ⟨part, s₂, hpart, hrest⟩ :=
      h.exists_condition hnested conditions_eq earlier hchoose
    exact ⟨part, s₂, by rw [outcome_enterPart, hpart], h.trans hrest hend⟩

/-- A call in a run that succeeds returns before the run comes to its end. -/
theorem exists_callResult (h : ev.Kept R) {f : Function} {span : Span} {slots : List (Option Span)}
    (hcalls : ev.Calls p f span slots) (hok : ev.outcome p = (.ok d, s)) :
    ∃ result s₁, ev.callResult (ev.resolveAt (p.depth + 1)) p.document f slots p.session =
      (.ok result, s₁) ∧ R s₁ s := by
  rw [outcome_call hcalls] at hok
  exact exists_of_bind_eq_ok
    (fun _ => h.afterPass (h.resolveAt (p.depth + 1)) (h.resolveAt p.depth) _ _) hok

theorem exists_outcome_of_leads (h : ev.Kept R) (hleads : ev.Leads p q)
    (hok : ev.outcome p = (.ok d, s)) : ∃ d' s', ev.outcome q = (.ok d', s') ∧ R s' s := by
  induction hleads with
  | refl => exact ⟨d, s, hok, h.refl s⟩
  | tail _ move ih =>
    obtain ⟨d₁, s₁, hok₁, hend⟩ := ih
    obtain ⟨d₂, s₂, hok₂, hlast⟩ := h.exists_outcome move hok₁
    exact ⟨d₂, s₂, hok₂, h.trans hlast hend⟩

end Kept

/-! ### Traces -/

/-- Moves come to an end. -/
theorem acc_move (hp : ev.Listed p) : Acc (fun q p => ev.Move p q) p := by
  generalize hn : Text.markers '$' p.document.text = n
  induction n using Nat.strong_induction_on generalizing p with
  | _ n ihn =>
    -- a move takes a `$`, or it keeps the document and takes a name of the worklist
    generalize hm : p.worklist.length = m
    induction m using Nat.strong_induction_on generalizing p with
    | _ m ihm =>
      refine ⟨p, fun q move => ?_⟩
      have hq := hp.move move
      rcases move.markers_lt hp with hlt | ⟨hdoc, hlt⟩
      · exact ihn _ (hn ▸ hlt) hq rfl
      · exact ihm _ (hm ▸ hlt) hq (by rw [hdoc, hn]) rfl

/-- A failure comes from a point of the run that stops it. -/
theorem exists_stop (hp : ev.Listed p) {e : EvalError} {s : Session}
    (h : ev.outcome p = (.error e, s)) : ∃ q, ev.Leads p q ∧ ev.Stops q e s := by
  induction acc_move hp with
  | intro p _ ih =>
    cases ev.progress p with
    | done _ houtcome =>
      rw [h] at houtcome
      cases houtcome
    | stops stop houtcome =>
      rw [h] at houtcome
      cases houtcome
      exact ⟨p, .refl, stop⟩
    | @moves q move _ houtcome =>
      obtain ⟨r, hleads, hstop⟩ := ih q move (hp.move move) (by rw [← houtcome, h])
      exact ⟨r, .head move hleads, hstop⟩
    | @fails q e' s' move hpart houtcome =>
      rw [h] at houtcome
      cases houtcome
      obtain ⟨r, hleads, hstop⟩ := ih q move (hp.move move) hpart
      exact ⟨r, .head move hleads, hstop⟩

/-- A success comes from a point of the run at which nothing is left to do. -/
theorem exists_settled (hp : ev.Listed p) {d : Document} {s : Session}
    (h : ev.outcome p = (.ok d, s)) :
    ∃ q, ev.Leads p q ∧ q.depth = p.depth ∧ q.worklist = [] ∧ q.document = d ∧ q.session = s := by
  induction acc_move hp with
  | intro p _ ih =>
    cases ev.progress p with
    | done hsettled houtcome =>
      rw [h] at houtcome
      cases houtcome
      exact ⟨p, .refl, rfl, hsettled, rfl, rfl⟩
    | stops _ houtcome =>
      rw [h] at houtcome
      cases houtcome
    | @moves q move hdepth houtcome =>
      obtain ⟨r, hleads, hr, hrest⟩ := ih q move (hp.move move) (by rw [← houtcome, h])
      exact ⟨r, .head move hleads, hr.trans hdepth, hrest⟩
    | fails _ _ houtcome =>
      rw [h] at houtcome
      cases houtcome

end Evaluator

end Stencil
