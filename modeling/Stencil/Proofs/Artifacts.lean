import Stencil.Proofs.Answer
import Stencil.Proofs.Meaning
import Stencil.Proofs.Success
/-!
# Artifacts of a successful evaluation

A function that changes artifacts replaces whole fields by values that it computes from the
artifacts it saw. Nothing is lost by that, because every call sees the artifacts as the calls before
it left them: arguments are resolved before a function is called, and the function is called with
what they left.

`Effect` says what a standard function that returns does to the artifacts, by the name and the
arguments that the call is recorded with. `Accounted` is the invariant that follows: the elements
and the attachments are those that the recorded calls ask for, in their order, and the flags and the
message are the last ones asked for.
-/

namespace Stencil

/-- The patch that a call hands in. -/
def Outcome.patch? : Outcome → Option Patch
  | .withArtifacts _ patch => some patch
  | .value _ | .failure _ => none

/-! ### What standard functions hand in -/

namespace Library

/-- Whatever is answered from the state, no patch is handed in. -/
def Quiet (s : ExecutionState) (action : Action Outcome) : Prop :=
  Answers (fun outcome _ => outcome.patch? = none) s action

variable {s : ExecutionState}

theorem quiet_return {outcome : Outcome} (h : outcome.patch? = none) : Quiet s (pure outcome) :=
  answers_return h

theorem quiet_reply (t : Text) : Quiet s (reply t) := quiet_return rfl

theorem quiet_get {f : ExecutionState → Action Outcome} (h : Quiet s (f s)) : Quiet s (get >>= f) :=
  answers_get h

theorem quiet_modify {f : ExecutionState → ExecutionState} {outcome : Outcome}
    (h : outcome.patch? = none) : Quiet s (modify f >>= fun _ => pure outcome) :=
  answers_modify h

/-- An argument that is read makes no difference. -/
theorem Quiet.read {α : Type} {x : Except Fault α} {f : α → Action Outcome}
    (h : ∀ a, Quiet s (f a)) : Quiet s ((liftM x : Action α) >>= f) :=
  Answers.read fun a _ => h a

/-- The function never hands in a patch. -/
def QuietFunction (f : Function) : Prop := ∀ ctx args s, (f.call ctx args s).1.patch? = none

/-- A standard function is quiet if its body is, since a fault is no outcome with artifacts. -/
theorem quiet_standard {name : String} {brackets : Bool} {params : List String} {body : Body}
    (h : ∀ ctx args s, Quiet s (body ctx args)) :
    QuietFunction (standard name brackets params body) :=
  fun ctx args s => Answers.call (h ctx args s) fun _ => rfl

/-- Functions on variables read and write the state, nothing else. -/
theorem quiet_variableFunctions : ∀ f ∈ variableFunctions, QuietFunction f := by
  simp only [variableFunctions, List.forall_mem_cons, List.not_mem_nil, false_imp_iff,
    implies_true, and_true]
  exact ⟨quiet_standard fun _ _ _ => quiet_reply _,
    quiet_standard fun _ _ _ => .read fun _ => quiet_modify rfl,
    quiet_standard fun _ _ _ => .read fun _ => quiet_get (quiet_reply _),
    quiet_standard fun _ _ _ => .read fun _ => quiet_modify rfl,
    quiet_standard fun _ _ _ => .read fun _ => quiet_modify rfl,
    quiet_standard fun _ _ _ => .read fun _ => .read fun _ => quiet_get (quiet_reply _),
    quiet_standard fun _ _ _ => .read fun _ => quiet_get (quiet_reply _),
    quiet_standard fun _ _ _ => .read fun _ => quiet_get (quiet_reply _),
    quiet_standard fun _ _ _ => .read fun _ => quiet_modify rfl,
    quiet_standard fun _ _ _ => .read fun _ => quiet_get (quiet_reply _),
    quiet_standard fun _ _ _ => quiet_get (quiet_reply _)⟩

/-- Neither chance nor time hands in artifacts. -/
theorem quiet_chanceFunctions : ∀ f ∈ chanceFunctions, QuietFunction f := by
  simp only [chanceFunctions, List.forall_mem_cons, List.not_mem_nil, false_imp_iff,
    implies_true, and_true]
  exact ⟨quiet_standard fun _ _ _ => answers_random (fun _ => rfl) fun _ _ _ _ => rfl,
    quiet_standard fun _ _ _ => answers_timezone rfl fun _ => rfl,
    quiet_standard fun _ _ _ => answers_sleep rfl⟩

/-- Neither do functions on text. -/
theorem quiet_textFunctions : ∀ f ∈ textFunctions, QuietFunction f := by
  simp only [textFunctions, List.forall_mem_cons, List.not_mem_nil, false_imp_iff,
    implies_true, and_true]
  exact ⟨quiet_standard fun _ _ _ => .read fun _ => quiet_reply _,
    quiet_standard fun _ _ _ => .read fun _ => quiet_reply _,
    quiet_standard fun _ _ _ => quiet_reply _,
    quiet_standard fun _ _ _ => quiet_reply _,
    quiet_standard fun _ _ _ => .read fun _ => quiet_reply _,
    quiet_standard fun _ _ _ => answers_repeatText fun _ => rfl,
    quiet_standard fun _ _ _ => .read fun _ => quiet_reply _,
    quiet_standard fun _ _ _ => answers_callerArgs fun _ => rfl⟩

theorem quiet_generalFunctions : ∀ f ∈ generalFunctions, QuietFunction f := by
  simp only [generalFunctions, List.forall_mem_cons, List.not_mem_nil, false_imp_iff,
    implies_true, and_true]
  exact ⟨quiet_standard fun _ _ _ => quiet_return rfl, quiet_standard fun _ _ _ => quiet_reply _⟩

/-- The functions that hand in no patches. -/
def quietFunctions : List Function :=
  variableFunctions ++ chanceFunctions ++ textFunctions ++ generalFunctions

/-- Every function outside of the four that change artifacts is quiet. -/
theorem quiet_of_mem {f : Function} (h : f ∈ quietFunctions) : QuietFunction f := by
  simp only [quietFunctions, List.mem_append] at h
  rcases h with ((h | h) | h) | h
  · exact quiet_variableFunctions f h
  · exact quiet_chanceFunctions f h
  · exact quiet_textFunctions f h
  · exact quiet_generalFunctions f h

/-- The names of the functions that hand in patches. -/
def artifactNames : List Text :=
  ["$addElement".toList, "$attachment".toList, "$flags".toList, "$useMessage".toList]

/-- The quiet functions have other names than those four. -/
theorem not_mem_artifactNames {f : Function} (h : f ∈ quietFunctions) :
    f.name.text ∉ artifactNames := by
  have hall : ∀ name ∈ quietFunctions.map (·.name.text), name ∉ artifactNames := by
    decide +kernel
  exact hall _ (List.mem_map_of_mem h)

end Library

/-- A standard function is quiet or one of the four. -/
theorem Library.mem_of_mem_registry {f : Function} (h : f ∈ registry.functions) :
    f ∈ quietFunctions ∨ f ∈ artifactFunctions := by
  rw [functions_registry] at h
  simp only [functions, quietFunctions, List.mem_append] at h ⊢
  rcases h with (h | h) | h
  · exact .inl (.inl h)
  · exact .inr h
  · exact .inl (.inr h)

/-! ### What a call asks for -/

namespace CallRecord

/-- The element that a call of `addElement` asks for. -/
def element? (r : CallRecord) : Option Element :=
  ((Library.text? r.args 0).bind ElementKind.parse?).map (⟨·, (Library.text? r.args 1).getD []⟩)

/-- The attachment that a call of `attachment` asks for. -/
def attachment? (r : CallRecord) : Option Attachment :=
  (Library.text? r.args 0).map (⟨·, (Library.text? r.args 1).getD []⟩)

/-- The value that a call of `flags` or `useMessage` asks for. -/
def value? (r : CallRecord) : Option Text := Library.text? r.args 0

end CallRecord

/-- What a completed call of a standard function makes of the artifacts that it saw. -/
inductive Effect (a : Artifacts) (r : CallRecord) : Artifacts → Prop
  | element {e : Element} (name : r.function = "$addElement".toList) (asks : r.element? = some e) :
      Effect a r { a with elements := a.elements ++ [e] }
  | attachment {f : Attachment} (name : r.function = "$attachment".toList)
      (asks : r.attachment? = some f) :
      Effect a r { a with attachments := a.attachments ++ [f] }
  | flags {v : Text} (name : r.function = "$flags".toList) (asks : r.value? = some v) :
      Effect a r { a with flags := some v }
  | message {v : Text} (name : r.function = "$useMessage".toList) (asks : r.value? = some v) :
      Effect a r { a with message := some v }
  | nothing (other : r.function ∉ Library.artifactNames) : Effect a r a

namespace Library

variable {ctx : CallContext} {args : List Arg} {s s' : ExecutionState} {outcome : Outcome}

/-- An argument is read as a text if it is there. -/
theorem text_eq_ok {place : Nat} {t : Text} : text args place = .ok t ↔ text? args place = some t := by
  unfold text
  cases text? args place <;> simp

/-- A body that begins with the text at the first place answers only if there is one. -/
theorem exists_of_text_read {f : Text → Action Outcome}
    (h : ((liftM (text args 0) : Action Text) >>= f) s = (.ok outcome, s')) :
    ∃ t, text? args 0 = some t ∧ f t s = (.ok outcome, s') := by
  cases ht : text args 0 with
  | error fault =>
    rw [ht] at h
    cases h
  | ok t =>
    rw [ht] at h
    exact ⟨t, text_eq_ok.1 ht, h⟩

/-- A call with a replacement was not ended by a fault, so its body ran to the end. -/
theorem exists_of_call_eq {body : Body} (h : body.call ctx args s = (outcome, s'))
    (hok : outcome.replacement?.isSome) : body ctx args s = (.ok outcome, s') := by
  unfold Body.call at h
  split at h
  · next outcome' s'' hbody =>
    cases h
    exact hbody
  · cases h
    cases hok

/-- What a standard function that returns does to the artifacts it saw. -/
theorem effect_of_mem {f : Function} (hf : f ∈ registry.functions)
    (h : f.call ctx args s = (outcome, s')) (hok : outcome.replacement?.isSome) :
    Effect ctx.artifacts ⟨f.name.text, args, outcome⟩
      (ctx.artifacts.apply (outcome.patch?.getD .keep)) := by
  rcases mem_of_mem_registry hf with hf | hf
  -- a quiet function hands nothing in
  · have hquiet := quiet_of_mem hf ctx args s
    rw [h] at hquiet
    have hkeep : ctx.artifacts.apply (outcome.patch?.getD .keep) = ctx.artifacts := by
      rw [hquiet]
      exact Artifacts.apply_keep _
    rw [hkeep]
    exact .nothing (not_mem_artifactNames hf)
  · simp only [artifactFunctions, List.mem_cons, List.not_mem_nil, or_false] at hf
    -- each of the four reads its first argument and hands in what it asks for
    rcases hf with rfl | rfl | rfl | rfl
    · obtain ⟨word, hword, hbody⟩ := exists_of_text_read (exists_of_call_eq h hok)
      cases hkind : ElementKind.parse? word with
      | none =>
        rw [hkind] at hbody
        cases hbody
      | some kind =>
        rw [hkind] at hbody
        cases hbody
        exact .element rfl (by simp [CallRecord.element?, hword, hkind])
    · obtain ⟨name, hname, hbody⟩ := exists_of_text_read (exists_of_call_eq h hok)
      cases hbody
      exact .attachment rfl (by simp [CallRecord.attachment?, hname])
    · obtain ⟨value, hvalue, hbody⟩ := exists_of_text_read (exists_of_call_eq h hok)
      cases hbody
      exact .flags rfl hvalue
    · obtain ⟨id, hid, hbody⟩ := exists_of_text_read (exists_of_call_eq h hok)
      cases hbody
      exact .message rfl hid

end Library

/-! ### What the log accounts for -/

section Asked

variable {α : Type} {name : Text} {read : CallRecord → Option α} {calls : List CallRecord}
  {r : CallRecord} {values : List α}

/-- The calls of a function, in their order, ask for these values; each of them asks for one. -/
def Asks (name : Text) (read : CallRecord → Option α) (calls : List CallRecord)
    (values : List α) : Prop :=
  (calls.filter (·.function == name)).map read = values.map some

theorem asks_nil : Asks name read [] [] := rfl

/-- A call under another name asks for nothing. -/
theorem Asks.other (h : Asks name read calls values) (hr : r.function ≠ name) :
    Asks name read (calls ++ [r]) values := by
  rw [Asks, List.filter_append, List.filter_cons_of_neg (by simpa using hr), List.filter_nil,
    List.append_nil]
  exact h

/-- A call under the name asks for one value more. -/
theorem Asks.concat (h : Asks name read calls values) (hr : r.function = name) {v : α}
    (hv : read r = some v) : Asks name read (calls ++ [r]) (values ++ [v]) := by
  rw [Asks, List.filter_append, List.filter_cons_of_pos (by simpa using hr), List.filter_nil,
    List.map_append, List.map_append, h, List.map_singleton, hv, List.map_singleton]

end Asked

/-- The artifacts are those that the calls ask for, in the order of the calls. -/
structure Accounted (calls : List CallRecord) (a : Artifacts) : Prop where
  elements : Asks "$addElement".toList CallRecord.element? calls a.elements
  attachments : Asks "$attachment".toList CallRecord.attachment? calls a.attachments
  /-- The last value, if there is one. -/
  flags : ∃ values, Asks "$flags".toList CallRecord.value? calls values ∧
    a.flags = values.getLast?
  message : ∃ values, Asks "$useMessage".toList CallRecord.value? calls values ∧
    a.message = values.getLast?

/-- Without calls there are no artifacts. -/
theorem accounted_empty : Accounted [] .empty :=
  ⟨asks_nil, asks_nil, ⟨[], asks_nil, rfl⟩, ⟨[], asks_nil, rfl⟩⟩

/-- One more call. -/
theorem Accounted.concat {calls : List CallRecord} {a a' : Artifacts} {r : CallRecord}
    (h : Accounted calls a) (effect : Effect a r a') : Accounted (calls ++ [r]) a' := by
  -- each effect adds to one of the four fields; for the others the call has another name
  obtain ⟨flags, hflags, hlastFlags⟩ := h.flags
  obtain ⟨messages, hmessages, hlastMessage⟩ := h.message
  cases effect with
  | element name asks =>
    exact ⟨h.elements.concat name asks, h.attachments.other (by rw [name]; decide),
      ⟨flags, hflags.other (by rw [name]; decide), hlastFlags⟩,
      ⟨messages, hmessages.other (by rw [name]; decide), hlastMessage⟩⟩
  | attachment name asks =>
    exact ⟨h.elements.other (by rw [name]; decide), h.attachments.concat name asks,
      ⟨flags, hflags.other (by rw [name]; decide), hlastFlags⟩,
      ⟨messages, hmessages.other (by rw [name]; decide), hlastMessage⟩⟩
  | @flags v name asks =>
    exact ⟨h.elements.other (by rw [name]; decide), h.attachments.other (by rw [name]; decide),
      ⟨flags ++ [v], hflags.concat name asks, List.getLast?_concat.symm⟩,
      ⟨messages, hmessages.other (by rw [name]; decide), hlastMessage⟩⟩
  | @message v name asks =>
    exact ⟨h.elements.other (by rw [name]; decide), h.attachments.other (by rw [name]; decide),
      ⟨flags, hflags.other (by rw [name]; decide), hlastFlags⟩,
      ⟨messages ++ [v], hmessages.concat name asks, List.getLast?_concat.symm⟩⟩
  | nothing other =>
    simp only [Library.artifactNames, List.mem_cons, List.not_mem_nil, or_false, not_or] at other
    obtain ⟨hadd, hattach, hset, huse⟩ := other
    exact ⟨h.elements.other hadd, h.attachments.other hattach,
      ⟨flags, hflags.other hset, hlastFlags⟩, ⟨messages, hmessages.other huse, hlastMessage⟩⟩

/-! ### Successful evaluations -/

namespace Evaluator

variable {ev : Evaluator} {source : Text} {state : ExecutionState}

/-- What a call that returns leaves of the artifacts, and the record that is added for it. -/
theorem callFunction_artifacts {f : Function} {args : List Arg} {result : Text} {s s' : Session}
    (h : ev.callFunction f args s = (.ok result, s')) :
    ∃ outcome state', f.call (ev.contextIn f s) args s.state = (outcome, state') ∧
      outcome.replacement?.isSome ∧ s'.log = ⟨f.name.text, args, outcome⟩ :: s.log ∧
      s'.artifacts = s.artifacts.apply (outcome.patch?.getD .keep) := by
  rcases hcall : f.call (ev.contextIn f s) args s.state with ⟨outcome, state'⟩
  unfold callFunction Session.complete at h
  rw [hcall] at h
  refine ⟨outcome, state', rfl, ?_⟩
  -- in either case of success the record is logged and the patch is applied
  cases outcome with
  | value t =>
    cases h
    exact ⟨rfl, rfl, (Artifacts.apply_keep _).symm⟩
  | withArtifacts t patch =>
    cases h
    exact ⟨rfl, rfl, rfl⟩
  | failure message => cases h

/-- With the standard functions, sessions stay accounted for along a successful run. -/
theorem alongAccounted (hregistry : ev.registry = Library.registry) (source : Text)
    (state : ExecutionState) : ev.Along source state fun s s' =>
      Accounted s.calls s.artifacts → Accounted s'.calls s'.artifacts where
  refl s h := h
  trans h h' hs := h' (h hs)
  counted s h := h
  called := by
    -- only the call of a function adds a record, and the artifacts change in step with it
    intro p f span slots args result s s' hp hcalls hargs hcall hs
    have hf := hcalls.mem_functions
    rw [hregistry] at hf
    obtain ⟨outcome, state', heq, hok, hlog, hartifacts⟩ := callFunction_artifacts hcall
    rw [Session.calls, hlog, List.reverse_cons, hartifacts]
    exact hs.concat (Library.effect_of_mem hf heq hok)

/-- A call of the run that completes is in the log with which the run succeeds. -/
theorem Completes.log_suffix {x : Nat} {before : List CallRecord} {record : CallRecord}
    (h : ev.Completes source state x before record) {d : Document} {s : Session}
    (hok : ev.outcome (ev.start source state) = (.ok d, s)) : record :: before <:+ s.log := by
  obtain ⟨p, f, span, slots, result, s₁, s₂, hp, hcalls, -, -, hargs, rfl, hcall, hlog⟩ := h
  obtain ⟨d', s₃, hpart, hrest⟩ := (keptLog ev).exists_outcome_of_leads hp hok
  obtain ⟨result', s₄, hresult, hlater⟩ := (keptLog ev).exists_callResult hcalls hpart
  obtain ⟨-, args, s₅, hargs', hcall'⟩ := callResult_eq_ok.1 hresult
  -- the arguments are the ones that were resolved, since both come out of the same computation
  rw [hargs] at hargs'
  cases hargs'
  rw [hcall] at hcall'
  cases hcall'
  rw [← hlog]
  exact hlater.trans hrest

/-- With the standard functions nothing that a successful evaluation asks for is lost or doubled.
The calls that it reports are those of its run that completed, in the order in which they did. The
elements are the ones that the calls of `addElement` among them ask for, the attachments those of
the calls of `attachment`, and the flags and the message are what the last calls of `flags` and of
`useMessage` ask for, if there are any. -/
theorem artifacts_are_asked_for (hregistry : ev.registry = Library.registry) {e : Evaluation}
    (h : (ev.evaluate source state).result = .ok e) :
    (∃ order, ev.Ran source state [] order (ev.evaluate source state).calls.reverse) ∧
    (∀ x before record, ev.Completes source state x before record →
      record :: before <:+ (ev.evaluate source state).calls.reverse) ∧
    Accounted (ev.evaluate source state).calls e.artifacts := by
  obtain ⟨d, s, hok, rfl, hcalls⟩ := evaluate_result_eq_ok h
  have hstart : ev.Reached source state (ev.start source state) := .refl
  rw [hcalls, Session.calls, List.reverse_reverse]
  refine ⟨hstart.ran hok, fun x before record hx => hx.log_suffix hok, ?_⟩
  exact (alongAccounted hregistry source state).relates hstart d s hok accounted_empty

/-- A call in an argument, one in a condition and one in the body that is chosen. The call in the
argument completes before the call around it, and the flags of the condition are replaced. -/
def nestedArtifacts : Text :=
  "$addElement[embed;a$addElement[sticker;b]]$if[$flags[f]==]$flags[g]$else$flags[h]$endif".toList

theorem nested_artifacts_are_asked_for : ∃ e,
    (standardEvaluator.evaluate nestedArtifacts .initial).result = .ok e ∧
    e.artifacts = ⟨[⟨.sticker, ['b']⟩, ⟨.embed, ['a']⟩], [], some ['g'], none⟩ ∧
    Accounted (standardEvaluator.evaluate nestedArtifacts .initial).calls e.artifacts := by
  have hartifacts : (standardEvaluator.evaluate nestedArtifacts .initial).result.toOption.map
      (·.artifacts) = some ⟨[⟨.sticker, ['b']⟩, ⟨.embed, ['a']⟩], [], some ['g'], none⟩ := by
    decide +kernel
  cases hresult : (standardEvaluator.evaluate nestedArtifacts .initial).result with
  | error cause =>
    rw [hresult] at hartifacts
    cases hartifacts
  | ok e =>
    rw [hresult] at hartifacts
    obtain ⟨-, -, haccounted⟩ := artifacts_are_asked_for rfl hresult
    exact ⟨e, rfl, Option.some.inj hartifacts, haccounted⟩

end Evaluator

end Stencil
