import Stencil.Proofs.Artifacts
import Stencil.Proofs.PartialCall
/-!
# What standard functions change

A standard function changes one component of the state at most, and a call that fails changes
nothing: its checks come before what it writes. `Change` says what became of the state, by the name
of the function and its arguments; `changes_of_mem` is the case analysis over the functions. That a
component stays as it was, and that of a table only the row of the argument changes, is read off it
(`Change.frame`).
-/

namespace Stencil.Library

variable {ctx : CallContext} {args : List Arg} {s s' : ExecutionState} {outcome : Outcome}
  {function : Text}

/-! ### What a call makes of the state -/

/-- What a standard function makes of the state, with the outcome of the call. -/
inductive Change (function : Text) (args : List Arg) (s : ExecutionState) :
    Outcome → ExecutionState → Prop
  | nothing (outcome : Outcome) : Change function args s outcome s
  | set {name : Text} (value : Text) (called : function = "$let".toList)
      (named : text? args 0 = some name) :
      Change function args s .nothing (s.setVariable name value)
  | unset {name : Text} (called : function = "$unset".toList) (named : text? args 0 = some name) :
      Change function args s .nothing (s.unsetVariable name)
  | array {name : Text} (items : List Text) (called : function = "$createArray".toList)
      (named : text? args 0 = some name) :
      Change function args s .nothing (s.setArray name items)
  | splits (pieces : List Text) (called : function = "$textSplit".toList) :
      Change function args s .nothing { s with splits := pieces }
  | timezone (zone : Text) (called : function = "$timezone".toList) :
      Change function args s .nothing { s with timezone := zone }
  | draw {name : Text} (n : Int) (called : function = "$random".toList)
      (named : text? args 2 = some name) (fresh : s.getDraw name = none) :
      Change function args s (.text (Numeral.integerText n))
        { s with draws := s.draws.set name n }

/-- Whatever the function answers, it changes no more than functions of its name do. -/
def Changes (f : Function) : Prop := ∀ ctx args s,
  Change f.name.text args s (f.call ctx args s).1 (f.call ctx args s).2

/-- A standard function changes what its body does, since it asks for nothing before the body
runs. -/
theorem changes_standard {name : String} {brackets : Bool} {params : List String} {body : Body}
    (h : ∀ ctx args s, Answers (Change ('$' :: name.toList) args s) s (body ctx args)) :
    Changes (standard name brackets params body) :=
  fun ctx args s => (h ctx args s).call fun _ => .nothing _

/-- `$let` sets the variable that its first argument names, or fails before that if the name
is missing. -/
theorem change_letVariable (ctx : CallContext) (args : List Arg) (s : ExecutionState) :
    Answers (Change "$let".toList args s) s (letVariable ctx args) :=
  .read fun _ hname => answers_modify (.set _ rfl (text_eq_ok.1 hname))

theorem change_unsetVariable (ctx : CallContext) (args : List Arg) (s : ExecutionState) :
    Answers (Change "$unset".toList args s) s (unsetVariable ctx args) :=
  .read fun _ hname => answers_modify (.unset rfl (text_eq_ok.1 hname))

/-- `$createArray` stores its pieces under the name that it is given. -/
theorem change_createArray (ctx : CallContext) (args : List Arg) (s : ExecutionState) :
    Answers (Change "$createArray".toList args s) s (createArray ctx args) :=
  .read fun _ hname => answers_modify (.array _ rfl (text_eq_ok.1 hname))

/-- `$textSplit` fills the list of pieces, which has no name. -/
theorem change_textSplit (ctx : CallContext) (args : List Arg) (s : ExecutionState) :
    Answers (Change "$textSplit".toList args s) s (textSplit ctx args) :=
  .read fun _ _ => answers_modify (.splits _ rfl)

/-- `$random` adds a draw only under a name that has none yet. -/
theorem change_random (ctx : CallContext) (args : List Arg) (s : ExecutionState) :
    Answers (Change "$random".toList args s) s (random ctx args) :=
  answers_random (fun _ => .nothing _) fun _ n hname hfresh => .draw n rfl hname hfresh

/-- `$timezone` changes the time zone only when the zone is known. -/
theorem change_timezone (ctx : CallContext) (args : List Arg) (s : ExecutionState) :
    Answers (Change "$timezone".toList args s) s (timezone ctx args) :=
  answers_timezone (.nothing _) fun zone => .timezone zone rfl

/-- Of the functions on variables, four write; the others read the state and give it back. -/
theorem changes_variableFunctions : ∀ f ∈ variableFunctions, Changes f := by
  simp only [variableFunctions, List.forall_mem_cons, List.not_mem_nil, false_imp_iff,
    implies_true, and_true]
  exact ⟨changes_standard fun _ _ _ => answers_reply (.nothing _),
    changes_standard change_letVariable,
    changes_standard fun _ _ _ => .read fun _ _ => answers_get (answers_reply (.nothing _)),
    changes_standard change_unsetVariable,
    changes_standard change_createArray,
    changes_standard fun _ _ _ => .read fun _ _ => .read fun _ _ =>
      answers_get (answers_reply (.nothing _)),
    changes_standard fun _ _ _ => .read fun _ _ => answers_get (answers_reply (.nothing _)),
    changes_standard fun _ _ _ => .read fun _ _ => answers_get (answers_reply (.nothing _)),
    changes_standard change_textSplit,
    changes_standard fun _ _ _ => .read fun _ _ => answers_get (answers_reply (.nothing _)),
    changes_standard fun _ _ _ => answers_get (answers_reply (.nothing _))⟩

theorem changes_chanceFunctions : ∀ f ∈ chanceFunctions, Changes f := by
  simp only [chanceFunctions, List.forall_mem_cons, List.not_mem_nil, false_imp_iff,
    implies_true, and_true]
  exact ⟨changes_standard change_random, changes_standard change_timezone,
    changes_standard fun _ _ _ => answers_sleep (.nothing _)⟩

/-- No function on text changes the state. -/
theorem changes_textFunctions : ∀ f ∈ textFunctions, Changes f := by
  simp only [textFunctions, List.forall_mem_cons, List.not_mem_nil, false_imp_iff,
    implies_true, and_true]
  -- all of them reply; what is read of the arguments can only end them earlier
  exact ⟨changes_standard fun _ _ _ => .read fun _ _ => answers_reply (.nothing _),
    changes_standard fun _ _ _ => .read fun _ _ => answers_reply (.nothing _),
    changes_standard fun _ _ _ => answers_reply (.nothing _),
    changes_standard fun _ _ _ => answers_reply (.nothing _),
    changes_standard fun _ _ _ => .read fun _ _ => answers_reply (.nothing _),
    changes_standard fun _ _ _ => answers_repeatText fun _ => .nothing _,
    changes_standard fun _ _ _ => .read fun _ _ => answers_reply (.nothing _),
    changes_standard fun _ _ _ => answers_callerArgs fun _ => .nothing _⟩

/-- What an artifact asks for is in its outcome, not in the state. -/
theorem changes_artifactFunctions : ∀ f ∈ artifactFunctions, Changes f := by
  simp only [artifactFunctions, List.forall_mem_cons, List.not_mem_nil, false_imp_iff,
    implies_true, and_true]
  -- `$addElement` can fail on its kind; the other three return what their arguments say
  exact ⟨changes_standard fun _ _ _ => answers_addElement fun _ => .nothing _,
    changes_standard fun _ _ _ => .read fun _ _ => answers_return (.nothing _),
    changes_standard fun _ _ _ => .read fun _ _ => answers_return (.nothing _),
    changes_standard fun _ _ _ => .read fun _ _ => answers_return (.nothing _)⟩

theorem changes_generalFunctions : ∀ f ∈ generalFunctions, Changes f := by
  simp only [generalFunctions, List.forall_mem_cons, List.not_mem_nil, false_imp_iff,
    implies_true, and_true]
  exact ⟨changes_standard fun _ _ _ => answers_return (.nothing _),
    changes_standard fun _ _ _ => answers_reply (.nothing _)⟩

/-- The case analysis over the standard functions. -/
theorem changes_of_mem {f : Function} (hf : f ∈ registry.functions) : Changes f := by
  rw [functions_registry] at hf
  simp only [functions, List.mem_append] at hf
  rcases hf with (((hf | hf) | hf) | hf) | hf
  · exact changes_variableFunctions f hf
  · exact changes_chanceFunctions f hf
  · exact changes_textFunctions f hf
  · exact changes_artifactFunctions f hf
  · exact changes_generalFunctions f hf

/-! ### What stays -/

/-- No component of the state differs but that of the function, and of a table no row but that of
the argument. A draw is added under a name that had none, and no draw is ever another one. -/
structure Frame (function : Text) (args : List Arg) (s s' : ExecutionState) : Prop where
  vars : s'.vars ≠ s.vars → function = "$let".toList ∨ function = "$unset".toList
  getVariable : ∀ name, s'.getVariable name ≠ s.getVariable name → text? args 0 = some name
  arrays : s'.arrays ≠ s.arrays → function = "$createArray".toList
  getArray : ∀ name, s'.getArray name ≠ s.getArray name → text? args 0 = some name
  splits : s'.splits ≠ s.splits → function = "$textSplit".toList
  timezone : s'.timezone ≠ s.timezone → function = "$timezone".toList
  draws : s'.draws ≠ s.draws → function = "$random".toList ∧ ∃ name n,
    text? args 2 = some name ∧ s.getDraw name = none ∧ s'.draws = s.draws.set name n
  getDraw : ∀ name n, s.getDraw name = some n → s'.getDraw name = some n

/-- A table that is set under one name answers differently under that name only. -/
theorem eq_of_get?_set_ne {α : Type} {t : Table α} {a b : Text} {v : α}
    (h : (t.set a v).get? b ≠ t.get? b) : b = a := by
  by_contra hne
  exact h (by rw [Table.get?_set, if_neg hne])

theorem eq_of_get?_erase_ne {α : Type} {t : Table α} {a b : Text}
    (h : (t.erase a).get? b ≠ t.get? b) : b = a := by
  by_contra hne
  exact h (by rw [Table.get?_erase, if_neg hne])

namespace Change

/-- A call that fails leaves the state that it was given. -/
theorem eq_of_failure {message : Text} (h : Change function args s (.failure message) s') :
    s' = s := by
  cases h
  rfl

/-- Each constructor of `Change` writes one component, so every other component is the old one,
and a difference tells which constructor it was. -/
theorem frame (h : Change function args s outcome s') : Frame function args s s' where
  vars hne := by
    cases h with
    | set _ called => exact .inl called
    | unset called => exact .inr called
    | _ => exact absurd rfl hne
  getVariable other hne := by
    cases h with
    | set _ _ named => rwa [eq_of_get?_set_ne hne]
    | unset _ named => rwa [eq_of_get?_erase_ne hne]
    | _ => exact absurd rfl hne
  arrays hne := by
    cases h with
    | array _ called => exact called
    | _ => exact absurd rfl hne
  getArray other hne := by
    cases h with
    | array _ _ named => rwa [eq_of_get?_set_ne hne]
    | _ => exact absurd rfl hne
  splits hne := by
    cases h with
    | splits _ called => exact called
    | _ => exact absurd rfl hne
  timezone hne := by
    cases h with
    | timezone _ called => exact called
    | _ => exact absurd rfl hne
  draws hne := by
    cases h with
    | draw n called named fresh => exact ⟨called, _, n, named, fresh, rfl⟩
    | _ => exact absurd rfl hne
  getDraw other old hold := by
    cases h with
    | @draw name n _ _ fresh =>
      -- a draw is never taken under a name that has one, so an old draw has another name
      have hother : other ≠ name := by
        rintro rfl
        rw [fresh] at hold
        cases hold
      rw [ExecutionState.getDraw, Table.get?_set, if_neg hother]
      exact hold
    | _ => exact hold

end Change

/-! ### Every call -/

/-- Whatever the arguments, the context and the state are, a call of a standard function comes to an
outcome; one that fails leaves the state as it was, and any other one changes nothing but what is the
function's own. -/
theorem standard_calls_are_framed {f : Function} (hf : f ∈ registry.functions) (ctx : CallContext)
    (args : List Arg) (s : ExecutionState) :
    partialCall f ctx args s = some (f.call ctx args s) ∧
      (∀ message, (f.call ctx args s).1 = .failure message → (f.call ctx args s).2 = s) ∧
      Frame f.name.text args s (f.call ctx args s).2 := by
  have hchange := changes_of_mem hf ctx args s
  refine ⟨partialCall_eq hf ctx args s, fun message hfailure => ?_, hchange.frame⟩
  rw [hfailure] at hchange
  exact hchange.eq_of_failure

theorem named_draw_is_added :
    let f := standard "random" true ["min", "max", "name"] random
    let ctx : CallContext := ⟨f.name.text, ⟨[], [], 0⟩, .empty, 9⟩
    let s := { ExecutionState.initial with draws := Table.empty.set ['a'] 2 }
    let s' := (f.call ctx [some ['4'], some ['6'], some ['b']] s).2
    f ∈ registry.functions ∧ s'.getDraw ['a'] = some 2 ∧ s'.getDraw ['b'] = some 4 ∧
      s'.vars = s.vars := by
  intro f ctx s s'
  have hf : f ∈ registry.functions := by
    rw [functions_registry]
    simp [functions, chanceFunctions, f]
  obtain ⟨-, -, hframe⟩ := standard_calls_are_framed hf ctx [some ['4'], some ['6'], some ['b']] s
  -- an old draw is still there by the frame, not by a look at the table
  have hold : s'.getDraw ['a'] = some 2 := hframe.getDraw ['a'] 2 (by decide +kernel)
  have hvars : s'.vars = s.vars := by
    by_contra hne
    exact absurd (hframe.vars hne) (by decide +kernel)
  exact ⟨hf, hold, by decide +kernel, hvars⟩

end Stencil.Library
