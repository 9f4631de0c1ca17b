import Stencil.Proofs.Alike
import Stencil.Proofs.Calling
/-!
# A condition as an argument

`$checkCondition` is given a condition as an argument, of which the codes have been read and the
blanks around taken off; it writes the codes again. What is left is read like the condition
(`Condition.Alike`), so the call says of a condition without calls in it what a block finds that asks
for it (`check_agrees_with_block`).
-/

namespace Stencil

/-- The standard function that is given a condition. -/
def checker : Function :=
  Library.standard "checkCondition" true ["condition"] Library.checkCondition

/-- `$checkCondition` is a function of the library. -/
theorem checker_mem_library : checker ∈ Library.registry.functions := by
  rw [Library.functions_registry]
  exact List.mem_cons_self

/-- What is said of a condition. -/
def verdict (holds : Bool) : Text := (if holds then "true" else "false").toList

namespace Evaluator

open Block Condition

variable {ev : Evaluator} {nested : Nested} {name inner rest c : Text} {b : Spelling} {s : Session}
  {depth : Nat}

/-! ### The call -/

/-- An argument without a `$` is what stands there, without the blanks around and with its codes
read. -/
theorem argument_trimSpan (h : Passive nested) {t : Text} (span : Span)
    (hspan : span.stop ≤ t.length) (hdollar : '$' ∉ t.slice span) (s : Session) :
    argument nested (.source t) (some (Text.trimSpan t span)) s =
      (.ok (some (Text.unescape (Text.trim (t.slice span)))), s) := by
  have hpart : (Document.source t).slice (Text.trimSpan t span) =
      .source (Text.trim (t.slice span)) := by
    rw [Document.slice_source, Text.slice_trimSpan hspan]
  have htrim : '$' ∉ Text.trim (t.slice span) := fun hmem =>
    hdollar ((Text.trim_infix _).subset hmem)
  have hnested := h (.source (Text.trim (t.slice span))) s (by rwa [Document.text_source])
  -- what is left is trimmed, also when its codes have been read
  have hrendered : (Document.source (Text.trim (t.slice span))).rendered =
      Text.unescape (Text.trim (t.slice span)) := by
    rw [Document.rendered, Document.text_source]
    exact (Text.trimmed_trim _).unescape.trim_eq
  rw [argument]
  simp only [hpart]
  split
  · rw [Eval.bind_of_ok hnested, hrendered]
    rfl
  · rw [Document.text_source]
    rfl

/-- The first argument of a call is its list, if that is one slot. -/
theorem exists_arguments_calling (h : Passive nested) (hdollar : '$' ∉ inner)
    (hnested : Bracket.Nested inner) (huncut : Bracket.Uncut 0 inner) (name rest : Text)
    (s : Session) :
    ∃ args, arguments nested (.source (calling name inner rest))
        (Bracket.slots (calling name inner rest)
          ⟨name.length + 1, name.length + 1 + inner.length⟩) s = (.ok args, s) ∧
      (Library.text? args 0).getD [] = Text.unescape (Text.trim inner) := by
  have hslice := slice_calling name inner rest
  have hstop : name.length + 1 + inner.length ≤ (calling name inner rest).length := by
    rw [length_calling]
    omega
  -- the slot is trimmed, and codes in it are read
  have hargument := argument_trimSpan h ⟨name.length + 1, name.length + 1 + inner.length⟩ hstop
    (by rwa [hslice]) s
  rw [hslice] at hargument
  rw [slots_calling hnested huncut]
  split
  · next hblank =>
    refine ⟨[], rfl, ?_⟩
    rw [Text.trim_eq_nil hblank]
    rfl
  · refine ⟨[some (Text.unescape (Text.trim inner))], ?_, rfl⟩
    rw [arguments, List.mapM_cons, Eval.bind_of_ok hargument]
    rfl

/-- The call says whether the condition is true, as long as there is work left. -/
theorem resolveAt_checking (hnames : ∀ name ∈ ev.registry.names, Apart name)
    (hchecker : checker ∈ ev.registry.functions) (hdollar : '$' ∉ c) (hnested : Bracket.Nested c)
    (huncut : Bracket.Uncut 0 c) (hdepth : depth < ev.limits.depth) (s : Session) :
    (ev.resolveAt depth (.source (calling checker.name.text c [])) s).1.map Document.text =
      if s.work < ev.limits.invocations then .ok (verdict (Condition.evaluate c))
      else .error (.tooManyInvocations ev.limits.invocations) := by
  rw [resolveAt_calling hnames hchecker hnested.balanced hdollar List.not_mem_nil hdepth.le,
    perform_eq]
  split
  · next hwork =>
    have hpassive : Passive (ev.resolveAt (depth + 1)) := passive_resolveAt hdepth
    obtain ⟨args, hargs, htext⟩ := exists_arguments_calling hpassive hdollar hnested huncut
      checker.name.text [] s.counted
    -- the codes of the argument are written again
    have hholds : Condition.evaluate (Text.escape ((Library.text? args 0).getD [])) =
        Condition.evaluate c := by
      rw [htext, (alike_escape_unescape _).evaluate, (alike_trim c).evaluate]
    have hreturns : ∀ context state, (checker.call context args state).1.replacement? =
        some (verdict (Condition.evaluate c)) := by
      intro context state
      rw [← hholds]
      rfl
    obtain ⟨s', hresult⟩ := exists_callResult_eq hwork hargs hreturns
    rw [Eval.bind_of_ok hresult]
    have hescape : ∀ holds : Bool, Text.escape (verdict holds) ++ [] = verdict holds := by
      intro holds
      cases holds <;> rfl
    show Except.ok _ = _
    rw [text_replaced_calling, hescape]
  · next hwork =>
    have hcount : ev.countWork s = (.error (.tooManyInvocations ev.limits.invocations), s.counted) :=
      countWork_eq_error.2 ⟨by omega, rfl, rfl⟩
    rw [callResult, bind_assoc, Eval.bind_of_error hcount]
    rfl

/-! ### The block -/

/-- A block of which it is known whether its first condition is true. -/
def runDecided (ev : Evaluator) (depth : Nat) (b : Spelling) (holds : Bool) : Eval Document := do
  ev.countWork
  let later := b.branches.map fun a => (a.condition, a.body)
  let body ← (if holds then pure b.body
    else firstTrue (ev.resolveAt (depth + 1)) (b.otherwise.getD []) later)
  ev.resolveAt depth (.source body)

/-- A block whose first condition has no `$` finds what is written there. -/
theorem resolveAt_decided (hnames : ∀ name ∈ ev.registry.names, Unopening name)
    (hstrict : ev.strict = true → ∀ a ∈ b.branches, a.closed = true) (hfits : b.Fits)
    (hdollar : '$' ∉ b.condition) (hdepth : depth < ev.limits.depth) (s : Session) :
    ev.resolveAt depth (.source b.text) s =
      ev.runDecided depth b (Condition.evaluate b.condition) s := by
  have hcondition : ev.resolveAt (depth + 1) (.source b.condition) = pure (.source b.condition) := by
    funext s
    exact passive_resolveAt hdepth _ s (by rwa [Document.text_source])
  rw [resolveAt_spelled hnames hstrict hfits hdepth.le, runSpelled, Spelling.cases, firstTrue,
    hcondition, pure_bind, Document.text_source]
  rfl

/-- Codes in a condition can be read and written again: what is read from it is the same, and
nothing is read from it if nothing was. So `$checkCondition` of a condition that has no `$`, closes
its brackets and has no semicolon outside of them yields `true` just where a block that asks for the
condition chooses its first body, and `false` where the block goes on with what is behind that body.
It is the same for a text that is one block: both it and the call take one unit of work. -/
theorem check_agrees_with_block :
    (∀ (t : Text) (x : Condition),
      Condition.parse t = .ok x ↔ Condition.parse (Text.escape (Text.unescape t)) = .ok x) ∧
    ∀ (ev : Evaluator) (c : Text), (∀ name ∈ ev.registry.names, Apart name) →
      checker ∈ ev.registry.functions → '$' ∉ c → Bracket.Nested c → Bracket.Uncut 0 c →
      ∀ (depth : Nat) (s : Session), depth < ev.limits.depth →
        ((ev.resolveAt depth (.source (calling checker.name.text c [])) s).1.map Document.text =
          if s.work < ev.limits.invocations then .ok (verdict (Condition.evaluate c))
          else .error (.tooManyInvocations ev.limits.invocations)) ∧
        (∀ (d : Document) (b : Block), d.text.slice b.condition = c →
          chooseBody (ev.resolveAt (depth + 1)) d b s =
            if Condition.evaluate c then (.ok b.body, s)
            else chooseAlternative (ev.resolveAt (depth + 1)) d b.otherwise b.alternatives s) ∧
        ∀ b : Spelling, b.condition = c → b.Fits →
          (ev.strict = true → ∀ a ∈ b.branches, a.closed = true) →
          ev.resolveAt depth (.source b.text) s =
            ev.runDecided depth b (Condition.evaluate c) s := by
  refine ⟨fun t x => (alike_escape_unescape t).parse_iff.symm, ?_⟩
  intro ev c hnames hchecker hdollar hnested huncut depth s hdepth
  refine ⟨resolveAt_checking hnames hchecker hdollar hnested huncut hdepth s, fun d b hslice => ?_,
    ?_⟩
  -- the block asks the same condition, without a call in it
  · have hpassive : Passive (ev.resolveAt (depth + 1)) := passive_resolveAt hdepth
    rw [chooseBody, Eval.bind_of_ok (conditionHolds_of_slice hpassive hslice hdollar)]
    cases Condition.evaluate c <;> rfl
  · rintro b rfl hfits hstrict
    exact resolveAt_decided (fun name hname => (hnames name hname).unopening) hstrict hfits hdollar
      hdepth s

/-- A condition with blanks around it, codes and a semicolon in brackets, and a sign `#` that begins
no code. -/
def codedCondition : Text := " ([;]==[#SEMI#])&&#CHAR#!=# ".toList

/-- The condition is true: the call says so, and the block shows its first body. -/
theorem coded_condition_is_checked :
    (standardEvaluator.resolveAt 0
        (.source "$checkCondition[ ([;]==[#SEMI#])&&#CHAR#!=# ]".toList)
        (.start .initial)).1.map Document.text = .ok "true".toList ∧
      (standardEvaluator.resolveAt 0
          (.source "$if[ ([;]==[#SEMI#])&&#CHAR#!=# ]yes$else no$endif".toList)
          (.start .initial)).1.map Document.text = .ok "yes".toList := by
  obtain ⟨hcall, -, hblock⟩ := check_agrees_with_block.2 standardEvaluator codedCondition
    apart_of_mem_library checker_mem_library (by decide) (by decide) (by decide) 0 (.start .initial)
    (by decide)
  -- the block is written with this condition and has its own body and `$else`
  have hrun := hblock ⟨codedCondition, "yes".toList, [], some " no".toList⟩ rfl
    (Spelling.fits_of_nested (by decide) (by decide) (by decide)) nofun
  have hholds : Condition.evaluate codedCondition = true := by decide +kernel
  have hwork : (Session.start .initial).work < standardEvaluator.limits.invocations := by decide
  rw [hholds, if_pos hwork] at hcall
  rw [hholds] at hrun
  have hcalling : "$checkCondition[ ([;]==[#SEMI#])&&#CHAR#!=# ]".toList =
      calling checker.name.text codedCondition [] := by decide +kernel
  have hspelled : "$if[ ([;]==[#SEMI#])&&#CHAR#!=# ]yes$else no$endif".toList =
      Spelling.text ⟨codedCondition, "yes".toList, [], some " no".toList⟩ := by decide +kernel
  -- one unit of work is left for the block
  have hcount : standardEvaluator.countWork (.start .initial) =
      (.ok (), (Session.start .initial).counted) := countWork_eq_ok.2 ⟨hwork, rfl⟩
  have hpassive : Passive (standardEvaluator.resolveAt 0) := passive_resolveAt (Nat.zero_le _)
  have hbody := hpassive (.source "yes".toList) (Session.start .initial).counted (by decide)
  rw [hcalling, hspelled]
  refine ⟨hcall, ?_⟩
  rw [hrun, runDecided, Eval.bind_of_ok hcount]
  simp only [if_true, pure_bind]
  rw [hbody]
  show Except.ok _ = _
  rw [Document.text_source]

end Evaluator

end Stencil
