import Stencil.Proofs.Calling
import Stencil.Proofs.Comparison
/-!
# Branching on a returned text

A block asks how the result of a call compares with an operand (`Condition.branching`). The call is
made where the condition is resolved, one level deeper (`resolveAt_call`). Then the condition is
`Condition.compared`, and what that is read as decides what is shown (`evaluate_branching`): whether
the returned text is the operand, if the text is `Condition.Inert`.
-/

namespace Stencil

namespace Evaluator

/-- Resolving a call without arguments leaves its escaped result in front of the text behind it. -/
theorem resolveAt_call {ev : Evaluator} {f : Function} {x v : Text} {s : Session}
    (hnames : ∀ name ∈ ev.registry.names, Apart name) (hf : f ∈ ev.registry.functions)
    (hx : '$' ∉ x) {depth : Nat} (hdepth : depth ≤ ev.limits.depth)
    (hwork : s.work + 1 ≤ ev.limits.invocations)
    (hreturns : ∀ context state, (f.call context [] state).1.replacement? = some v) :
    ∃ d s', ev.resolveAt depth (.source (calling f.name.text [] x)) s = (.ok d, s') ∧
      d.text = Text.escape v ++ x := by
  -- there is no list to read, so no argument is resolved
  have hnil : Bracket.Nested [] := by decide
  have hslots := slots_calling hnil (by decide) f.name.text x
  have hargs : arguments (ev.resolveAt (depth + 1)) (.source (calling f.name.text [] x)) []
      s.counted = (.ok [], s.counted) := rfl
  obtain ⟨s', hresult⟩ := exists_callResult_eq hwork hargs hreturns
  refine ⟨replaced (.source (calling f.name.text [] x)) ⟨0, f.name.text.length + 2⟩ v, s', ?_,
    text_replaced_calling f.name.text [] x v⟩
  rw [resolveAt_calling hnames hf hnil.balanced List.not_mem_nil hx hdepth, hslots, perform_eq]
  show (ev.callResult _ _ f [] >>= _) s = _
  rw [Eval.bind_of_ok hresult]
  rfl

end Evaluator

/-! ### The block -/

namespace Condition

/-- The condition that asks how the result of a function compares with an operand. -/
def asking (name : Text) (op : Operator) (k : Text) : Text :=
  name ++ '[' :: ']' :: (op.symbol ++ k)

/-- The block that shows `Y` where the comparison is true and `N` where it is not. -/
def branching (name : Text) (op : Operator) (k : Text) : Block.Spelling :=
  ⟨asking name op k, ['Y'], [], some [' ', 'N']⟩

section Source

variable {name : Text} {op : Operator} {k : Text}

/-- A comparison with an operand has no markers. -/
theorem Operand.isMarker (hk : Operand k) (op : Operator) :
    ∀ c ∈ op.symbol ++ k, isMarker c = false := by
  intro c hc
  refine Text.isMarker_of_ofChar?_eq_none ?_
  rcases List.mem_append.1 hc with hc | hc
  · exact (of_isSign (signs_symbol op c hc)).1
  · exact (hk.plain c hc).2

/-- So it has no `$`. -/
theorem Operand.not_dollar (hk : Operand k) (op : Operator) : '$' ∉ op.symbol ++ k := by
  intro hmem
  cases hk.isMarker op '$' hmem

/-- And no brackets. -/
theorem Operand.not_bracket (hk : Operand k) (op : Operator) :
    ∀ c ∈ op.symbol ++ k, c ≠ '[' ∧ c ≠ ']' := by
  intro c hc
  constructor <;> rintro rfl <;> cases hk.isMarker op _ hc

/-- The block that compares a returned text is written as blocks are. -/
theorem fits_branching (hname : Apart name) (hk : Operand k) : (branching name op k).Fits where
  balanced := show Bracket.Balanced (calling name [] (op.symbol ++ k)) from
    balanced_calling hname (fun _ _ _ _ => rfl) (.of_plain (hk.not_bracket op))
  condition := show Keyword.NoneIn (calling name [] (op.symbol ++ k)) from
    noneIn_calling hname List.not_mem_nil (hk.not_dollar op)
  body := Draft.noneIn_of_not_mem (t := ['Y']) (by decide)
  branches := nofun
  otherwise other hother := by
    obtain rfl : [' ', 'N'] = other := Option.some.inj hother
    exact ⟨Draft.noneIn_of_not_mem (by decide), rfl⟩

example : (branching "$value".toList .equal ['b']).text =
    "$if[$value[]==b]Y$else N$endif".toList := rfl

end Source

end Condition

/-! ### Resolving the block -/

namespace Evaluator

open Condition

variable {ev : Evaluator} {f : Function} {op : Operator} {k v : Text} {s : Session}

section Branching

variable (op) (hnames : ∀ name ∈ ev.registry.names, Apart name)
  (hf : f ∈ ev.registry.functions) (hk : Operand k)

include hnames hf hk

/-- What is asked is the comparison of the returned text with the operand, and what it says is
shown. -/
theorem resolveAt_branching (hdepth : 1 ≤ ev.limits.depth)
    (hwork : s.work + 2 ≤ ev.limits.invocations)
    (hreturns : ∀ context state, (f.call context [] state).1.replacement? = some v) :
    ∃ d s', ev.resolveAt 0 (.source (branching f.name.text op k).text) s = (.ok d, s') ∧
      d.text = if Condition.evaluate (compared op v k) then ['Y'] else [' ', 'N'] := by
  have hname := hnames _ (mem_names hf)
  obtain ⟨d, s', hresolve, hd⟩ := resolveAt_call (s := s.counted) hnames hf (hk.not_dollar op) hdepth
    hwork hreturns
  have hcondition : ev.resolveAt (0 + 1) (.source (branching f.name.text op k).condition) s.counted =
      (.ok d, s') := hresolve
  have hcount := countWork_eq_ok.2 ⟨(by omega : s.work + 1 ≤ ev.limits.invocations), rfl⟩
  have hclosed : ∀ a ∈ (branching f.name.text op k).branches, a.closed = true :=
    List.forall_mem_nil _
  replace hd : d.text = compared op v k := hd
  rw [resolveAt_spelled (fun name hmem => (hnames name hmem).unopening) (fun _ => hclosed)
    (fits_branching hname hk) (Nat.zero_le _), runSpelled, Eval.bind_of_ok hcount,
    Block.Spelling.cases, firstTrue, bind_assoc, Eval.bind_of_ok hcondition, hd]
  -- neither body has a `$`, so it is what is left
  have hleft : ∀ body : Text, '$' ∉ body →
      ev.resolveAt 0 (.source body) s' = (.ok (.source body), s') := fun body hbody =>
    passive_resolveAt (Nat.zero_le _) _ _ (by rwa [Document.text_source])
  cases Condition.evaluate (compared op v k) with
  | true => exact ⟨.source ['Y'], s', hleft ['Y'] (by decide), Document.text_source _⟩
  | false => exact ⟨.source [' ', 'N'], s', hleft [' ', 'N'] (by decide), Document.text_source _⟩

/-- The block shows what the condition says about the returned text. -/
theorem evaluate_branching (hdepth : 1 ≤ ev.limits.depth) (hwork : 2 ≤ ev.limits.invocations)
    (hreturns : ∀ context state, (f.call context [] state).1.replacement? = some v)
    (state : ExecutionState) :
    ∃ shown, (ev.evaluate (branching f.name.text op k).text state).result = .ok shown ∧
      shown.text = if Condition.evaluate (compared op v k) then ['Y'] else ['N'] := by
  obtain ⟨d, s', hresolve, hd⟩ := resolveAt_branching (s := .start state) op hnames hf hk hdepth
    (by simpa [Session.start] using hwork) hreturns
  -- the document of the run is a single body
  have hrun : ev.resolve (ev.limits.depth + 1) (.source (branching f.name.text op k).text)
      (.start state) = _ := hresolve
  rw [evaluate, hrun]
  refine ⟨_, rfl, ?_⟩
  show Text.trim (Text.unescape d.text) = _
  rw [hd]
  split
  · rfl
  · rfl

end Branching

/-- A block that compares what a function returns with an operand shows what is read from the
condition with the escaped text in it. That is the one comparison of the trimmed text with the
operand just if the text is inert, and then the block shows whether they are equal. -/
theorem returned_text_is_compared (hnames : ∀ name ∈ ev.registry.names, Apart name)
    (hf : f ∈ ev.registry.functions) (hdepth : 1 ≤ ev.limits.depth)
    (hwork : 2 ≤ ev.limits.invocations)
    (hreturns : ∀ context state, (f.call context [] state).1.replacement? = some v)
    (hop : op = .equal ∨ op = .unequal) (hk : Operand k) (state : ExecutionState) :
    ∃ shown, (ev.evaluate (branching f.name.text op k).text state).result = .ok shown ∧
      (shown.text = if Condition.evaluate (compared op v k) then ['Y'] else ['N']) ∧
      (Condition.parse (compared op v k) = .ok (.test ⟨Text.trim v, op, k⟩) ↔ Inert op v) ∧
      (Inert op v → op = .equal → (shown.text = ['Y'] ↔ Text.trim v = k)) ∧
      (Inert op v → op = .unequal → (shown.text = ['Y'] ↔ Text.trim v ≠ k)) := by
  obtain ⟨shown, hresult, hshown⟩ :=
    evaluate_branching op hnames hf hk hdepth hwork hreturns state
  -- which body is shown says what the condition was
  have hyes : shown.text = ['Y'] ↔ Condition.evaluate (compared op v k) = true := by
    rw [hshown]
    cases Condition.evaluate (compared op v k) <;> decide
  refine ⟨shown, hresult, hshown, parse_compared_iff hop hk, fun hinert heq => ?_,
    fun hinert heq => ?_⟩
  · subst heq
    rw [hyes, evaluate_compared hop hk hinert, Comparison.holds]
    exact beq_iff_eq
  · subst heq
    rw [hyes, evaluate_compared hop hk hinert, Comparison.holds]
    exact bne_iff_ne

/-- The one function `$value` returns a text. -/
def returning (v : Text) : Evaluator := withFunctions [.constant "value".toList v]

/-- The name of the function is apart from the keywords. -/
theorem apart_of_mem_returning (v : Text) : ∀ name ∈ (returning v).registry.names, Apart name := by
  have hnames : (returning v).registry.names = ["$value".toList] := rfl
  rw [hnames, List.forall_mem_singleton]
  refine ⟨⟨"value".toList, rfl, List.all_eq_true.1 rfl⟩, fun keyword => ?_, fun keyword => ?_⟩
  · cases keyword <;> rfl
  · cases keyword <;> rfl

/-- The function is registered. -/
theorem mem_returning (v : Text) :
    Function.constant "value".toList v ∈ (returning v).registry.functions :=
  List.mem_singleton_self _

/-- Blanks around a returned text are no part of the operand. -/
theorem padded_text_is_equal :
    ∃ shown, ((returning " a ".toList).evaluate "$if[$value[]==a]Y$else N$endif".toList
      .initial).result = .ok shown ∧ shown.text = "Y".toList := by
  obtain ⟨shown, hresult, -, -, hequal, -⟩ := returned_text_is_compared (v := " a ".toList)
    (k := ['a']) (apart_of_mem_returning _) (mem_returning _) (by decide) (by decide)
    (fun _ _ => rfl) (.inl rfl) (by decide) .initial
  exact ⟨shown, hresult, (hequal (by decide) rfl).2 (by decide)⟩

/-- A returned text that holds the operator is compared only in part. -/
theorem returned_operator_is_read :
    Text.trim "a==a".toList ≠ "b".toList ∧
      ∃ shown, ((returning "a==a".toList).evaluate "$if[$value[]==b]Y$else N$endif".toList
        .initial).result = .ok shown ∧ shown.text = "Y".toList := by
  obtain ⟨shown, hresult, hshown⟩ := evaluate_branching (v := "a==a".toList) (k := ['b'])
    .equal (apart_of_mem_returning _) (mem_returning _) (by decide) (by decide) (by decide)
    (fun _ _ => rfl) .initial
  have hread : Condition.evaluate (compared .equal "a==a".toList ['b']) = true := by
    decide +kernel
  rw [hread] at hshown
  exact ⟨by decide, shown, hresult, hshown⟩

end Evaluator

end Stencil
