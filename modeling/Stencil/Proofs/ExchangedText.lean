import Stencil.Proofs.ExchangedRun
import Stencil.Proofs.Meaning
/-!
# What an exchange of plain text changes

Two runs on texts that differ in a plain stretch come to the same but for that stretch, as long as it
stays undisturbed (`only_exchanged_text_changes`). Without that a plain text can complete a word that
stands in front of it, decide the order of the calls of its line, or be what a call or a condition is
about (`plain_text_is_read`).
-/

namespace Stencil

open Block

namespace Exchange

variable {x : Exchange} {ev : Evaluator} {state : ExecutionState} {p q : Point} {b : Block}
  {before behind : Text} {s : Session}

/-- The characters of a reached point are as many as their places. -/
theorem exists_hasRow (hp : ev.Reached x.text state p) : ∃ r, HasRow p r := by
  have hlength : p.document.cells.length = p.places.length := hp.tracks.length_eq
  exact ⟨p.document.cells.zip p.places, (List.map_fst_zip hlength.le).symm,
    (List.map_snd_zip hlength.ge).symm⟩

/-- The exchange of the text for itself. -/
def idle (x : Exchange) : Exchange := { x with new := x.old, new_plain := x.old_plain }

/-- In an idle exchange the stretch takes its own place. -/
theorem along_idle {α : Type} {l : List α}
    (hlength : l.length = x.before.length + (x.old.length + x.behind.length)) :
    x.idle.Along ((l.drop x.before.length).take x.old.length)
      ((l.drop x.before.length).take x.old.length) l l := by
  have hstretch : ((l.drop x.before.length).take x.old.length).length = x.old.length := by
    rw [List.length_take, List.length_drop]
    omega
  refine ⟨l.take x.before.length, (l.drop x.before.length).drop x.old.length, ?_, hstretch,
    hstretch, ?_, ?_⟩
  · rw [List.length_take]
    exact Nat.min_eq_left (by omega)
  · rw [List.take_append_drop, List.take_append_drop]
  · rw [List.take_append_drop, List.take_append_drop]

/-- What is in a part of a block that is chosen still stands behind the block. -/
theorem stands_afterBlock (hsteady : (x.around before behind).Steady ev.names)
    (hp : ev.Reached x.text state p) (hstands : x.Stands p before behind)
    (hlaid : Laid (x.around before behind).text b) {chosen : List Span} (hmem : chosen ∈ b.choices)
    {c : Span} (hc : c ∈ chosen) (hhas : c.Has before.length) (s : Session) :
    ∃ before' behind', x.Stands (ev.afterBlock p b chosen s) before' behind' := by
  have hpos := x.length_old_pos
  -- the cells with their places are cut in three around what is exchanged
  obtain ⟨r, hrow⟩ := exists_hasRow hp
  have htext : (r.map Prod.fst).map Prod.fst = before ++ (x.old ++ behind) := by
    rw [← hrow.cells, Document.map_fst_cells, hstands.text]
  have hlength : r.length = before.length + (x.old.length + behind.length) := by
    have := congrArg List.length htext
    rwa [List.length_map, List.length_map, List.length_append, List.length_append] at this
  have halong := along_idle (x := x.around before behind) hlength
  have hle : b.span.start ≤ b.span.stop := by
    have := hlaid.start_le_stop
    omega
  -- the block keeps what is exchanged, or it is beside every part that is chosen
  rcases halong.graft_gather (hsteady.clearSpan_span hlaid) hle (hlaid.choice_inOrder hmem)
    (fun c hc => hsteady.clearSpan_of_mem_choices hlaid hmem hc) with
    ⟨front, back, hnew, -⟩ | ⟨-, hbeside, -⟩
  · have hafter := hasRow_afterBlock ev hrow b chosen s
    rw [hnew] at hafter
    have hold : (((r.drop before.length).take x.old.length).map Prod.fst).map Prod.fst = x.old := by
      rw [List.map_take, List.map_take, List.map_drop, List.map_drop, htext, List.drop_left,
        List.take_left]
    refine ⟨(front.map Prod.fst).map Prod.fst, (back.map Prod.fst).map Prod.fst, ?_, ?_⟩
    · rw [← Document.map_fst_cells, hafter.cells, List.map_append, List.map_append,
        List.map_append, List.map_append]
      exact congrArg (fun t => _ ++ (t ++ _)) hold
    -- it stands where its first character had its place
    · have hfirst : ((r.drop before.length).take x.old.length)[0]? = r[before.length]? := by
        rw [List.getElem?_take, if_pos hpos, List.getElem?_drop, Nat.add_zero]
      have hsome : 0 < ((r.drop before.length).take x.old.length).length := by
        rw [List.length_take, List.length_drop]
        omega
      have hplace := hstands.place
      rw [hrow.places, List.getElem?_map, ← hfirst, ← List.getElem?_append_left hsome] at hplace
      rw [hafter.places, List.length_map, List.length_map, List.getElem?_map,
        List.getElem?_append_right le_rfl, Nat.sub_self]
      exact hplace
  · exact absurd hhas (hbeside c hc).not_has

/-- Another plain text in place of a plain one changes nothing but that, as long as the one that is
there stays undisturbed and both break the line or neither does. The calls are the same; the
evaluation fails with the same error, or the text that is shown has the one where it has the other,
or the same is shown because what is exchanged went with a branch that was not chosen or with a call.
Right behind a `$else` of a block, and in none of its alternatives, it belongs to the other body. -/
theorem only_exchanged_text_changes (x : Exchange) (ev : Evaluator) (state : ExecutionState)
    (hlines : '\n' ∈ x.old ↔ '\n' ∈ x.new) (h : x.Undisturbed ev state) :
    (ev.evaluate x.changed state).calls = (ev.evaluate x.text state).calls ∧
    ((∃ e, (ev.evaluate x.text state).result = .error e ∧
        (ev.evaluate x.changed state).result = .error e) ∨
      ∃ e e', (ev.evaluate x.text state).result = .ok e ∧
        (ev.evaluate x.changed state).result = .ok e' ∧ e'.artifacts = e.artifacts ∧
        e'.state = e.state ∧ ∃ p before behind, ev.Reached x.text state p ∧
          x.Stands p before behind ∧
          ((e.text = Text.trim (Text.unescape (before ++ (x.old ++ behind))) ∧
              e'.text = Text.trim (Text.unescape (before ++ (x.new ++ behind)))) ∨
            e'.text = e.text ∧ ev.Drops p before.length)) ∧
    ∀ p before behind b j, ev.Reached x.text state p → x.Stands p before behind →
      ev.Resolves p b → b.span.Has before.length →
      Keyword.otherwise.StandsAt p.document.text j → j + 5 = before.length →
      (∀ a ∈ b.alternatives, ¬ a.body.Has before.length) →
      (∃ c ∈ b.otherwise, c.Has before.length) ∧
        ∀ s, ∃ before' behind', x.Stands (ev.afterBlock p b b.otherwise s) before' behind' := by
  have hruns := outcomes_start h hlines
  refine and_assoc.1 ⟨?_, fun p before behind b j hp hstands hresolves hspan helse hj hbodies => ?_⟩
  · generalize hfirst : ev.outcome (ev.start x.text state) = outcome at hruns
    generalize hsecond : ev.outcome (ev.start x.changed state) = outcome' at hruns
    -- the two runs failed alike, kept the text, or dropped it at one block
    cases hruns with
    | failed e s =>
      rw [Evaluator.evaluate_of_error hfirst, Evaluator.evaluate_of_error hsecond]
      exact ⟨rfl, .inl ⟨e, rfl, rfl⟩⟩
    | @kept p before behind d' s reached stands text =>
      rw [Evaluator.evaluate_of_ok hfirst, Evaluator.evaluate_of_ok hsecond]
      refine ⟨rfl, .inr ⟨_, _, rfl, rfl, rfl, rfl, p, before, behind, reached, stands, .inl ?_⟩⟩
      simp only [Document.rendered, stands.text, text, and_self]
    | @dropped p before behind reached stands drops =>
      rcases outcome with ⟨e | d, s⟩
      · rw [Evaluator.evaluate_of_error hfirst, Evaluator.evaluate_of_error hsecond]
        exact ⟨rfl, .inl ⟨e, rfl, rfl⟩⟩
      · rw [Evaluator.evaluate_of_ok hfirst, Evaluator.evaluate_of_ok hsecond]
        exact ⟨rfl, .inr ⟨_, _, rfl, rfl, rfl, rfl, p, before, behind, reached, stands,
          .inr ⟨rfl, drops⟩⟩⟩
  · have hsteady := h.steady p before behind hp hstands
    have hunasked := h.unasked p before behind b hp hstands hresolves
    obtain ⟨name, -, -, hb⟩ := hresolves
    rw [hstands.text] at hb helse
    obtain ⟨c, hc, hhas⟩ := hsteady.exists_mem_otherwise hb helse hj hspan hunasked hbodies
    exact ⟨⟨c, hc, hhas⟩, stands_afterBlock hsteady hp hstands (laid_of_findInnermost hb)
      (List.mem_cons_of_mem _ List.mem_cons_self) hc hhas⟩

/-! ### A block in the other body of a block -/

def nested : Exchange where
  before := "$if[a==b]A$else$if[c==c]".toList
  old := ['w']
  new := ['v']
  behind := "$endif B$endif".toList
  old_ne := List.cons_ne_nil _ _
  old_plain := List.forall_mem_singleton.2 rfl
  new_plain := List.forall_mem_singleton.2 rfl

/-- Where the inner block is resolved. -/
def innerPoint (s : Session) : Point where
  depth := 0
  worklist := ["$endif".toList, "$endif".toList, "$if".toList, "$if".toList]
  document := .source nested.text
  places := (List.range 39).map some
  session := s

/-- Where the outer block is resolved. -/
def outerPoint (s : Session) : Point where
  depth := 0
  worklist := ["$endif".toList, "$if".toList]
  document := .source "$if[a==b]A$elsew B$endif".toList
  places := (List.range 15 ++ 24 :: List.range' 31 8).map some
  session := s

def lastPoint (s : Session) : Point where
  depth := 0
  worklist := []
  document := .source "w B".toList
  places := [some 24, some 31, some 32]
  session := s

def innerBlock : Block := ⟨⟨15, 31⟩, ⟨19, 23⟩, [⟨24, 25⟩], [], []⟩

def outerBlock : Block := ⟨⟨0, 24⟩, ⟨4, 8⟩, [⟨9, 10⟩], [], [⟨15, 18⟩]⟩

/-- The points of the run; what is exchanged is in neither condition. -/
inductive NestedStage : Point → Prop
  | inner (s : Session) : NestedStage (innerPoint s)
  | outer (s : Session) : NestedStage (outerPoint s)
  | last (s : Session) : NestedStage (lastPoint s)
  | aside {p : Point} (done : p.worklist = []) (gone : some 24 ∉ p.places) : NestedStage p

/-- Where there are no functions a text without `$` is left as it is. -/
theorem passive_withFunctions : Evaluator.Passive ((Evaluator.withFunctions []).resolveAt 1) :=
  Evaluator.passive_resolveAt (by decide)

/-- The condition of the inner block holds, so its body is chosen. -/
theorem chooseBody_innerBlock (s : Session) :
    Evaluator.chooseBody ((Evaluator.withFunctions []).resolveAt 1) (.source nested.text)
      innerBlock s = (.ok [⟨24, 25⟩], s) := by
  have hholds : Evaluator.conditionHolds ((Evaluator.withFunctions []).resolveAt 1)
      (.source nested.text) innerBlock.condition s = (.ok true, s) :=
    Evaluator.conditionHolds_of_slice passive_withFunctions (t := "c==c".toList) rfl (by decide)
  rw [Evaluator.chooseBody, Eval.bind_of_ok hholds]
  rfl

/-- The condition of the outer block fails, so what is behind `$else` is chosen. -/
theorem chooseBody_outerBlock (s : Session) :
    Evaluator.chooseBody ((Evaluator.withFunctions []).resolveAt 1)
      (.source "$if[a==b]A$elsew B$endif".toList) outerBlock s = (.ok [⟨15, 18⟩], s) := by
  have hholds : Evaluator.conditionHolds ((Evaluator.withFunctions []).resolveAt 1)
      (.source "$if[a==b]A$elsew B$endif".toList) outerBlock.condition s = (.ok false, s) :=
    Evaluator.conditionHolds_of_slice passive_withFunctions (t := "a==b".toList) rfl (by decide)
  rw [Evaluator.chooseBody, Eval.bind_of_ok hholds]
  rfl

/-- Where `$endif` is next a move resolves the block or asks its conditions. -/
theorem move_of_endIf (hhead : p.worklist.head? = some "$endif".toList) (move : ev.Move p q) :
    (∃ b chosen s s', ev.Resolves p b ∧ Evaluator.chooseBody (ev.resolveAt (p.depth + 1))
        p.document b s = (.ok chosen, s') ∧ q = ev.afterBlock p b chosen s') ∨
      ∃ b c s, ev.Resolves p b ∧ c ∈ b.conditions ∧ q = ev.enterPart p c s := by
  -- `$endif` is always waited for
  have hpending : ∀ name, ev.Next p name → Evaluator.isPending p.document name = true := by
    rintro name ⟨-, hnext⟩
    obtain rfl : "$endif".toList = name := Option.some.inj (hhead.symm.trans hnext)
    rfl
  cases move with
  | leave next free =>
    rw [hpending _ next] at free
    cases free
  | call calls | argument calls =>
    obtain ⟨name, next, free, -⟩ := calls
    rw [hpending _ next] at free
    cases free
  | block resolves chooses =>
    exact .inl ⟨_, _, _, _, resolves, (Evaluator.chosenBody_eq_ok.1 chooses).2, rfl⟩
  | condition resolves within conditions_eq =>
    exact .inr ⟨_, _, _, resolves, by rw [conditions_eq]; simp, rfl⟩

/-- An empty worklist has no next name, so it ends the moves. -/
theorem not_move_of_nil (hnil : p.worklist = []) : ¬ ev.Move p q := by
  have hnone : ∀ name, ¬ ev.Next p name := by
    rintro name ⟨-, hnext⟩
    rw [hnil] at hnext
    cases hnext
  intro move
  cases move with
  | leave next => exact hnone _ next
  | call calls | argument calls =>
    obtain ⟨name, next, -⟩ := calls
    exact hnone name next
  | block resolves | condition resolves =>
    obtain ⟨name, next, -⟩ := resolves
    exact hnone name next

theorem NestedStage.move (h : NestedStage p) (move : (Evaluator.withFunctions []).Move p q) :
    NestedStage q := by
  cases h with
  | inner s =>
    rcases move_of_endIf rfl move with
      ⟨b, chosen, s₁, s', ⟨-, -, -, hb⟩, hchosen, rfl⟩ | ⟨b, c, s', ⟨-, -, -, hb⟩, hc, rfl⟩
    -- the inner block is resolved, which leads to the outer one, or its condition is entered
    · obtain rfl : innerBlock = b := Except.ok.inj hb
      cases (chooseBody_innerBlock s₁).symm.trans hchosen
      exact .outer _
    · obtain rfl : innerBlock = b := Except.ok.inj hb
      obtain rfl : c = ⟨19, 23⟩ := List.mem_singleton.1 hc
      have hgone : some 24 ∉ Span.cut ⟨19, 23⟩ ((List.range 39).map some) := by decide
      exact .aside rfl hgone
  | outer s =>
    rcases move_of_endIf rfl move with
      ⟨b, chosen, s₁, s', ⟨-, -, -, hb⟩, hchosen, rfl⟩ | ⟨b, c, s', ⟨-, -, -, hb⟩, hc, rfl⟩
    -- the same of the outer block
    · obtain rfl : outerBlock = b := Except.ok.inj hb
      cases (chooseBody_outerBlock s₁).symm.trans hchosen
      exact .last _
    · obtain rfl : outerBlock = b := Except.ok.inj hb
      obtain rfl : c = ⟨4, 8⟩ := List.mem_singleton.1 hc
      have hgone : some 24 ∉ Span.cut ⟨4, 8⟩
          ((List.range 15 ++ 24 :: List.range' 31 8).map some) := by
        decide
      exact .aside rfl hgone
  | last s => exact absurd move (not_move_of_nil rfl)
  | aside done gone => exact absurd move (not_move_of_nil done)

/-- So every point of the run is one of these stages. -/
theorem reached_nested (h : (Evaluator.withFunctions []).Reached nested.text state p) :
    NestedStage p :=
  h.invariant NestedStage (.inner _) fun _ _ _ hp move => hp.move move

/-- At the inner block the text stands in its body. -/
theorem stands_inner (s : Session) : nested.Stands (innerPoint s)
    "$if[a==b]A$else$if[c==c]".toList "$endif B$endif".toList :=
  ⟨rfl, rfl⟩

/-- At the outer block it stands behind the `$else`. -/
theorem stands_outer (s : Session) : nested.Stands (outerPoint s)
    "$if[a==b]A$else".toList " B$endif".toList :=
  ⟨rfl, rfl⟩

/-- The texts around what is exchanged are known from its place. -/
theorem around_eq_of_stands {before' behind' : Text} (hrising : Rising p.places)
    (h : x.Stands p before behind) (h' : x.Stands p before' behind') :
    before = before' ∧ behind = behind' := by
  have hlength : before.length = before'.length := hrising.eq_of_eq h.place h'.place
  obtain ⟨hbefore, hrest⟩ := List.append_inj (h.text.symm.trans h'.text) hlength
  exact ⟨hbefore, List.append_cancel_left hrest⟩

/-- No name is blank behind its first character. -/
theorem names_not_blank :
    ∀ name ∈ (Evaluator.withFunctions []).names, ∃ d ∈ name.tail, isBlank d = false := by
  have hnames : (Evaluator.withFunctions []).names = Worklist.controlNames := rfl
  rw [hnames, Worklist.controlNames]
  simp only [List.mem_cons, List.not_mem_nil, or_false, forall_eq_or_imp, forall_eq]
  exact ⟨⟨'i', by simp, by decide⟩, ⟨'e', by simp, by decide⟩⟩

/-- No keyword has one of the two letters. -/
theorem endsWords_of_letter {c : Char} (hc : c = 'w' ∨ c = 'v') :
    EndsWords (Evaluator.withFunctions []).names c := by
  have hnames : (Evaluator.withFunctions []).names = Worklist.controlNames := rfl
  rw [hnames, Worklist.controlNames]
  constructor
  · intro k
    rcases hc with rfl | rfl <;> cases k <;> decide
  · simp only [List.mem_cons, List.not_mem_nil, or_false, forall_eq_or_imp, forall_eq,
      List.tail_cons]
    rcases hc with rfl | rfl <;> decide

/-- The text is never disturbed: it is in no call and in no condition. -/
theorem undisturbed_nested (state : ExecutionState) :
    nested.Undisturbed (Evaluator.withFunctions []) state where
  steady p before behind _ _ := steady_of_endsWords names_not_blank
    (fun c hc => Option.some.inj hc ▸ endsWords_of_letter (.inl rfl))
    (fun c hc => Option.some.inj hc ▸ endsWords_of_letter (.inr rfl)) (List.cons_ne_nil _ _)
  -- no call is made, for there are no functions
  spared p before behind f span slots hp hstands hcalls := by
    obtain ⟨name, -, -, horder⟩ := hcalls
    cases (Evaluator.get?_of_orderFor horder).1
  unasked p before behind b hp hstands hresolves c hc := by
    obtain ⟨name, ⟨-, hnext⟩, -, hb⟩ := hresolves
    -- the stage tells the block that is resolved, and the text is not in its condition
    cases reached_nested hp with
    | inner s =>
      obtain ⟨rfl, rfl⟩ := around_eq_of_stands hp.rising hstands (stands_inner s)
      obtain rfl : innerBlock = b := Except.ok.inj hb
      obtain rfl : c = ⟨19, 23⟩ := List.mem_singleton.1 hc
      exact fun hhas => absurd hhas.2 (by decide)
    | outer s =>
      obtain ⟨rfl, rfl⟩ := around_eq_of_stands hp.rising hstands (stands_outer s)
      obtain rfl : outerBlock = b := Except.ok.inj hb
      obtain rfl : c = ⟨4, 8⟩ := List.mem_singleton.1 hc
      exact fun hhas => absurd hhas.2 (by decide)
    | last s => cases hnext
    | aside done gone => exact absurd (List.mem_of_getElem? hstands.place) gone

/-- What is shown of a document that evaluates. -/
def shown? (ev : Evaluator) (source : Text) : Option Text :=
  (ev.evaluate source .initial).result.toOption.map (·.text)

/-- The text of the inner block is shown where it stands behind the `$else` of the outer one. -/
theorem nested_text_is_exchanged :
    ('\n' ∈ nested.old ↔ '\n' ∈ nested.new) ∧
    nested.Undisturbed (Evaluator.withFunctions []) .initial ∧
    ((Evaluator.withFunctions []).evaluate nested.changed .initial).calls =
      ((Evaluator.withFunctions []).evaluate nested.text .initial).calls ∧
    shown? (Evaluator.withFunctions []) nested.text = some "w B".toList ∧
    shown? (Evaluator.withFunctions []) nested.changed = some "v B".toList ∧
    ∃ p, (Evaluator.withFunctions []).Reached nested.text .initial p ∧
      nested.Stands p "$if[a==b]A$else".toList " B$endif".toList ∧
      (Evaluator.withFunctions []).Resolves p outerBlock ∧ ∃ c ∈ outerBlock.otherwise, c.Has 15 := by
  have h := only_exchanged_text_changes nested (Evaluator.withFunctions []) .initial (by decide)
    (undisturbed_nested .initial)
  -- the inner block is resolved first, and its body stays
  have hresolves : (Evaluator.withFunctions []).Resolves (innerPoint (.start .initial)) innerBlock :=
    ⟨"$endif".toList, ⟨by decide, rfl⟩, rfl, rfl⟩
  have hchosen : (Evaluator.withFunctions []).chosenBody ((Evaluator.withFunctions []).resolveAt 1)
      (innerPoint (.start .initial)).document innerBlock (.start .initial) =
        (.ok [⟨24, 25⟩], (Session.start .initial).counted) :=
    Evaluator.chosenBody_eq_ok.2 ⟨by decide, chooseBody_innerBlock _⟩
  have hmove : (Evaluator.withFunctions []).Move (innerPoint (.start .initial))
      ((Evaluator.withFunctions []).afterBlock (innerPoint (.start .initial)) innerBlock [⟨24, 25⟩]
        (Session.start .initial).counted) := .block hresolves hchosen
  have hreached : (Evaluator.withFunctions []).Reached nested.text .initial
      (outerPoint (Session.start .initial).counted) := .single hmove
  have hresolves' : (Evaluator.withFunctions []).Resolves
      (outerPoint (Session.start .initial).counted) outerBlock :=
    ⟨"$endif".toList, ⟨by decide, rfl⟩, rfl, rfl⟩
  -- at the outer block the text is in the part behind the `$else`
  have hother := (h.2.2 _ _ _ outerBlock 10 hreached (stands_outer _) hresolves'
    ⟨by decide, by decide⟩ (by decide) rfl
    fun a ha => absurd ha List.not_mem_nil).1
  exact ⟨by decide, undisturbed_nested .initial, h.1, by decide +kernel, by decide +kernel, _,
    hreached, stands_outer _, hresolves', hother⟩

/-- A plain text changes more than itself. With `zz` in place of it the documents show it and nothing
else depends on it; but `if` completes the `$end` in front of it, a line break orders the calls on
either side of it, and an argument and a condition are about it. -/
theorem plain_text_is_read :
    shown? (Evaluator.withFunctions []) "$if[a==a]x$end$if[a==a]zz$endif y$endif".toList =
      some "x$endzz y".toList ∧
    shown? (Evaluator.withFunctions []) "$if[a==a]x$end$if[a==a]if$endif y$endif".toList = none ∧
    shown? Evaluator.standardEvaluator
      "$if[a==a]$let[x;1]$if[b==b]zz$endif$get[x]$endif".toList = some "zz".toList ∧
    shown? Evaluator.standardEvaluator
      "$if[a==a]$let[x;1]$if[b==b]\n$endif$get[x]$endif".toList = some "1".toList ∧
    shown? Evaluator.standardEvaluator "$upper[$if[a==a]zz$endif]".toList = some "ZZ".toList ∧
    shown? Evaluator.standardEvaluator "$upper[$if[a==a]b$endif]".toList = some "B".toList ∧
    shown? (Evaluator.withFunctions []) "$if[$if[a==a]zz$endif==b]Y$else N$endif".toList =
      some "N".toList ∧
    shown? (Evaluator.withFunctions []) "$if[$if[a==a]b$endif==b]Y$else N$endif".toList =
      some "Y".toList := by
  decide +kernel

end Exchange

end Stencil
