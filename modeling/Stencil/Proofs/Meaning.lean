import Stencil.Library
import Stencil.Proofs.Draft
import Stencil.Proofs.WellFormed
/-!
# What a tree of blocks means

Evaluating the text of a draft gives what the draft comes to. The names of the worklist are control
names (`isControl_of_mem_ofText`), so a pass resolves a block at once. That is the last one, its
conditions hold where they are written (`chooseBody_laid`), and what is left is the text of the
flattened draft. By induction on the number of blocks the text of the whole is reached
(`resolveAt_written`).
-/

namespace Stencil

/-! ### The registry of the standard functions -/

namespace Registry

/-- Functions with different names are all registered, one behind the other. -/
theorem functions_addAll {r : Registry} {fs : List Function}
    (h : ((r.functions ++ fs).map (·.name.key)).Nodup) :
    (r.addAll fs).functions = r.functions ++ fs := by
  induction fs generalizing r with
  | nil => exact (List.append_nil _).symm
  | cons f fs ih =>
    have hothers : r.others f.name = r.functions := by
      refine List.filter_eq_self.2 fun g hg => ?_
      rw [List.map_append, List.nodup_append] at h
      have hne := h.2.2 _ (List.mem_map_of_mem hg) _ (List.mem_map_of_mem List.mem_cons_self)
      exact bne_iff_ne.2 hne
    have hadd : (r.add f).functions = r.functions ++ [f] := congrArg (· ++ [f]) hothers
    have hrest := ih (r := r.add f) (by rwa [hadd, List.append_assoc])
    rw [hadd, List.append_assoc] at hrest
    exact hrest

end Registry

theorem Library.functions_registry : registry.functions = functions := by
  have hnodup : ((Registry.empty.functions ++ functions).map (·.name.key)).Nodup := by
    decide +kernel
  exact Registry.functions_addAll hnodup

/-! ### Control names -/

/-- Every `$` of the text begins a keyword. -/
def Keyed (t : Text) : Prop := ∀ i, t[i]? = some '$' → ∃ k rest, t.drop i = Keyword.text k ++ rest

namespace Keyed

variable {t u : Text}

/-- A text without `$` has keywords only. -/
theorem of_not_mem (h : '$' ∉ t) : Keyed t := fun _ hi => absurd (List.mem_of_getElem? hi) h

/-- So has a keyword. -/
theorem keyword (k : Keyword) : Keyed k.text := by
  intro i hi
  cases i with
  | zero => exact ⟨k, [], by simp⟩
  | succ i =>
    have hletters : '$' ∉ k.letters := by
      cases k <;> decide
    exact absurd (List.mem_of_getElem? (l := k.letters) hi) hletters

/-- So have two such texts in a row. -/
theorem append (ht : Keyed t) (hu : Keyed u) : Keyed (t ++ u) := by
  intro i hi
  rcases Nat.lt_or_ge i t.length with hlt | hge
  · rw [List.getElem?_append_left hlt] at hi
    obtain ⟨k, rest, hk⟩ := ht i hi
    exact ⟨k, rest ++ u, by rw [List.drop_append_of_le_length hlt.le, hk, List.append_assoc]⟩
  · rw [List.getElem?_append_right hge] at hi
    obtain ⟨k, rest, hk⟩ := hu _ hi
    exact ⟨k, rest, by rw [List.drop_append, List.drop_of_length_le hge, hk, List.nil_append]⟩

end Keyed

/-- So has what a draft is written as. -/
theorem Draft.keyed_written {p : Part} (d : Draft p) : Keyed d.written := by
  have hclosing : Keyed [']'] := .of_not_mem (by decide)
  induction d with
  | empty | done => exact .of_not_mem List.not_mem_nil
  | text t rest ih => exact (Keyed.of_not_mem t.not_mem).append ih
  | emptyElse => exact .keyword .otherwise
  | otherwise lead rest ih =>
    exact (Keyed.keyword .otherwise).append ((Keyed.of_not_mem lead.not_mem).append ih)
  | block condition body branches rest ihBody ihBranches ihRest =>
    exact (Keyed.keyword .ifOpen).append ((Keyed.of_not_mem condition.not_mem).append
      (hclosing.append (ihBody.append (ihBranches.append ((Keyed.keyword .endIf).append ihRest)))))
  | alternative condition body closed later ihBody ihLater =>
    -- an alternative need not be closed
    have hending : Keyed (if closed then Keyword.endElseIf.text else []) := by
      split
      · exact .keyword .endElseIf
      · exact .of_not_mem List.not_mem_nil
    exact (Keyed.keyword .elseIfOpen).append ((Keyed.of_not_mem condition.not_mem).append
      (hclosing.append (ihBody.append (hending.append ihLater))))

namespace Evaluator

open Block

variable {ev : Evaluator} {nested : Nested} {d : Document} {s : Session} {b : Spelling} {n : Nat}
  {t suffix : Text}

/-- Where every `$` begins a keyword, the worklist holds control names. -/
theorem isControl_of_mem_ofText (hnames : ∀ name ∈ ev.registry.names, Apart name) (h : Keyed t)
    {name : Text} (hname : name ∈ Worklist.ofText ev.names t) : Worklist.isControl name = true := by
  by_contra hcontrol
  have hmem := Worklist.mem_of_mem_ofText hname
  obtain ⟨i, hi⟩ := Worklist.stands_of_mem_ofText hname
  obtain ⟨k, rest, hk⟩ := h i (Text.getElem?_of_startsFolded (head?_of_mem_names hmem) hi)
  -- a registered name does not stand where a keyword does
  have hapart := hnames name (mem_registry_names hmem (Bool.eq_false_iff.2 hcontrol))
  rw [hk, hapart.startsFolded_text] at hi
  cases hi

/-- Where no name begins `$if`, the name of blocks is among the names. -/
theorem mem_names_if
    (hnames : ∀ name ∈ ev.registry.names, Text.startsFolded name Keyword.ifOpen.word = false) :
    ['$', 'i', 'f'] ∈ ev.names := by
  refine List.mem_append_right _ (List.mem_filter.2 ⟨List.mem_cons_self, ?_⟩)
  rw [Bool.not_eq_true', List.any_eq_false]
  intro name hname hsame
  -- a name like `$if` would begin the keyword
  have hfold : Text.lowerAscii ['$', 'i', 'f'] = Text.lowerAscii name := Text.sameFolded_iff.1 hsame
  have hlen : 3 = name.length := by simpa [Text.lowerAscii] using congrArg List.length hfold
  have hstarts : Text.startsFolded name Keyword.ifOpen.word = true := by
    rw [Text.startsFolded_iff, ← hlen]
    exact hfold
  rw [hnames name hname] at hstarts
  cases hstarts

/-- Where a `$if[` is written there is something to do. -/
theorem ofText_ne_nil
    (hnames : ∀ name ∈ ev.registry.names, Text.startsFolded name Keyword.ifOpen.word = false)
    (lead rest : Text) :
    Worklist.ofText ev.names (lead ++ (Keyword.ifOpen.text ++ rest)) ≠ [] := by
  have hbehind := Worklist.mem_behind lead ('i' :: 'f' :: '[' :: rest)
  have hsegment : ('i' :: 'f' :: '[' :: rest).takeWhile (fun c => c ≠ '$' && c ≠ '\n') =
      'i' :: 'f' :: '[' :: rest.takeWhile (fun c => c ≠ '$' && c ≠ '\n') := by
    simp
  rw [hsegment] at hbehind
  -- `$if` stands there, so some name does
  obtain ⟨name, hname⟩ := Option.isSome_iff_exists.1 (Worklist.isSome_longestName?
    (t := '$' :: 'i' :: 'f' :: '[' :: rest.takeWhile (fun c => c ≠ '$' && c ≠ '\n'))
    (mem_names_if hnames) rfl)
  have hne : ∀ name ∈ ev.names, name ≠ [] := by
    rintro _ hmem rfl
    cases head?_of_mem_names hmem
  have hentry := Worklist.nameBehind?_of_ne_nil hne
    ('i' :: 'f' :: '[' :: rest.takeWhile (fun c => c ≠ '$' && c ≠ '\n'))
  have hmem : name ∈ Worklist.ofText ev.names (lead ++ (Keyword.ifOpen.text ++ rest)) :=
    (Worklist.ofText_perm _ _).mem_iff.2 (List.mem_filterMap.2 ⟨_, hbehind, hentry.trans hname⟩)
  exact List.ne_nil_of_mem hmem

/-! ### Conditions -/

/-- What has no `$` is resolved to itself. -/
def Passive (nested : Nested) : Prop := ∀ d s, '$' ∉ d.text → nested d s = (.ok d, s)

/-- A text without `$` is left as it is, with the session. -/
theorem passive_resolveAt {depth : Nat} (h : depth ≤ ev.limits.depth) :
    Passive (ev.resolveAt depth) := by
  intro d s hd
  have hnone : Text.markers '$' d.text = 0 :=
    List.countP_eq_zero.2 fun c hc heq => hd (beq_iff_eq.1 heq ▸ hc)
  rw [resolveAt_eq_afterPass h, Evaluator.ofText_eq_nil hnone]
  rfl

/-- So a condition without `$` is decided by its text. -/
theorem conditionHolds_of_slice (h : Passive nested) {c : Span} (hslice : d.text.slice c = t)
    (ht : '$' ∉ t) : conditionHolds nested d c s = (.ok (Condition.evaluate t), s) := by
  have hnested := h (d.slice c) s (by rwa [Document.text_slice, hslice])
  rw [conditionHolds, Eval.bind_of_ok hnested, Document.text_slice, hslice]
  rfl

/-- The first alternative whose condition holds is chosen, or what is behind `$else`. -/
theorem chooseAlternative_branches (h : Passive nested) {branches : List Branch} {rest : Text}
    (hfree : ∀ a ∈ branches, '$' ∉ a.condition) (otherwise : List Span)
    (ht : d.text.drop n = branches.flatMap Branch.text ++ rest) :
    ∃ chosen, chooseAlternative nested d otherwise (alternativesAt n branches) s =
        (.ok chosen, s) ∧
      Span.gather chosen d.text =
        ((branches.find? fun a => Condition.evaluate a.condition).map (·.body)).getD
          (Span.gather otherwise d.text) := by
  induction branches generalizing n with
  | nil => exact ⟨otherwise, rfl, rfl⟩
  | cons a later ih =>
    rw [List.flatMap_cons, List.append_assoc] at ht
    have hcondition : conditionHolds nested d (a.laid n).condition s =
        (.ok (Condition.evaluate a.condition), s) :=
      conditionHolds_of_slice h (Text.slice_of_drop (Branch.drop_condition ht))
        (hfree a List.mem_cons_self)
    rw [alternativesAt, chooseAlternative, Eval.bind_of_ok hcondition, List.find?_cons]
    cases Condition.evaluate a.condition with
    -- the body of this alternative is gathered
    | true =>
      refine ⟨_, rfl, ?_⟩
      rw [Span.gather_cons, Span.gather_nil, List.append_nil]
      exact Text.slice_of_drop (Branch.drop_body ht)
    | false =>
      exact ih (fun b hb => hfree b (List.mem_cons_of_mem a hb))
        (by rw [← List.drop_drop, ht, List.drop_left])

/-- What is chosen of a block reads as the text that its spelling comes to. -/
theorem chooseBody_laid (h : Passive nested) (hcondition : '$' ∉ b.condition)
    (hconditions : ∀ a ∈ b.branches, '$' ∉ a.condition) (ht : d.text.drop n = b.text ++ suffix) :
    ∃ chosen, chooseBody nested d (b.laid n) s = (.ok chosen, s) ∧
      Span.gather chosen d.text = b.chosen := by
  rw [chooseBody, Eval.bind_of_ok
    (conditionHolds_of_slice h (Spelling.slice_condition ht) hcondition), Spelling.chosen]
  cases Condition.evaluate b.condition with
  | true => exact ⟨_, rfl, Spelling.gather_body ht⟩
  | false =>
    obtain ⟨chosen, hchosen, hgather⟩ := chooseAlternative_branches (s := s) h hconditions
      (b.laid n).otherwise (Spelling.drop_branches ht)
    rw [Spelling.gather_otherwise ht] at hgather
    exact ⟨chosen, hchosen, hgather⟩

/-! ### Drafts -/

/-- The innermost block of what a draft is written as is its last one. -/
theorem findInnermost_flattening {draft : Draft .body} (f : draft.Flattening) :
    findInnermost draft.written false = .ok (f.block.laid f.lead.length) := by
  have hdrop : draft.written.drop f.lead.length = f.block.text ++ f.suffix := by
    rw [f.written_eq, List.drop_left]
  refine f.fits.findInnermost nofun hdrop fun i hi hopens => ?_
  have := f.le_of_standsAt hopens
  omega

/-- A draft with a block is resolved by resolving its last block. -/
theorem resolveAt_flattening (hnames : ∀ name ∈ ev.registry.names, Apart name)
    (hstrict : ev.strict = false) (hdepth : 1 ≤ ev.limits.depth) {draft : Draft .body}
    (f : draft.Flattening) (hd : d.text = draft.written)
    (hwork : s.work + 1 ≤ ev.limits.invocations) :
    ∃ d', d'.text = f.result.written ∧ ev.resolveAt 0 d s = ev.resolveAt 0 d' s.counted := by
  have ht : d.text.drop f.lead.length = f.block.text ++ f.suffix := by
    rw [hd, f.written_eq, List.drop_left]
  -- what is next is a control name
  obtain ⟨name, rest, hlist⟩ : ∃ name rest, Worklist.ofText ev.names d.text = name :: rest := by
    refine List.exists_cons_of_ne_nil ?_
    rw [hd, f.written_eq, Spelling.text_append]
    exact ofText_ne_nil (fun name hname => (hnames name hname).not_begins .ifOpen) _ _
  have hcontrol : Worklist.isControl name = true := by
    refine isControl_of_mem_ofText hnames draft.keyed_written ?_
    rw [← hd, hlist]
    exact List.mem_cons_self
  have hpending : isPending d name = true := by rw [isPending, hcontrol, Bool.true_or]
  -- the block is found, and the text that it comes to is chosen
  obtain ⟨chosen, hchosen, hgather⟩ := chooseBody_laid (s := s.counted)
    (passive_resolveAt hdepth) f.condition f.conditions ht
  have hbody := chosenBody_eq_ok.2 ⟨hwork, hchosen⟩
  have hfind : findInnermost d.text ev.strict = .ok (f.block.laid f.lead.length) := by
    rw [hd, hstrict]
    exact findInnermost_flattening f
  refine ⟨restarted d (f.block.laid f.lead.length) chosen, ?_, ?_⟩
  · have htake : d.text.take f.lead.length = f.lead := by rw [hd, f.written_eq, List.take_left]
    rw [restarted, Document.text_splice, Document.text_gather_eq, hgather,
      Spelling.drop_stop ht, f.written_result, List.append_assoc]
    exact congrArg (· ++ _) htake
  · rw [resolveAt_eq_afterPass (Nat.zero_le _), hlist, afterPass_cons, if_pos hpending,
      resolveBlock_eq, hfind]
    simp only
    rw [Eval.bind_of_ok (Eval.map_eq_ok.2 ⟨_, hbody, rfl⟩)]

/-- Resolving what a draft is written as gives the text that the draft comes to. -/
theorem resolveAt_written (hnames : ∀ name ∈ ev.registry.names, Apart name)
    (hstrict : ev.strict = false) (hdepth : 1 ≤ ev.limits.depth) (draft : Draft .body)
    (hd : d.text = draft.written) (hwork : s.work + draft.blocks ≤ ev.limits.invocations) :
    ∃ d', ev.resolveAt 0 d s = (.ok d', { s with work := s.work + draft.blocks }) ∧
      d'.text = draft.chosen := by
  induction hn : draft.blocks generalizing draft d s with
  | zero =>
    have htext : d.text = draft.chosen := by rw [hd, draft.written_eq_chosen hn]
    refine ⟨d, passive_resolveAt (Nat.zero_le _) d s ?_, htext⟩
    rw [htext]
    exact draft.not_mem_chosen
  | succ n ih =>
    -- one block is resolved, and what it leaves is a draft with one block less
    obtain ⟨f⟩ := draft.nonempty_flattening (by omega)
    have hblocks := f.blocks_eq
    obtain ⟨d', hd', hresolve⟩ := resolveAt_flattening (s := s) hnames hstrict hdepth f hd (by omega)
    obtain ⟨e, he, hchosen⟩ := ih (s := s.counted) f.result hd'
      (by rw [Session.counted_work]; omega) (by omega)
    refine ⟨e, ?_, by rw [hchosen, f.chosen_result]⟩
    rw [hresolve, he, Session.counted_work, Nat.add_assoc, Nat.add_comm 1]
    rfl

/-- The standard names are apart from the keywords of blocks. -/
theorem apart_of_mem_library : ∀ name ∈ Library.registry.names, Apart name := by
  have hall : (Library.registry.names.all fun name => name.head? == some '$' &&
      name.tail.all Char.isAlpha &&
      [Keyword.ifOpen, .elseIfOpen, .otherwise, .endIf, .endElseIf].all fun k =>
        !Text.startsFolded name k.word && !Text.startsFolded k.word name) = true := by
    decide +kernel
  intro name hname
  have hone := List.all_eq_true.1 hall name hname
  simp only [Bool.and_eq_true, beq_iff_eq, List.all_eq_true, Bool.not_eq_true'] at hone
  obtain ⟨⟨hhead, hletters⟩, hkeywords⟩ := hone
  have hboth : ∀ k : Keyword,
      Text.startsFolded name k.word = false ∧ Text.startsFolded k.word name = false :=
    fun k => hkeywords k (by cases k <;> decide)
  exact ⟨⟨name.tail, (List.cons_head?_tail hhead).symm, hletters⟩, fun k => (hboth k).1,
    fun k => (hboth k).2⟩

/-- The text of a tree of blocks evaluates to the text that the tree comes to, and no function is
called. -/
theorem evaluate_written (hregistry : ev.registry = .empty ∨ ev.registry = Library.registry)
    (hstrict : ev.strict = false) (hdepth : 1 ≤ ev.limits.depth) (draft : Draft .body)
    (hwork : draft.blocks ≤ ev.limits.invocations) (state : ExecutionState) :
    (ev.evaluate draft.written state).result =
        .ok ⟨Text.trim (Text.unescape draft.chosen), .empty, state⟩ ∧
      (ev.evaluate draft.written state).calls = [] := by
  have hnames : ∀ name ∈ ev.registry.names, Apart name := by
    rcases hregistry with h | h <;> rw [h]
    · exact nofun
    · exact apart_of_mem_library
  -- no name of either registry is a keyword
  obtain ⟨d, hresolve, hd⟩ := resolveAt_written (s := .start state) hnames hstrict hdepth draft
    (Document.text_source _) (by simpa [Session.start] using hwork)
  have hrun : ev.resolve (ev.limits.depth + 1) (.source draft.written) (.start state) = _ := hresolve
  have hrendered : d.rendered = Text.trim (Text.unescape draft.chosen) := by
    rw [Document.rendered, hd]
  rw [evaluate, hrun, ← hrendered]
  exact ⟨rfl, rfl⟩

/-- The evaluator of the standard functions. -/
def standardEvaluator : Evaluator := ⟨Library.registry, .default, false, ⟨[], [], 0⟩⟩

/-- A block in the body of an alternative. -/
def nestedDraft : Draft .body :=
  .block ⟨['1', '=', '=', '2'], by simp [isMarker]⟩ (.text ⟨['x'], by simp [isMarker]⟩ .empty)
    (.alternative ⟨['1', '=', '=', '1'], by simp [isMarker]⟩
      (.text ⟨['a'], by simp [isMarker]⟩
        (.block ⟨['b'], by simp [isMarker]⟩ (.text ⟨['y'], by simp [isMarker]⟩ .empty)
          (.otherwise ⟨⟨[' ', 'z'], by simp [isMarker]⟩, ' ', rfl, by decide⟩ .empty) .empty))
      false (.otherwise ⟨⟨['w'], by simp [isMarker]⟩, 'w', rfl, by decide⟩ .empty))
    .empty

/-- A tree with an alternative and a block in it. -/
theorem nested_draft_evaluates :
    nestedDraft.written =
      "$if[1==2]x$elseif[1==1]a$if[b]y$else z$endif$elsew$endif".toList ∧
    (standardEvaluator.evaluate nestedDraft.written .initial).result =
      .ok ⟨"a z".toList, .empty, .initial⟩ ∧
    (standardEvaluator.evaluate nestedDraft.written .initial).calls = [] := by
  have hchosen : Text.trim (Text.unescape nestedDraft.chosen) = "a z".toList := by decide +kernel
  have hdepth : 1 ≤ standardEvaluator.limits.depth := by decide
  have hevaluate := evaluate_written (.inr rfl) rfl hdepth nestedDraft (by decide) .initial
  rw [hchosen] at hevaluate
  exact ⟨rfl, hevaluate⟩

end Evaluator

end Stencil
