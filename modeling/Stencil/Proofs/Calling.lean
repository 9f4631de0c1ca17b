import Mathlib.Data.List.Nodup
import Stencil.Proofs.Called
import Stencil.Proofs.Inert
import Stencil.Proofs.Selection
/-!
# A call with text behind it

A text that begins with the call of a function, and has no other `$`, has one name on its worklist
(`ofText_calling`). The name stands at the start, outside of every block, and its list reaches to the
bracket that closes it, so the call is all that is made (`resolveAt_calling`): its result takes the
place of the call and what stands behind is left as it is (`text_replaced_calling`).
-/

namespace Stencil

/-! ### Looking up a name -/

/-- A function of the registry is found by its name, whatever the case of the letters. -/
theorem Registry.get?_of_mem {r : Registry} {f : Function} (hf : f ∈ r.functions) {name : Text}
    (hname : name.head? = some '$') (hsame : Text.sameFolded name f.name.text = true) :
    r.get? name = some f := by
  obtain ⟨stem, rfl⟩ := List.head?_eq_some_iff.1 hname
  have hkey : (FunctionName.ofText ('$' :: stem)).key = f.name.key :=
    (List.cons.inj (Text.sameFolded_iff.1 hsame)).2
  rw [get?, find?, hkey]
  cases hfind : r.functions.find? (·.name.key == f.name.key) with
  | none =>
    have hnot := List.find?_eq_none.1 hfind f hf
    exact absurd (beq_self_eq_true _) hnot
  | some g =>
    -- functions with the same key are the same
    have hg := List.mem_of_find?_eq_some hfind
    have hsame : g.name.key = f.name.key := by simpa using List.find?_some hfind
    rw [List.inj_on_of_nodup_map r.distinct hg hf hsame]

/-- A name that is apart is not the word of a keyword. -/
theorem Apart.not_control {name written : Text} (h : Apart written)
    (hsame : Text.sameFolded name written = true) : Worklist.isControl name = false := by
  rw [Worklist.isControl, List.any_eq_false]
  intro control hcontrol hlike
  obtain ⟨keyword, rfl⟩ : ∃ keyword : Keyword, control = keyword.word := by
    simp only [Worklist.controlNames, List.mem_cons, List.not_mem_nil, or_false] at hcontrol
    rcases hcontrol with rfl | rfl
    · exact ⟨.ifOpen, rfl⟩
    · exact ⟨.endIf, rfl⟩
  have hlower : Text.lowerAscii written = Text.lowerAscii keyword.word :=
    (Text.sameFolded_iff.1 hsame).symm.trans (Text.sameFolded_iff.1 hlike).symm
  have hstarts := startsFolded_append_of_sameFolded (Text.sameFolded_iff.2 hlower) []
  rw [List.append_nil, h.not_begins keyword] at hstarts
  cases hstarts

/-! ### The text -/

/-- The text that begins with the call of a name, the argument list and the text behind it. -/
def calling (name inner rest : Text) : Text := name ++ '[' :: (inner ++ ']' :: rest)

section Calling

variable {name inner rest : Text}

/-- The name, the slots, two brackets and what is behind. -/
theorem length_calling (name inner rest : Text) :
    (calling name inner rest).length = name.length + inner.length + 2 + rest.length := by
  simp only [calling, List.length_append, List.length_cons]
  omega

/-- Behind the bracket that opens the list stand the slots. -/
theorem drop_calling (name inner rest : Text) :
    (calling name inner rest).drop (name.length + 1) = inner ++ ']' :: rest := by
  rw [calling, ← List.drop_drop, List.drop_left]
  rfl

/-- Between the brackets stand the slots. -/
theorem slice_calling (name inner rest : Text) :
    (calling name inner rest).slice ⟨name.length + 1, name.length + 1 + inner.length⟩ = inner :=
  Text.slice_of_drop (drop_calling name inner rest)

/-- Behind the call stands the rest. -/
theorem drop_calling_behind (name inner rest : Text) :
    (calling name inner rest).drop (name.length + inner.length + 2) = rest := by
  have hlen : name.length + inner.length + 2 = name.length + 1 + (inner.length + 1) := by omega
  rw [hlen, ← List.drop_drop, drop_calling, ← List.drop_drop, List.drop_left]
  rfl

/-- Brackets are balanced around balanced slots. -/
theorem balanced_calling (hname : Apart name) (hinner : Bracket.Balanced inner)
    (hrest : Bracket.Balanced rest) : Bracket.Balanced (calling name inner rest) := by
  have hlist : calling name inner rest = name ++ (('[' :: (inner ++ [']'])) ++ rest) := by
    simp [calling]
  have hplain : ∀ c ∈ name, c ≠ '[' ∧ c ≠ ']' := by
    intro c hc
    rcases hname.eq_or_isMarker hc with rfl | hplain
    · decide
    · constructor <;> rintro rfl <;> cases hplain
  rw [hlist]
  exact (Bracket.Balanced.of_plain hplain).append (hinner.brackets.append hrest)

/-- What begins at the only `$` is the call, so there is no keyword. -/
theorem noneIn_calling (hname : Apart name) (hinner : '$' ∉ inner) (hrest : '$' ∉ rest) :
    Keyword.NoneIn (calling name inner rest) := by
  intro k i hk
  have hdollar := hk.getElem?_start
  obtain ⟨stem, rfl, hstem⟩ := hname.letters
  cases i with
  | zero =>
    exact Grammar.not_standsAt_call (List.forall_mem_singleton.2 hname) List.mem_cons_self
      List.drop_zero k hk
  | succ i =>
    have hmem : '$' ∈ stem ++ '[' :: (inner ++ ']' :: rest) := List.mem_of_getElem? hdollar
    rcases List.mem_append.1 hmem with hmem | hmem
    · cases hstem _ hmem
    · simp [hinner, hrest] at hmem

/-- A list with one slot at most: what stands between the brackets without the blanks around. -/
theorem slots_calling (hnested : Bracket.Nested inner) (huncut : Bracket.Uncut 0 inner)
    (name rest : Text) :
    Bracket.slots (calling name inner rest)
        ⟨name.length + 1, name.length + 1 + inner.length⟩ =
      if Text.isBlankText inner then []
      else [some (Text.trimSpan (calling name inner rest)
        ⟨name.length + 1, name.length + 1 + inner.length⟩)] := by
  -- what is between the brackets is one piece
  have hslice := slice_calling name inner rest
  have hpieces : Bracket.pieces (calling name inner rest)
      ⟨name.length + 1, name.length + 1 + inner.length⟩ =
        [⟨name.length + 1, name.length + 1 + inner.length⟩] := by
    rw [Bracket.pieces, hslice,
      Bracket.piecesFrom_of_uncut (hnested.inside (Nat.le_add_left 1 0)) huncut]
    rfl
  have hstop : name.length + 1 + inner.length ≤ (calling name inner rest).length := by
    rw [length_calling]
    omega
  have hempty : (Text.trimSpan (calling name inner rest)
      ⟨name.length + 1, name.length + 1 + inner.length⟩).isEmpty = Text.isBlankText inner := by
    rw [Text.isEmpty_trimSpan hstop, hslice]
  rw [Bracket.slots, hpieces, List.map_singleton, Bracket.dropEmptyLast, List.getLast?_singleton]
  simp only [hempty]
  split
  · rfl
  · next hblank => simp [hempty, hblank]

end Calling

namespace Evaluator

variable {ev : Evaluator} {f : Function} {inner rest v : Text} {s : Session}
  (hnames : ∀ name ∈ ev.registry.names, Apart name)
  (hf : f ∈ ev.registry.functions)

include hf in
/-- The name of a function that is registered is among the names. -/
theorem mem_names : f.name.text ∈ ev.registry.names := List.mem_map_of_mem hf

section Reading

include hnames hf

/-- The worklist is the name that is called. -/
theorem ofText_calling (hinner : '$' ∉ inner) (hrest : '$' ∉ rest) :
    ∃ entry, Worklist.ofText ev.names (calling f.name.text inner rest) = [entry] ∧
      entry.head? = some '$' ∧ Text.sameFolded entry f.name.text = true := by
  have hlettered : ∀ name ∈ ev.registry.names, Worklist.Lettered name :=
    fun name hname => (hnames name hname).letters
  have hself : Text.sameFolded f.name.text ('$' :: f.name.stem) = true := Text.sameFolded_iff.2 rfl
  obtain ⟨entry, hentry, hsame, hbehind⟩ :=
    Worklist.nameBehind?_call hlettered (mem_names hf) hself (inner ++ ']' :: rest)
  change Worklist.nameBehind? ev.names _ = some entry at hbehind
  refine ⟨entry, ?_, head?_of_mem_names hentry, hsame⟩
  -- there is no other `$`
  have hnone : ∀ t : Text, '$' ∉ t → Worklist.behind t = [] := by
    intro t ht
    induction t with
    | nil => rfl
    | cons c t ih =>
      rw [List.mem_cons, not_or] at ht
      rw [Worklist.behind, if_neg (Ne.symm ht.1), ih ht.2]
  have hstem : '$' ∉ f.name.stem ++ '[' :: (inner ++ ']' :: rest) := by
    intro hmem
    rcases List.mem_append.1 hmem with hmem | hmem
    · cases Content.isAlpha_of_mem_stem hlettered
        ⟨f.name.text, mem_names hf, hself⟩ hmem
    · simp [hinner, hrest] at hmem
  have hperm := Worklist.ofText_perm ev.names (calling f.name.text inner rest)
  have hone : Worklist.behind (calling f.name.text inner rest) =
      [(f.name.stem ++ '[' :: (inner ++ ']' :: rest)).takeWhile (fun c => c ≠ '$' && c ≠ '\n')] := by
    show Worklist.behind ('$' :: (f.name.stem ++ '[' :: (inner ++ ']' :: rest))) = _
    rw [Worklist.behind, if_pos rfl, hnone _ hstem]
  rw [hone, List.filterMap_cons_some hbehind] at hperm
  exact List.perm_singleton.1 hperm

/-- The name stands at the start, its list opens behind it and is closed where its brackets say. -/
theorem find_calling (hinner : Bracket.Balanced inner) {entry : Text}
    (hsame : Text.sameFolded entry f.name.text = true) :
    CallSite.find (.source (calling f.name.text inner rest)) entry =
      .call ⟨0, f.name.text.length + inner.length + 2⟩
        (Bracket.slots (calling f.name.text inner rest)
          ⟨f.name.text.length + 1, f.name.text.length + 1 + inner.length⟩) := by
  have hletters : ∀ c ∈ f.name.stem, c.isAlpha = true := by
    obtain ⟨stem, hstem, hletters⟩ := (hnames _ (mem_names hf)).letters
    rwa [(List.cons.inj hstem).2]
  have hlen : entry.length = f.name.stem.length + 1 := by
    simpa [Text.lowerAscii, FunctionName.text] using
      congrArg List.length (Text.sameFolded_iff.1 hsame)
  -- the entry stands at the start, since only case differs
  have hfind : (Document.source (calling f.name.text inner rest)).findName? entry 0 = some 0 := by
    refine Document.findName?_eq_some_iff.2 ⟨Nat.le_refl 0, Nat.zero_le _, ?_, ?_⟩
    · exact Document.nameAt_source.2 (startsFolded_append_of_sameFolded hsame _)
    · intro m _ hm
      cases hm
  -- the list opens behind the name, and is closed behind its slots
  have htext : (calling f.name.text inner rest).drop 0 =
      '$' :: (f.name.stem ++ '[' :: (inner ++ ']' :: rest)) := rfl
  have hopening := CallSite.listOpening?_call (n := entry.length) htext hletters (by omega)
    (by omega)
  have hclosing := hinner.closing?_call htext
  have hend : 0 + 1 + f.name.stem.length = f.name.text.length := by
    rw [FunctionName.text, List.length_cons]
    omega
  have hstop : f.name.text.length + 1 + inner.length + 1 = f.name.text.length + inner.length + 2 := by
    omega
  rw [hend] at hopening hclosing
  rw [CallSite.find, hfind]
  simp only [CallSite.ofPosition, Document.text_source, Nat.lt_irrefl, decide_false,
    Bool.false_and, Bool.false_eq_true, if_false, Nat.zero_add]
  rw [hopening]
  simp only
  rw [hclosing]
  simp only [hstop]

/-- The call does not wait for a block. -/
theorem isPending_calling (hinner : '$' ∉ inner) (hrest : '$' ∉ rest) {entry : Text}
    (hsame : Text.sameFolded entry f.name.text = true) :
    isPending (.source (calling f.name.text inner rest)) entry = false := by
  have hname := hnames _ (mem_names hf)
  rw [isPending, hname.not_control hsame, Bool.false_or, Document.text_source]
  cases Document.findName? _ entry 0 with
  | none => rfl
  | some i => exact Block.isInside_eq_false (noneIn_calling hname hinner hrest .ifOpen) i

/-- The call is all that is made. -/
theorem resolveAt_calling (hbalanced : Bracket.Balanced inner) (hinner : '$' ∉ inner)
    (hrest : '$' ∉ rest) {depth : Nat} (hdepth : depth ≤ ev.limits.depth) (s : Session) :
    ev.resolveAt depth (.source (calling f.name.text inner rest)) s =
      ev.perform (ev.resolveAt (depth + 1)) (.source (calling f.name.text inner rest)) f
        ⟨0, f.name.text.length + inner.length + 2⟩
        (Bracket.slots (calling f.name.text inner rest)
          ⟨f.name.text.length + 1, f.name.text.length + 1 + inner.length⟩) s := by
  obtain ⟨entry, hlist, hhead, hsame⟩ := ofText_calling hnames hf hinner hrest
  rw [resolveAt_eq_afterPass hdepth, Document.text_source, hlist, afterPass_cons,
    isPending_calling hnames hf hinner hrest hsame, if_neg Bool.false_ne_true, invoke,
    find_calling hnames hf hbalanced hsame]
  simp only
  rw [Registry.get?_of_mem hf hhead hsame]
  exact congrFun (bind_pure _) s

end Reading

/-- The result takes the place of the call. -/
theorem text_replaced_calling (name inner rest v : Text) :
    (replaced (.source (calling name inner rest)) ⟨0, name.length + inner.length + 2⟩ v).text =
      Text.escape v ++ rest := by
  rw [replaced, Document.text_splice, Document.text_literal, Document.text_source, List.take_zero,
    List.nil_append, drop_calling_behind]

/-- A function that gives a text for its arguments gives the result of the call. -/
theorem exists_callResult_eq {nested : Nested} {d : Document} {slots : List (Option Span)}
    {args : List Arg} {s₁ : Session} (hwork : s.work + 1 ≤ ev.limits.invocations)
    (hargs : arguments nested d slots s.counted = (.ok args, s₁))
    (hreturns : ∀ context state, (f.call context args state).1.replacement? = some v) :
    ∃ s', ev.callResult nested d f slots s = (.ok v, s') := by
  have houtcome := (ev.callFunction_outcome f args s₁).2
  rw [hreturns] at houtcome
  rcases hcall : ev.callFunction f args s₁ with ⟨e | result, s'⟩
  · rw [hcall] at houtcome
    cases houtcome
  · rw [hcall] at houtcome
    obtain rfl : result = v := Option.some.inj houtcome
    exact ⟨s', callResult_eq_ok.2 ⟨hwork, args, s₁, hargs, hcall⟩⟩

end Evaluator

end Stencil
