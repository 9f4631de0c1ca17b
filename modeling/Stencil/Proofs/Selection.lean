import Stencil.Proofs.Meaning
import Stencil.Proofs.Retrieval
/-!
# What a block runs

A text that is one block is resolved as its spelling says (`Evaluator.runSpelled`): a unit of work is
counted, the conditions are resolved in turn, one level deeper, up to the first one that is true, and
then the body behind it is resolved where the block stood. Nothing else of the block is looked at.

The worklist of the text lists the names of every condition and of every body. What is first on it
waits for the block, whatever it is (`isPending_of_mem_ofText`): no name stands where the block
begins, so it stands behind the `$if[`, and the only `$endif` is the end of the text.
-/

namespace Stencil

/-! ### Names where a block begins -/

/-- The name has no bracket and is no beginning of `$if`. -/
structure Unopening (name : Text) : Prop where
  not_mem : '[' ∉ name
  not_begins : Text.startsFolded name Keyword.ifOpen.word = false

theorem Apart.unopening {name : Text} (h : Apart name) : Unopening name := by
  refine ⟨fun hmem => ?_, h.not_begins .ifOpen⟩
  rcases h.eq_or_isMarker hmem with heq | hplain
  · cases heq
  · cases hplain

/-- A name of letters and digits is written without a bracket. -/
theorem Unopening.of_isAlphanum {stem : Text} (hstem : ∀ c ∈ stem, c.isAlphanum = true)
    (hbegins : Text.startsFolded ('$' :: stem) Keyword.ifOpen.word = false) :
    Unopening ('$' :: stem) := by
  refine ⟨fun hmem => ?_, hbegins⟩
  rcases List.mem_cons.1 hmem with heq | hmem
  · cases heq
  · cases hstem _ hmem

/-- Such a name does not stand where a block begins. -/
theorem Unopening.startsFolded_text {name : Text} (h : Unopening name) (rest : Text) :
    Text.startsFolded name (Keyword.ifOpen.text ++ rest) = false := by
  rw [Bool.eq_false_iff]
  intro hstarts
  rcases Nat.lt_or_ge 3 name.length with hlong | hshort
  · -- a longer name goes on with the bracket
    obtain ⟨c, hc, hlike⟩ :=
      Search.getElem?_of_startsBy hstarts (List.getElem?_eq_getElem hlong)
    obtain rfl : '[' = c := Option.some.inj hc
    have hbracket : name[3] = '[' := (toLower_eq_iff rfl).1 (beq_iff_eq.1 hlike)
    exact h.not_mem (hbracket ▸ List.getElem_mem hlong)
  · have hword : Text.startsFolded Keyword.ifOpen.word (Keyword.ifOpen.text ++ rest) = true := rfl
    have hbegins := Text.startsFolded_of_length_le hstarts hword hshort
    rw [h.not_begins] at hbegins
    cases hbegins

namespace Block.Spelling

variable {b : Spelling} {i : Nat}

/-- The conditions of a block, each with the body behind it. -/
def cases (b : Spelling) : List (Text × Text) :=
  (b.condition, b.body) :: b.branches.map fun a => (a.condition, a.body)

/-- The only `$endif` is the end of the block. -/
theorem Fits.add_six_of_endIf (h : b.Fits) (hi : Keyword.endIf.StandsAt b.text i) :
    i + 6 = b.text.length := by
  have hstop : (b.laid 0).span.stop = b.text.length := by rw [stop_laid, Nat.zero_add]
  have hall : Keyword.endIf.findAllFrom 0 (b.text ++ []) =
      [Keyword.endIf.spanAt (b.text.length - 6)] := by
    rw [b.text_append, Keyword.findAllFrom_text_append .endIf .ifOpen 0 nofun,
      Keyword.size_ifOpen, h.condition.findAllFrom_append (Keyword.breaks_closing _),
      Keyword.findAllFrom_closing, h.findAllFrom_body (by decide), hstop]
    rfl
  have hmem : Keyword.endIf.spanAt (0 + i) ∈ Keyword.endIf.findAllFrom 0 (b.text ++ []) := by
    apply Keyword.mem_findAllFrom.2
    exact ⟨i, by rwa [List.append_nil], rfl⟩
  rw [hall, List.mem_singleton] at hmem
  have hstart : 0 + i = b.text.length - 6 := congrArg Span.start hmem
  have := hi.add_size_le
  rw [Keyword.size_endIf] at this
  omega

theorem drop_zero_text (b : Spelling) : b.text.drop 0 = b.text ++ [] := by
  rw [List.drop_zero, List.append_nil]

/-- What stands in the block behind its first `$` is inside of it. -/
theorem Fits.isInside (h : b.Fits) (hdollar : b.text[i]? = some '$') (hpos : i ≠ 0) :
    isInside b.text i = true := by
  obtain ⟨hlt, -⟩ := List.getElem?_eq_some_iff.1 hdollar
  -- the `$if[` has one `$`
  have hfour : 4 ≤ i := by
    rcases i with _ | _ | _ | _ | i
    · exact absurd rfl hpos
    · cases hdollar
    · cases hdollar
    · cases hdollar
    · omega
  obtain ⟨n, rfl⟩ := Nat.exists_eq_add_of_le hfour
  have hopens : Keyword.ifOpen.StandsAt (b.text.take (4 + n)) 0 := by
    apply Keyword.standsAt_ifOpen
    have hopen : Keyword.ifOpen.text.length ≤ 4 + n := Nat.le_add_right 4 n
    rw [List.drop_zero, text, List.take_append, List.take_of_length_le hopen]
  refine isInside_of_standsAt hopens fun m hm => ?_
  obtain ⟨hwhole, hle⟩ := Keyword.standsAt_take.1 hm
  have hend := h.add_six_of_endIf hwhole
  rw [Keyword.size_endIf] at hle
  omega

/-- The block is all that is found in its text. -/
theorem Fits.findInnermost_text (h : b.Fits) {strict : Bool}
    (hstrict : strict = true → ∀ a ∈ b.branches, a.closed = true) :
    Block.findInnermost b.text strict = .ok (b.laid 0) := by
  refine h.findInnermost hstrict b.drop_zero_text fun i hpos hi => ?_
  have hi' : Keyword.ifOpen.StandsAt ([] ++ (b.text ++ [])) i := by
    rwa [List.nil_append, List.append_nil]
  exact Nat.not_le_of_lt hpos (h.le_of_ifOpen (Keyword.noneIn_nil .ifOpen) hi')

end Block.Spelling

namespace Evaluator

open Block

variable {ev : Evaluator} {nested : Nested} {b : Spelling} {t rest : Text} {n : Nat}

/-! ### The conditions in turn -/

/-- The body behind the first condition that is resolved to something true, or else the given text.
Later conditions are not resolved. -/
def firstTrue (nested : Nested) (otherwise : Text) : List (Text × Text) → Eval Text
  | [] => pure otherwise
  | (condition, body) :: later => do
    let resolved ← nested (.source condition)
    if Condition.evaluate resolved.text then return body
    else firstTrue nested otherwise later

/-- A block as its spelling tells it. -/
def runSpelled (ev : Evaluator) (depth : Nat) (b : Spelling) : Eval Document := do
  ev.countWork
  let body ← firstTrue (ev.resolveAt (depth + 1)) (b.otherwise.getD []) b.cases
  ev.resolveAt depth (.source body)

theorem conditionHolds_source {c : Span} {condition : Text} (hc : t.slice c = condition) :
    conditionHolds nested (.source t) c =
      nested (.source condition) >>= fun resolved => pure (Condition.evaluate resolved.text) := by
  rw [conditionHolds, Document.slice_source, hc]

/-- What is chosen of alternatives reads as the body behind the first true condition. -/
theorem chooseAlternative_source (nested : Nested) (otherwise : List Span) {branches : List Branch}
    (ht : t.drop n = branches.flatMap Branch.text ++ rest) :
    (chooseAlternative nested (.source t) otherwise (alternativesAt n branches) >>=
        fun chosen => pure (Span.gather chosen t)) =
      firstTrue nested (Span.gather otherwise t)
        (branches.map fun a => (a.condition, a.body)) := by
  induction branches generalizing n with
  | nil =>
    rw [alternativesAt, chooseAlternative, pure_bind]
    rfl
  | cons a later ih =>
    rw [List.flatMap_cons, List.append_assoc] at ht
    have hlater := ih (n := n + a.text.length) (by rw [← List.drop_drop, ht, List.drop_left])
    have hcondition : t.slice (a.laid n).condition = a.condition :=
      Text.slice_of_drop (Branch.drop_condition ht)
    have hbody : t.slice (a.laid n).body = a.body := Text.slice_of_drop (Branch.drop_body ht)
    rw [alternativesAt, chooseAlternative, conditionHolds_source hcondition, List.map_cons,
      firstTrue, bind_assoc, bind_assoc]
    refine bind_congr fun resolved => ?_
    rw [pure_bind]
    cases Condition.evaluate resolved.text with
    | true =>
      simp only [if_true, pure_bind, Span.gather_cons, Span.gather_nil, List.append_nil]
      exact congrArg pure hbody
    | false =>
      simp only [Bool.false_eq_true, if_false]
      exact hlater

/-- What is chosen of a block reads as the body behind the first true condition. -/
theorem chooseBody_source (ht : t.drop n = b.text ++ rest) :
    (chooseBody nested (.source t) (b.laid n) >>= fun chosen => pure (Span.gather chosen t)) =
      firstTrue nested (b.otherwise.getD []) b.cases := by
  have halternatives := chooseAlternative_source nested (b.laid n).otherwise
    (Spelling.drop_branches ht)
  rw [Spelling.gather_otherwise ht] at halternatives
  rw [chooseBody, conditionHolds_source (Spelling.slice_condition ht), Spelling.cases, firstTrue,
    bind_assoc, bind_assoc]
  refine bind_congr fun resolved => ?_
  rw [pure_bind]
  cases Condition.evaluate resolved.text with
  | true =>
    simp only [if_true, pure_bind]
    exact congrArg pure (Spelling.gather_body ht)
  | false =>
    simp only [Bool.false_eq_true, if_false]
    exact halternatives

/-! ### The block in its text -/

/-- Where the text is one block, what is chosen of it is left. -/
theorem restarted_source (b : Spelling) (chosen : List Span) :
    restarted (.source b.text) (b.laid 0) chosen = .source (Span.gather chosen b.text) := by
  refine Document.ext_cells ?_
  have hstop : (b.laid 0).span.stop = b.text.length := by rw [Spelling.stop_laid, Nat.zero_add]
  have hstart : (b.laid 0).span.start = 0 := rfl
  rw [cells_restarted, Document.cells_source, Document.cells_source, Span.graft, hstop, hstart,
    List.take_zero, List.nil_append, List.drop_of_length_le (by rw [List.length_map]),
    List.append_nil, Span.map_gather]

/-- Whatever is on the worklist of a block waits for the block. -/
theorem isPending_of_mem_ofText (hnames : ∀ name ∈ ev.registry.names, Unopening name)
    (hfits : b.Fits) {entry : Text} (hentry : entry ∈ Worklist.ofText ev.names b.text) :
    isPending (.source b.text) entry = true := by
  cases hcontrol : Worklist.isControl entry with
  | true => rw [isPending, hcontrol, Bool.true_or]
  | false =>
    have hmem := Worklist.mem_of_mem_ofText hentry
    have hhead := head?_of_mem_names hmem
    have hname := hnames entry (mem_registry_names hmem hcontrol)
    -- the name stands somewhere in the text, so it first stands at some `$`
    obtain ⟨i, hi⟩ := Worklist.stands_of_mem_ofText hentry
    have hle : i ≤ b.text.length :=
      (List.getElem?_eq_some_iff.1 (Text.getElem?_of_startsFolded hhead hi)).1.le
    obtain ⟨j, hj⟩ := (Document.nameAt_source.2 hi).exists_findName?
      (by rwa [Document.text_source])
    have hstands := Document.nameAt_source.1 (Document.findName?_eq_some_iff.1 hj).2.2.1
    have hpos : j ≠ 0 := by
      rintro rfl
      rw [List.drop_zero, Spelling.text, hname.startsFolded_text] at hstands
      cases hstands
    have hinside := hfits.isInside (Text.getElem?_of_startsFolded hhead hstands) hpos
    rw [isPending, hcontrol, Bool.false_or, hj, Document.text_source]
    exact hinside

/-- A text that is one block is resolved as its spelling says. -/
theorem resolveAt_spelled (hnames : ∀ name ∈ ev.registry.names, Unopening name)
    (hstrict : ev.strict = true → ∀ a ∈ b.branches, a.closed = true) (hfits : b.Fits) {depth : Nat}
    (hdepth : depth ≤ ev.limits.depth) (s : Session) :
    ev.resolveAt depth (.source b.text) s = ev.runSpelled depth b s := by
  have hlisted : Worklist.ofText ev.names b.text ≠ [] :=
    ofText_ne_nil (fun name hname => (hnames name hname).not_begins) [] _
  obtain ⟨entry, later, hlist⟩ := List.exists_cons_of_ne_nil hlisted
  have hpending : isPending (.source b.text) entry = true :=
    isPending_of_mem_ofText hnames hfits (hlist ▸ List.mem_cons_self)
  have hfind : findInnermost (Document.source b.text).text ev.strict = .ok (b.laid 0) := by
    rw [Document.text_source, hfits.findInnermost_text hstrict]
  rw [resolveAt_eq_afterPass hdepth, Document.text_source, hlist, afterPass_cons, if_pos hpending,
    resolveBlock_eq, hfind]
  simp only [chosenBody, restarted_source, runSpelled, ← chooseBody_source b.drop_zero_text,
    bind_assoc, pure_bind]

/-- A text that is one block is resolved, in every session and at every depth within the limit, as
its spelling says: one unit of work is counted, the conditions are resolved one level deeper up to
the first one that is true, and the body behind it, or that of `$else`, or nothing, is resolved at
the depth of the block. The document or the error and the session are the same. Brackets are nested
in the conditions, no condition or body holds a keyword, and no registered name has a bracket or is
a beginning of `$if`. An evaluator that is strict asks for the `$endelseif` of each alternative. -/
theorem block_runs_selected_body (hnames : ∀ f ∈ ev.registry.functions, Unopening f.name.text)
    (b : Spelling) (hstrict : ev.strict = true → ∀ a ∈ b.branches, a.closed = true)
    (hnested : ∀ c ∈ b.conditions, Bracket.Nested c)
    (hfree : ∀ u ∈ b.conditions ++ b.bodies, Keyword.NoneIn u)
    (helse : ∀ other ∈ b.otherwise, goesOnWithIf other = false) (depth : Nat) (s : Session) :
    ev.resolveAt depth (.source b.text) s =
      if depth ≤ ev.limits.depth then ev.runSpelled depth b s
      else (.error (.tooDeep ev.limits.depth), s) := by
  split
  · next hdepth =>
    have hfits : b.Fits := Spelling.fits_of_nested hnested hfree helse
    exact resolveAt_spelled (List.forall_mem_map.2 hnames) hstrict hfits hdepth s
  · next hdeep =>
    have hlevels : ev.limits.depth + 1 - depth = 0 := by omega
    rw [resolveAt, hlevels]
    rfl

/-- A block of which the second condition is true. -/
def secondHolds : Spelling where
  condition := "$n1==x".toList
  body := "$n1[a]".toList
  branches := [⟨"$n1[]==y".toList, "<$n1>".toList, false⟩, ⟨"$n1".toList, "b".toList, true⟩]
  otherwise := some " $n1".toList

/-- The first two conditions and the body behind the second one are resolved, with one call in each
of them; with the block that is four units of work. -/
theorem second_body_is_run :
    (withFunctions [.constant "n1".toList ['y']]).resolveAt 0 (.source secondHolds.text)
        (.start .initial) =
      (withFunctions [.constant "n1".toList ['y']]).runSpelled 0 secondHolds (.start .initial) ∧
    ((withFunctions [.constant "n1".toList ['y']]).runSpelled 0 secondHolds
      (.start .initial)).1.toOption.map (·.text) = some "<y>".toList ∧
    ((withFunctions [.constant "n1".toList ['y']]).runSpelled 0 secondHolds
      (.start .initial)).2.work = 4 := by
  have hnames : ∀ f ∈ (withFunctions [.constant "n1".toList ['y']]).registry.functions,
      Unopening f.name.text := by
    have hfunctions : (withFunctions [.constant "n1".toList ['y']]).registry.functions =
        [.constant "n1".toList ['y']] := rfl
    rw [hfunctions, List.forall_mem_singleton]
    exact .of_isAlphanum (List.all_eq_true.1 rfl) rfl
  exact ⟨block_runs_selected_body hnames secondHolds nofun (by decide) (by decide) (by decide) 0 _,
    by decide +kernel, by decide +kernel⟩

end Evaluator

end Stencil
