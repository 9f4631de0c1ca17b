import Stencil.Proofs.Bounds
import Stencil.Proofs.Extraction
import Stencil.Proofs.Inside
import Stencil.Proofs.Token
/-!
# Well-formed documents

Whatever is resolved of a derived text is derived as well: `written_move` is the step, and so every
document of the run of a derived source is derived (`Reached.written`). In such a document a name
that is called has its argument list right behind it, and the innermost block is there whenever a
`$if[` is (`Written.findInnermost`). What is left is a worklist that names a control when no `$if[`
is left, because the blocks it was read from stood in the argument of a call that has run
(`Stale`). Nothing else makes the structure of a derived source fail.
-/

namespace Stencil

namespace Grammar

open Evaluator

variable {names : List Text} {nests blocks : Bool} {t : Text} {d : Document} {strict : Bool}

/-! ### Blocks -/

/-- The innermost block of a document is the one that its last `$if[` begins. -/
theorem Written.findInnermost (hnames : ∀ name ∈ names, Apart name)
    (h : Written names nests blocks .document t) (strict : Bool)
    (hif : ∃ i, Keyword.ifOpen.StandsAt t i) :
    ∃ n b rest, Block.findInnermost t strict = .ok (b.laid n) ∧
      t.drop n = Block.Spelling.text b ++ rest ∧ Derived names nests b ∧ blocks = true ∧
      ∀ x, Written names nests true .document x →
        Written names nests blocks .document (t.take n ++ (x ++ rest)) := by
  obtain ⟨i, hi⟩ := hif
  obtain ⟨s, hs⟩ : ∃ s, Keyword.ifOpen.findLast? t = some s := by
    have hmem := Keyword.mem_findAll.2 ⟨i, hi, rfl⟩
    exact ⟨_, List.getLast?_eq_some_getLast (List.ne_nil_of_mem hmem)⟩
  obtain ⟨n, -, hn, hlast⟩ := Keyword.findLast?_eq_some_iff.1 hs
  obtain ⟨b, rest, ht, hb, hblocks, exchange⟩ := h.innermost hnames hn hlast
  exact ⟨n, b, rest, hb.fits.findInnermost (fun _ => hb.closed) ht hlast, ht, hb, hblocks, exchange⟩

theorem Written.findInnermost_eq_error (hnames : ∀ name ∈ names, Apart name)
    (h : Written names nests blocks .document t) (hif : ∀ i, ¬ Keyword.ifOpen.StandsAt t i) :
    Block.findInnermost t strict = .error .missingEndIf := by
  have habsent : Keyword.endIf.isPresent t = false := by
    rw [Bool.eq_false_iff, Ne, Keyword.isPresent_iff]
    rintro ⟨i, hi⟩
    exact h.noneIn hnames hif .endIf i hi
  unfold Block.findInnermost
  rw [habsent]
  rfl

/-- The conditions of the innermost block are documents. -/
theorem Derived.slice_of_mem_conditions {b : Block.Spelling} {n : Nat} {rest : Text}
    (hb : Derived names nests b) (ht : t.drop n = b.text ++ rest) {s : Span}
    (hs : s ∈ (b.laid n).conditions) : Written names nests true .document (t.slice s) := by
  rcases Block.Spelling.slice_of_mem_conditions hs ht with hslice | ⟨a, ha, hslice⟩
  · rw [hslice]
    exact hb.condition
  · rw [hslice]
    exact (hb.branches a ha).1

/-- Whatever is chosen of the innermost block is a document. -/
theorem Derived.gather_of_mem_choices {b : Block.Spelling} {n : Nat} {rest : Text}
    (hb : Derived names nests b) (ht : t.drop n = b.text ++ rest) {chosen : List Span}
    (hchosen : chosen ∈ (b.laid n).choices) :
    Written names nests true .document (Span.gather chosen t) := by
  rcases Block.Spelling.gather_of_mem_choices hchosen ht with htext | htext | ⟨a, ha, htext⟩
  · rw [htext]
    exact hb.body
  · rw [htext]
    cases hother : b.otherwise with
    | none => exact .empty
    | some other => exact hb.otherwise other hother
  · rw [htext]
    exact (hb.branches a ha).2

/-! ### Calls -/

/-- A call in a derived text, with what it is written from and what stands behind it. -/
structure CallIn (names : List Text) (nests blocks : Bool) (t : Text) (span : Span)
    (slots : List (Option Span)) (name inner rest : Text) : Prop where
  registered : name ∈ names
  text_eq : t.drop span.start = name ++ '[' :: (inner ++ ']' :: rest)
  stop_eq : span.stop = span.start + name.length + 1 + inner.length + 1
  slots_eq : slots = Bracket.slots t
    ⟨span.start + name.length + 1, span.start + name.length + 1 + inner.length⟩
  written : ∃ within, Written names nests (within && nests) .slots inner
  exchange : ∀ x, (∀ c ∈ x, isMarker c = false) →
    Written names nests blocks .document (t.take span.start ++ (x ++ rest))

/-- A name of letters ends in front of the bracket. -/
theorem length_le_of_startsFolded {name name' rest : Text} (hname : Apart name)
    (h : Text.startsFolded name (name' ++ '[' :: rest) = true) : name.length ≤ name'.length := by
  by_contra hlonger
  have hlt : name'.length < name.length := Nat.lt_of_not_le hlonger
  obtain ⟨c, hc, hlike⟩ := Search.getElem?_of_startsBy h (List.getElem?_eq_getElem hlt)
  rw [List.getElem?_append_right le_rfl, Nat.sub_self] at hc
  obtain rfl : '[' = c := by simpa using hc
  have hopen : name[name'.length] = '[' :=
    (toLower_eq_iff (m := '[') rfl).1 (beq_iff_eq.1 hlike)
  rcases hname.eq_or_isMarker (List.getElem_mem hlt) with heq | hplain
  · rw [hopen] at heq
    cases heq
  · rw [hopen] at hplain
    cases hplain

/-- Behind a name that stands where a call is written the argument list of the call opens. -/
theorem listOpening?_of_text_eq {name name' rest : Text} {i : Nat} (hname' : Apart name')
    (ht : t.drop i = name' ++ '[' :: rest) (hpos : name ≠ []) (hle : name.length ≤ name'.length) :
    CallSite.listOpening? t (i + name.length) = some (i + name'.length) := by
  have hget : ∀ n, t[i + n]? = (name' ++ '[' :: rest)[n]? := by
    intro n
    rw [← ht, List.getElem?_drop]
  refine CallSite.listOpening?_eq_some_iff.2 ⟨by omega, ?_, fun m c hm hlt hc => ?_⟩
  · rw [hget, List.getElem?_append_right le_rfl, Nat.sub_self]
    rfl
  · obtain ⟨n, rfl⟩ : ∃ n, m = i + n := ⟨m - i, by omega⟩
    rw [hget, List.getElem?_append_left (by omega)] at hc
    obtain ⟨stem, rfl, hstem⟩ := hname'.letters
    obtain ⟨k, rfl⟩ : ∃ k, n = k + 1 := by
      have := List.length_pos_of_ne_nil hpos
      exact ⟨n - 1, by omega⟩
    exact Apart.isMarker_of_isAlpha (hstem c (List.mem_of_getElem? hc))

/-- What a call covers in a derived text is a call that is written there. -/
theorem Written.callIn (hnames : ∀ name ∈ names, Apart name)
    (h : Written names nests blocks .document d.text) {name : Text} (hname : name ∈ names)
    {span : Span} {slots : List (Option Span)} (hcovers : CallSite.Covers d name span slots) :
    ∃ name' inner rest, CallIn names nests blocks d.text span slots name' inner rest := by
  have hapart := hnames name hname
  have hstands := hcovers.name_at.startsBy
  have hdollar := Text.getElem?_of_startsFolded hapart.head? hstands
  -- what begins there is neither a block nor a keyword
  have hno : ∀ k rest, d.text.drop span.start ≠ Keyword.text k ++ rest := by
    intro k rest ht
    rw [ht] at hstands
    exact Bool.eq_false_iff.1 (hapart.startsFolded_text k rest) hstands
  cases h.at_dollar hnames hdollar with
  | block _ text_eq => exact absurd text_eq (hno _ _)
  | keyword _ _ text_eq => exact absurd text_eq (hno _ _)
  | @call name' inner rest within registered text_eq written exchange =>
    -- the name that is called need not be the one that was written, but it begins it
    have hle : name.length ≤ name'.length := by
      rw [text_eq] at hstands
      exact length_le_of_startsFolded hapart hstands
    have hlist := listOpening?_of_text_eq (hnames name' registered) text_eq hapart.ne_nil hle
    have hopen : d.text.drop (span.start + name'.length) = '[' :: (inner ++ ']' :: rest) := by
      rw [← List.drop_drop, text_eq, List.drop_left]
    have hclosing := (written.balanced hnames).closing? hopen
    -- the argument list that was written is the one that is found
    rcases hcovers.shape with ⟨-, -, hnone⟩ | ⟨opening, hopening, hlt, hclosing', hslots⟩
    · rw [hlist] at hnone
      cases hnone
    · obtain rfl : span.start + name'.length = opening :=
        Option.some.inj (hlist.symm.trans hopening)
      have hstop : span.start + name'.length + 1 + inner.length = span.stop - 1 :=
        Option.some.inj (hclosing.symm.trans hclosing')
      refine ⟨name', inner, rest, registered, text_eq, by omega, ?_, ⟨within, written⟩, exchange⟩
      rw [hslots, hstop]

theorem CallIn.drop_stop {span : Span} {slots : List (Option Span)} {name inner rest : Text}
    (h : CallIn names nests blocks t span slots name inner rest) : t.drop span.stop = rest := by
  have hlen : span.stop = span.start + (name ++ '[' :: (inner ++ [']'])).length := by
    rw [h.stop_eq]
    simp only [List.length_append, List.length_cons, List.length_nil]
    omega
  have hsplit : name ++ '[' :: (inner ++ ']' :: rest) =
      (name ++ '[' :: (inner ++ [']'])) ++ rest := by
    simp
  rw [hlen, ← List.drop_drop, h.text_eq, hsplit, List.drop_left]

/-- The arguments of a call are documents. -/
theorem CallIn.slice_of_mem (hnames : ∀ name ∈ names, Apart name) {span s : Span}
    {slots : List (Option Span)} {name inner rest : Text}
    (h : CallIn names nests blocks t span slots name inner rest) (hs : some s ∈ slots) :
    ∃ within, Written names nests within .document (t.slice s) := by
  obtain ⟨within, hwritten⟩ := h.written
  have hinner : t.drop (span.start + name.length + 1) = inner ++ ']' :: rest := by
    rw [← List.drop_drop, ← List.drop_drop, h.text_eq, List.drop_left]
    rfl
  rw [h.slots_eq] at hs
  exact ⟨_, hwritten.slice_of_mem_slots hnames hinner hs⟩

/-- Where arguments hold no blocks, no keyword is lost with a call. -/
theorem CallIn.standsAt (hnames : ∀ name ∈ names, Apart name) {span : Span}
    {slots : List (Option Span)} {name inner rest : Text}
    (h : CallIn names false blocks t span slots name inner rest) {k : Keyword} {i : Nat}
    (hi : k.StandsAt t i) (x : Text) :
    ∃ j, k.StandsAt (t.take span.start ++ (x ++ rest)) j := by
  obtain ⟨within, hwritten⟩ := h.written
  rw [Bool.and_false] at hwritten
  have hfree : Keyword.NoneIn (name ++ '[' :: (inner ++ ']' :: [])) :=
    (Written.call h.registered hwritten .empty).noneIn_of_false hnames
  obtain ⟨stem, hstem, -⟩ := (hnames name h.registered).letters
  by_cases hbefore : i < (t.take span.start).length
  -- the keyword stands before the call, and does not reach into it
  · have hbreak : Keyword.Breaks (t.drop span.start) := by
      rw [h.text_eq, hstem]
      intro c hc
      obtain rfl : '$' = c := by simpa using hc
      exact .inl rfl
    rw [← List.take_append_drop span.start t] at hi
    exact ⟨i, (hi.of_append hbreak hbefore).append _⟩
  · -- the keyword stands in the call or behind it
    obtain ⟨m, hm⟩ : ∃ m, i = (t.take span.start).length + m :=
      ⟨i - (t.take span.start).length, by omega⟩
    have hcall : k.StandsAt ((name ++ '[' :: inner) ++ ']' :: rest) m := by
      have hsplit : (name ++ '[' :: inner) ++ ']' :: rest = t.drop span.start := by
        rw [h.text_eq]
        simp
      rw [← List.take_append_drop span.start t, hm, Keyword.standsAt_append_right, ← hsplit] at hi
      exact hi
    -- the call itself holds no keyword
    by_cases hin : m < (name ++ '[' :: inner).length
    · have hinner := (hcall.of_append (Keyword.breaks_closing rest) hin).append [']']
      rw [List.append_assoc, List.cons_append] at hinner
      exact absurd hinner (hfree k m)
    · obtain ⟨n, rfl⟩ : ∃ n, m = (name ++ '[' :: inner).length + n :=
        ⟨m - (name ++ '[' :: inner).length, by omega⟩
      have hbehind := Keyword.standsAt_append_right.1 hcall
      cases n with
      | zero => cases hbehind.getElem?_start
      | succ n =>
        have hrest : k.StandsAt rest n := hbehind
        exact ⟨_, Keyword.standsAt_append_right.2 (Keyword.standsAt_append_right.2 hrest)⟩

end Grammar

/-! ### Runs -/

namespace Evaluator

open Grammar

variable {ev : Evaluator} {p q : Point} {nests blocks : Bool} {source : Text}
  {state : ExecutionState}

theorem mem_registry_names {name : Text} (hname : name ∈ ev.names)
    (hcontrol : Worklist.isControl name = false) : name ∈ ev.registry.names := by
  rcases List.mem_append.1 hname with h | h
  · exact h
  · have hmem := (List.mem_filter.1 h).1
    have hself : Worklist.isControl name = true :=
      List.any_eq_true.2 ⟨name, hmem, Text.sameFolded_iff.2 rfl⟩
    rw [hcontrol] at hself
    cases hself

/-- The call that is next is one that is written in the document. -/
theorem Calls.callIn (hnames : ∀ name ∈ ev.registry.names, Apart name) (hp : ev.Listed p)
    (h : Written ev.registry.names nests blocks .document p.document.text) {f : Function}
    {span : Span} {slots : List (Option Span)} (hcalls : ev.Calls p f span slots) :
    ∃ name inner rest,
      CallIn ev.registry.names nests blocks p.document.text span slots name inner rest := by
  obtain ⟨name, hnext, hfree, horder⟩ := hcalls
  have hmem := mem_registry_names (hnext.mem_names hp) (Bool.or_eq_false_iff.1 hfree).1
  exact h.callIn hnames hmem (orderFor_eq_call (hnames name hmem).head? horder).1

/-- The block that is next is one that is written in the document. -/
theorem Resolves.spelled (hnames : ∀ name ∈ ev.registry.names, Apart name)
    (h : Written ev.registry.names nests blocks .document p.document.text) {b : Block}
    (hb : ev.Resolves p b) :
    ∃ n spelling rest, b = Block.Spelling.laid n spelling ∧
      p.document.text.drop n = spelling.text ++ rest ∧ Derived ev.registry.names nests spelling ∧
      blocks = true ∧ ∀ x, Written ev.registry.names nests true .document x →
        Written ev.registry.names nests blocks .document
          (p.document.text.take n ++ (x ++ rest)) := by
  obtain ⟨n, spelling, rest, hfind, ht, hderived, hblocks, exchange⟩ :=
    h.findInnermost hnames ev.strict ⟨_, hb.laid.opener⟩
  obtain ⟨name, -, -, hfound⟩ := hb
  have heq : b = spelling.laid n := Except.ok.inj (hfound.symm.trans hfind)
  exact ⟨n, spelling, rest, heq, ht, hderived, hblocks, exchange⟩

/-- A move leads from a derived document to one that is derived. -/
theorem written_move (hnames : ∀ name ∈ ev.registry.names, Apart name) (hp : ev.Listed p)
    (h : Written ev.registry.names nests blocks .document p.document.text) (move : ev.Move p q) :
    ∃ blocks, Written ev.registry.names nests blocks .document q.document.text := by
  cases move with
  | leave => exact ⟨blocks, h⟩
  | @call f span slots result s calls returns =>
    obtain ⟨name, inner, rest, hcall⟩ := calls.callIn hnames hp h
    have hresult := hcall.exchange (Text.escape result) fun c hc => Text.isMarker_of_mem_escape hc
    refine ⟨blocks, ?_⟩
    simp only [afterCall]
    rw [replaced, Document.text_splice, Document.text_literal, hcall.drop_stop, List.append_assoc]
    exact hresult
  | @argument f span slot slots done more args s calls within slots_eq earlier marked =>
    obtain ⟨name, inner, rest, hcall⟩ := calls.callIn hnames hp h
    have hslot : some slot ∈ slots := by
      rw [slots_eq]
      exact List.mem_append_right done List.mem_cons_self
    obtain ⟨within, hwritten⟩ := hcall.slice_of_mem hnames hslot
    refine ⟨within, ?_⟩
    simp only [enterPart, enter]
    rwa [Document.text_slice]
  | @block b chosen s resolves chooses =>
    obtain ⟨n, spelling, rest, rfl, ht, hderived, -, exchange⟩ := resolves.spelled hnames h
    have hchosen := hderived.gather_of_mem_choices ht (mem_choices_of_chosenBody chooses)
    refine ⟨blocks, ?_⟩
    simp only [afterBlock, enter]
    rw [restarted, Document.text_splice, Document.text_gather_eq, Block.Spelling.drop_stop ht,
      List.append_assoc]
    exact exchange _ hchosen
  | @condition b c asked later s resolves within conditions_eq earlier =>
    obtain ⟨n, spelling, rest, rfl, ht, hderived, -, -⟩ := resolves.spelled hnames h
    have hc : c ∈ (spelling.laid n).conditions := by
      rw [conditions_eq]
      exact List.mem_append_right asked List.mem_cons_self
    refine ⟨true, ?_⟩
    simp only [enterPart, enter]
    rw [Document.text_slice]
    exact hderived.slice_of_mem_conditions ht hc

/-- Every document of the run of a derived source is derived. -/
theorem Reached.written (hnames : ∀ name ∈ ev.registry.names, Apart name)
    (hsource : Written ev.registry.names nests true .document source)
    (h : ev.Reached source state p) :
    ∃ blocks, Written ev.registry.names nests blocks .document p.document.text := by
  refine h.invariant
    (fun p => ∃ blocks, Written ev.registry.names nests blocks .document p.document.text)
    ⟨true, ?_⟩ fun p q hp hwritten move => ?_
  · simp only [start, enter]
    rwa [Document.text_source]
  · obtain ⟨blocks, hwritten⟩ := hwritten
    exact written_move hnames hp hwritten move

/-! ### Controls -/

/-- Where the word of a control stands in a document, a `$if[` stands in it. -/
theorem exists_standsAt_of_isControl (hnames : ∀ name ∈ ev.registry.names, Apart name) {t : Text}
    (h : Written ev.registry.names nests blocks .document t) {name : Text}
    (hcontrol : Worklist.isControl name = true) {i : Nat}
    (hi : Text.startsFolded name (t.drop i) = true) : ∃ j, Keyword.ifOpen.StandsAt t j := by
  -- a control is the word of a keyword, in any case of its letters
  obtain ⟨k, hk⟩ : ∃ k : Keyword, Text.lowerAscii name = Text.lowerAscii k.word := by
    obtain ⟨c, hc, hsame⟩ := List.any_eq_true.1 hcontrol
    have hlower := Text.sameFolded_iff.1 hsame
    simp only [Worklist.controlNames, List.mem_cons, List.not_mem_nil, or_false] at hc
    rcases hc with rfl | rfl
    · exact ⟨.ifOpen, hlower.symm⟩
    · exact ⟨.endIf, hlower.symm⟩
  have hword : Text.startsFolded k.word (t.drop i) = true := by
    have hlen : name.length = k.word.length := by
      simpa [Text.lowerAscii] using congrArg List.length hk
    rw [Text.startsFolded_iff] at hi ⊢
    rw [← hlen, hi, hk]
  have hdollar := Text.getElem?_of_startsFolded k.head?_word hword
  cases h.at_dollar hnames hdollar with
  | call registered text_eq =>
    rw [text_eq, (hnames _ registered).startsFolded_word] at hword
    cases hword
  | @block condition body tail rest _ text_eq =>
    refine ⟨i, ?_⟩
    exact Keyword.standsAt_ifOpen text_eq
  | keyword _ _ _ inside =>
    rcases inside with hform | hexists
    · cases hform
    · exact hexists

/-- A control is next, and no block is left in the document. -/
def Stale (ev : Evaluator) (p : Point) : Prop :=
  (∃ name, ev.Next p name ∧ Worklist.isControl name = true) ∧
    ∀ i, ¬ Keyword.ifOpen.StandsAt p.document.text i

/-- The structure of a derived document fails only where it is stale. -/
theorem stale_of_stops (hnames : ∀ name ∈ ev.registry.names, Apart name)
    (h : Written ev.registry.names nests blocks .document p.document.text) {cause : BlockError}
    {s : Session} (stop : ev.Stops p (.structural cause) s) :
    cause = .missingEndIf ∧ ev.Stale p := by
  cases stop with
  | @structural name cause next pending malformed =>
    -- a `$if[` would begin a block that is found
    have hif : ∀ i, ¬ Keyword.ifOpen.StandsAt p.document.text i := by
      intro i hi
      obtain ⟨n, b, rest, hfind, -⟩ := h.findInnermost hnames ev.strict ⟨i, hi⟩
      rw [malformed] at hfind
      cases hfind
    have hcontrol : Worklist.isControl name = true := by
      rcases Bool.or_eq_true_iff.1 pending with hcontrol | hinside
      · exact hcontrol
      · obtain ⟨i, -, hi⟩ := (Option.any_eq_true _ _).1 hinside
        rw [Block.isInside_eq_false hif] at hi
        cases hi
    rw [h.findInnermost_eq_error hnames hif] at malformed
    cases malformed
    exact ⟨rfl, ⟨name, next, hcontrol⟩, hif⟩

/-- Where it is stale the structure fails. -/
theorem Stale.outcome (hnames : ∀ name ∈ ev.registry.names, Apart name)
    (h : Written ev.registry.names nests blocks .document p.document.text) (hstale : ev.Stale p) :
    ev.outcome p = (.error (.structural .missingEndIf), p.session) := by
  obtain ⟨⟨name, hnext, hcontrol⟩, hif⟩ := hstale
  have hpending : isPending p.document name = true := by
    rw [isPending, hcontrol, Bool.true_or]
  exact outcome_malformed hnext hpending (h.findInnermost_eq_error hnames hif)

/-- Where the worklist names a control, a block is there. -/
def Fresh (p : Point) : Prop :=
  ∀ name ∈ p.worklist, Worklist.isControl name = true →
    ∃ i, Keyword.ifOpen.StandsAt p.document.text i

theorem fresh_enter (hnames : ∀ name ∈ ev.registry.names, Apart name) {d : Document}
    (h : Written ev.registry.names nests blocks .document d.text) (depth : Nat)
    (places : List (Option Nat)) (s : Session) : Fresh (ev.enter depth d places s) := by
  intro name hname hcontrol
  obtain ⟨i, hi⟩ := Worklist.stands_of_mem_ofText hname
  exact exists_standsAt_of_isControl hnames h hcontrol hi

theorem Fresh.move (hnames : ∀ name ∈ ev.registry.names, Apart name) (hp : ev.Listed p)
    (h : Written ev.registry.names false blocks .document p.document.text) (hfresh : Fresh p)
    (move : ev.Move p q) : Fresh q := by
  obtain ⟨blocks', hq⟩ := written_move hnames hp h move
  cases move with
  | leave => exact fun name hname => hfresh name (List.mem_of_mem_tail hname)
  | @call f span slots result s calls returns =>
    intro name hname hcontrol
    -- the block that is there for the name does not stand in the call, so it is still there behind it
    obtain ⟨i, hi⟩ := hfresh name (List.mem_of_mem_tail hname) hcontrol
    obtain ⟨_, _, _, hcall⟩ := calls.callIn hnames hp h
    simp only [afterCall]
    rw [replaced, Document.text_splice, Document.text_literal, hcall.drop_stop, List.append_assoc]
    exact hcall.standsAt hnames hi _
  | argument | block | condition => exact fresh_enter hnames hq _ _ _

theorem Reached.fresh (hnames : ∀ name ∈ ev.registry.names, Apart name)
    (hsource : Written ev.registry.names false true .document source)
    (h : ev.Reached source state p) : Fresh p := by
  have hboth : (∃ blocks, Written ev.registry.names false blocks .document p.document.text) ∧
      Fresh p := by
    refine h.invariant (fun p =>
      (∃ blocks, Written ev.registry.names false blocks .document p.document.text) ∧ Fresh p) ?_ ?_
    · have hstart : Written ev.registry.names false true .document
          (Document.source source).text := by
        rwa [Document.text_source]
      exact ⟨⟨true, hstart⟩, fresh_enter hnames hstart _ _ _⟩
    · rintro p q hp ⟨⟨blocks, hwritten⟩, hfresh⟩ move
      exact ⟨written_move hnames hp hwritten move, hfresh.move hnames hp hwritten move⟩
  exact hboth.2

/-- What an error at a point of a run means for the evaluation. -/
theorem Reached.evaluate_eq_error (h : ev.Reached source state p) {e : EvalError} {s : Session}
    (hp : ev.outcome p = (.error e, s)) : (ev.evaluate source state).result = .error e := by
  have hrun : ev.resolve (ev.limits.depth + 1) (.source source) (.start state) = (.error e, s) := by
    rw [← Leads.outcome_eq_error h hp]
    exact resolveAt_eq_outcome 0 _ _ _
  unfold evaluate
  rw [hrun]

/-- The structure of a derived source fails exactly where its run comes to a point at which a control
is next and no block is left, and then the `$endif` is what is missed. Where no argument of a call
holds a block this does not happen. -/
theorem structural_iff_stale (hnames : ∀ name ∈ ev.registry.names, Apart name)
    (hsource : Written ev.registry.names nests true .document source) (state : ExecutionState) :
    (∀ cause, (ev.evaluate source state).result = .error (.structural cause) ↔
      cause = .missingEndIf ∧ ∃ p, ev.Reached source state p ∧ ev.Stale p) ∧
    (nests = false → ∀ cause,
      (ev.evaluate source state).result ≠ .error (.structural cause)) := by
  have hiff : ∀ cause, (ev.evaluate source state).result = .error (.structural cause) ↔
      cause = .missingEndIf ∧ ∃ p, ev.Reached source state p ∧ ev.Stale p := by
    intro cause
    constructor
    · intro herror
      obtain ⟨p, s, hreached, hstop⟩ := exists_stop_of_evaluate herror
      obtain ⟨blocks, hwritten⟩ := hreached.written hnames hsource
      obtain ⟨hcause, hstale⟩ := stale_of_stops hnames hwritten hstop
      exact ⟨hcause, p, hreached, hstale⟩
    · rintro ⟨rfl, p, hreached, hstale⟩
      obtain ⟨blocks, hwritten⟩ := hreached.written hnames hsource
      exact hreached.evaluate_eq_error (hstale.outcome hnames hwritten)
  refine ⟨hiff, ?_⟩
  rintro rfl cause herror
  obtain ⟨-, p, hreached, ⟨name, hnext, hcontrol⟩, hif⟩ := (hiff cause).1 herror
  obtain ⟨i, hi⟩ := hreached.fresh hnames hsource name (List.mem_of_mem_head? hnext.2) hcontrol
  exact hif i hi

/-- The evaluator with one function `$f`, which gives `x`. -/
def oneFunction : Evaluator := withFunctions [.constant ['f'] ['x']]

theorem apart_of_mem_oneFunction : ∀ name ∈ oneFunction.registry.names, Apart name := by
  intro name hname
  have hnames : oneFunction.registry.names = [['$', 'f']] := rfl
  rw [hnames] at hname
  obtain rfl : name = ['$', 'f'] := List.mem_singleton.1 hname
  refine ⟨⟨['f'], rfl, List.forall_mem_singleton.2 rfl⟩, fun k => ?_, fun k => ?_⟩
  · cases k <;> rfl
  · cases k <;> rfl

theorem written_if {nests : Bool} :
    Written oneFunction.registry.names nests true .document "$if[a]b$endif".toList :=
  have hletter : ∀ {c : Char}, isMarker c = false →
      Written oneFunction.registry.names nests true .document [c] := fun h => .char h .empty
  have hblock : Written oneFunction.registry.names nests true .document
      (Keyword.ifOpen.text ++ (['a'] ++ ']' :: (['b'] ++ (Keyword.endIf.text ++ [])))) :=
    .block (hletter rfl) (hletter rfl) .done .empty
  hblock

theorem call_before_block_is_settled :
    Written oneFunction.registry.names false true .document "$f[a]$if[a]b$endif".toList ∧
    ¬ ∃ cause, (oneFunction.evaluate "$f[a]$if[a]b$endif".toList .initial).result =
      .error (.structural cause) := by
  have hcall : Written oneFunction.registry.names false true .document
      (['$', 'f'] ++ '[' :: (['a'] ++ ']' :: "$if[a]b$endif".toList)) :=
    .call List.mem_cons_self (.last (.char rfl .empty)) written_if
  refine ⟨hcall, ?_⟩
  rintro ⟨cause, herror⟩
  exact (structural_iff_stale apart_of_mem_oneFunction hcall .initial).2 rfl cause herror

/-- The call resolves the block in its argument, and the worklist still names the `$endif`. -/
theorem block_in_argument_is_missed :
    (∀ name ∈ oneFunction.registry.names, Apart name) ∧
    Written oneFunction.registry.names true true .document "$f[\n$if[a]b$endif]".toList ∧
    (oneFunction.evaluate "$f[\n$if[a]b$endif]".toList .initial).result =
      .error (.structural .missingEndIf) := by
  refine ⟨apart_of_mem_oneFunction, ?_, ?_⟩
  · have hcall : Written oneFunction.registry.names true true .document
        (['$', 'f'] ++ '[' :: ('\n' :: "$if[a]b$endif".toList ++ ']' :: [])) :=
      .call List.mem_cons_self (.last (.char rfl written_if)) .empty
    exact hcall
  · -- evaluations are not compared, so what the result holds is left out
    have hcause : ((oneFunction.evaluate "$f[\n$if[a]b$endif]".toList .initial).result.map
        fun _ => ()) = .error (.structural .missingEndIf) := by
      decide +kernel
    cases hresult : (oneFunction.evaluate "$f[\n$if[a]b$endif]".toList .initial).result with
    | ok evaluation =>
      rw [hresult] at hcause
      cases hcause
    | error e =>
      rw [hresult] at hcause
      exact congrArg Except.error (Except.error.inj hcause)

end Evaluator

end Stencil
