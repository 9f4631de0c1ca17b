import Stencil.Proofs.Called
import Stencil.Proofs.Once
import Stencil.Proofs.Reading
import Stencil.Proofs.WellFormed
/-!
# Runs over text and calls

At every point of a run over text and calls the document is what a tree shows, the whole tree or a
slot of one of its calls, and the results shown are those of calls that have returned (`Stands`). A
call that is next is a call of the tree (`Stands.exists_callAt`), so each move leads to such a point
again.

The worklist holds every name as often as it stands in the document, at least. So when it is done
no `$` is left (`Stands.not_mem_of_settled`).
-/

namespace Stencil

/-- The characters of the document, each `$` with its place. -/
def Point.stamps (p : Point) : List Stamp := Stencil.stamps p.document.text p.places

namespace Evaluator

open Content

variable {ev : Evaluator} {source : Text} {state : ExecutionState} {p : Point} {c q : Content}
  {results : Nat → Option Text} {name : Text}

/-! ### Stamps of points -/

/-- A document has a place for each character. -/
theorem Reached.length_places (hp : ev.Reached source state p) :
    p.document.text.length = p.places.length := by
  rw [← Document.length_cells]
  exact hp.tracks.length_eq

/-- The characters of the stamps are those of the document. -/
theorem Reached.map_fst_stamps (hp : ev.Reached source state p) :
    p.stamps.map Prod.fst = p.document.text :=
  Stencil.map_fst_stamps hp.length_places

/-- There are as many stamps as characters. -/
theorem Reached.length_stamps (hp : ev.Reached source state p) :
    p.stamps.length = p.document.text.length := by
  rw [← hp.map_fst_stamps, List.length_map]

/-- A part of a document has part of the stamps. -/
theorem stamps_enterPart (part : Span) (s : Session) :
    (ev.enterPart p part s).stamps = part.cut p.stamps := by
  rw [Point.stamps, enterPart, enter, Document.text_slice_eq_cut, ← cut_stamps]
  rfl

/-- A result is stamped without places. -/
theorem stamps_afterCall (hp : ev.Reached source state p) (span : Span) (result : Text)
    (s : Session) :
    (afterCall p span result s).stamps = span.graft (plain (Text.escape result)) p.stamps := by
  rw [Point.stamps, afterCall, replaced, Document.text_splice_eq_graft, Document.text_literal,
    graft_stamps hp.length_places (List.length_replicate ..).symm, stamps_replicate_none]
  rfl

/-- Every `$` of the document has its place. -/
theorem Reached.exists_stamp (hp : ev.Reached source state p) {i : Nat}
    (hi : p.document.text[i]? = some '$') :
    ∃ x, p.stamps[i]? = some ('$', some x) ∧ p.places[i]? = some (some x) := by
  obtain ⟨x, hx⟩ := hp.exists_place hi rfl
  exact ⟨x, getElem?_stamps hi hx, hx⟩

/-- Where a name begins in the text, it begins in source text. -/
theorem Reached.nameAt (hp : ev.Reached source state p) (hhead : name.head? = some '$') {i : Nat}
    (hstarts : Text.startsFolded name (p.document.text.drop i) = true) :
    p.document.NameAt name i := by
  have hcell := Document.getElem?_cells_of_marked hp.marked
    (Text.getElem?_of_startsFolded hhead hstarts) rfl
  obtain ⟨hlt, hget⟩ := List.getElem?_eq_some_iff.1 hcell
  rw [Document.NameAt, Document.nameAtStart, Document.startsBy_cells, List.map_drop,
    Document.map_fst_cells, Bool.and_eq_true]
  refine ⟨?_, hstarts⟩
  rw [List.drop_eq_getElem_cons hlt, hget]
  rfl

/-! ### Points and trees -/

/-- The document of the point is shown by a part of the source's tree, with results of calls that
have returned, and the worklist holds the names that are left. -/
structure Stands (ev : Evaluator) (source : Text) (state : ExecutionState) (c q : Content)
    (results : Nat → Option Text) (p : Point) : Prop where
  sites_subset : q.sites ⊆ c.sites
  nodup : q.labels.Nodup
  sound : ∃ top, q.Sound ev.registry.names top
  shows : q.Shows results p.stamps
  returned : ∀ x r, results x = some r → ev.Returns source state x r
  listed : ∀ name ∈ p.worklist, name ∈ ev.registry.names
  covered : ∀ name ∈ ev.registry.names,
    Text.occurrences name p.document.text ≤ p.worklist.count name

/-- Every `$` of the document begins a call. -/
theorem Stands.allCalled (h : ev.Stands source state c q results p)
    (hp : ev.Reached source state p) : AllCalled ev.registry.names p.document.text := by
  obtain ⟨top, hsound⟩ := h.sound
  have hcalled := h.shows.allCalled h.nodup hsound fun i hi => by
    rw [hp.map_fst_stamps] at hi
    obtain ⟨x, hx, -⟩ := hp.exists_stamp hi
    exact ⟨x, hx⟩
  rwa [hp.map_fst_stamps] at hcalled

/-- Where a document is shown by a tree when it is entered, it goes on to be. -/
theorem stands_enter (hnames : Worklist.Callable ev.registry.names) {depth : Nat} {d : Document}
    {places : List (Option Nat)} {s : Session}
    (hp : ev.Reached source state (ev.enter depth d places s)) (hsites : q.sites ⊆ c.sites)
    (hnodup : q.labels.Nodup) {top : Bool} (hsound : q.Sound ev.registry.names top)
    (hshows : q.Shows results (ev.enter depth d places s).stamps)
    (hreturned : ∀ x r, results x = some r → ev.Returns source state x r) :
    ev.Stands source state c q results (ev.enter depth d places s) := by
  have hcalled : AllCalled ev.registry.names d.text := by
    have := hshows.allCalled hnodup hsound fun i hi => by
      rw [hp.map_fst_stamps] at hi
      obtain ⟨x, hx, -⟩ := hp.exists_stamp hi
      exact ⟨x, hx⟩
    rwa [hp.map_fst_stamps] at this
  -- the worklist is that of a text of calls, so its entries are names that stand there
  refine ⟨hsites, hnodup, ⟨top, hsound⟩, hshows, hreturned, fun name hname => ?_,
    fun name hname => ?_⟩
  · exact hcalled.mem_names_of_mem_ofText hnames hname
  · exact (hcalled.count_ofText hnames hname).ge

/-- No name waits for a block. -/
theorem Stands.isPending (hnames : Worklist.Callable ev.registry.names)
    (h : ev.Stands source state c q results p) (hp : ev.Reached source state p)
    (hname : name ∈ p.worklist) : isPending p.document name = false := by
  have hcontrol := hnames.not_control name (h.listed name hname)
  rw [Evaluator.isPending, hcontrol, Bool.false_or]
  cases p.document.findName? name 0 with
  | none => rfl
  | some i => exact Block.isInside_eq_false ((h.allCalled hp).not_standsAt hnames) i

/-! ### The call that is next -/

/-- A call of the tree that is shown at a position of the document, and what stands behind it. -/
structure CallAt (q : Content) (results : Nat → Option Text) (p : Point) (span : Span)
    (site : Site) (rest : List Stamp) : Prop where
  mem : site ∈ q.sites
  place : p.places[span.start]? = some (some site.place)
  missing : results site.place = none
  stamps_eq : p.stamps.drop span.start = ('$', some site.place) :: (plain site.stem ++
    ('[', none) :: (site.inner.shown results ++ (']', none) :: rest))
  stop_eq : span.stop =
    span.start + 1 + site.stem.length + 1 + (site.inner.shown results).length + 1
  exchange : ∀ result, q.Shows (Function.update results site.place (some result))
    (p.stamps.take span.start ++ (plain (Text.escape result) ++ rest))

/-- The slots of a call that is shown. -/
def slotsAt (p : Point) (results : Nat → Option Text) (span : Span) (site : Site) :
    List (Option Span) :=
  Bracket.slots p.document.text ⟨span.start + 1 + site.stem.length + 1,
    span.start + 1 + site.stem.length + 1 + (site.inner.shown results).length⟩

/-- A `$` of the document is that of a call of the tree. -/
theorem Stands.exists_callAt (h : ev.Stands source state c q results p)
    (hp : ev.Reached source state p) {i : Nat} (hi : p.document.text[i]? = some '$') :
    ∃ span site rest, span.start = i ∧ CallAt q results p span site rest := by
  obtain ⟨x, hx, hplace⟩ := hp.exists_stamp hi
  obtain ⟨hlt, hget⟩ := List.getElem?_eq_some_iff.1 hx
  have hdrop : p.stamps.drop i = ('$', some x) :: p.stamps.drop (i + 1) := by
    rw [← hget]
    exact List.drop_eq_getElem_cons hlt
  have hshows := h.shows
  rw [← List.take_append_drop i p.stamps, hdrop] at hshows
  obtain ⟨site, hsite, rest, rfl, hmissing, hbehind, hexchange⟩ := hshows.exists_site h.nodup
  exact ⟨⟨i, i + 1 + site.stem.length + 1 + (site.inner.shown results).length + 1⟩, site, rest, rfl,
    hsite, hplace, hmissing, by rw [hdrop, hbehind], rfl, hexchange⟩

/-- Behind the bracket that opens the list stands what is inside. -/
theorem CallAt.drop_inner {span : Span} {site : Site} {rest : List Stamp}
    (h : CallAt q results p span site rest) :
    p.stamps.drop (span.start + 1 + site.stem.length + 1) =
      site.inner.shown results ++ (']', none) :: rest := by
  have hstem : p.stamps.drop (span.start + 1) = plain site.stem ++
      ('[', none) :: (site.inner.shown results ++ (']', none) :: rest) := by
    rw [← List.drop_drop, h.stamps_eq]
    rfl
  have hopen : p.stamps.drop (span.start + 1 + site.stem.length) =
      ('[', none) :: (site.inner.shown results ++ (']', none) :: rest) := by
    rw [← List.drop_drop, hstem, ← length_plain site.stem, List.drop_left]
  rw [← List.drop_drop, hopen]
  rfl

/-- Behind the call stands the rest. -/
theorem CallAt.drop_stop {span : Span} {site : Site} {rest : List Stamp}
    (h : CallAt q results p span site rest) : p.stamps.drop span.stop = rest := by
  rw [h.stop_eq, ← List.drop_drop, ← List.drop_drop, h.drop_inner, List.drop_left]
  rfl

/-- A `$` that is shown is that of the call, or it stands inside of the call or outside. -/
theorem CallAt.mem_stamps_iff {span : Span} {site : Site} {rest : List Stamp}
    (h : CallAt q results p span site rest) {x : Nat} :
    ('$', some x) ∈ p.stamps ↔ x = site.place ∨ ('$', some x) ∈ site.inner.shown results ∨
      ('$', some x) ∈ p.stamps.take span.start ∨ ('$', some x) ∈ rest := by
  conv_lhs => rw [← List.take_append_drop span.start p.stamps, h.stamps_eq]
  simp only [List.mem_append, List.mem_cons, not_mem_plain, Prod.mk.injEq, Option.some.injEq,
    reduceCtorEq, true_and, and_false, false_or]
  tauto

/-- Outside of the call nothing is shown of what stands inside of it in the tree. -/
theorem CallAt.not_mem_outside {span : Span} {site : Site} {rest : List Stamp}
    (h : CallAt q results p span site rest) (hnodup : q.labels.Nodup) {x : Nat}
    (hx : x ∈ site.inner.labels) :
    ('$', some x) ∉ p.stamps.take span.start ∧ ('$', some x) ∉ rest := by
  have hnone := not_mem_shown_of_inner (Function.update results site.place (some []))
    hnodup h.mem (by rw [Function.update_self]; exact nofun) hx
  rw [(h.exchange []).mem_iff, List.mem_append, List.mem_append, not_or, not_or] at hnone
  exact ⟨hnone.1, hnone.2.2⟩

/-- The same of the characters. -/
theorem CallAt.text_drop (hp : ev.Reached source state p) {span : Span} {site : Site}
    {rest : List Stamp} (h : CallAt q results p span site rest) :
    p.document.text.drop span.start = '$' :: (site.stem ++
      '[' :: ((site.inner.shown results).map Prod.fst ++ ']' :: rest.map Prod.fst)) := by
  rw [← hp.map_fst_stamps, ← List.map_drop, h.stamps_eq]
  simp

/-- A name that starts where a call is shown is the one that is written there. -/
theorem CallAt.sameFolded (hnames : Worklist.Callable ev.registry.names)
    (hstands : ev.Stands source state c q results p) (hp : ev.Reached source state p) {span : Span}
    {site : Site} {rest : List Stamp} (h : CallAt q results p span site rest)
    (hname : name ∈ ev.registry.names) (hat : p.document.NameAt name span.start) :
    Text.sameFolded name ('$' :: site.stem) = true := by
  obtain ⟨top, hsound⟩ := hstands.sound
  obtain ⟨⟨entry, hentry, hsame⟩, -⟩ := hsound.of_mem_sites h.mem
  have hstarts := hat.startsBy
  rw [h.text_drop hp] at hstarts
  obtain rfl := hnames.prefixFree.unique hname hentry hstarts
    (startsFolded_call hsame _)
  exact hsame

/-- A name that starts where a call is shown is called there. -/
theorem CallAt.ofPosition (hnames : Worklist.Callable ev.registry.names)
    (hstands : ev.Stands source state c q results p) (hp : ev.Reached source state p) {span : Span}
    {site : Site} {rest : List Stamp} (h : CallAt q results p span site rest)
    (hname : name ∈ ev.registry.names) (hat : p.document.NameAt name span.start) :
    CallSite.ofPosition p.document.text name span.start =
      .call span (slotsAt p results span site) := by
  obtain ⟨top, hsound⟩ := hstands.sound
  obtain ⟨hwritten, hinner⟩ := hsound.of_mem_sites h.mem
  have hletters : ∀ c ∈ site.stem, c.isAlpha = true :=
    fun c hc => isAlpha_of_mem_stem hnames.letters hwritten hc
  have htext := h.text_drop hp
  have hlen : name.length = site.stem.length + 1 := by
    have hsame := Text.sameFolded_iff.1 (h.sameFolded hnames hstands hp hname hat)
    simpa [Text.lowerAscii] using congrArg List.length hsame
  have hstart : p.document.text[span.start]? = some '$' := by
    rw [← Nat.add_zero span.start, ← List.getElem?_drop, htext]
    rfl
  -- no call begins right before it
  have hescaped : (0 < span.start && p.document.text[span.start - 1]? == some '$') = false := by
    rw [Bool.and_eq_false_iff, decide_eq_false_iff_not, beq_eq_false_iff_ne]
    by_cases hpos : 0 < span.start
    · refine .inr fun hdollar => ?_
      obtain ⟨entry, hentry, stem, more, heq, hsame⟩ := hstands.allCalled hp _ hdollar
      have hnext : ('$' :: (stem ++ '[' :: more))[1]? = some '$' := by
        rw [← heq, List.getElem?_drop, Nat.sub_add_cancel hpos, hstart]
      rw [List.getElem?_cons_succ] at hnext
      cases stem with
      | nil => cases hnext
      | cons c stem =>
        obtain rfl : c = '$' := by simpa using hnext
        have := isAlpha_of_mem_stem hnames.letters ⟨entry, hentry, hsame⟩ List.mem_cons_self
        cases this
    · exact .inl hpos
  have hopening := CallSite.listOpening?_call (n := span.start + name.length) htext hletters
    (by omega) (by omega)
  have hclosing := (hinner.balanced hnames.letters results).closing?_call htext
  rw [CallSite.ofPosition, hescaped, if_neg Bool.false_ne_true, hopening]
  simp only
  rw [hclosing]
  have hstop := h.stop_eq
  simp only [List.length_map, slotsAt]
  congr 1
  cases span
  simp only at hstop ⊢
  rw [hstop]

/-! ### What is next -/

/-- Every name of the registry is found in it. -/
theorem exists_get? (hname : name ∈ ev.registry.names) : ∃ f, ev.registry.get? name = some f := by
  obtain ⟨f, hf, rfl⟩ := List.mem_map.1 hname
  rw [← Option.isSome_iff_exists, Registry.get?, Registry.find?, FunctionName.ofText_text,
    List.find?_isSome]
  exact ⟨f, hf, beq_self_eq_true _⟩

/-- A name that is next is called where it first stands, or it does not stand anywhere. -/
theorem Stands.orderFor (hnames : Worklist.Callable ev.registry.names)
    (h : ev.Stands source state c q results p) (hp : ev.Reached source state p)
    (hname : name ∈ p.worklist) :
    (ev.orderFor p.document name = .leave ∧ Text.occurrences name p.document.text = 0) ∨
      ∃ f span site rest, ev.orderFor p.document name = .call f span (slotsAt p results span site) ∧
        p.document.NameAt name span.start ∧ CallAt q results p span site rest := by
  have hlisted := hp.listed name hname
  have hhead := head?_of_mem_names hlisted
  cases hfind : p.document.findName? name 0 with
  | none =>
    have horder : ev.orderFor p.document name = .leave := by
      rw [Evaluator.orderFor, CallSite.find, hfind]
    refine .inl ⟨horder, ?_⟩
    by_contra hne
    obtain ⟨i, hi, hstarts⟩ := Text.exists_of_occurrences_pos (Nat.pos_of_ne_zero hne)
    obtain ⟨j, hj⟩ := (hp.nameAt hhead hstarts).exists_findName? hi.le
    rw [hfind] at hj
    cases hj
  -- the name is found, so the call that stands there is one of the tree
  | some start =>
    obtain ⟨-, -, hat, -⟩ := Document.findName?_eq_some_iff.1 hfind
    have hdollar := Text.getElem?_of_startsFolded hhead hat.startsBy
    obtain ⟨span, site, rest, rfl, hcallAt⟩ := h.exists_callAt hp hdollar
    obtain ⟨f, hf⟩ := exists_get? (h.listed name hname)
    refine .inr ⟨f, span, site, rest, ?_, hat, hcallAt⟩
    have hposition := hcallAt.ofPosition hnames h hp (h.listed name hname) hat
    rw [Evaluator.orderFor, CallSite.find, hfind]
    simp only [hposition, hf]

/-- No block is next. -/
theorem Stands.not_resolves (hnames : Worklist.Callable ev.registry.names)
    (h : ev.Stands source state c q results p) (hp : ev.Reached source state p) {b : Block}
    (hb : ev.Resolves p b) : False := by
  obtain ⟨name, hnext, hpending, -⟩ := hb
  rw [h.isPending hnames hp (List.mem_of_mem_head? hnext.2)] at hpending
  cases hpending

/-- The call that is next is a call of the tree. -/
theorem Stands.callAt (hnames : Worklist.Callable ev.registry.names)
    (h : ev.Stands source state c q results p) (hp : ev.Reached source state p) {f : Function}
    {span : Span} {slots : List (Option Span)} (hcalls : ev.Calls p f span slots) :
    ∃ name site rest, p.worklist = name :: p.worklist.tail ∧ p.document.NameAt name span.start ∧
      slots = slotsAt p results span site ∧ CallAt q results p span site rest := by
  obtain ⟨name, hnext, -, horder⟩ := hcalls
  rcases h.orderFor hnames hp (List.mem_of_mem_head? hnext.2) with
    ⟨hleave, -⟩ | ⟨f', span', site, rest, horder', hat, hcallAt⟩
  · rw [hleave] at horder
    cases horder
  · rw [horder'] at horder
    cases horder
    exact ⟨name, site, rest, worklist_of_next hnext, hat, rfl, hcallAt⟩

/-- The function that is called is the one that is written there. -/
theorem CallAt.sameFolded_function (hnames : Worklist.Callable ev.registry.names)
    (hstands : ev.Stands source state c q results p) (hp : ev.Reached source state p) {f : Function}
    {span : Span} {slots : List (Option Span)} (hcalls : ev.Calls p f span slots) {site : Site}
    {rest : List Stamp} (h : CallAt q results p span site rest) :
    Text.sameFolded f.name.text ('$' :: site.stem) = true := by
  obtain ⟨name, hnext, -, horder⟩ := hcalls
  have hmem := hnext.mem_names hp.listed
  obtain ⟨hcovers, hget⟩ := orderFor_eq_call (head?_of_mem_names hmem) horder
  have hlisted := hstands.listed name (List.mem_of_mem_head? hnext.2)
  have hsame := Text.sameFolded_iff.1 (h.sameFolded hnames hstands hp hlisted hcovers.name_at)
  obtain ⟨stem, rfl⟩ := List.head?_eq_some_iff.1 (head?_of_mem_names hmem)
  -- the registry compares names without regard to case
  have hkey : f.name.key = (FunctionName.ofText ('$' :: stem)).key := by
    rw [Registry.get?, Registry.find?] at hget
    simpa using List.find?_some hget
  rw [Text.sameFolded_iff, ← hsame]
  exact congrArg ('$'.toLower :: ·) hkey

/-! ### Moves -/

/-- A name that does not stand anywhere can be left out. -/
theorem Stands.leave (hnames : Worklist.Callable ev.registry.names)
    (h : ev.Stands source state c q results p) (hp : ev.Reached source state p)
    (hnext : ev.Next p name) (horder : ev.orderFor p.document name = .leave) :
    ev.Stands source state c q results { p with worklist := p.worklist.tail } where
  sites_subset := h.sites_subset
  nodup := h.nodup
  sound := h.sound
  shows := h.shows
  returned := h.returned
  listed other hother := h.listed other (List.mem_of_mem_tail hother)
  covered other hother := by
    have hlist := worklist_of_next hnext
    have hcount := h.covered other hother
    rw [hlist, List.count_cons] at hcount
    split at hcount
    -- the name stands nowhere, so it need not be listed
    · next heq =>
      obtain rfl : name = other := beq_iff_eq.1 heq
      rcases h.orderFor hnames hp (List.mem_of_mem_head? hnext.2) with ⟨-, hzero⟩ | hcall
      · exact hzero.le.trans (Nat.zero_le _)
      · obtain ⟨_, _, _, _, hcall, -⟩ := hcall
        rw [horder] at hcall
        cases hcall
    · exact hcount

/-- A result that takes the place of its call is shown by the tree. -/
theorem Stands.call (hnames : Worklist.Callable ev.registry.names)
    (h : ev.Stands source state c q results p) (hp : ev.Reached source state p) {f : Function}
    {span : Span} {slots : List (Option Span)} (hcalls : ev.Calls p f span slots) {result : Text}
    {s : Session} (hresult : ev.callResult (ev.resolveAt (p.depth + 1)) p.document f slots
      p.session = (.ok result, s)) {site : Site} {rest : List Stamp}
    (hcallAt : CallAt q results p span site rest) :
    ev.Stands source state c q (Function.update results site.place (some result))
      (afterCall p span result s) := by
  have hstamps : (afterCall p span result s).stamps =
      p.stamps.take span.start ++ (plain (Text.escape result) ++ rest) := by
    rw [stamps_afterCall hp, Span.graft, hcallAt.drop_stop, List.append_assoc]
  have hreached : ev.Reached source state (afterCall p span result s) :=
    Relation.ReflTransGen.tail hp (.call hcalls hresult)
  refine ⟨h.sites_subset, h.nodup, h.sound, ?_, fun x r hxr => ?_,
    fun other hother => h.listed other (List.mem_of_mem_tail hother), fun other hother => ?_⟩
  · rw [hstamps]
    exact hcallAt.exchange result
  · by_cases hx : x = site.place
    · subst hx
      rw [Function.update_self] at hxr
      cases hxr
      exact ⟨p, f, span, slots, s, hp, hcalls, hcallAt.place, hresult⟩
    · rw [Function.update_of_ne hx] at hxr
      exact h.returned x r hxr
  · obtain ⟨name, -, -, hlist, hat, -, -⟩ := h.callAt hnames hp hcalls
    have hcount := h.covered other hother
    -- the text before and after the call, around it
    have hbefore : p.document.text = (p.stamps.take span.start).map Prod.fst ++ '$' ::
        ((plain site.stem ++ ('[', none) :: (site.inner.shown results ++ [(']', none)])).map Prod.fst
          ++ rest.map Prod.fst) := by
      rw [← hp.map_fst_stamps]
      conv_lhs => rw [← List.take_append_drop span.start p.stamps, hcallAt.stamps_eq]
      simp
    have hafter : (afterCall p span result s).document.text =
        (p.stamps.take span.start).map Prod.fst ++ (Text.escape result ++ rest.map Prod.fst) := by
      rw [← hreached.map_fst_stamps, hstamps]
      simp
    have hstarts : Text.startsFolded name (p.document.text.drop span.start) = true := hat.startsBy
    have hlen : ((p.stamps.take span.start).map Prod.fst).length = span.start := by
      have hlt := congrArg List.length hcallAt.stamps_eq
      rw [List.length_drop, List.length_cons] at hlt
      rw [List.length_map, List.length_take]
      omega
    have hdollar : '$' ∉ Text.escape result := fun hmem => by
      have hplain := Text.isMarker_of_mem_escape hmem
      cases hplain
    have hcalled := h.allCalled hp
    rw [hbefore] at hcalled
    rw [hbefore, List.drop_left' hlen] at hstarts
    rw [hlist, hbefore] at hcount
    rw [hafter]
    exact (hcalled.steady hnames.letters).occurrences_le_count hstarts hdollar hother
      (head?_of_mem_names (List.mem_append_left _ hother)) hcount

/-- The slots of the call that is next are those of the pieces of its tree. -/
theorem CallAt.exists_slots (hnames : Worklist.Callable ev.registry.names)
    (h : ev.Stands source state c q results p) (hp : ev.Reached source state p) {span : Span}
    {site : Site} {rest : List Stamp} (hcallAt : CallAt q results p span site rest) :
    ∃ parts : List (Content × Option Span),
      parts.map Prod.snd = slotsAt p results span site ∧
      parts.map Prod.fst = dropLastIf (isBlankIn results) site.inner.pieces ∧
      ∀ part ∈ parts, part.1.ShowsSlot results p.stamps part.2 := by
  obtain ⟨top, hsound⟩ := h.sound
  have hinner := (hsound.of_mem_sites hcallAt.mem).2
  have hle : span.start + 1 + site.stem.length + 1 ≤ p.stamps.length := by
    have hlen := congrArg List.length hcallAt.drop_inner
    rw [List.length_drop, List.length_append, List.length_cons] at hlen
    omega
  have hslots := Content.exists_slots hinner hnames.letters hcallAt.drop_inner hle
  rwa [hp.map_fst_stamps] at hslots

/-- An argument is shown by a piece of the tree of its call. -/
theorem Stands.argument (hnames : Worklist.Callable ev.registry.names)
    (h : ev.Stands source state c q results p) {piece : Content} {slot : Span} {s : Session}
    {site : Site} (hsite : site ∈ q.sites) (hpiece : piece ∈ site.inner.pieces)
    (hshows : piece.Shows results (slot.cut p.stamps))
    (hreached : ev.Reached source state (ev.enterPart p slot s)) :
    ev.Stands source state c piece results (ev.enterPart p slot s) := by
  obtain ⟨top, hsound⟩ := h.sound
  have hinner := (hsound.of_mem_sites hsite).2
  refine stands_enter hnames hreached ?_ ?_ (sound_solid_of_mem_pieces hinner hpiece).1 ?_ h.returned
  · exact List.Subset.trans (sites_piece_subset hpiece)
      (List.Subset.trans (sites_inner_subset hsite) h.sites_subset)
  · exact ((labels_piece_sublist hpiece).trans
      ((List.sublist_cons_self _ _).trans (labels_site_sublist hsite))).nodup h.nodup
  · rwa [← stamps_enterPart slot s] at hshows

/-- Every move leads to a point whose document is shown by the tree or by a slot of one of its
calls. -/
theorem Stands.move (hnames : Worklist.Callable ev.registry.names)
    (h : ev.Stands source state c q results p) (hp : ev.Reached source state p) {r : Point}
    (move : ev.Move p r) :
    ∃ q' results', ev.Stands source state c q' results' r ∧
      ((r.depth = p.depth + 1 ∧
          ∃ site ∈ q.sites, q' ∈ dropLastIf (isBlankIn results) site.inner.pieces) ∨
        r.depth = p.depth ∧ q' = q) := by
  have hr : ev.Reached source state r := Relation.ReflTransGen.tail hp move
  cases move with
  | leave next free order => exact ⟨q, results, h.leave hnames hp next order, .inr ⟨rfl, rfl⟩⟩
  -- a call is replaced with its result, which the tree shows from then on
  | call calls returns =>
    obtain ⟨-, site, rest, -, -, -, hcallAt⟩ := h.callAt hnames hp calls
    exact ⟨q, _, h.call hnames hp calls returns hcallAt, .inr ⟨rfl, rfl⟩⟩
  -- an argument is a piece of what is inside the call
  | @argument f span slot slots done more args s calls within slots_eq earlier marked =>
    obtain ⟨-, site, rest, -, -, hslots, hcallAt⟩ := h.callAt hnames hp calls
    obtain ⟨parts, hslotsAt, hpieces, hparts⟩ := hcallAt.exists_slots hnames h hp
    have hmem : some slot ∈ slots := by
      rw [slots_eq]
      simp
    rw [hslots, ← hslotsAt] at hmem
    obtain ⟨part, hpart, hslot⟩ := List.mem_map.1 hmem
    have hkept : part.1 ∈ dropLastIf (isBlankIn results) site.inner.pieces :=
      hpieces ▸ List.mem_map_of_mem hpart
    refine ⟨part.1, results, ?_, .inl ⟨rfl, site, hcallAt.mem, hkept⟩⟩
    exact h.argument hnames hcallAt.mem (mem_of_mem_dropLastIf hkept)
      ((hparts part hpart).shows slot hslot) hr
  | block resolves => exact (h.not_resolves hnames hp resolves).elim
  | condition resolves => exact (h.not_resolves hnames hp resolves).elim

/-- Wherever moves lead the document is shown by a part of the tree. At the same depth it is the
same part. -/
theorem Leads.stands (hnames : Worklist.Callable ev.registry.names) {r : Point}
    (hleads : ev.Leads p r) (hp : ev.Reached source state p)
    (h : ev.Stands source state c q results p) :
    ∃ q' results', ev.Stands source state c q' results' r ∧
      (p.depth < r.depth ∨ r.depth = p.depth ∧ q' = q) := by
  induction hleads with
  | refl => exact ⟨q, results, h, .inr ⟨rfl, rfl⟩⟩
  | @tail u r hpu move ih =>
    obtain ⟨q₁, results₁, hu, hdepth₁⟩ := ih
    obtain ⟨q₂, results₂, hr, hdepth₂⟩ := hu.move hnames (hp.trans hpu) move
    refine ⟨q₂, results₂, hr, ?_⟩
    rcases hdepth₂ with ⟨hdeep, -⟩ | ⟨hsame, rfl⟩
    · rcases hdepth₁ with hlt | ⟨heq, -⟩ <;> omega
    · rwa [hsame]

/-- The whole tree is shown at the start. -/
theorem stands_start (hnames : Worklist.Callable ev.registry.names) {top : Bool}
    (hsound : c.Sound ev.registry.names top) (hwrites : c.Writes source) :
    ev.Stands source state c c (fun _ => none) (ev.start source state) := by
  refine stands_enter hnames .refl (List.Subset.refl _) hwrites.nodup_labels hsound ?_ nofun
  have hstamps : (ev.start source state).stamps = c.shown fun _ => none := by
    rw [hwrites, Point.stamps, start, enter, Document.text_source]
  rw [start] at hstamps
  rw [hstamps]
  exact c.shows_shown _

/-- So every point of a run is shown by a part of the tree. -/
theorem Reached.stands (hnames : Worklist.Callable ev.registry.names) {top : Bool}
    (hsound : c.Sound ev.registry.names top) (hwrites : c.Writes source)
    (hp : ev.Reached source state p) :
    ∃ q results, ev.Stands source state c q results p := by
  obtain ⟨q, results, hstands, -⟩ :=
    Leads.stands hnames hp .refl (stands_start hnames hsound hwrites)
  exact ⟨q, results, hstands⟩

/-! ### How deep a run goes, and what ends it -/

/-- Where the worklist is done no `$` is left. -/
theorem Stands.not_mem_of_settled (h : ev.Stands source state c q results p)
    (hp : ev.Reached source state p) (hdone : p.worklist = []) : '$' ∉ p.document.text := by
  intro hmem
  obtain ⟨i, hi⟩ := List.mem_iff_getElem?.1 hmem
  obtain ⟨name, hname, stem, rest, heq, hsame⟩ := h.allCalled hp i hi
  have hstarts : Text.startsFolded name (p.document.text.drop i) = true := by
    rw [heq]
    exact startsFolded_call hsame _
  have hpos := Text.occurrences_pos (List.getElem?_eq_some_iff.1 hi).1 hstarts
  have hcount := h.covered name hname
  rw [hdone, List.count_nil] at hcount
  omega

/-- A run goes no deeper than arguments nest. -/
theorem Reached.depth_le_of_nests (hnames : Worklist.Callable ev.registry.names) {top : Bool}
    (hsound : c.Sound ev.registry.names top) (hwrites : c.Writes source) {n : Nat}
    (hnests : c.Nests n) (hp : ev.Reached source state p) : p.depth ≤ n := by
  -- what is left of the nesting at a point is what the part of the tree there has
  suffices h : ∃ q results m, ev.Stands source state c q results p ∧ p.depth + m = n ∧ q.Nests m by
    obtain ⟨-, -, m, -, hdepth, -⟩ := h
    omega
  induction hp with
  | refl => exact ⟨c, _, n, stands_start hnames hsound hwrites, Nat.zero_add n, hnests⟩
  | @tail u p hu move ih =>
    obtain ⟨q, results, m, hstands, hdepth, hq⟩ := ih
    obtain ⟨q', results', hstands', hpart | ⟨hsame, rfl⟩⟩ := hstands.move hnames hu move
    · obtain ⟨hdeeper, site, hsite, hpiece⟩ := hpart
      cases m with
      | zero =>
        rw [hq site hsite] at hpiece
        cases hpiece
      | succ m =>
        refine ⟨q', results', m, hstands', by omega, (hq site hsite).mono ?_⟩
        exact sites_piece_subset (mem_of_mem_dropLastIf hpiece)
    · exact ⟨q', results', m, hstands', by omega, hq⟩

/-- Within the limits nothing ends a run but a function that fails. -/
theorem Stands.of_stops (hnames : Worklist.Callable ev.registry.names)
    (h : ev.Stands source state c q results p) (hp : ev.Reached source state p)
    (hdepth : p.depth ≤ ev.limits.depth)
    (hwork : Text.markers '$' source ≤ ev.limits.invocations) {e : EvalError} {s : Session}
    (hstop : ev.Stops p e s) :
    ∃ f span slots args s' message, ev.Calls p f span slots ∧
      p.session.work + 1 ≤ ev.limits.invocations ∧
      arguments (ev.resolveAt (p.depth + 1)) p.document slots p.session.counted =
        (.ok args, s') ∧
      ev.callFunction f args s' = (.error (.failure f.name.text message), s) := by
  -- every call has a unit of work left, since there is a `$` for it
  have hwithin : ∀ {f span slots}, ev.Calls p f span slots →
      p.session.work + 1 ≤ ev.limits.invocations := by
    intro f span slots hcalls
    have hpos := markers_pos hp.listed (.inl ⟨f, span, slots, hcalls⟩)
    have := hp.work_le
    omega
  cases hstop with
  | tooDeep deep => omega
  | structural next pending malformed =>
    rw [h.isPending hnames hp (List.mem_of_mem_head? next.2)] at pending
    cases pending
  | usage next free order =>
    rcases h.orderFor hnames hp (List.mem_of_mem_head? next.2) with
      ⟨hleave, -⟩ | ⟨f', span, site, rest, hcall, -⟩
    · rw [hleave] at order
      cases order
    · rw [hcall] at order
      cases order
  | tooManyInvocations next exhausted =>
    rcases next with ⟨f, span, slots, hcalls⟩ | ⟨b, hb⟩
    · have := hwithin hcalls
      omega
    · exact (h.not_resolves hnames hp hb).elim
  | failure calls resolved fails =>
    exact ⟨_, _, _, _, _, _, calls, hwithin calls, resolved, fails⟩

end Evaluator

end Stencil
