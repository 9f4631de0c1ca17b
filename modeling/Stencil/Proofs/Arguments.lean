import Mathlib.Data.List.Pairwise
import Stencil.Proofs.Order
import Stencil.Proofs.Unescape
/-!
# The arguments of a call

A call receives one argument for each piece of its argument list. A piece with text in it gives its
text with every call in it replaced by what the call returned, whether these calls were replaced
before the list was cut into slots or resolved inside of their slot afterwards (`argument_eq`). Where
they were replaced before and left nothing but blanks, the slot counts as empty all the same, though
its piece is not (`empty_result_is_absent`).
-/

namespace Stencil

namespace Content

variable {q piece : Content} {results : Nat → Option Text} {returned : Nat → Text} {x : Nat}

/-! ### Text with results in it -/

/-- What a tree is made of: characters of the text, and calls by their places. -/
def tokens : Content → List (Char ⊕ Nat)
  | empty => []
  | char c rest => .inl c :: rest.tokens
  | group inner rest => .inl '[' :: (inner.tokens ++ .inl ']' :: rest.tokens)
  | call place _ _ rest => .inr place :: rest.tokens

/-- What stands in a document for a character of the text or for a call that has returned. -/
def written (returned : Nat → Text) : Char ⊕ Nat → Text
  | .inl c => [c]
  | .inr x => Text.escape (returned x)

theorem fill_eq_flatMap_written (q : Content) (returned : Nat → Text) :
    q.fill returned = q.tokens.flatMap (written returned) := by
  induction q with
  | empty => rfl
  | char c rest ih =>
    rw [fill, ih]
    rfl
  | group inner rest ihInner ihRest =>
    rw [fill, ihInner, ihRest, tokens, List.flatMap_cons, List.flatMap_append, List.flatMap_cons]
    rfl
  | call place stem inner rest _ ihRest =>
    rw [fill, ihRest]
    rfl

/-- The text between calls is read, and results are taken as they are. `run` is the text since the
last call. -/
def readFrom (returned : Nat → Text) (run : Text) : List (Char ⊕ Nat) → Text
  | [] => Text.unescape run
  | .inl c :: tokens => readFrom returned (run ++ [c]) tokens
  | .inr x :: tokens => Text.unescape run ++ (returned x ++ readFrom returned [] tokens)

/-- The text of a tree with each call replaced by the value that it returned. -/
def read (returned : Nat → Text) (q : Content) : Text := readFrom returned [] q.tokens

/-- No text between calls ends within a code where a call begins. -/
def UnbrokenFrom (run : Text) : List (Char ⊕ Nat) → Prop
  | [] => True
  | .inl c :: tokens => UnbrokenFrom (run ++ [c]) tokens
  | .inr _ :: tokens => Text.endsInCode run = false ∧ UnbrokenFrom [] tokens

def decideUnbrokenFrom : (run : Text) → (tokens : List (Char ⊕ Nat)) →
    Decidable (UnbrokenFrom run tokens)
  | _, [] => .isTrue trivial
  | run, .inl c :: tokens => decideUnbrokenFrom (run ++ [c]) tokens
  | run, .inr _ :: tokens =>
    have := decideUnbrokenFrom [] tokens
    inferInstanceAs (Decidable (Text.endsInCode run = false ∧ UnbrokenFrom [] tokens))

def Unbroken (q : Content) : Prop := UnbrokenFrom [] q.tokens

instance (q : Content) : Decidable q.Unbroken := decideUnbrokenFrom [] q.tokens

theorem unescape_flatMap_written {tokens : List (Char ⊕ Nat)} {run : Text}
    (h : UnbrokenFrom run tokens) :
    Text.unescape (run ++ tokens.flatMap (written returned)) = readFrom returned run tokens := by
  induction tokens generalizing run with
  | nil => rw [List.flatMap_nil, List.append_nil, readFrom]
  | cons token tokens ih =>
    cases token with
    | inl c =>
      rw [List.flatMap_cons, ← List.append_assoc]
      exact ih h
    | inr x =>
      obtain ⟨hrun, hrest⟩ := h
      have hread := ih hrest
      rw [List.nil_append] at hread
      rw [List.flatMap_cons, Text.unescape_append hrun, written, Text.unescape_escape_append, hread,
        readFrom]

/-- Where no code is broken by a call the results can be escaped and read with the text. -/
theorem Unbroken.unescape_fill (h : q.Unbroken) (returned : Nat → Text) :
    Text.unescape (q.fill returned) = q.read returned := by
  rw [fill_eq_flatMap_written]
  exact unescape_flatMap_written h

/-! ### Blank pieces -/

/-- The text of the tree has but blanks. -/
def isBlank (q : Content) : Bool := q.isBlankIn fun _ => none

/-- Without calls all results show the same. -/
theorem shown_eq_of_labels_eq_nil (h : q.labels = []) (results results' : Nat → Option Text) :
    q.shown results = q.shown results' := by
  induction q with
  | empty => rfl
  | char c rest ih => rw [shown, shown, ih h]
  | group inner rest ihInner ihRest =>
    rw [labels_group, List.append_eq_nil_iff] at h
    rw [shown, shown, ihInner h.1, ihRest h.2]
  | call place stem inner rest =>
    rw [labels_call] at h
    cases h

/-- A piece of blanks is blank whatever has returned. -/
theorem isBlankIn_of_isBlank (h : q.isBlank = true) (results : Nat → Option Text) :
    q.isBlankIn results = true := by
  have hlabels : q.labels = [] := List.eq_nil_iff_forall_not_mem.2 fun x hx =>
    not_mem_shown_of_isBlankIn h (mem_shown_of_mem_labels hx)
  rw [isBlankIn, shown_eq_of_labels_eq_nil hlabels results fun _ => none]
  exact h

/-- A piece that shows but blanks has nothing else in it when all calls are replaced. -/
theorem isBlankText_fill_of_isBlankIn (h : q.isBlankIn results = true)
    (hreturned : ∀ y r, results y = some r → returned y = r) :
    Text.isBlankText (q.fill returned) = true := by
  rw [isBlankIn, shown_eq_plain_fill hreturned fun y => not_mem_shown_of_isBlankIn h,
    map_fst_plain] at h
  exact h

/-! ### Argument lists -/

/-- The argument in a slot: nothing if the slot is empty, or else the text of its piece with every
call replaced by its result. -/
def received (isEmpty : Content → Bool) (returned : Nat → Text) (piece : Content) : Arg :=
  if isEmpty piece then none else some (Text.trim (Text.unescape (piece.fill returned)))

/-- The argument of a piece: none if it is blank, or else its text with the results in it. -/
def expected (returned : Nat → Text) (piece : Content) : Arg :=
  if piece.isBlank then none else some (Text.trim (piece.read returned))

/-- Where a slot is empty exactly if its piece is blank, and no call breaks a code, the arguments are
what the pieces and the returned values say. -/
theorem map_received_eq_expected {isEmpty : Content → Bool}
    (hempty : ∀ piece ∈ q.pieces, isEmpty piece = piece.isBlank)
    (hunbroken : ∀ piece ∈ q.pieces, piece.Unbroken) :
    (dropLastIf isEmpty q.pieces).map (received isEmpty returned) =
      (dropLastIf isBlank q.pieces).map (expected returned) := by
  rw [dropLastIf_congr hempty]
  refine List.map_congr_left fun piece hpiece => ?_
  have hpiece := mem_of_mem_dropLastIf hpiece
  rw [received, expected, hempty piece hpiece, (hunbroken piece hpiece).unescape_fill]

/-- Two pieces with a call in common are the same. -/
theorem eq_of_mem_labels {piece' : Content} (hnodup : q.labels.Nodup) (hpiece : piece ∈ q.pieces)
    (hpiece' : piece' ∈ q.pieces) (hx : x ∈ piece.labels) (hx' : x ∈ piece'.labels) :
    piece = piece' := by
  rw [← flatMap_labels_pieces] at hnodup
  have hdisjoint := (List.nodup_flatMap.1 hnodup).2
  have : Std.Symm (Function.onFun List.Disjoint labels) := ⟨fun _ _ h _ hb ha => h ha hb⟩
  by_contra hne
  exact hdisjoint.forall hpiece hpiece' hne hx hx'

end Content

namespace Evaluator

open Content

variable {ev : Evaluator} {source : Text} {state : ExecutionState} {p : Point} {c q : Content}
  {results : Nat → Option Text} {returned : Nat → Text} {x : Nat} {args : List Arg}
  {s s' : Session}

/-- Where nothing is left to do the document is the text of the tree with all results in it. -/
theorem Stands.exists_fill_eq (h : ev.Stands source state c q results p)
    (hp : ev.Reached source state p) (hdone : p.worklist = [])
    (hreturned : ∀ y r, ev.Returns source state y r → returned y = r) :
    ∃ before behind, (∀ c ∈ before, isBlank c = true) ∧ (∀ c ∈ behind, isBlank c = true) ∧
      q.fill returned = before ++ (p.document.text ++ behind) := by
  obtain ⟨before, behind, hbefore, hbehind, hshown⟩ := h.shows
  have hnone : ∀ y, ('$', some y) ∉ q.shown results := by
    intro y hy
    refine h.not_mem_of_settled hp hdone ?_
    rw [← hp.map_fst_stamps]
    exact List.mem_map_of_mem (h.shows.mem_iff.1 hy)
  have hfill := shown_eq_plain_fill (fun y r hy => hreturned y r (h.returned y r hy)) hnone
  refine ⟨before.map Prod.fst, behind.map Prod.fst, ?_, ?_, ?_⟩
  · simpa using fun a b hab => hbefore (a, b) hab
  · simpa using fun a b hab => hbehind (a, b) hab
  · rw [← map_fst_plain (q.fill returned), ← hfill, hshown, List.map_append, List.map_append,
      hp.map_fst_stamps]

/-- Whether all calls of a piece have been replaced in the document, and have left but blanks. -/
def leavesBlank (p : Point) (returned : Nat → Text) (piece : Content) : Bool :=
  Text.isBlankText (piece.fill returned) && piece.labels.all fun y => !p.places.contains (some y)

/-- A call whose place is still there is shown. -/
theorem Stands.mem_shown_iff (h : ev.Stands source state c q results p)
    (hp : ev.Reached source state p) (hwrites : c.Writes source) (hx : x ∈ c.labels) :
    some x ∈ p.places ↔ ('$', some x) ∈ q.shown results := by
  rw [h.shows.mem_iff]
  constructor
  · intro hmem
    obtain ⟨i, hi⟩ := List.mem_iff_getElem?.1 hmem
    obtain ⟨cell, hcell, hget⟩ := hp.tracks.exists_cell hi
    rw [hwrites.mem_labels_iff.1 hx] at hget
    cases hget
    have htext : p.document.text[i]? = some '$' := by
      rw [← Document.map_fst_cells, List.getElem?_map, hcell]
      rfl
    exact List.mem_of_getElem? (getElem?_stamps htext hi)
  · intro hmem
    obtain ⟨i, hi⟩ := List.mem_iff_getElem?.1 hmem
    exact List.mem_of_getElem? (getElem?_of_stamps hi)

/-- The slot of a piece is empty where its calls have been replaced and have left but blanks. -/
theorem Stands.isBlankIn_eq (h : ev.Stands source state c q results p)
    (hp : ev.Reached source state p) (hwrites : c.Writes source)
    (hreturned : ∀ y r, ev.Returns source state y r → returned y = r) {span : Span} {site : Site}
    {rest : List Stamp} (hcallAt : CallAt q results p span site rest) {piece : Content}
    (hpiece : piece ∈ site.inner.pieces) :
    piece.isBlankIn results = leavesBlank p returned piece := by
  obtain ⟨hplace, hinner⟩ := List.nodup_cons.1 ((labels_site_sublist hcallAt.mem).nodup h.nodup)
  have hknown : ∀ y r, results y = some r → returned y = r :=
    fun y r hy => hreturned y r (h.returned y r hy)
  have hshown : ∀ {y}, y ∈ piece.labels →
      (some y ∈ p.places ↔ ('$', some y) ∈ piece.shown results) := by
    intro y hy
    have hyInner := (labels_piece_sublist hpiece).subset hy
    have hyTree : y ∈ c.labels := by
      obtain ⟨site', hsite', rfl⟩ := List.mem_map.1 (labels_inner_subset hcallAt.mem hyInner)
      exact List.mem_map_of_mem (h.sites_subset hsite')
    rw [h.mem_shown_iff hp hwrites hyTree, h.shows.mem_iff, hcallAt.mem_stamps_iff]
    obtain ⟨hbefore, hrest⟩ := hcallAt.not_mem_outside h.nodup hyInner
    constructor
    · rintro (rfl | hy' | hy' | hy')
      · exact absurd hyInner hplace
      · obtain ⟨piece', hpiece', hmem⟩ := mem_shown_iff_pieces.1 hy'
        rwa [eq_of_mem_labels hinner hpiece hpiece' hy (mem_labels_of_mem_shown hmem)]
      · exact absurd hy' hbefore
      · exact absurd hy' hrest
    · exact fun hmem => .inr (.inl (mem_shown_iff_pieces.2 ⟨piece, hpiece, hmem⟩))
  rw [Bool.eq_iff_iff, leavesBlank, Bool.and_eq_true, List.all_eq_true]
  simp only [Bool.not_eq_true', List.contains_eq_mem, decide_eq_false_iff_not]
  constructor
  · exact fun hblank => ⟨isBlankText_fill_of_isBlankIn hblank hknown,
      fun y hy hmem => not_mem_shown_of_isBlankIn hblank ((hshown hy).1 hmem)⟩
  · rintro ⟨hblank, hgone⟩
    have hnone : ∀ y, ('$', some y) ∉ piece.shown results := fun y hmem =>
      have hy := mem_labels_of_mem_shown hmem
      hgone y hy ((hshown hy).2 hmem)
    rw [isBlankIn, shown_eq_plain_fill hknown hnone, map_fst_plain, hblank]

/-- What a slot gives: nothing where it shows but blanks, and otherwise the text of its piece with
all results in it. -/
theorem Stands.argument_eq (hnames : Worklist.Callable ev.registry.names)
    (h : ev.Stands source state c q results p) (hp : ev.Reached source state p)
    (hreturned : ∀ y r, ev.Returns source state y r → returned y = r) {f : Function} {span : Span}
    {slots done more : List (Option Span)} (hcalls : ev.Calls p f span slots)
    (hwithin : p.session.work + 1 ≤ ev.limits.invocations) {site : Site} (hsite : site ∈ q.sites)
    {piece : Content} (hpiece : piece ∈ site.inner.pieces) {slot : Option Span}
    (hslots : slots = done ++ slot :: more) (hshows : piece.ShowsSlot results p.stamps slot)
    (hdone : arguments (ev.resolveAt (p.depth + 1)) p.document done p.session.counted =
      (.ok args, s)) {a : Arg}
    (ha : Evaluator.argument (ev.resolveAt (p.depth + 1)) p.document slot s = (.ok a, s')) :
    a = piece.received (isBlankIn results) returned := by
  rw [received, hshows.blank]
  cases slot with
  | none =>
    cases ha
    rfl
  | some slot =>
    rw [Option.isNone_some, if_neg Bool.false_ne_true]
    rcases argument_some_eq_ok.1 ha with ⟨hmarked, part, hpart, rfl⟩ | ⟨hunmarked, rfl, rfl⟩
    -- the slot is resolved, and its document holds the results
    · have hmove : ev.Move p (ev.enterPart p slot s) :=
        .argument hcalls hwithin hslots hdone hmarked
      have hreached : ev.Reached source state (ev.enterPart p slot s) :=
        Relation.ReflTransGen.tail hp hmove
      have hstands := h.argument (s := s) hnames hsite hpiece (hshows.shows slot rfl) hreached
      obtain ⟨r, hleads, hdepth, hsettled, rfl, -⟩ := exists_settled hreached.listed
        (show ev.outcome (ev.enterPart p slot s) = (.ok part, s') by rw [outcome_enterPart, hpart])
      obtain ⟨q', results', hr, hq'⟩ := hleads.stands hnames hreached hstands
      obtain ⟨-, rfl⟩ := hq'.resolve_left (by omega)
      obtain ⟨before, behind, hbefore, hbehind, hfill⟩ :=
        hr.exists_fill_eq (hreached.trans hleads) hsettled hreturned
      rw [Document.rendered, hfill, Text.unescape_blanks_append hbefore,
        Text.unescape_append_blanks hbehind, Text.trim_blanks hbefore hbehind]
    -- there is nothing left to resolve in it
    · have hknown : ∀ y r, results y = some r → returned y = r :=
        fun y r hy => hreturned y r (h.returned y r hy)
      have hfill : piece.shown results = plain (piece.fill returned) :=
        shown_eq_plain_fill hknown fun y hy =>
          not_mem_cut_of_unmarked hp hunmarked ((hshows.shows slot rfl).mem_iff.1 hy)
      have htext := hshows.trimmed slot rfl
      rw [hfill, map_fst_plain, Span.map_cut, hp.map_fst_stamps,
        ← Document.text_slice_eq_cut] at htext
      rw [htext, Text.unescape_trim]

/-- The call written at a place is next at the point, and these are its arguments. -/
def Receives (ev : Evaluator) (source : Text) (state : ExecutionState) (p : Point) (x : Nat)
    (args : List Arg) : Prop :=
  ev.Reached source state p ∧ ∃ f span slots s, ev.Calls p f span slots ∧
    p.places[span.start]? = some (some x) ∧ p.session.work + 1 ≤ ev.limits.invocations ∧
    arguments (ev.resolveAt (p.depth + 1)) p.document slots p.session.counted = (.ok args, s)

/-- The arguments of the call that is next, slot by slot. -/
theorem Stands.arguments_eq (hnames : Worklist.Callable ev.registry.names)
    (h : ev.Stands source state c q results p) (hp : ev.Reached source state p)
    (hreturned : ∀ y r, ev.Returns source state y r → returned y = r) {f : Function} {span : Span}
    {slots : List (Option Span)} (hcalls : ev.Calls p f span slots)
    (hwithin : p.session.work + 1 ≤ ev.limits.invocations) {site : Site} (hsite : site ∈ q.sites)
    {done more : List (Content × Option Span)} (hslots : slots = (done ++ more).map Prod.snd)
    (hpieces : ∀ part ∈ done, part.1 ∈ site.inner.pieces)
    (hparts : ∀ part ∈ done, part.1.ShowsSlot results p.stamps part.2)
    (hargs : arguments (ev.resolveAt (p.depth + 1)) p.document (done.map Prod.snd)
      p.session.counted = (.ok args, s)) :
    args = (done.map Prod.fst).map (received (isBlankIn results) returned) := by
  induction done using List.reverseRecOn generalizing more args s with
  | nil =>
    cases hargs
    rfl
  | append_singleton done part ih =>
    rw [List.map_append, List.map_singleton, arguments_concat_eq_ok] at hargs
    obtain ⟨before, a, s₁, hbefore, hlast, rfl⟩ := hargs
    have hfirst := ih (show slots = (done ++ part :: more).map Prod.snd by
        rw [hslots, List.append_assoc]; rfl)
      (fun part hpart => hpieces part (List.mem_append_left _ hpart))
      (fun part hpart => hparts part (List.mem_append_left _ hpart)) hbefore
    have hslots' : slots = done.map Prod.snd ++ part.2 :: more.map Prod.snd := by
      rw [hslots]
      simp
    have ha := h.argument_eq hnames hp hreturned hcalls hwithin hsite
      (hpieces part (by simp)) hslots' (hparts part (by simp)) hbefore hlast
    rw [hfirst, ha]
    simp

/-- The arguments of a call, whatever the layout of the source and whatever functions return. There
is one for each piece of the argument list, and none for the last one if its slot is empty: nothing
for an empty slot, and otherwise the trimmed text of the piece with all results in it. A slot is
empty where all calls of its piece were replaced before the list was cut into slots, and have left
but blanks. So where no results leave but blanks of a piece, and no call breaks a code, the arguments
are what the pieces and the returned values say. -/
theorem arguments_are_pieces (hnames : Worklist.Callable ev.registry.names) {top : Bool}
    (hsound : c.Sound ev.registry.names top) (hwrites : c.Writes source)
    (hreturned : ∀ y r, ev.Returns source state y r → returned y = r)
    (h : ev.Receives source state p x args) :
    ∃ site ∈ c.sites, site.place = x ∧
      args = (dropLastIf (leavesBlank p returned) site.inner.pieces).map
        (received (leavesBlank p returned) returned) ∧
      ((∀ piece ∈ site.inner.pieces, leavesBlank p returned piece = true → piece.isBlank = true) →
        (∀ piece ∈ site.inner.pieces, piece.Unbroken) →
        args = (dropLastIf Content.isBlank site.inner.pieces).map (expected returned)) := by
  obtain ⟨hp, f, span, slots, s, hcalls, hx, hwithin, hargs⟩ := h
  obtain ⟨q, results, hstands⟩ := hp.stands hnames hsound hwrites
  obtain ⟨-, site, rest, -, -, hslots, hcallAt⟩ := hstands.callAt hnames hp hcalls
  obtain ⟨parts, hparts, hpieces, hshows⟩ := hcallAt.exists_slots hnames hstands hp
  obtain rfl : x = site.place := by simpa [hx] using hcallAt.place
  have hmem : ∀ part ∈ parts, part.1 ∈ site.inner.pieces :=
    fun part hpart => mem_of_mem_dropLastIf (hpieces ▸ List.mem_map_of_mem hpart)
  have hblank : ∀ piece ∈ site.inner.pieces,
      piece.isBlankIn results = leavesBlank p returned piece :=
    fun piece hpiece => hstands.isBlankIn_eq hp hwrites hreturned hcallAt hpiece
  have heq : args = (dropLastIf (leavesBlank p returned) site.inner.pieces).map
      (received (leavesBlank p returned) returned) := by
    have heq := hstands.arguments_eq hnames hp hreturned hcalls hwithin hcallAt.mem
      (show slots = (parts ++ []).map Prod.snd by rw [List.append_nil, hparts, hslots]) hmem hshows
      (by rw [hparts, ← hslots, hargs])
    rw [heq, hpieces, dropLastIf_congr hblank]
    refine List.map_congr_left fun piece hpiece => ?_
    rw [received, received, hblank piece (mem_of_mem_dropLastIf hpiece)]
  refine ⟨site, hstands.sites_subset hcallAt.mem, rfl, heq, fun hcleared hunbroken => ?_⟩
  rw [heq]
  refine map_received_eq_expected (fun piece hpiece => ?_) hunbroken
  rw [Bool.eq_iff_iff, ← hblank piece hpiece]
  exact ⟨fun h => hcleared piece hpiece (hblank piece hpiece ▸ h),
    fun h => isBlankIn_of_isBlank h results⟩

theorem callable_oneFunction : Worklist.Callable oneFunction.registry.names where
  letters name hname := by
    have hnames : oneFunction.registry.names = [['$', 'f']] := rfl
    rw [hnames, List.mem_singleton] at hname
    exact ⟨['f'], hname, by simp⟩
  prefixFree := by decide
  not_control := by decide

theorem eq_of_returns_oneFunction {r : Text} (h : oneFunction.Returns source state x r) :
    ['x'] = r := by
  obtain ⟨p, f, span, slots, s, hp, ⟨name, hnext, -, horder⟩, -, hresult⟩ := h
  have hget := (orderFor_eq_call (head?_of_mem_names (hnext.mem_names hp.listed)) horder).2
  have hfunctions : oneFunction.registry.functions = [.constant ['f'] ['x']] := rfl
  have hmem := List.mem_of_find?_eq_some hget
  rw [hfunctions, List.mem_singleton] at hmem
  obtain ⟨-, args, s₁, -, hcall⟩ := callResult_eq_ok.1 hresult
  subst hmem
  cases hcall
  rfl

/-- The tree of `$f[a;$f[]; ]`. -/
def threePieces : Content :=
  .call 0 ['f'] (.char 'a' (.char ';' (.call 5 ['f'] .empty (.char ';' (.char ' ' .empty))))) .empty

/-- Two of the three pieces of `$f[a;$f[]; ]` give an argument; the last one is blank. -/
theorem two_of_three_pieces : ∃ p,
    oneFunction.Receives "$f[a;$f[]; ]".toList .initial p 0 [some ['a'], some ['x']] ∧
    ∃ site ∈ threePieces.sites, [some ['a'], some ['x']] =
      (dropLastIf Content.isBlank site.inner.pieces).map (expected fun _ => ['x']) := by
  have hsound : threePieces.Sound oneFunction.registry.names false := by
    have hname : ∃ name ∈ oneFunction.registry.names,
        Text.sameFolded name ['$', 'f'] = true := ⟨['$', 'f'], by decide, by decide⟩
    simp [threePieces, Content.Sound, hname]
  have hwrites : threePieces.Writes "$f[a;$f[]; ]".toList := rfl
  have hreceives : oneFunction.Receives "$f[a;$f[]; ]".toList .initial _ 0
      [some ['a'], some ['x']] :=
    ⟨.refl, _, _, _, _, ⟨['$', 'f'], ⟨by decide, rfl⟩, rfl, rfl⟩, rfl, by decide, rfl⟩
  have hreturned : ∀ y r, oneFunction.Returns "$f[a;$f[]; ]".toList .initial y r →
      (fun _ => ['x'] : Nat → Text) y = r := fun _ _ => eq_of_returns_oneFunction
  obtain ⟨site, hsite, hplace, -, hexpected⟩ :=
    arguments_are_pieces callable_oneFunction hsound hwrites hreturned hreceives
  obtain rfl : site = ⟨0, ['f'], _⟩ := by
    simp only [threePieces, sites, List.append_nil, List.mem_cons,
      List.not_mem_nil, or_false] at hsite
    rcases hsite with rfl | rfl
    · rfl
    · cases hplace
  exact ⟨_, hreceives, _, hsite, hexpected (by decide) (by decide)⟩

/-- The evaluator with a function `$f`, which gives `x`, and a function `$g`, which gives nothing. -/
def silentFunction : Evaluator := withFunctions [.constant ['f'] ['x'], .constant ['g'] []]

/-- The tree of `$f[$g[];b]`. -/
def silentPiece : Content :=
  .call 0 ['f'] (.call 3 ['g'] .empty (.char ';' (.char 'b' .empty))) .empty

/-- The call `$g[]` gives the empty text, and its slot counts as empty; the piece is not blank. -/
theorem empty_result_is_absent :
    silentPiece.Sound silentFunction.registry.names false ∧
    silentPiece.Writes "$f[$g[];b]".toList ∧
    (silentFunction.evaluate "$f[$g[];b]".toList .initial).calls.map (·.args) =
      [[], [none, some ['b']]] ∧
    silentPiece.sites.map (fun site =>
        (dropLastIf Content.isBlank site.inner.pieces).map (expected fun _ => [])) =
      [[some [], some ['b']], []] := by
  refine ⟨?_, rfl, by decide +kernel, by decide +kernel⟩
  have hf : ∃ name ∈ silentFunction.registry.names,
      Text.sameFolded name ['$', 'f'] = true := ⟨['$', 'f'], by decide, by decide⟩
  have hg : ∃ name ∈ silentFunction.registry.names,
      Text.sameFolded name ['$', 'g'] = true := ⟨['$', 'g'], by decide, by decide⟩
  simp [silentPiece, Content.Sound, hf, hg]

end Evaluator

end Stencil
