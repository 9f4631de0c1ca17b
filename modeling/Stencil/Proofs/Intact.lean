import Stencil.Proofs.Arguments
import Stencil.Proofs.Inert
/-!
# Values pass through a call

The arguments of a call can be calls themselves. What these return stands escaped between the
brackets of the outer call, is cut into slots with them, and is read back, whatever it is made of:
the outer function receives the values as they were returned, up to blanks at their ends, and what
it returns is what the evaluation gives (`values_pass_through`).
-/

namespace Stencil

/-- One slot of an argument list: a call without arguments, and what stands around it. The stem is
what is written behind the `$`. -/
structure Slot where
  before : Text
  stem : Text
  behind : Text

namespace Slot

def text (s : Slot) : Text := s.before ++ '$' :: (s.stem ++ '[' :: ']' :: s.behind)

/-- The slot has a call of one of the names, and but blanks around it. -/
structure Fits (names : List Text) (s : Slot) : Prop where
  called : ∃ name ∈ names, Text.sameFolded name ('$' :: s.stem) = true
  before : ∀ c ∈ s.before, isBlank c = true
  behind : ∀ c ∈ s.behind, isBlank c = true

/-- The slots in a row, with semicolons between them. -/
def texts (slots : List Slot) : Text := Text.join [';'] (slots.map text)

/-- Where the calls of the slots are written, when the first slot begins at a position. -/
def placesFrom (n : Nat) : List Slot → List Nat
  | [] => []
  | s :: more => (n + s.before.length) :: placesFrom (n + s.text.length + 1) more

/-- A call with these slots. -/
def callText (stem : Text) (slots : List Slot) : Text :=
  '$' :: (stem ++ '[' :: (texts slots ++ [']']))

/-- Where the calls of the slots are written in it. -/
def places (stem : Text) (slots : List Slot) : List Nat := placesFrom (stem.length + 2) slots

/-- The text of slots in a row: a semicolon behind the first. -/
theorem texts_cons_cons (s s' : Slot) (more : List Slot) :
    texts (s :: s' :: more) = s.text ++ ';' :: texts (s' :: more) := by
  simp [texts, Text.join, List.intercalate]

/-- The text of a single slot. -/
theorem texts_singleton (s : Slot) : texts [s] = s.text := by
  simp [texts, Text.join, List.intercalate]

end Slot

namespace Content

variable {names : List Text} {top : Bool} {q : Content} {t : Text} {slots : List Slot}
  {returned : Nat → Text} {n : Nat}

/-! ### Text in front of a tree -/

/-- The tree with a text in front of it. -/
def prepend (t : Text) (q : Content) : Content := t.foldr char q

/-- Text in front brings no calls. -/
theorem sites_prepend (t : Text) (q : Content) : (q.prepend t).sites = q.sites := by
  induction t with
  | nil => rfl
  | cons c t ih => exact ih

/-- It is filled with itself. -/
theorem fill_prepend (t : Text) (q : Content) (returned : Nat → Text) :
    (q.prepend t).fill returned = t ++ q.fill returned := by
  induction t with
  | nil => rfl
  | cons c t ih => exact congrArg (c :: ·) ih

/-- And shown as it is. -/
theorem shown_prepend (t : Text) (q : Content) (results : Nat → Option Text) :
    (q.prepend t).shown results = plain t ++ q.shown results := by
  induction t with
  | nil => rfl
  | cons c t ih => exact congrArg ((c, none) :: ·) ih

/-- Text without a semicolon belongs to the first piece. -/
theorem pieces_prepend (h : ';' ∉ t) (q : Content) :
    (q.prepend t).pieces = q.pieces.modifyHead (prepend t) := by
  induction t with
  | nil =>
    obtain ⟨first, more, hpieces⟩ := q.exists_pieces_eq_cons
    rw [hpieces]
    exact hpieces
  | cons c t ih =>
    have hc : c ≠ ';' := by
      rintro rfl
      exact h List.mem_cons_self
    show (char c (q.prepend t)).pieces = _
    rw [pieces, if_neg hc, ih fun hmem => h (List.mem_cons_of_mem c hmem),
      List.modifyHead_modifyHead]
    rfl

/-- Text without markers may stand in front. -/
theorem Sound.prepend (h : q.Sound names top) (ht : ∀ c ∈ t, isMarker c = false) :
    (q.prepend t).Sound names top := by
  induction t with
  | nil => exact h
  | cons c t ih =>
    have hplain := ht c List.mem_cons_self
    refine ⟨?_, .inr ⟨?_, ?_⟩, ih fun d hd => ht d (List.mem_cons_of_mem c hd)⟩ <;>
      rintro rfl <;> cases hplain

/-! ### The tree of a call with slots -/

/-- The tree of a slot that begins at a position, in front of another tree. -/
def ofSlot (n : Nat) (s : Slot) (rest : Content) : Content :=
  prepend s.before (.call (n + s.before.length) s.stem .empty (prepend s.behind rest))

/-- The tree of slots in a row. -/
def ofSlots : Nat → List Slot → Content
  | _, [] => .empty
  | n, [s] => ofSlot n s .empty
  | n, s :: s' :: more =>
    ofSlot n s (.char ';' (ofSlots (n + s.text.length + 1) (s' :: more)))

/-- The tree of a call with slots. -/
def ofCall (stem : Text) (slots : List Slot) : Content :=
  .call 0 stem (ofSlots (stem.length + 2) slots) .empty

/-- A slot has its call, and then come those of the rest. -/
theorem sites_ofSlot (n : Nat) (s : Slot) (rest : Content) :
    (ofSlot n s rest).sites = ⟨n + s.before.length, s.stem, empty⟩ :: rest.sites := by
  rw [ofSlot, sites_prepend, sites, sites_prepend]
  rfl

/-- The places of the slots are the labels of their tree. -/
theorem labels_ofSlots (n : Nat) (slots : List Slot) :
    (ofSlots n slots).labels = Slot.placesFrom n slots := by
  induction slots generalizing n with
  | nil => rfl
  | cons s more ih =>
    cases more with
    | nil =>
      unfold ofSlots labels
      rw [sites_ofSlot]
      rfl
    | cons s' more =>
      have hrest := ih (n + s.text.length + 1)
      unfold labels at hrest ⊢
      rw [ofSlots, sites_ofSlot, List.map_cons, sites, hrest]
      rfl

/-- No call of a slot has anything between its brackets. -/
theorem inner_of_mem_sites_ofSlots {site : Site} (h : site ∈ (ofSlots n slots).sites) :
    site.inner = empty := by
  induction slots generalizing n with
  | nil => cases h
  | cons s more ih =>
    cases more with
    | nil =>
      rw [ofSlots, sites_ofSlot] at h
      rcases List.mem_cons.1 h with rfl | h
      · rfl
      · cases h
    -- the call is that of the first slot, or of a later one
    | cons s' more =>
      rw [ofSlots, sites_ofSlot] at h
      rcases List.mem_cons.1 h with rfl | h
      · rfl
      · exact ih h

/-- A slot that fits may stand in front. -/
theorem sound_ofSlot {s : Slot} (hs : s.Fits names) (hq : q.Sound names top) :
    (ofSlot n s q).Sound names top := by
  have hbehind : (prepend s.behind q).Sound names top :=
    hq.prepend fun c hc => Grammar.Written.isMarker_of_isBlank (hs.behind c hc)
  have hcall : (call (n + s.before.length) s.stem empty (prepend s.behind q)).Sound names top :=
    ⟨hs.called, trivial, hbehind⟩
  exact hcall.prepend fun c hc => Grammar.Written.isMarker_of_isBlank (hs.before c hc)

/-- Slots that fit make a tree of calls. -/
theorem sound_ofSlots (h : ∀ s ∈ slots, s.Fits names) : (ofSlots n slots).Sound names false := by
  induction slots generalizing n with
  | nil => trivial
  | cons s more ih =>
    have hs := h s List.mem_cons_self
    cases more with
    | nil => exact sound_ofSlot hs trivial
    | cons s' more =>
      refine sound_ofSlot hs ⟨by decide, .inr (by decide), ?_⟩
      exact ih fun s hs => h s (List.mem_cons_of_mem _ hs)

/-- So does the call around them. -/
theorem sound_ofCall {stem : Text}
    (hstem : ∃ name ∈ names, Text.sameFolded name ('$' :: stem) = true)
    (h : ∀ s ∈ slots, s.Fits names) : (ofCall stem slots).Sound names false :=
  ⟨hstem, sound_ofSlots h, trivial⟩

/-- The pieces of slots in a row are the slots. -/
def slotPieces (n : Nat) : List Slot → List Content
  | [] => []
  | s :: more => ofSlot n s .empty :: slotPieces (n + s.text.length + 1) more

/-- A slot has no semicolon, so it belongs to the first piece. -/
theorem pieces_ofSlot {s : Slot} (hs : s.Fits names) (n : Nat) (q : Content) :
    (ofSlot n s q).pieces = q.pieces.modifyHead (ofSlot n s) := by
  have hnot : ∀ {t : Text}, (∀ c ∈ t, Stencil.isBlank c = true) → ';' ∉ t :=
    fun ht hmem => by cases ht ';' hmem
  unfold ofSlot
  rw [pieces_prepend (hnot hs.before), pieces, pieces_prepend (hnot hs.behind),
    List.modifyHead_modifyHead, List.modifyHead_modifyHead]
  rfl

/-- The pieces of the tree are its slots. -/
theorem pieces_ofSlots (h : ∀ s ∈ slots, s.Fits names) (hne : slots ≠ []) :
    (ofSlots n slots).pieces = slotPieces n slots := by
  induction slots generalizing n with
  | nil => exact absurd rfl hne
  | cons s more ih =>
    have hs := h s List.mem_cons_self
    cases more with
    | nil =>
      rw [ofSlots, pieces_ofSlot hs]
      rfl
    | cons s' more =>
      have hrest := ih (fun s hs => h s (List.mem_cons_of_mem _ hs)) (List.cons_ne_nil s' more)
        (n := n + s.text.length + 1)
      rw [ofSlots, pieces_ofSlot hs, pieces, if_pos rfl, hrest]
      rfl

/-! ### What is written -/

/-- Text without `$` is shown plainly, the rest with its places. -/
theorem stamps_plain_append {t rest : Text} (h : '$' ∉ t) (n : Nat) :
    stamps (t ++ rest) ((List.range' n (t ++ rest).length).map some) =
      plain t ++ stamps rest ((List.range' (n + t.length) rest.length).map some) := by
  rw [stamps_append, stamps_eq_plain h]

/-- Before the call of a slot returns, its tree shows the slot. -/
theorem shown_ofSlot {s : Slot} (hnames : ∀ name ∈ names, Worklist.Lettered name)
    (hs : s.Fits names) (n : Nat) (q : Content) :
    (ofSlot n s q).shown (fun _ => none) =
      stamps s.text ((List.range' n s.text.length).map some) ++ q.shown fun _ => none := by
  -- neither blanks nor letters are a `$`, so only the call has a place
  have hblank : ∀ {t : Text}, (∀ c ∈ t, Stencil.isBlank c = true) → '$' ∉ t :=
    fun ht hmem => by cases ht '$' hmem
  have hplain : '$' ∉ s.stem ++ '[' :: ']' :: s.behind := by
    intro hmem
    rcases List.mem_append.1 hmem with hmem | hmem
    · cases isAlpha_of_mem_stem hnames hs.called hmem
    · simp only [List.mem_cons] at hmem
      rcases hmem with hmem | hmem | hmem
      · cases hmem
      · cases hmem
      · exact hblank hs.behind hmem
  unfold ofSlot Slot.text
  rw [shown_prepend, shown_call_of_none rfl, shown_prepend, stamps_plain_append (hblank hs.before),
    List.length_cons, stamps_cons, stamps_eq_plain hplain]
  simp [shown, plain, stamp]

/-- So their tree shows the slots. -/
theorem shown_ofSlots (hnames : ∀ name ∈ names, Worklist.Lettered name)
    (h : ∀ s ∈ slots, s.Fits names) (n : Nat) :
    (ofSlots n slots).shown (fun _ => none) = stamps (Slot.texts slots)
      ((List.range' n (Slot.texts slots).length).map some) := by
  induction slots generalizing n with
  | nil => rfl
  | cons s more ih =>
    have hs := h s List.mem_cons_self
    cases more with
    | nil =>
      rw [ofSlots, shown_ofSlot hnames hs, Slot.texts_singleton]
      exact List.append_nil _
    | cons s' more =>
      have hrest := ih (fun s hs => h s (List.mem_cons_of_mem _ hs)) (n + s.text.length + 1)
      rw [ofSlots, shown_ofSlot hnames hs, Slot.texts_cons_cons, stamps_append, List.length_cons,
        stamps_cons, shown, hrest]
      rfl

/-- The tree of a call is written as the text of the call. -/
theorem writes_ofCall (hnames : ∀ name ∈ names, Worklist.Lettered name) {stem : Text}
    (hstem : ∃ name ∈ names, Text.sameFolded name ('$' :: stem) = true)
    (h : ∀ s ∈ slots, s.Fits names) : (ofCall stem slots).Writes (Slot.callText stem slots) := by
  have hdollar : '$' ∉ stem := by
    intro hmem
    cases isAlpha_of_mem_stem hnames hstem hmem
  have hslots := shown_ofSlots hnames h (stem.length + 2)
  unfold Writes ofCall Slot.callText
  rw [shown_call_of_none rfl, hslots, List.range_eq_range', List.length_cons, stamps_cons,
    stamps_plain_append hdollar, List.length_cons, stamps_cons, stamps_append]
  have hplace : 0 + 1 + stem.length + 1 = stem.length + 2 := by omega
  simp [shown, stamp, stamps, hplace]

/-! ### What the slots give -/

/-- A slot is filled with what its call returned, escaped. -/
theorem fill_ofSlot (n : Nat) (s : Slot) (returned : Nat → Text) :
    (ofSlot n s .empty).fill returned =
      s.before ++ (Text.escape (returned (n + s.before.length)) ++ s.behind) := by
  unfold ofSlot
  rw [fill_prepend, fill, fill_prepend, fill, List.append_nil]

/-- A slot whose call returned something is not blank, whether the result stands in it already or
not. -/
theorem isBlankIn_slotPieces {results : Nat → Option Text}
    (hreturned : ∀ y r, results y = some r → returned y = r)
    (hfilled : ∀ x ∈ Slot.placesFrom n slots, Text.isBlankText (returned x) = false) :
    ∀ piece ∈ slotPieces n slots, piece.isBlankIn results = false := by
  induction slots generalizing n with
  | nil => exact nofun
  | cons s more ih =>
    rw [slotPieces, List.forall_mem_cons]
    refine ⟨?_, ih fun x hx => hfilled x (List.mem_cons_of_mem _ hx)⟩
    rw [Bool.eq_false_iff]
    intro hblank
    -- a blank slot would be filled with blanks, but the value is none
    have hfill := isBlankText_fill_of_isBlankIn hblank hreturned
    have hvalue := hfilled _ List.mem_cons_self
    rw [fill_ofSlot, Text.isBlankText, List.all_append, List.all_append, Bool.and_eq_true,
      Bool.and_eq_true] at hfill
    rw [← Text.isBlankText_escape, Text.isBlankText, hfill.2.1] at hvalue
    cases hvalue

/-- The argument in a slot is the value that its call returned, trimmed. -/
theorem map_received_slotPieces {isEmpty : Content → Bool} (h : ∀ s ∈ slots, s.Fits names)
    (hfilled : ∀ piece ∈ slotPieces n slots, isEmpty piece = false) :
    (slotPieces n slots).map (received isEmpty returned) =
      (Slot.placesFrom n slots).map fun x => some (Text.trim (returned x)) := by
  induction slots generalizing n with
  | nil => rfl
  | cons s more ih =>
    rw [slotPieces, List.forall_mem_cons] at hfilled
    have hs := h s List.mem_cons_self
    have hrest := ih (fun s hs => h s (List.mem_cons_of_mem _ hs)) hfilled.2
    -- the blanks around are trimmed, and the codes of the value are read
    have hread : Text.trim (Text.unescape ((ofSlot n s .empty).fill returned)) =
        Text.trim (returned (n + s.before.length)) := by
      rw [fill_ofSlot, Text.unescape_blanks_append hs.before, Text.unescape_escape_append]
      have hblanks := Text.unescape_blanks_append hs.behind []
      rw [List.append_nil, Text.unescape_nil, List.append_nil] at hblanks
      rw [hblanks, Text.trim_blanks hs.before hs.behind]
    rw [slotPieces, List.map_cons, hrest, received, hfilled.1, if_neg Bool.false_ne_true, hread]
    rfl

end Content

namespace Evaluator

open Content

variable {ev : Evaluator} {source : Text} {state : ExecutionState} {p : Point} {stem : Text}
  {slots : List Slot} {returned : Nat → Text} {args : List Arg} {s : Session}

/-- Every call has a value, which it returns if it returns one. -/
theorem exists_returned (ev : Evaluator) (source : Text) (state : ExecutionState) :
    ∃ returned : Nat → Text, ∀ x r, ev.Returns source state x r → returned x = r := by
  classical
  refine ⟨fun x => if h : ∃ r, ev.Returns source state x r then h.choose else [], fun x r hr => ?_⟩
  have h : ∃ r, ev.Returns source state x r := ⟨r, hr⟩
  show (if h : ∃ r, ev.Returns source state x r then h.choose else []) = r
  rw [dif_pos h]
  exact h.choose_spec.unique hr

/-- The outer call receives what the calls in its slots returned. -/
theorem arguments_of_slots (hnames : Worklist.Callable ev.registry.names)
    (hstem : ∃ name ∈ ev.registry.names, Text.sameFolded name ('$' :: stem) = true)
    (hslots : ∀ slot ∈ slots, slot.Fits ev.registry.names)
    (hreturned : ∀ x r, ev.Returns (Slot.callText stem slots) state x r → returned x = r)
    (hfilled : ∀ x ∈ Slot.places stem slots, Text.isBlankText (returned x) = false)
    (hp : ev.Reached (Slot.callText stem slots) state p) {f : Function} {span : Span}
    {spans : List (Option Span)} (hcalls : ev.Calls p f span spans)
    (hplace : p.places[span.start]? = some (some 0))
    (hwithin : p.session.work + 1 ≤ ev.limits.invocations)
    (hargs : arguments (ev.resolveAt (p.depth + 1)) p.document spans p.session.counted =
      (.ok args, s)) :
    args = (Slot.places stem slots).map (fun x => some (Text.trim (returned x))) ∧
      Text.sameFolded f.name.text ('$' :: stem) = true := by
  have hsound := sound_ofCall hstem hslots
  have hwrites := writes_ofCall hnames.letters hstem hslots
  obtain ⟨q, results, hstands⟩ := hp.stands hnames hsound hwrites
  obtain ⟨-, site, rest, -, -, hspans, hcallAt⟩ := hstands.callAt hnames hp hcalls
  have hzero : site.place = 0 := by simpa [hplace, eq_comm] using hcallAt.place
  obtain rfl : site = ⟨0, stem, ofSlots (stem.length + 2) slots⟩ :=
    List.inj_on_of_nodup_map hwrites.nodup_labels (hstands.sites_subset hcallAt.mem)
      List.mem_cons_self hzero
  refine ⟨?_, hcallAt.sameFolded_function hnames hstands hp hcalls⟩
  obtain ⟨parts, hparts, hpieces, hshows⟩ := hcallAt.exists_slots hnames hstands hp
  have heq := hstands.arguments_eq hnames hp hreturned hcalls hwithin hcallAt.mem
    (show spans = (parts ++ []).map Prod.snd by rw [List.append_nil, hparts, hspans])
    (fun part hpart => mem_of_mem_dropLastIf (hpieces ▸ List.mem_map_of_mem hpart)) hshows
    (by rw [hparts, ← hspans, hargs])
  rw [heq, hpieces]
  have hknown : ∀ y r, results y = some r → returned y = r :=
    fun y r hy => hreturned y r (hstands.returned y r hy)
  by_cases hne : slots = []
  -- without slots there is one piece, and it is blank
  · subst hne
    rfl
  · have hblank := isBlankIn_slotPieces hknown hfilled
    show (dropLastIf (isBlankIn results) (ofSlots (stem.length + 2) slots).pieces).map _ = _
    rw [pieces_ofSlots hslots hne, dropLastIf_eq_self hblank]
    exact map_received_slotPieces hslots hblank

/-! ### Runs -/

/-- A call of the tree is the outer one or one of a slot. -/
theorem place_cases {site : Site} (h : site ∈ (ofCall stem slots).sites) :
    site.place = 0 ∨ site.place ∈ Slot.places stem slots := by
  rcases List.mem_cons.1 h with rfl | h
  · exact .inl rfl
  · refine .inr ?_
    rw [sites, List.append_nil] at h
    unfold Slot.places
    rw [← labels_ofSlots]
    exact List.mem_map_of_mem h

/-- A call with slots has a `$` for each slot and one for itself. -/
theorem markers_callText (hnames : ∀ name ∈ ev.registry.names, Worklist.Lettered name)
    (hstem : ∃ name ∈ ev.registry.names, Text.sameFolded name ('$' :: stem) = true)
    (hslots : ∀ slot ∈ slots, slot.Fits ev.registry.names) :
    Text.markers '$' (Slot.callText stem slots) = slots.length + 1 := by
  have hlength : ∀ (n : Nat) (slots : List Slot),
      (Slot.placesFrom n slots).length = slots.length := by
    intro n slots
    induction slots generalizing n with
    | nil => rfl
    | cons s more ih => rw [Slot.placesFrom, List.length_cons, ih, List.length_cons]
  rw [← (writes_ofCall hnames hstem hslots).length_labels, ofCall, labels_call, labels_ofSlots,
    List.length_cons, List.length_append, hlength]
  rfl

/-- Within the limits the evaluation of a call with slots goes on until a function fails. -/
theorem outcome_of_slots (hnames : Worklist.Callable ev.registry.names)
    (hstem : ∃ name ∈ ev.registry.names, Text.sameFolded name ('$' :: stem) = true)
    (hslots : ∀ slot ∈ slots, slot.Fits ev.registry.names) (hdepth : 1 ≤ ev.limits.depth)
    (hwork : slots.length + 1 ≤ ev.limits.invocations) {e : EvalError}
    (h : ev.outcome (ev.start (Slot.callText stem slots) state) = (.error e, s)) :
    ∃ p f span spans args s' message x, ev.Reached (Slot.callText stem slots) state p ∧
      ev.Calls p f span spans ∧ p.places[span.start]? = some (some x) ∧
      (x = 0 ∨ x ∈ Slot.places stem slots) ∧ p.session.work + 1 ≤ ev.limits.invocations ∧
      arguments (ev.resolveAt (p.depth + 1)) p.document spans p.session.counted =
        (.ok args, s') ∧
      ev.callFunction f args s' = (.error (.failure f.name.text message), s) := by
  have hsound := sound_ofCall hstem hslots
  have hwrites := writes_ofCall hnames.letters hstem hslots
  -- no call of a slot has a call inside, so the runs are one level deep at most
  have hnests : (ofCall stem slots).Nests 1 := by
    intro site hsite
    rcases List.mem_cons.1 hsite with rfl | hsite
    · exact fun site hsite => inner_of_mem_sites_ofSlots hsite
    · rw [sites, List.append_nil] at hsite
      rw [inner_of_mem_sites_ofSlots hsite]
      exact List.forall_mem_nil _
  -- an error comes from the point at which the run stops
  obtain ⟨p, hp, hstop⟩ := exists_stop (ev.listed_enter _ _ _ _) h
  obtain ⟨q, results, hstands⟩ := Reached.stands hnames hsound hwrites hp
  have hle := (Reached.depth_le_of_nests hnames hsound hwrites hnests hp).trans hdepth
  obtain ⟨f, span, spans, args, s', message, hcalls, hwithin, hargs, hfails⟩ :=
    hstands.of_stops hnames hp hle (by rwa [markers_callText hnames.letters hstem hslots]) hstop
  obtain ⟨-, site, rest, -, -, -, hcallAt⟩ := hstands.callAt hnames hp hcalls
  exact ⟨p, f, span, spans, args, s', message, site.place, hp, hcalls, hcallAt.place,
    place_cases (hstands.sites_subset hcallAt.mem), hwithin, hargs, hfails⟩

/-- A call that returns does not fail. -/
theorem Returns.not_fails {source : Text} {x : Nat} {result : Text}
    (h : ev.Returns source state x result) (hp : ev.Reached source state p) {f : Function}
    {span : Span} {spans : List (Option Span)} (hcalls : ev.Calls p f span spans)
    (hx : p.places[span.start]? = some (some x))
    (hargs : arguments (ev.resolveAt (p.depth + 1)) p.document spans p.session.counted =
      (.ok args, s)) {e : EvalError} {s' : Session} :
    ev.callFunction f args s ≠ (.error e, s') := by
  obtain ⟨p', f', span', spans', t, hp', hcalls', hx', hresult⟩ := h
  obtain rfl := hcalls.once hp hp' hcalls' hx hx'
  obtain ⟨rfl, rfl, rfl⟩ := hcalls.unique hcalls'
  obtain ⟨-, args', s₁, hargs', hcall⟩ := callResult_eq_ok.1 hresult
  rw [hargs] at hargs'
  cases hargs'
  rw [hcall]
  exact nofun

/-- A call that completes returns. -/
theorem Completes.exists_returns {source : Text} {x : Nat} {before : List CallRecord}
    {record : CallRecord} (h : ev.Completes source state x before record)
    (hwork : Text.markers '$' source ≤ ev.limits.invocations) :
    ∃ result, ev.Returns source state x result ∧ record.outcome.replacement? = some result := by
  obtain ⟨p, f, span, spans, result, s, s', hp, hcalls, hx, -, hargs, -, hcall, hlog⟩ := h
  have hwithin : p.session.work + 1 ≤ ev.limits.invocations := by
    have hpos := markers_pos hp.listed (.inl ⟨f, span, spans, hcalls⟩)
    have := hp.work_le
    omega
  obtain ⟨hrecord, houtcome⟩ := ev.callFunction_outcome f record.args s
  rw [hcall] at hrecord houtcome
  have hsame := congrArg CallRecord.outcome (List.cons.inj (hlog.symm.trans hrecord)).1
  exact ⟨result, ⟨p, f, span, spans, s', hp, hcalls, hx,
    callResult_eq_ok.2 ⟨hwithin, _, s, hargs, hcall⟩⟩, by rw [hsame, ← houtcome]; rfl⟩

/-- Where the evaluation of a call with slots succeeds, all calls complete, the outer one last. -/
theorem exists_order_of_slots (hnames : Worklist.Callable ev.registry.names)
    (hstem : ∃ name ∈ ev.registry.names, Text.sameFolded name ('$' :: stem) = true)
    (hslots : ∀ slot ∈ slots, slot.Fits ev.registry.names) {d : Document}
    (h : ev.outcome (ev.start (Slot.callText stem slots) state) = (.ok d, s)) :
    (∀ x, x = 0 ∨ x ∈ Slot.places stem slots → ∃ before record,
        ev.Completes (Slot.callText stem slots) state x before record) ∧
      ∃ before record, ev.Completes (Slot.callText stem slots) state 0 before record ∧
        s.log = record :: before := by
  have hsound := sound_ofCall hstem hslots
  have hwrites := writes_ofCall hnames.letters hstem hslots
  have hstart : ev.Stands (Slot.callText stem slots) state (ofCall stem slots)
      (ofCall stem slots) (fun _ => none) (ev.start (Slot.callText stem slots) state) :=
    stands_start hnames hsound hwrites
  obtain ⟨order, horder⟩ := ordered (p := ev.start _ _) hnames hwrites.nodup_labels
    (ev.listed_enter _ _ _ _) _ _ _ _ .refl hstart h
  -- the calls that are shown at the start are the outer one and those of the slots
  have hshown : ∀ x, ('$', some x) ∈ (ev.start (Slot.callText stem slots) state).stamps ↔
      x = 0 ∨ x ∈ Slot.places stem slots := by
    intro x
    rw [← hstart.shows.mem_iff, hwrites.mem_shown_iff, ← hwrites.mem_labels_iff, ofCall,
      labels_call, labels_ofSlots, List.mem_cons, List.mem_append]
    simp [labels, sites, Slot.places]
  -- every place comes up in the order, and the outer call after those in its brackets
  refine ⟨fun x hx => ?_, horder.exists_last ((hshown 0).2 (.inl rfl)) fun y hy hne hnot => ?_⟩
  · obtain ⟨n, hn⟩ := List.mem_iff_getElem?.1 ((horder.mem_iff x).2 ((hshown x).2 hx))
    obtain ⟨before, record, hcompletes, -⟩ := horder.ran.exists_completes hn
    exact ⟨before, record, hcompletes⟩
  · refine hnot _ List.mem_cons_self rfl ?_
    rw [labels_ofSlots]
    exact ((hshown y).1 hy).resolve_left hne

/-- Where nothing is left to do, the text is what the outer call returned. -/
theorem rendered_of_slots (hnames : Worklist.Callable ev.registry.names)
    (hstem : ∃ name ∈ ev.registry.names, Text.sameFolded name ('$' :: stem) = true)
    (hslots : ∀ slot ∈ slots, slot.Fits ev.registry.names)
    (hreturned : ∀ x r, ev.Returns (Slot.callText stem slots) state x r → returned x = r)
    {d : Document} (h : ev.outcome (ev.start (Slot.callText stem slots) state) = (.ok d, s)) :
    d.rendered = Text.trim (returned 0) := by
  have hsound := sound_ofCall hstem hslots
  have hwrites := writes_ofCall hnames.letters hstem hslots
  have hstart : ev.Stands (Slot.callText stem slots) state (ofCall stem slots)
      (ofCall stem slots) (fun _ => none) (ev.start (Slot.callText stem slots) state) :=
    stands_start hnames hsound hwrites
  -- a run that succeeds ends at a point where nothing is left
  obtain ⟨p, hleads, hdepth, hsettled, rfl, -⟩ := exists_settled (ev.listed_enter _ _ _ _) h
  obtain ⟨q, results, hstands, hq⟩ := hleads.stands hnames .refl hstart
  obtain ⟨-, rfl⟩ := hq.resolve_left (by omega)
  obtain ⟨before, behind, hbefore, hbehind, hfill⟩ :=
    hstands.exists_fill_eq hleads hsettled hreturned
  -- what is filled in for the whole call is the value it returned
  have hread : Text.trim (Text.unescape ((ofCall stem slots).fill returned)) =
      Text.trim (returned 0) := by
    have hescape := Text.unescape_escape (returned 0)
    unfold ofCall
    rw [fill, fill, List.append_nil, hescape]
  rw [Document.rendered, ← hread, hfill, Text.unescape_blanks_append hbefore,
    Text.unescape_append_blanks hbehind, Text.trim_blanks hbefore hbehind]

/-- The last call of an evaluation is one of the name that is written so, it has these arguments, and
what it returns is what the evaluation gives, trimmed. -/
def EndsIn (ev : Evaluator) (source : Text) (state : ExecutionState) (stem : Text)
    (args : List Arg) : Prop :=
  ∃ record, (ev.evaluate source state).calls.getLast? = some record ∧
    Text.sameFolded record.function ('$' :: stem) = true ∧ record.args = args ∧
    ∀ w, record.outcome.replacement? = some w →
      ∃ e, (ev.evaluate source state).result = .ok e ∧ e.text = Text.trim w

/-- Where the evaluation fails though the calls of the slots return, the outer function has failed,
with their results for arguments. -/
theorem endsIn_of_error (hnames : Worklist.Callable ev.registry.names)
    (hstem : ∃ name ∈ ev.registry.names, Text.sameFolded name ('$' :: stem) = true)
    (hslots : ∀ slot ∈ slots, slot.Fits ev.registry.names) (hdepth : 1 ≤ ev.limits.depth)
    (hwork : slots.length + 1 ≤ ev.limits.invocations)
    (hreturned : ∀ x r, ev.Returns (Slot.callText stem slots) state x r → returned x = r)
    (hreturns : ∀ x ∈ Slot.places stem slots, ∃ r,
      ev.Returns (Slot.callText stem slots) state x r)
    (hfilled : ∀ x ∈ Slot.places stem slots, Text.isBlankText (returned x) = false) {e : EvalError}
    (h : ev.outcome (ev.start (Slot.callText stem slots) state) = (.error e, s)) :
    ev.EndsIn (Slot.callText stem slots) state stem
      ((Slot.places stem slots).map fun x => some (Text.trim (returned x))) := by
  obtain ⟨p, f, span, spans, args, s', message, x, hp, hcalls, hx, hplace, hwithin, hargs,
    hfails⟩ := outcome_of_slots hnames hstem hslots hdepth hwork h
  -- the call that failed is no slot's, for these return
  obtain rfl : x = 0 := by
    refine hplace.resolve_right fun hslot => ?_
    obtain ⟨r, hr⟩ := hreturns x hslot
    exact hr.not_fails hp hcalls hx hargs hfails
  obtain ⟨rfl, hfunction⟩ := arguments_of_slots hnames hstem hslots hreturned hfilled hp hcalls hx
    hwithin hargs
  obtain ⟨hlog, houtcome⟩ := ev.callFunction_outcome f
    ((Slot.places stem slots).map fun x => some (Text.trim (returned x))) s'
  rw [hfails] at hlog houtcome
  unfold EndsIn
  rw [evaluate_of_error h]
  refine ⟨⟨f.name.text, _, (f.call (ev.contextIn f s') ((Slot.places stem slots).map fun x =>
    some (Text.trim (returned x))) s'.state).1⟩, ?_, hfunction, rfl, fun w hw => ?_⟩
  · show s.log.reverse.getLast? = _
    rw [List.getLast?_reverse, hlog]
    rfl
  · rw [← houtcome] at hw
    cases hw

/-- Where the evaluation succeeds, the outer call is the last one to complete. -/
theorem endsIn_of_ok (hnames : Worklist.Callable ev.registry.names)
    (hstem : ∃ name ∈ ev.registry.names, Text.sameFolded name ('$' :: stem) = true)
    (hslots : ∀ slot ∈ slots, slot.Fits ev.registry.names)
    (hwork : slots.length + 1 ≤ ev.limits.invocations)
    (hreturned : ∀ x r, ev.Returns (Slot.callText stem slots) state x r → returned x = r)
    (hfilled : ∀ x ∈ Slot.places stem slots, Text.isBlankText (returned x) = false) {d : Document}
    (h : ev.outcome (ev.start (Slot.callText stem slots) state) = (.ok d, s)) :
    ev.EndsIn (Slot.callText stem slots) state stem
      ((Slot.places stem slots).map fun x => some (Text.trim (returned x))) := by
  -- the outer call is the last of the log
  obtain ⟨-, before, record, hcompletes, hlog⟩ := exists_order_of_slots hnames hstem hslots h
  obtain ⟨result, hreturns, hresult⟩ := hcompletes.exists_returns
    (by rwa [markers_callText hnames.letters hstem hslots])
  obtain ⟨p, f, span, spans, -, s₁, -, hp, hcalls, hx, hfunction, hargs, -⟩ := hcompletes
  have hwithin : p.session.work + 1 ≤ ev.limits.invocations := by
    have hmarkers := markers_callText hnames.letters hstem hslots
    have hpos := markers_pos hp.listed (.inl ⟨f, span, spans, hcalls⟩)
    have := hp.work_le
    omega
  obtain ⟨hargsEq, hsameFolded⟩ := arguments_of_slots hnames hstem hslots hreturned hfilled hp
    hcalls hx hwithin hargs
  unfold EndsIn
  rw [evaluate_of_ok h]
  refine ⟨record, ?_, hfunction ▸ hsameFolded, hargsEq, fun w hw => ⟨_, rfl, ?_⟩⟩
  · show s.log.reverse.getLast? = _
    rw [List.getLast?_reverse, hlog]
    rfl
  · show d.rendered = _
    rw [rendered_of_slots hnames hstem hslots hreturned h, hreturned 0 result hreturns]
    rw [hresult] at hw
    rw [Option.some.inj hw]

/-- Where no function fails, the evaluation succeeds and every call returns. -/
theorem exists_returns_of_slots (hnames : Worklist.Callable ev.registry.names)
    (hstem : ∃ name ∈ ev.registry.names, Text.sameFolded name ('$' :: stem) = true)
    (hslots : ∀ slot ∈ slots, slot.Fits ev.registry.names) (hdepth : 1 ≤ ev.limits.depth)
    (hwork : slots.length + 1 ≤ ev.limits.invocations)
    (htotal : ∀ f ∈ ev.registry.functions, ∀ context args s,
      (f.call context args s).1.replacement?.isSome = true) :
    (∃ e, (ev.evaluate (Slot.callText stem slots) state).result = .ok e) ∧
      ∀ x, x = 0 ∨ x ∈ Slot.places stem slots →
        ∃ r, ev.Returns (Slot.callText stem slots) state x r := by
  -- without a function that fails the evaluation cannot end with an error
  rcases hout : ev.outcome (ev.start (Slot.callText stem slots) state) with ⟨e | d, s⟩
  · obtain ⟨p, f, span, spans, args, s', message, x, hp, hcalls, -, -, -, -, hfails⟩ :=
      outcome_of_slots hnames hstem hslots hdepth hwork hout
    have houtcome := (ev.callFunction_outcome f args s').2
    have hsome := htotal f hcalls.mem_functions (ev.contextIn f s') args s'.state
    rw [hfails] at houtcome
    rw [← houtcome] at hsome
    cases hsome
  · obtain ⟨hall, -⟩ := exists_order_of_slots hnames hstem hslots hout
    refine ⟨⟨_, by rw [evaluate_of_ok hout]⟩, fun x hx => ?_⟩
    obtain ⟨before, record, hcompletes⟩ := hall x hx
    obtain ⟨result, hreturns, -⟩ := hcompletes.exists_returns
      (by rwa [markers_callText hnames.letters hstem hslots])
    exact ⟨result, hreturns⟩

/-- A call whose arguments are calls, within the limits. If these return texts that are not blank,
whatever the texts are made of, the evaluation ends in the outer call, whose arguments are the
trimmed texts, one for each slot, and gives what it returns, trimmed. If no function fails, every
call returns and the evaluation succeeds. -/
theorem values_pass_through (hnames : Worklist.Callable ev.registry.names)
    (hstem : ∃ name ∈ ev.registry.names, Text.sameFolded name ('$' :: stem) = true)
    (hslots : ∀ slot ∈ slots, slot.Fits ev.registry.names) (hdepth : 1 ≤ ev.limits.depth)
    (hwork : slots.length + 1 ≤ ev.limits.invocations) (state : ExecutionState) :
    (∀ values : Nat → Text,
      (∀ x ∈ Slot.places stem slots, ev.Returns (Slot.callText stem slots) state x (values x) ∧
        Text.isBlankText (values x) = false) →
      ev.EndsIn (Slot.callText stem slots) state stem
        ((Slot.places stem slots).map fun x => some (Text.trim (values x)))) ∧
    ((∀ f ∈ ev.registry.functions, ∀ context args s,
        (f.call context args s).1.replacement?.isSome = true) →
      (∃ e, (ev.evaluate (Slot.callText stem slots) state).result = .ok e) ∧
      ∀ x, x = 0 ∨ x ∈ Slot.places stem slots →
        ∃ r, ev.Returns (Slot.callText stem slots) state x r) := by
  refine ⟨fun values hvalues => ?_, exists_returns_of_slots hnames hstem hslots hdepth hwork⟩
  -- what each call returned can be told for all places at once
  obtain ⟨returned, hreturned⟩ := exists_returned ev (Slot.callText stem slots) state
  have hsame : ∀ x ∈ Slot.places stem slots, returned x = values x :=
    fun x hx => hreturned x _ (hvalues x hx).1
  have hfilled : ∀ x ∈ Slot.places stem slots, Text.isBlankText (returned x) = false :=
    fun x hx => by rw [hsame x hx, (hvalues x hx).2]
  have hargs : (Slot.places stem slots).map (fun x => some (Text.trim (values x))) =
      (Slot.places stem slots).map fun x => some (Text.trim (returned x)) :=
    List.map_congr_left fun x hx => by rw [hsame x hx]
  rw [hargs]
  rcases hout : ev.outcome (ev.start (Slot.callText stem slots) state) with ⟨e | d, s⟩
  · exact endsIn_of_error hnames hstem hslots hdepth hwork hreturned
      (fun x hx => ⟨_, (hvalues x hx).1⟩) hfilled hout
  · exact endsIn_of_ok hnames hstem hslots hwork hreturned hfilled hout

/-- The evaluator with a function `$f`, which gives `w`, and functions `$g` and `$h`, which give texts
of markers and of a code, with blanks at their ends. -/
def markersFunction : Evaluator :=
  withFunctions [.constant ['f'] ['w'], .constant ['g'] "]$f[; ".toList,
    .constant ['h'] "#LEF#\n".toList]

/-- The names of the example can be called. -/
theorem callable_markersFunction : Worklist.Callable markersFunction.registry.names where
  letters name hname := by
    have hnames : markersFunction.registry.names = [['$', 'f'], ['$', 'g'], ['$', 'h']] := rfl
    rw [hnames, List.mem_cons, List.mem_cons, List.mem_singleton] at hname
    rcases hname with rfl | rfl | rfl
    · exact ⟨['f'], rfl, by simp⟩
    · exact ⟨['g'], rfl, by simp⟩
    · exact ⟨['h'], rfl, by simp⟩
  prefixFree := by decide
  not_control := by decide

/-- The first slot is on the line of the call, the second one on lines below it. -/
def markersSlots : List Slot := [⟨[' '], ['g'], []⟩, ⟨['\n'], ['h'], ['\n']⟩]

/-- The call in the first slot is the first to be done, the call in the second one is done for the
arguments of the outer call. -/
theorem returns_markersFunction :
    markersFunction.Returns "$f[ $g[];\n$h[]\n]".toList .initial 4 "]$f[; ".toList ∧
    markersFunction.Returns "$f[ $g[];\n$h[]\n]".toList .initial 10 "#LEF#\n".toList := by
  let p := markersFunction.start "$f[ $g[];\n$h[]\n]".toList .initial
  let s := (markersFunction.callResult (markersFunction.resolveAt 1) p.document
    (.constant ['g'] "]$f[; ".toList) [] p.session).2
  -- the first slot is in the first line, so its call is made before the outer one is next
  have hg : markersFunction.Calls p (.constant ['g'] "]$f[; ".toList) ⟨4, 8⟩ [] :=
    ⟨['$', 'g'], ⟨by decide, rfl⟩, rfl, rfl⟩
  have hf : markersFunction.Calls (afterCall p ⟨4, 8⟩ "]$f[; ".toList s)
      (.constant ['f'] ['w']) ⟨0, 39⟩ ([some ⟨4, 30⟩] ++ some ⟨33, 37⟩ :: []) :=
    ⟨['$', 'f'], ⟨by decide, rfl⟩, rfl, rfl⟩
  -- the second one is made as a part of the outer call
  have hpart : markersFunction.Reached "$f[ $g[];\n$h[]\n]".toList .initial
      (markersFunction.enterPart (afterCall p ⟨4, 8⟩ "]$f[; ".toList s) ⟨33, 37⟩ s.counted) :=
    (Relation.ReflTransGen.single (.call hg rfl)).tail (.argument hf (by decide) rfl rfl rfl)
  exact ⟨⟨_, _, _, _, _, .refl, hg, rfl, rfl⟩,
    ⟨_, _, _, _, _, hpart, ⟨['$', 'h'], ⟨by decide, rfl⟩, rfl, rfl⟩, rfl, rfl⟩⟩

/-- One value is made of markers and the other one of a code. Both pass, trimmed. -/
theorem markers_pass_through :
    markersFunction.EndsIn "$f[ $g[];\n$h[]\n]".toList .initial ['f']
      [some "]$f[;".toList, some "#LEF#".toList] := by
  have hstem : ∃ name ∈ markersFunction.registry.names,
      Text.sameFolded name ('$' :: ['f']) = true := ⟨['$', 'f'], by decide, by decide⟩
  have hslots : ∀ slot ∈ markersSlots, slot.Fits markersFunction.registry.names := by
    intro slot hslot
    rcases List.mem_pair.1 hslot with rfl | rfl
    · exact ⟨⟨['$', 'g'], by decide, by decide⟩, List.all_eq_true.1 rfl, List.all_eq_true.1 rfl⟩
    · exact ⟨⟨['$', 'h'], by decide, by decide⟩, List.all_eq_true.1 rfl, List.all_eq_true.1 rfl⟩
  obtain ⟨hg, hh⟩ := returns_markersFunction
  exact (values_pass_through callable_markersFunction hstem hslots (by decide) (by decide)
    .initial).1 (fun x => if x = 4 then "]$f[; ".toList else "#LEF#\n".toList) (by
      intro x hx
      rcases List.mem_pair.1 hx with rfl | rfl
      · exact ⟨hg, by decide⟩
      · exact ⟨hh, by decide⟩)

end Evaluator

end Stencil
