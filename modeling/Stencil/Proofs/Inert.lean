import Stencil.Proofs.Escape
import Stencil.Proofs.Growth
/-!
# When results are inert

The markers of every document of a run are source text, so whatever is acted on begins in the
source. What a function returned could still be read as the end of a name or of a keyword that the
source begins, for only the beginning is looked at. This is the only way: as long as no completed
call returned a text that continues a name or a keyword (`Evaluator.forges`), every name that stands
in a document and every keyword is source text throughout.

The invariant behind this is `Begun`: where source text ends and literal text follows, a result
begins, and the document goes on with it as far as both go.
-/

namespace Stencil

/-! ### Results -/

/-- The text that a call is replaced by, none if the call failed. -/
def Outcome.replacement? : Outcome → Option Text
  | .value t => some (t.getD [])
  | .withArtifacts t _ => some (t.getD [])
  | .failure _ => none

/-- The results of the completed calls. -/
def Session.results (s : Session) : List Text := s.log.filterMap (·.outcome.replacement?)

/-- What was returned before is among what was returned later. -/
theorem Session.results_subset {s s' : Session} (h : s.log <:+ s'.log) : s.results ⊆ s'.results :=
  (h.sublist.filterMap _).subset

/-- A call that returns a text has put it among the results. -/
theorem Evaluator.mem_results_of_callFunction {ev : Evaluator} {f : Function} {args : List Arg}
    {s s' : Session} {result : Text} (h : ev.callFunction f args s = (.ok result, s')) :
    result ∈ s'.results := by
  unfold callFunction Session.complete at h
  simp only at h
  split at h
  · next t ht =>
    cases h
    simp [Session.results, ht, Outcome.replacement?]
  · next t patch ht =>
    cases h
    simp [Session.results, ht, Outcome.replacement?]
  · cases h

/-- A call is logged with its outcome, and gives the replacement that the outcome has. -/
theorem Evaluator.callFunction_outcome (ev : Evaluator) (f : Function) (args : List Arg)
    (s : Session) :
    (ev.callFunction f args s).2.log =
        ⟨f.name.text, args, (f.call (ev.contextIn f s) args s.state).1⟩ :: s.log ∧
      (ev.callFunction f args s).1.toOption =
        (f.call (ev.contextIn f s) args s.state).1.replacement? := by
  unfold callFunction Session.complete
  simp only
  split
  · next t ht => simp [ht, Outcome.replacement?, Except.toOption]
  · next t patch ht => simp [ht, Outcome.replacement?, Except.toOption]
  · next message ht => simp [ht, Outcome.replacement?, Except.toOption]

/-! ### Words that a text continues -/

/-- Whether a word and a text agree as far as both go. -/
def agree (alike : Char → Char → Bool) : Text → Text → Bool
  | a :: word, c :: t => alike a c && agree alike word t
  | _, _ => true

/-- Whether a text could be read as what follows the beginning of a word. -/
def continues (alike : Char → Char → Bool) (word t : Text) : Bool :=
  !t.isEmpty && (List.range word.length).any fun n => 0 < n && agree alike (word.drop n) t

/-- How the letters of keywords are compared. -/
def Keyword.alike (a c : Char) : Bool := a == Keyword.foldLetter c

def Keyword.all : List Keyword := [ifOpen, elseIfOpen, otherwise, endIf, endElseIf]

theorem Keyword.mem_all (k : Keyword) : k ∈ all := by
  cases k <;> decide

/-- Whether a result, as it stands in a document, continues a name or a keyword. -/
def Evaluator.forges (ev : Evaluator) (result : Text) : Bool :=
  (ev.names.any fun name => continues sameLetter name (Text.escape result)) ||
    Keyword.all.any fun k => continues Keyword.alike k.text (Text.escape result)

/-- A text that begins with a word begins, from any position on, with what is left of the word. -/
theorem startsBy_drop {alike : Char → Char → Bool} {word t : Text}
    (h : Search.startsBy alike word t = true) (n : Nat) :
    Search.startsBy alike (word.drop n) (t.drop n) = true := by
  induction word generalizing t n with
  | nil => simp [Search.startsBy]
  | cons a word ih =>
    cases t with
    | nil => cases h
    | cons c t =>
      cases n with
      | zero => exact h
      | succ n =>
        simp only [Search.startsBy, Bool.and_eq_true] at h
        exact ih h.2 n

/-- A word that a text begins with agrees with every text that begins like this one. -/
theorem agree_of_startsBy {alike : Char → Char → Bool} {word t r : Text}
    (h : Search.startsBy alike word t = true) (hr : r <+: t ∨ t <+: r) :
    agree alike word r = true := by
  induction word generalizing t r with
  | nil => simp [agree]
  | cons a word ih =>
    cases r with
    | nil => rfl
    | cons c r =>
      cases t with
      | nil => cases h
      | cons x t =>
        -- the two begin with the same character, whichever is the longer one
        have hx : x = c ∧ (r <+: t ∨ t <+: r) := by
          rcases hr with hr | hr
          · obtain ⟨rfl, hrest⟩ := List.cons_prefix_cons.1 hr
            exact ⟨rfl, .inl hrest⟩
          · obtain ⟨rfl, hrest⟩ := List.cons_prefix_cons.1 hr
            exact ⟨rfl, .inr hrest⟩
        obtain ⟨rfl, hrest⟩ := hx
        simp only [Search.startsBy, Bool.and_eq_true] at h
        rw [agree, h.1, ih h.2 hrest, Bool.and_self]

/-! ### Where results begin -/

variable {R R' : List Text} {xs ys cells : List Cell}

/-- One of the results stands at the head of the text, as far as both go. -/
def Begins (R : List Text) (t : Text) : Prop :=
  ∃ r ∈ R, Text.escape r ≠ [] ∧ (Text.escape r <+: t ∨ t <+: Text.escape r)

/-- If literal text stands at the head, a result begins with it. -/
def Starts (R : List Text) : List Cell → Prop
  | (c, .literal) :: rest => Begins R (c :: rest.map Prod.fst)
  | _ => True

/-- Where literal text follows source text, a result begins. -/
def Begun (R : List Text) : List Cell → Prop
  | [] => True
  | (_, .source) :: rest => Starts R rest ∧ Begun R rest
  | (_, .literal) :: rest => Begun R rest

/-- The cells can stand behind source text. -/
def Sound (R : List Text) (cells : List Cell) : Prop := Starts R cells ∧ Begun R cells

/-- A marker in the source. -/
def dollarCell : Cell := ('$', .source)

/-- The cells can stand between source text and a marker. -/
def Closed (R : List Text) (cells : List Cell) : Prop := Sound R (cells ++ [dollarCell])

/-- What begins with a result still does so when there are more results. -/
theorem Begins.mono {t : Text} (h : Begins R t) (hR : R ⊆ R') : Begins R' t := by
  obtain ⟨r, hr, hrest⟩ := h
  exact ⟨r, hR hr, hrest⟩

/-- What a text begins with, a part at its beginning begins with, as far as it reaches. -/
theorem Begins.of_append {t u : Text} (h : Begins R (t ++ u)) : Begins R t := by
  obtain ⟨r, hr, hne, hprefix | hprefix⟩ := h
  · have ht : t <+: t ++ u := List.prefix_append t u
    exact ⟨r, hr, hne, List.prefix_or_prefix_of_prefix hprefix ht⟩
  · exact ⟨r, hr, hne, .inr ((List.prefix_append t u).trans hprefix)⟩

/-- Before a marker a result is complete, so that it does not matter what comes instead. -/
theorem Begins.replace {t : Text} (h : Begins R (t ++ ['$'])) (u : Text) : Begins R (t ++ u) := by
  obtain ⟨r, hr, hne, hprefix⟩ := h
  -- no result has a `$`, so the result ends before the one that stands behind the text
  have hfree : '$' ∉ Text.escape r := fun hmem => by
    have := Text.isMarker_of_mem_escape hmem
    cases this
  have hcomplete : Text.escape r <+: t := by
    rcases hprefix with hprefix | hprefix
    · rcases List.prefix_concat_iff.1 hprefix with heq | hle
      · exact absurd (by rw [heq]; simp) hfree
      · exact hle
    · exact absurd (List.IsPrefix.subset hprefix (by simp)) hfree
  exact ⟨r, hr, hne, .inl (hcomplete.trans (List.prefix_append t u))⟩

/-- The same of literal cells. -/
theorem Starts.mono (h : Starts R cells) (hR : R ⊆ R') : Starts R' cells := by
  unfold Starts at h ⊢
  split
  · exact h.mono hR
  · trivial

/-- Results that come later take nothing away. -/
theorem Begun.mono (h : Begun R cells) (hR : R ⊆ R') : Begun R' cells := by
  induction cells with
  | nil => trivial
  | cons cell rest ih =>
    obtain ⟨c, origin⟩ := cell
    cases origin with
    | source => exact ⟨h.1.mono hR, ih h.2⟩
    | literal => exact ih h

/-- Cells in front begin as the whole does. -/
theorem Starts.left (h : Starts R (xs ++ ys)) : Starts R xs := by
  cases xs with
  | nil => trivial
  | cons cell xs =>
    obtain ⟨c, origin⟩ := cell
    cases origin with
    | source => trivial
    | literal =>
      have h' : Begins R (c :: (xs ++ ys).map Prod.fst) := h
      rw [List.map_append, ← List.cons_append] at h'
      exact h'.of_append

/-- Cells in front are begun as in the whole. -/
theorem Begun.left (h : Begun R (xs ++ ys)) : Begun R xs := by
  induction xs with
  | nil => trivial
  | cons cell xs ih =>
    obtain ⟨c, origin⟩ := cell
    cases origin with
    | source => exact ⟨h.1.left, ih h.2⟩
    | literal => exact ih h

/-- So are the cells behind. -/
theorem Begun.right (h : Begun R (xs ++ ys)) : Begun R ys := by
  induction xs with
  | nil => exact h
  | cons cell xs ih =>
    obtain ⟨c, origin⟩ := cell
    cases origin with
    | source => exact ih h.2
    | literal => exact ih h

/-- And any cells in between. -/
theorem Begun.infix (h : Begun R cells) (hx : xs <:+: cells) : Begun R xs := by
  obtain ⟨before, behind, rfl⟩ := hx
  exact h.left.right

/-- Sound cells are sound as far as they are taken. -/
theorem Sound.left (h : Sound R (xs ++ ys)) : Sound R xs := ⟨h.1.left, h.2.left⟩

/-- What stands behind source text is sound. -/
theorem Begun.sound_drop (h : Begun R cells) {i : Nat} {c : Char}
    (hi : cells[i]? = some (c, .source)) : Sound R (cells.drop (i + 1)) := by
  induction cells generalizing i with
  | nil => cases hi
  | cons cell rest ih =>
    cases i with
    | zero =>
      obtain rfl : cell = (c, .source) := by simpa using hi
      exact h
    | succ i =>
      have hcons : Begun R ([cell] ++ rest) := h
      have hrest : Begun R rest := hcons.right
      exact ih hrest hi

/-- What begins with source text is sound. -/
theorem Begun.sound_drop_of_source (h : Begun R cells) {i : Nat} {c : Char}
    (hi : cells[i]? = some (c, .source)) : Sound R (cells.drop i) := by
  refine ⟨?_, Begun.infix h (List.drop_suffix i cells).isInfix⟩
  rw [List.drop_eq_getElem?_toList_append, hi]
  trivial

/-- What stands in place of a `$` may be anything that begins soundly. -/
theorem Starts.replace (hx : Starts R (xs ++ [dollarCell])) (hy : Starts R ys) :
    Starts R (xs ++ ys) := by
  cases xs with
  | nil => exact hy
  | cons cell xs =>
    obtain ⟨c, origin⟩ := cell
    cases origin with
    | source => trivial
    | literal =>
      have hx' : Begins R ((c :: xs.map Prod.fst) ++ ['$']) := by
        have h : Begins R (c :: (xs ++ [dollarCell]).map Prod.fst) := hx
        rwa [List.map_append, ← List.cons_append] at h
      have hgoal := hx'.replace (ys.map Prod.fst)
      change Begins R (c :: (xs ++ ys).map Prod.fst)
      rwa [List.map_append, ← List.cons_append]

/-- In place of a marker there can come whatever can stand behind source text. -/
theorem Begun.replace (hx : Begun R (xs ++ [dollarCell])) (hy : Sound R ys) :
    Begun R (xs ++ ys) := by
  induction xs with
  | nil => exact hy.2
  | cons cell xs ih =>
    obtain ⟨c, origin⟩ := cell
    cases origin with
    | source => exact ⟨hx.1.replace hy.1, ih hx.2⟩
    | literal => exact ih hx

/-- Cells that a `$` closes can be put before sound ones. -/
theorem Closed.append (hx : Closed R xs) (hy : Sound R ys) : Sound R (xs ++ ys) :=
  ⟨hx.1.replace hy.1, hx.2.replace hy⟩

/-- A result of its own is closed. -/
theorem closed_literal {r : Text} (hr : r ∈ R) :
    Closed R ((Text.escape r).map (·, Origin.literal)) := by
  -- no source text stands before the literal text, so nothing is asked of it there
  have hbegun : ∀ t : Text, Begun R (t.map (·, Origin.literal) ++ [dollarCell]) := by
    intro t
    induction t with
    | nil => exact ⟨trivial, trivial⟩
    | cons c t ih => exact ih
  refine ⟨?_, hbegun _⟩
  cases ht : Text.escape r with
  | nil => trivial
  | cons c t =>
    have hwhole : (c :: (t.map (·, Origin.literal) ++ [dollarCell]).map Prod.fst) =
        Text.escape r ++ ['$'] := by
      rw [ht, List.map_append, List.map_map, Function.comp_def, List.map_id']
      rfl
    refine ⟨r, hr, by rw [ht]; simp, .inl ?_⟩
    change Text.escape r <+: c :: (t.map (·, Origin.literal) ++ [dollarCell]).map Prod.fst
    rw [hwhole]
    exact List.prefix_append _ _

/-- Source text alone is sound. -/
theorem sound_source (t : Text) : Sound R (t.map (·, Origin.source)) := by
  induction t with
  | nil => exact ⟨trivial, trivial⟩
  | cons c t ih => exact ⟨trivial, ih⟩

/-! ### Words that stand in a document -/

/-- If no result continues a word, then where the word stands in the text and begins in the source
it is source text throughout. -/
theorem Begun.source_of_startsBy (h : Begun R cells) {alike : Char → Char → Bool} {word : Text}
    {i : Nat} (hword : Search.startsBy alike word ((cells.drop i).map Prod.fst) = true)
    (hhead : ∃ c, cells[i]? = some (c, .source))
    (hr : ∀ r ∈ R, continues alike word (Text.escape r) = false) {j : Nat}
    (hj : j < word.length) : ∃ c, cells[i + j]? = some (c, .source) := by
  -- by induction on the place in the word: up to there it is source text
  induction j with
  | zero => exact hhead
  | succ j ih =>
    obtain ⟨c, hc⟩ := ih (by omega)
    obtain ⟨a, ha⟩ : ∃ a, word[j + 1]? = some a := ⟨_, List.getElem?_eq_getElem hj⟩
    obtain ⟨b, hb, -⟩ := Search.getElem?_of_startsBy hword ha
    rw [List.getElem?_map, List.getElem?_drop] at hb
    obtain ⟨⟨b, origin⟩, hcell, -⟩ := Option.map_eq_some_iff.1 hb
    cases origin with
    | source => exact ⟨b, hcell⟩
    | literal =>
      -- a result begins at this place, and the word goes on with it
      exfalso
      have hstarts := (h.sound_drop hc).1
      rw [List.drop_eq_getElem?_toList_append, Nat.add_assoc, hcell] at hstarts
      obtain ⟨r, hmem, hne, hprefix⟩ := hstarts
      have hrest : Search.startsBy alike (word.drop (j + 1))
          (((cells.drop i).map Prod.fst).drop (j + 1)) = true := startsBy_drop hword (j + 1)
      have htext : ((cells.drop i).map Prod.fst).drop (j + 1) =
          b :: (cells.drop (i + (j + 1) + 1)).map Prod.fst := by
        rw [← List.map_drop, List.drop_drop, List.drop_eq_getElem?_toList_append, hcell]
        rfl
      rw [htext] at hrest
      have hagree := agree_of_startsBy hrest hprefix
      have hcontinues : continues alike word (Text.escape r) = true := by
        have hnonempty : (Text.escape r).isEmpty = false := by simpa using hne
        rw [continues, hnonempty, Bool.not_false, Bool.true_and, List.any_eq_true]
        exact ⟨j + 1, List.mem_range.2 hj, by simp [hagree]⟩
      rw [hr r hmem] at hcontinues
      cases hcontinues

/-! ### Markers -/

/-- Every marker of the cells is source text. -/
def Marked (cells : List Cell) : Prop := ∀ cell ∈ cells, isMarker cell.1 = true → cell.2 = .source

/-- Part of marked cells is marked. -/
theorem Marked.subset (h : Marked cells) (hx : xs ⊆ cells) : Marked xs :=
  fun cell hcell => h cell (hx hcell)

/-- Marked cells that are put in the place of others leave the whole marked. -/
theorem Marked.graft {s : Span} (h : Marked cells) (hx : Marked xs) : Marked (s.graft xs cells) := by
  intro cell hcell
  rcases List.mem_append.1 hcell with hcell | hcell
  · rcases List.mem_append.1 hcell with hcell | hcell
    · exact h cell (List.mem_of_mem_take hcell)
    · exact hx cell hcell
  · exact h cell (List.mem_of_mem_drop hcell)

/-- Cells gathered from marked ones are marked. -/
theorem Marked.gather {spans : List Span} (h : Marked cells) :
    Marked (Span.gather spans cells) := by
  intro cell hcell
  obtain ⟨s, -, hs⟩ := List.mem_flatMap.1 hcell
  exact h cell (Span.mem_of_mem_cut hs)

/-- A result brings no markers. -/
theorem marked_literal (r : Text) : Marked ((Text.escape r).map (·, Origin.literal)) := by
  intro cell hcell hmark
  obtain ⟨c, hc, rfl⟩ := List.mem_map.1 hcell
  rw [Text.isMarker_of_mem_escape hc] at hmark
  cases hmark

namespace Document

variable {d : Document}

/-- The characters of a stretch of a document are all source text. -/
def IsSource (d : Document) (start length : Nat) : Prop :=
  ∀ j < length, ∃ c, d.cells[start + j]? = some (c, .source)

/-- A marker of the text is a cell of the source. -/
theorem getElem?_cells_of_marked (h : Marked d.cells) {i : Nat} {m : Char}
    (hi : d.text[i]? = some m) (hm : isMarker m = true) : d.cells[i]? = some (m, .source) := by
  rw [← map_fst_cells, List.getElem?_map] at hi
  obtain ⟨⟨c, origin⟩, hcell, rfl⟩ := Option.map_eq_some_iff.1 hi
  obtain rfl : origin = .source := h _ (List.mem_of_getElem? hcell) hm
  exact hcell

/-- Without markers in its source a document has none, where every marker is source text. -/
theorem isMarker_of_hasMarker_eq_false (h : Marked d.cells) (hd : d.hasMarker = false) {m : Char}
    (hm : m ∈ d.text) : isMarker m = false := by
  rw [Bool.eq_false_iff]
  intro hmark
  obtain ⟨i, hi⟩ := List.mem_iff_getElem?.1 hm
  have hcell := List.mem_of_getElem? (getElem?_cells_of_marked h hi hmark)
  obtain ⟨f, hf, hmem⟩ := List.mem_flatMap.1 hcell
  obtain ⟨c, hc, heq⟩ := List.mem_map.1 hmem
  obtain ⟨rfl, horigin⟩ : c = m ∧ f.origin = .source := by simpa using heq
  refine List.any_eq_false.1 hd f hf ?_
  rw [horigin, Bool.and_eq_true, Text.hasMarker, List.any_eq_true]
  exact ⟨rfl, c, hc, hmark⟩

end Document

namespace Evaluator

variable {ev : Evaluator} {p q : Point} {source : Text} {state : ExecutionState} {d : Document}

/-- No completed call of the session returned a text that continues a name or a keyword. -/
def Harmless (ev : Evaluator) (s : Session) : Prop := ∀ r ∈ s.results, ev.forges r = false

/-- A session that is harmless later is harmless before. -/
theorem Harmless.of_suffix {s s' : Session} (h : ev.Harmless s') (hlog : s.log <:+ s'.log) :
    ev.Harmless s :=
  fun r hr => h r (Session.results_subset hlog hr)

/-- A result that forges nothing continues no name. -/
theorem not_continues_name {r name : Text} (h : ev.forges r = false) (hname : name ∈ ev.names) :
    continues sameLetter name (Text.escape r) = false := by
  have hnames := (Bool.or_eq_false_iff.1 h).1
  exact Bool.eq_false_iff.2 (List.any_eq_false.1 hnames name hname)

/-- And no keyword. -/
theorem not_continues_keyword {r : Text} (h : ev.forges r = false) (k : Keyword) :
    continues Keyword.alike k.text (Text.escape r) = false := by
  have hkeywords := (Bool.or_eq_false_iff.1 h).2
  exact Bool.eq_false_iff.2 (List.any_eq_false.1 hkeywords k k.mem_all)

/-! ### Runs -/

/-- No move brings a marker that is not of the source. -/
theorem Move.marked (h : Marked p.document.cells) (move : ev.Move p q) :
    Marked q.document.cells := by
  cases move with
  | leave => exact h
  | @call f span slots result s calls returns =>
    rw [afterCall, cells_replaced]
    exact h.graft (marked_literal result)
  | @argument f span slot slots done more args s calls within slots_eq earlier marked =>
    rw [enterPart, enter, Document.cells_slice_eq_cut]
    exact h.subset fun _ => Span.mem_of_mem_cut
  | @block b chosen s resolves chooses =>
    rw [afterBlock, enter, cells_restarted]
    exact h.graft h.gather
  | @condition b c asked later s resolves within conditions_eq earlier =>
    rw [enterPart, enter, Document.cells_slice_eq_cut]
    exact h.subset fun _ => Span.mem_of_mem_cut

/-- In every document of a run the markers are source text. -/
theorem Reached.marked (h : ev.Reached source state p) : Marked p.document.cells := by
  refine h.invariant (fun p => Marked p.document.cells) ?_ fun p q _ hp move => move.marked hp
  intro cell hcell _
  rw [start, enter, Document.cells_source] at hcell
  obtain ⟨c, -, rfl⟩ := List.mem_map.1 hcell
  rfl

/-- While results are harmless, names that stand in a document are source text. -/
theorem isSource_of_nameAt {R : List Text} {name : Text} {i : Nat} (hbegun : Begun R d.cells)
    (hR : ∀ r ∈ R, ev.forges r = false) (hname : name ∈ ev.names) (hat : d.NameAt name i) :
    d.IsSource i name.length := by
  intro j hj
  refine hbegun.source_of_startsBy ?_ ⟨_, hat.getElem?_start
    (head?_of_mem_names hname)⟩ (fun r hr => not_continues_name (hR r hr) hname) hj
  rw [List.map_drop, Document.map_fst_cells]
  exact hat.startsBy

/-- While results are harmless, keywords that stand in a document are source text. -/
theorem isSource_of_standsAt {R : List Text} {k : Keyword} {i : Nat} (hbegun : Begun R d.cells)
    (hmarked : Marked d.cells) (hR : ∀ r ∈ R, ev.forges r = false) (hat : k.StandsAt d.text i) :
    d.IsSource i k.size := by
  intro j hj
  refine hbegun.source_of_startsBy ?_
    ⟨_, Document.getElem?_cells_of_marked hmarked hat.getElem?_start rfl⟩
    (fun r hr => not_continues_keyword (hR r hr) k) hj
  rw [List.map_drop, Document.map_fst_cells]
  rwa [Keyword.StandsAt, Keyword.startsIn_eq] at hat

/-- At a fence source text stands, before it or behind it. -/
theorem source_of_fencedAt {R : List Text} {i : Nat} (hbegun : Begun R d.cells)
    (hmarked : Marked d.cells) (hR : ∀ r ∈ R, ev.forges r = false)
    (hfence : Block.FencedAt d.text i) :
    (∃ j c, i = j + 1 ∧ d.cells[j]? = some (c, .source)) ∨
      ∃ c, d.cells[i]? = some (c, .source) := by
  rcases hfence with ⟨j, rfl, hj⟩ | ⟨k, j, hat, rfl⟩ | hi
  · exact .inl ⟨j, _, rfl, Document.getElem?_cells_of_marked hmarked hj rfl⟩
  · have hpos : 0 < k.size := by cases k <;> decide
    obtain ⟨c, hc⟩ := isSource_of_standsAt hbegun hmarked hR hat (k.size - 1) (by omega)
    exact .inl ⟨_, c, by omega, hc⟩
  · exact .inr ⟨_, Document.getElem?_cells_of_marked hmarked hi rfl⟩

/-- Behind a fence the cells are sound. -/
theorem sound_of_fencedAt {R : List Text} {i : Nat} (hbegun : Begun R d.cells)
    (hmarked : Marked d.cells) (hR : ∀ r ∈ R, ev.forges r = false)
    (hfence : Block.FencedAt d.text i) : Sound R (d.cells.drop i) := by
  rcases source_of_fencedAt hbegun hmarked hR hfence with ⟨j, c, rfl, hj⟩ | ⟨c, hi⟩
  · exact hbegun.sound_drop hj
  · exact hbegun.sound_drop_of_source hi

/-- A call ends with its name or with a bracket, both of which are source text. -/
theorem source_of_covers {R : List Text} {name : Text} {span : Span} {slots : List (Option Span)}
    (hbegun : Begun R d.cells) (hmarked : Marked d.cells) (hR : ∀ r ∈ R, ev.forges r = false)
    (hname : name ∈ ev.names) (hcovers : CallSite.Covers d name span slots) :
    ∃ j c, span.stop = j + 1 ∧ d.cells[j]? = some (c, .source) := by
  have hpos : 0 < name.length := by
    obtain ⟨stem, rfl⟩ := List.head?_eq_some_iff.1 (head?_of_mem_names hname)
    exact Nat.succ_pos _
  -- a call without a list ends with its name, another one with the bracket of its list
  rcases hcovers.stop_eq_or with hstop | ⟨hlt, hbracket⟩
  · obtain ⟨c, hc⟩ := isSource_of_nameAt hbegun hR hname hcovers.name_at (name.length - 1)
      (by omega)
    exact ⟨_, c, by omega, hc⟩
  · exact ⟨span.stop - 1, _, by omega,
      Document.getElem?_cells_of_marked hmarked hbracket rfl⟩

/-- A fenced span is closed. -/
theorem closed_of_fenced {R : List Text} {s : Span} (hbegun : Begun R d.cells)
    (hmarked : Marked d.cells) (hR : ∀ r ∈ R, ev.forges r = false) (hle : s.start ≤ s.stop)
    (hfence : Block.Fenced d.text s) : Closed R (s.cut d.cells) := by
  have hsound := sound_of_fencedAt hbegun hmarked hR hfence.1
  have hstop := Document.getElem?_cells_of_marked hmarked hfence.2 rfl
  -- the span is followed by a `$`, so it is closed if the cells from its start on are sound
  have hsplit : d.cells.drop s.start =
      (s.cut d.cells ++ [dollarCell]) ++ d.cells.drop (s.stop + 1) := by
    have hbehind : d.cells.drop s.stop = dollarCell :: d.cells.drop (s.stop + 1) := by
      rw [List.drop_eq_getElem?_toList_append, hstop]
      rfl
    have hwhole := List.take_append_drop (s.stop - s.start) (d.cells.drop s.start)
    rw [List.drop_drop, Nat.add_sub_cancel' hle, hbehind] at hwhole
    rw [← hwhole, List.append_assoc]
    rfl
  rw [hsplit] at hsound
  exact hsound.left

/-- Closed spans gathered before sound cells give sound cells. -/
theorem sound_gather {R : List Text} {ys : List Cell} {spans : List Span}
    (hclosed : ∀ s ∈ spans, Closed R (s.cut d.cells)) (hy : Sound R ys) :
    Sound R (Span.gather spans d.cells ++ ys) := by
  induction spans with
  | nil => exact hy
  | cons s spans ih =>
    rw [Span.gather_cons, List.append_assoc]
    exact (hclosed s List.mem_cons_self).append
      (ih fun s' hs' => hclosed s' (List.mem_cons_of_mem s hs'))

/-- What can stand behind source text can be grafted where a marker stands. -/
theorem begun_graft {R : List Text} {s : Span} {new : List Cell} (hbegun : Begun R d.cells)
    (hstart : d.cells[s.start]? = some dollarCell)
    (hnew : Sound R (new ++ d.cells.drop s.stop)) : Begun R (s.graft new d.cells) := by
  have hfront : Begun R (d.cells.take s.start ++ [dollarCell]) := by
    have hwhole := List.take_append_drop s.start d.cells
    rw [List.drop_eq_getElem?_toList_append, hstart, ← List.append_assoc] at hwhole
    rw [← hwhole] at hbegun
    exact hbegun.left
  rw [Span.graft, List.append_assoc]
  exact hfront.replace hnew

/-- The result of a call is among the results of the session behind it. -/
theorem mem_results_of_callResult {nested : Nested} {f : Function} {slots : List (Option Span)}
    {s s' : Session} {result : Text} (h : ev.callResult nested d f slots s = (.ok result, s')) :
    result ∈ s'.results := by
  obtain ⟨_, s₁, -, h⟩ := Eval.bind_eq_ok.1 h
  obtain ⟨args, s₂, -, h⟩ := Eval.bind_eq_ok.1 h
  exact mem_results_of_callFunction h

/-- As long as results are harmless, literal text that follows source text begins a result. -/
theorem Move.begun (hlisted : ev.Listed p) (hmarked : Marked p.document.cells)
    (hbegun : Begun p.session.results p.document.cells) (move : ev.Move p q)
    (hq : ev.Harmless q.session) : Begun q.session.results q.document.cells := by
  have hlog : p.session.log <:+ q.session.log := (keptLog ev).move move
  have hsubset := Session.results_subset hlog
  have hbegun' : Begun q.session.results p.document.cells := hbegun.mono hsubset
  cases move with
  | leave => exact hbegun
  | @call f span slots result s calls returns =>
    obtain ⟨name, hhead, hname, hcovers⟩ := calls.covers hlisted
    have hresult : result ∈ s.results := mem_results_of_callResult returns
    obtain ⟨j, c, hstop, hlast⟩ := source_of_covers hbegun' hmarked hq hname hcovers
    -- the call ends with source text, so what follows is sound
    have hrest : Sound s.results (p.document.cells.drop span.stop) := by
      rw [hstop]
      exact hbegun'.sound_drop hlast
    rw [afterCall, cells_replaced]
    exact begun_graft hbegun' (hcovers.head hhead) ((closed_literal hresult).append hrest)
  | @argument f span slot slots done more args s calls within slots_eq earlier marked =>
    rw [enterPart, enter, Document.cells_slice_eq_cut]
    exact hbegun'.infix (Span.cut_isInfix _ _)
  | @block b chosen s resolves chooses =>
    have hlaid := resolves.laid
    obtain ⟨horder, hfenced⟩ := hlaid.choice_laid (mem_choices_of_chosenBody chooses)
    -- the `$endif` fences what stands behind the block
    have hrest : Sound s.results (p.document.cells.drop b.span.stop) := by
      have hbehind : Block.FencedAt p.document.text b.span.stop :=
        .inr (.inl ⟨.endIf, b.regionEnd, hlaid.endIf, hlaid.span_stop⟩)
      exact sound_of_fencedAt hbegun' hmarked hq hbehind
    have hclosed : ∀ span ∈ chosen, Closed s.results (span.cut p.document.cells) :=
      fun span hspan => closed_of_fenced hbegun' hmarked hq (horder.bounds hspan).2.1
        (hfenced span hspan)
    have hstart := Document.getElem?_cells_of_marked hmarked hlaid.opener.getElem?_start rfl
    rw [afterBlock, enter, cells_restarted]
    exact begun_graft hbegun' hstart (sound_gather hclosed hrest)
  | @condition b c asked later s resolves within conditions_eq earlier =>
    rw [enterPart, enter, Document.cells_slice_eq_cut]
    exact hbegun'.infix (Span.cut_isInfix _ _)

/-- In every document of a harmless run, literal text behind source text begins with a result. -/
theorem Reached.begun (h : ev.Reached source state p) (hp : ev.Harmless p.session) :
    Begun p.session.results p.document.cells := by
  have hstart : ev.Reached source state (ev.start source state) := .refl
  -- both invariants go along every run: a move needs the cells marked to keep them begun
  have hinv := h.invariant (fun p => Marked p.document.cells ∧
    (ev.Harmless p.session → Begun p.session.results p.document.cells)) ?_ ?_
  · exact hinv.2 hp
  · refine ⟨hstart.marked, fun _ => ?_⟩
    rw [start, enter, Document.cells_source]
    exact (sound_source source).2
  · intro p q hlisted hp move
    refine ⟨move.marked hp.1, fun hq => ?_⟩
    exact move.begun hlisted hp.1 (hp.2 (hq.of_suffix ((keptLog ev).move move))) hq

/-- Whatever stands in a document of a run begins in the source. As long as no completed call
returned a text that continues a name or a keyword, every name that is acted on is source text
throughout, and so is every keyword. -/
theorem acted_on_is_source (h : ev.Reached source state p) :
    Marked p.document.cells ∧
    (ev.Harmless p.session →
      (∀ name ∈ ev.names, ∀ i, p.document.NameAt name i → p.document.IsSource i name.length) ∧
      ∀ (k : Keyword) i, k.StandsAt p.document.text i → p.document.IsSource i k.size) := by
  refine ⟨h.marked, fun hp => ?_⟩
  have hbegun := h.begun hp
  exact ⟨fun name hname i hat => isSource_of_nameAt hbegun hp hname hat,
    fun k i hat => isSource_of_standsAt hbegun h.marked hp hat⟩

/-- In `$up $up` the first call returns `b`, which continues nothing; the second name is then source
text. -/
theorem second_name_is_source : ∃ p,
    (withFunctions [.constant ['u', 'p'] ['b']]).Reached "$up $up".toList .initial p ∧
    p.session.results = [['b']] ∧ p.document.text = "b $up".toList ∧
    p.document.IsSource 2 3 := by
  have hreached : (withFunctions [.constant ['u', 'p'] ['b']]).Reached "$up $up".toList .initial _ :=
    .single (.call ⟨['$', 'u', 'p'], ⟨by decide, rfl⟩, rfl, rfl⟩ rfl)
  have hharmless := (acted_on_is_source hreached).2 (by
    intro r hr
    obtain rfl : r = ['b'] := List.mem_singleton.1 hr
    decide)
  exact ⟨_, hreached, rfl, rfl, hharmless.1 ['$', 'u', 'p'] (by decide) 2 (by decide)⟩

/-- A function that returns the end of the name of another one. -/
def forging : Evaluator :=
  withFunctions [.constant ['x'] ['T', 'a', 'g'], .constant ['u', 's', 'e', 'r', 'T', 'a', 'g'] ['T']]

/-- In `$user$x` with a function `$userTag` the result `Tag` completes the name: the call that is
next covers the end of the result. -/
theorem result_completes_name : ∃ p,
    forging.Reached "$user$x\n$userTag".toList .initial p ∧
    forging.Next p "$userTag".toList ∧
    CallSite.find p.document "$userTag".toList = .bare ⟨0, 8⟩ ∧
    ¬ p.document.IsSource 0 8 := by
  refine ⟨_, .single (.call ⟨['$', 'x'], ⟨by decide, rfl⟩, rfl, rfl⟩ rfl), ⟨by decide, rfl⟩, rfl,
    fun h => ?_⟩
  obtain ⟨c, hc⟩ := h 5 (by decide)
  cases hc

end Evaluator

end Stencil
