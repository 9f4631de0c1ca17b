import Stencil.Proofs.Closed
import Stencil.Proofs.Meaning
import Stencil.Proofs.Order
/-!
# Line by line

The worklist of a pass goes through the text line by line, and what is called is the first
occurrence of the name that is next. So the calls above a line break come first: as long as one of
them is left, its name is on the worklist in front of the names of the lines below
(`Above.covered`), and no step of the pass is taken below the break.

Two things set a limit to this. A control name above ends the pass: the last block of the document
is resolved, wherever it stands, and a new pass begins (`Interrupted`). And a name can be on the
worklist for nothing, when its call stood between the brackets of another one and went with it
(`Swallowed`). It is then taken for a call of the same name below, in front of what is left above
(`Overtaken`).
-/

namespace Stencil

/-! ### Texts above a line break -/

/-- Every name that stands in the text has its argument list right behind it. -/
def Bracketed (names : List Text) (t : Text) : Prop :=
  ∀ name ∈ names, ∀ i < t.length, Text.startsFolded name (t.drop i) = true →
    (t.drop i)[name.length]? = some '['

instance (names : List Text) (t : Text) : Decidable (Bracketed names t) :=
  inferInstanceAs (Decidable (∀ name ∈ names, ∀ i < t.length, _ → _))

/-- The text above a line break is complete in itself: names are legible, brackets are closed that
are opened, and unless every name has its own brackets, the text below does not begin with an
argument list. -/
structure SelfContained (names : List Text) (above below : Text) : Prop where
  legible : Legible names above
  closed : Bracket.Closed above
  ends : Bracketed names above ∨ CallSite.listOpening? below 0 = none

/-- What takes the place of a stretch that begins with a `$` parts no name from its brackets. -/
theorem Bracketed.replace {names : List Text} {before mid behind new : Text}
    (hnames : Worklist.Separate names) (h : Bracketed names (before ++ '$' :: (mid ++ behind)))
    (hlegible : Legible names (before ++ '$' :: (mid ++ behind))) (hnew : '$' ∉ new) :
    Bracketed names (before ++ (new ++ behind)) := by
  intro name hname i hi hstarts
  have hlisted : name ∈ Worklist.withControls names := List.mem_append_left _ hname
  rcases Nat.lt_or_ge i before.length with hlt | hge
  · have hsame := hlegible.startsFolded_replace hnames hlisted hlt
    have hopen := h name hname i (by rw [List.length_append]; omega) (by rw [← hsame, hstarts])
    -- the name and its bracket end in front of the stretch
    have hends := hsame []
    rw [← hsame (new ++ behind), hstarts, List.append_nil] at hends
    have hle := Search.startsBy_length_le hends
    have hwithin : name.length < (before.drop i).length := by
      refine lt_of_le_of_ne hle fun heq => ?_
      rw [List.drop_append_of_le_length hlt.le, heq, List.getElem?_append_right le_rfl,
        Nat.sub_self] at hopen
      cases hopen
    rw [List.drop_append_of_le_length hlt.le, List.getElem?_append_left hwithin] at hopen ⊢
    exact hopen
  · obtain ⟨n, rfl⟩ := Nat.exists_eq_add_of_le hge
    rw [← List.drop_drop, List.drop_left] at hstarts ⊢
    rcases Nat.lt_or_ge n new.length with hlt | hge
    · obtain ⟨a, letters, rfl, -⟩ := hnames.exists_eq_cons hlisted
      have hdollar := Text.getElem?_of_startsFolded rfl hstarts
      rw [List.getElem?_append_left hlt] at hdollar
      exact absurd (List.mem_of_getElem? hdollar) hnew
    · obtain ⟨k, rfl⟩ := Nat.exists_eq_add_of_le hge
      rw [← List.drop_drop, List.drop_left] at hstarts ⊢
      have hdrop : (before ++ '$' :: (mid ++ behind)).drop (before.length + (mid.length + k + 1)) =
          behind.drop k := by
        rw [← List.drop_drop, List.drop_left, List.drop_succ_cons, ← List.drop_drop,
          List.drop_left]
      rw [← hdrop] at hstarts ⊢
      refine h name hname _ ?_ hstarts
      simp only [List.length_append, List.length_cons] at hi ⊢
      omega

namespace SelfContained

variable {names : List Text} {above below name : Text} {d : Document} {span : Span}
  {slots : List (Option Span)}

/-- Names are made of letters, but for the `$`. -/
theorem letters (hnames : Worklist.Separate names) (hname : name ∈ Worklist.withControls names) :
    ∀ a ∈ name, a = '$' ∨ a.isAlpha = true := by
  obtain ⟨b, letters, rfl, halpha⟩ := hnames.exists_eq_cons hname
  exact fun a ha => (List.mem_cons.1 ha).imp_right (halpha a)

/-- A name that stands in the text above stands there whatever is below. -/
theorem startsFolded_drop (below : Text) (hnames : Worklist.Separate names)
    (hname : name ∈ Worklist.withControls names) {i : Nat} (hi : i ≤ above.length) :
    Text.startsFolded name ((above ++ '\n' :: below).drop i) =
      Text.startsFolded name (above.drop i) := by
  obtain ⟨a, letters, rfl, halpha⟩ := hnames.exists_eq_cons hname
  rw [List.drop_append_of_le_length hi, Worklist.startsFolded_append_cons halpha rfl (by decide)]

/-- An argument list of a name above is closed above. -/
theorem exists_closing (h : SelfContained names above below) (hname : name ∈ names) {i : Nat}
    (hi : i < above.length) (hstarts : Text.startsFolded name (above.drop i) = true) {opening : Nat}
    (hopening : CallSite.listOpening? (above ++ '\n' :: below) (i + name.length) = some opening) :
    ∃ k < above.length, Bracket.closing? (above ++ '\n' :: below) opening = some k := by
  have hfits : i + name.length ≤ above.length := by
    have hle := Search.startsBy_length_le hstarts
    rw [List.length_drop] at hle
    omega
  obtain ⟨hle, hopen, hplain⟩ := CallSite.listOpening?_eq_some_iff.1 hopening
  have hin : opening < above.length := by
    rcases h.ends with hbracketed | hnone
    -- the bracket of a call stands right behind its name
    · have hget := hbracketed name hname i hi hstarts
      rw [List.getElem?_drop] at hget
      have hlt := (List.getElem?_eq_some_iff.1 hget).1
      rcases hle.eq_or_lt with heq | hlater
      · rwa [← heq]
      · have := hplain _ '[' le_rfl hlater (by rw [List.getElem?_append_left hlt, hget])
        cases this
    -- no opening bracket stands below in front of other markers
    · by_contra hout
      have hbreak : opening ≠ above.length := by
        rintro rfl
        rw [List.getElem?_append_right le_rfl, Nat.sub_self] at hopen
        cases hopen
      obtain ⟨n, rfl⟩ : ∃ n, opening = above.length + (n + 1) :=
        ⟨opening - above.length - 1, by omega⟩
      have hget : ∀ m, (above ++ '\n' :: below)[above.length + (m + 1)]? = below[m]? := by
        intro m
        rw [List.getElem?_append_right (Nat.le_add_right ..), Nat.add_sub_cancel_left,
          List.getElem?_cons_succ]
      have hbelow : CallSite.listOpening? below 0 = some n := by
        refine CallSite.listOpening?_eq_some_iff.2 ⟨Nat.zero_le n, by rw [← hget, hopen],
          fun m c _ hm hc => hplain (above.length + (m + 1)) c (by omega) (by omega) ?_⟩
        rw [hget, hc]
      rw [hnone] at hbelow
      cases hbelow
  rw [List.getElem?_append_left hin] at hopen
  obtain ⟨k, hk, hklt⟩ := h.closed.closing?_append hopen ('\n' :: below)
  exact ⟨k, hklt, hk⟩

/-- A call that begins above the line break ends above it. -/
theorem stop_le (hnames : Worklist.Separate names) (h : SelfContained names above below)
    (htext : d.text = above ++ '\n' :: below) (hname : name ∈ names)
    (hcovers : CallSite.Covers d name span slots) (hstart : span.start < above.length) :
    span.stop ≤ above.length := by
  have hstarts : Text.startsFolded name (above.drop span.start) = true := by
    rw [← startsFolded_drop below hnames (List.mem_append_left _ hname) hstart.le,
      ← htext]
    exact hcovers.name_at.startsBy
  -- a name without a list ends above, and a list is closed above
  rcases hcovers.shape with ⟨-, hstop, -⟩ | ⟨opening, hopening, hlt, hclosing, -⟩
  · have hle := Search.startsBy_length_le hstarts
    rw [List.length_drop] at hle
    omega
  · rw [htext] at hopening hclosing
    obtain ⟨k, hklt, hk⟩ := h.exists_closing hname hstart hstarts hopening
    have := Option.some.inj (hk.symm.trans hclosing)
    omega

/-- What has no markers can take the place of a call. -/
theorem replace (hnames : Worklist.Separate names) {before mid behind new : Text}
    (h : SelfContained names (before ++ '$' :: (mid ++ behind)) below)
    (hbalanced : Bracket.Balanced ('$' :: mid)) (hnew : ∀ c ∈ new, isMarker c = false) :
    SelfContained names (before ++ (new ++ behind)) below := by
  have hnot : ∀ m, isMarker m = true → m ∉ new := by
    intro m hm hmem
    rw [hnew m hmem] at hm
    cases hm
  refine ⟨h.legible.replace hnames (hnot '$' rfl), ?_,
    h.ends.imp_left (·.replace hnames h.legible (hnot '$' rfl))⟩
  -- a text without markers has no brackets, so what was closed stays closed
  refine Bracket.Closed.replace ('$' :: mid) h.closed hbalanced ?_ (hnot '[' rfl)
  refine .of_plain fun c hc => ⟨?_, ?_⟩
  · rintro rfl
    exact hnot '[' rfl hc
  · rintro rfl
    exact hnot ']' rfl hc

end SelfContained

namespace Evaluator

variable {ev : Evaluator} {source : Text} {state : ExecutionState} {s p q r u v w : Point}
  {above below upper name : Text} {places : List (Option Nat)} {left : List Text} {x y n : Nat}

/-! ### Names that stand above -/

/-- A name that stands above is found there. -/
theorem exists_findName? (hnames : Worklist.Separate ev.registry.names)
    (hp : ev.Reached source state p) (htext : p.document.text = upper ++ '\n' :: below)
    (hname : name ∈ ev.names) (hpos : 0 < Text.occurrences name upper) :
    ∃ i < upper.length, p.document.findName? name 0 = some i := by
  obtain ⟨i, hi, hstarts⟩ := Text.exists_of_occurrences_pos hpos
  rw [← SelfContained.startsFolded_drop below hnames hname hi.le, ← htext] at hstarts
  have hat := hp.nameAt (head?_of_mem_names hname) hstarts
  have hle : i ≤ p.document.text.length := by
    rw [htext, List.length_append]
    omega
  obtain ⟨j, hj⟩ := hat.exists_findName? hle
  obtain ⟨-, -, -, hfirst⟩ := Document.findName?_eq_some_iff.1 hj
  refine ⟨j, ?_, hj⟩
  by_contra hge
  exact hfirst i (Nat.zero_le i) (by omega) hat

/-- A name that does not wait for a block is one of a function. -/
theorem mem_registry_of_free {d : Document} (hname : name ∈ ev.names)
    (hfree : isPending d name = false) : name ∈ ev.registry.names := by
  rw [isPending, Bool.or_eq_false_iff] at hfree
  exact mem_registry_names hname hfree.1

/-- A name that stands above is called there, or its argument list is missing. -/
theorem orderFor_ne_leave (hnames : Worklist.Separate ev.registry.names) {d : Document}
    (htext : d.text = upper ++ '\n' :: below)
    (hupper : SelfContained ev.registry.names upper below) (hname : name ∈ ev.registry.names)
    {i : Nat} (hi : i < upper.length) (hfind : d.findName? name 0 = some i) :
    ev.orderFor d name ≠ .leave := by
  obtain ⟨f, hf⟩ := exists_get? hname
  have hlisted : name ∈ ev.names := List.mem_append_left _ hname
  obtain ⟨-, -, hat, -⟩ := Document.findName?_eq_some_iff.1 hfind
  have hdollar : upper[i]? = some '$' := by
    have := Text.getElem?_of_startsFolded (head?_of_mem_names hlisted) hat.startsBy
    rwa [htext, List.getElem?_append_left hi] at this
  -- a `$` in front of the name would begin none, and none stands behind it
  have hescaped : (0 < i && d.text[i - 1]? == some '$') = false := by
    rw [Bool.and_eq_false_iff, decide_eq_false_iff_not, beq_eq_false_iff_ne]
    refine (Nat.eq_zero_or_pos i).imp (fun hzero => by omega) fun hpos hbefore => ?_
    rw [htext, List.getElem?_append_left (by omega)] at hbefore
    have hnext : (upper.drop (i - 1))[1]? = some '$' := by
      rw [List.getElem?_drop, Nat.sub_add_cancel hpos, hdollar]
    rcases hupper.legible (i - 1) hbefore with ⟨entry, hentry, hstands⟩ | hplain
    · obtain ⟨a, letters, rfl, halpha⟩ := hnames.exists_eq_cons hentry
      obtain ⟨c, stem, rest, heq, hletters, -⟩ := Worklist.exists_written halpha hstands
      rw [heq] at hnext
      obtain rfl : c = '$' := by simpa using hnext
      cases hletters '$' List.mem_cons_self
    · rw [List.tail_drop, Nat.sub_add_cancel hpos, List.drop_eq_getElem_cons hi,
        (List.getElem?_eq_some_iff.1 hdollar).2] at hplain
      exact hplain rfl
  rw [orderFor, CallSite.find, hfind]
  simp only [CallSite.ofPosition, hescaped, Bool.false_eq_true, if_false]
  cases hopening : CallSite.listOpening? d.text (i + name.length) with
  | none =>
    simp only [hf]
    split <;> exact fun h => by cases h
  | some opening =>
    have hstarts : Text.startsFolded name (upper.drop i) = true := by
      rw [← SelfContained.startsFolded_drop below hnames hlisted hi.le, ← htext]
      exact hat.startsBy
    rw [htext] at hopening
    obtain ⟨k, -, hk⟩ := hupper.exists_closing hname hi hstarts hopening
    rw [← htext] at hk
    simp only [hk, hf]
    exact fun h => by cases h

/-! ### Steps and what they leave above -/

/-- A call or a block that is written at the place is next. -/
def ActsAt (ev : Evaluator) (p : Point) (y : Nat) : Prop :=
  (∃ f span slots, ev.Calls p f span slots ∧ p.places[span.start]? = some (some y)) ∨
    ∃ b, ev.Resolves p b ∧ p.places[b.span.start]? = some (some y)

/-- On the way from one point to another a call was made that had the name between its brackets. -/
def Swallowed (ev : Evaluator) (s p : Point) (name : Text) : Prop :=
  ∃ u f span slots m, ev.Leads s u ∧ ev.Leads u p ∧ ev.Calls u f span slots ∧ span.start < m ∧
    m < span.stop ∧ u.document.NameAt name m

/-- A name that was swallowed stays so. -/
theorem Swallowed.move (h : ev.Swallowed s p name) (move : ev.Move p r) :
    ev.Swallowed s r name := by
  obtain ⟨u, f, span, slots, m, hsu, hup, hrest⟩ := h
  exact ⟨u, f, span, slots, m, hsu, hup.tail move, hrest⟩

/-- On the way from one point to another, while the place `x` is there, a step is taken behind the
first `n` characters for a name that has been swallowed. -/
def Overtaken (ev : Evaluator) (s q : Point) (n x : Nat) : Prop :=
  ∃ u name y, ev.Leads s u ∧ ev.Leads u q ∧ some x ∈ u.places ∧ ev.Next u name ∧
    ev.Swallowed s u name ∧ ev.ActsAt u y ∧ some y ∈ s.places.drop n

/-- What was overtaken stays so. -/
theorem Overtaken.trans (h : ev.Overtaken s p n x) (hleads : ev.Leads p r) :
    ev.Overtaken s r n x := by
  obtain ⟨u, name, y, hsu, hup, hrest⟩ := h
  exact ⟨u, name, y, hsu, hup.trans hleads, hrest⟩

/-- On the way from one point to another a block is resolved that is no part of an argument or a
condition. -/
def Interrupted (ev : Evaluator) (s q : Point) : Prop :=
  ∃ u b, ev.Leads s u ∧ u.depth = s.depth ∧ ev.Resolves u b ∧ ev.Leads u q

/-- So does what was interrupted. -/
theorem Interrupted.trans (h : ev.Interrupted s p) (hleads : ev.Leads p r) :
    ev.Interrupted s r := by
  obtain ⟨u, b, hsu, hdepth, hb, hup⟩ := h
  exact ⟨u, b, hsu, hdepth, hb, hup.trans hleads⟩

/-- The pass that begins at `s` has worked on the text above the line break only: `upper` is left of
it, with its places, and `left` of its names. -/
structure Above (ev : Evaluator) (s : Point) (above below : Text) (x : Nat) (p : Point)
    (upper : Text) (places : List (Option Nat)) (left : List Text) : Prop where
  depth_eq : p.depth = s.depth
  text_eq : p.document.text = upper ++ '\n' :: below
  places_eq : p.places = places ++ s.places.drop above.length
  length_eq : places.length = upper.length
  worklist_eq : p.worklist = left ++ Worklist.ofText ev.names below
  contained : SelfContained ev.registry.names upper below
  listed : ∀ name ∈ left, name ∈ Worklist.ofText ev.names above
  covered : ∀ name ∈ ev.names, Text.occurrences name upper ≤ left.count name
  spent : ∀ name ∈ ev.names, left.count name ≤ Text.occurrences name upper ∨ ev.Swallowed s p name
  places_subset : ∀ z, some z ∈ places → some z ∈ s.places.take above.length
  named : ∀ i, places[i]? = some (some x) →
    ∃ name ∈ ev.registry.names, Text.startsFolded name (upper.drop i) = true

namespace Above

/-- What has a place above was written above. -/
theorem mem_take (h : ev.Above s above below x p upper places left) {i z : Nat}
    (hi : i < upper.length) (hz : p.places[i]? = some (some z)) :
    some z ∈ s.places.take above.length := by
  rw [h.places_eq, List.getElem?_append_left (h.length_eq ▸ hi)] at hz
  exact h.places_subset z (List.mem_of_getElem? hz)

/-- What has a place below was written below. -/
theorem mem_drop (h : ev.Above s above below x p upper places left) {i z : Nat}
    (hi : upper.length ≤ i) (hz : p.places[i]? = some (some z)) :
    some z ∈ s.places.drop above.length := by
  rw [h.places_eq, List.getElem?_append_right (h.length_eq ▸ hi)] at hz
  exact List.mem_of_getElem? hz

/-- When the names of the text above are done, the call is over. -/
theorem not_mem_places (h : ev.Above s above below x p upper places []) (hrising : Rising s.places)
    (hx : some x ∈ s.places.take above.length) : some x ∉ p.places := by
  rw [h.places_eq, List.mem_append, not_or]
  refine ⟨fun hmem => ?_, hrising.not_mem_drop hx⟩
  obtain ⟨i, hi⟩ := List.mem_iff_getElem?.1 hmem
  obtain ⟨name, hname, hstarts⟩ := h.named i hi
  have hlt : i < upper.length := h.length_eq ▸ (List.getElem?_eq_some_iff.1 hi).1
  have hpos := Text.occurrences_pos hlt hstarts
  have hcount := h.covered name (List.mem_append_left _ hname)
  rw [List.count_nil] at hcount
  omega

/-- Where no control name stands above, none comes to stand there. -/
theorem uncontrolled (hnames : Worklist.Separate ev.registry.names)
    (h : ev.Above s above below x p upper places left) (habove : Uncontrolled above) :
    Uncontrolled upper := by
  intro control hcontrol
  by_contra hpos
  have hcount := h.covered control (hnames.mem_withControls hcontrol)
  have hmem : control ∈ left := List.count_pos_iff.1 (by omega)
  obtain ⟨i, hi⟩ := Worklist.stands_of_mem_ofText (h.listed control hmem)
  rw [habove.startsFolded hcontrol] at hi
  cases hi

/-- A pass begins with the whole text above. -/
theorem start (hnames : Worklist.Separate ev.registry.names) (hs : ev.Reached source state s)
    (hpass : s.worklist = Worklist.ofText ev.names s.document.text)
    (htext : s.document.text = above ++ '\n' :: below)
    (habove : SelfContained ev.registry.names above below) {i : Nat}
    (hx : s.places[i]? = some (some x))
    (hcall : ∃ name ∈ ev.registry.names, Text.startsFolded name (above.drop i) = true) :
    ev.Above s above below x s above (s.places.take above.length)
      (Worklist.ofText ev.names above) where
  depth_eq := rfl
  text_eq := htext
  places_eq := (List.take_append_drop _ _).symm
  length_eq := by
    rw [List.length_take, ← hs.length_places, htext, List.length_append]
    omega
  worklist_eq := by rw [hpass, htext, Worklist.ofText_break]
  contained := habove
  listed name hname := hname
  covered name hname := (hnames.count_ofText hname above).ge
  spent name hname := .inl (hnames.count_ofText hname above).le
  places_subset z hz := hz
  named j hj := by
    rw [List.getElem?_take] at hj
    split at hj
    · rwa [hs.rising.eq_of_eq hj hx]
    · cases hj

/-- A name that does not stand above any more can be left out. -/
theorem leave (h : ev.Above s above below x p upper places (name :: left))
    (hzero : Text.occurrences name upper = 0)
    (move : ev.Move p { p with worklist := p.worklist.tail }) :
    ev.Above s above below x { p with worklist := p.worklist.tail } upper places left where
  depth_eq := h.depth_eq
  text_eq := h.text_eq
  places_eq := h.places_eq
  length_eq := h.length_eq
  worklist_eq := by rw [h.worklist_eq]; rfl
  contained := h.contained
  listed other hother := h.listed other (List.mem_cons_of_mem name hother)
  -- the name does not stand above any more, so one entry less is enough
  covered other hother := by
    have hcount := h.covered other hother
    rw [List.count_cons] at hcount
    split at hcount
    · next heq =>
      obtain rfl : name = other := beq_iff_eq.1 heq
      omega
    · exact hcount
  spent other hother := by
    have hle := (List.sublist_cons_self name left).count_le other
    exact (h.spent other hother).imp hle.trans (·.move move)
  places_subset := h.places_subset
  named := h.named

/-- The name that is next is the first entry. -/
theorem eq_of_next (h : ev.Above s above below x p upper places (name :: left)) {other : Text}
    (hnext : ev.Next p other) : other = name := by
  obtain ⟨-, hhead⟩ := hnext
  rw [h.worklist_eq] at hhead
  exact (Option.some.inj hhead).symm

/-- The call that is next is one of the name that is next. -/
theorem covers (hp : ev.Reached source state p)
    (h : ev.Above s above below x p upper places (name :: left)) {f : Function} {span : Span}
    {slots : List (Option Span)} (hcalls : ev.Calls p f span slots) :
    ev.Next p name ∧ name ∈ ev.registry.names ∧
      CallSite.Covers p.document name span slots := by
  obtain ⟨other, hnext, hfree, horder⟩ := hcalls
  obtain rfl := h.eq_of_next hnext
  have hname := hnext.mem_names hp.listed
  exact ⟨hnext, mem_registry_of_free hname hfree,
    (orderFor_eq_call (head?_of_mem_names hname) horder).1⟩

/-- A call above leaves what stands around it. -/
theorem call (hnames : Worklist.Separate ev.registry.names) (hp : ev.Reached source state p)
    (hsp : ev.Leads s p) (h : ev.Above s above below x p upper places (name :: left))
    {f : Function} {span : Span} {slots : List (Option Span)} (hcalls : ev.Calls p f span slots)
    (hstart : span.start < upper.length) {result : Text} {t : Session}
    (hresult : ev.callResult (ev.resolveAt (p.depth + 1)) p.document f slots p.session =
      (.ok result, t)) :
    ev.Above s above below x (afterCall p span result t) (span.graft (Text.escape result) upper)
      (span.graft (List.replicate (Text.escape result).length none) places) left := by
  have move : ev.Move p (afterCall p span result t) := .call hcalls hresult
  obtain ⟨-, hregistered, hcovers⟩ := h.covers hp hcalls
  have hname : name ∈ ev.names := List.mem_append_left _ hregistered
  have hstop := h.contained.stop_le hnames h.text_eq hregistered hcovers hstart
  have hlt := hcalls.start_lt_stop hp.listed
  have hplain : ∀ c ∈ Text.escape result, isMarker c = false :=
    fun c hc => Text.isMarker_of_mem_escape hc
  have hdollar : '$' ∉ Text.escape result := fun hmem => by cases hplain '$' hmem
  have hat : Text.startsFolded name (upper.drop span.start) = true := by
    rw [← SelfContained.startsFolded_drop below hnames hname hstart.le, ← h.text_eq]
    exact hcovers.name_at.startsBy
  have hbalanced : Bracket.Balanced (span.cut upper) := by
    have := hcovers.balanced (SelfContained.letters hnames hname)
    rwa [h.text_eq, Span.cut_append_left hstart.le hstop] at this
  -- the text and the places fall apart around the call
  obtain ⟨before, mid, behind, hupper, hbefore, hstopEq, hcut, hgraft⟩ :=
    Span.exists_eq_append_cons
      (Text.getElem?_of_startsFolded (head?_of_mem_names hname) hat) hlt hstop
  obtain ⟨z, hz⟩ := hcalls.exists_place hp
  rw [h.places_eq, List.getElem?_append_left (h.length_eq ▸ hstart)] at hz
  obtain ⟨placesBefore, placesMid, placesBehind, hplaces, hplacesBefore, hplacesStop, -,
    hplacesGraft⟩ := Span.exists_eq_append_cons hz hlt (h.length_eq ▸ hstop)
  have hcontained := h.contained
  rw [hcut] at hbalanced
  rw [hupper, ← hbefore, List.drop_left] at hat
  rw [hupper] at hcontained
  rw [hgraft, hplacesGraft]
  refine ⟨h.depth_eq, ?_, ?_, ?_, ?_, ?_, ?_, ?_, ?_, ?_, ?_⟩
  · rw [afterCall, replaced, Document.text_splice_eq_graft, Document.text_literal, h.text_eq,
      Span.graft_append hstart.le hstop, hgraft]
  · have := h.length_eq
    rw [afterCall, h.places_eq, Span.graft_append (by omega) (by omega), hplacesGraft]
  · have := h.length_eq
    rw [hplaces, hupper] at this
    simp only [List.length_append, List.length_cons, List.length_replicate] at this ⊢
    omega
  · rw [afterCall, h.worklist_eq]
    rfl
  · exact hcontained.replace hnames hbalanced hplain
  · exact fun other hother => h.listed other (List.mem_cons_of_mem name hother)
  · intro other hother
    exact hcontained.legible.occurrences_le_count hnames hat hdollar hother
      (hupper ▸ h.covered other hother)
  · intro other hother
    by_cases hin : ∃ m < mid.length, Text.startsFolded other (mid.drop m ++ behind) = true
    · obtain ⟨m, hm, hstarts⟩ := hin
      refine .inr ⟨p, f, span, slots, span.start + 1 + m, hsp, .single move, hcalls, by omega,
        by omega, hp.nameAt (head?_of_mem_names hother) ?_⟩
      have hdrop : p.document.text.drop (span.start + 1 + m) =
          mid.drop m ++ behind ++ '\n' :: below := by
        rw [h.text_eq, hupper, ← hbefore, List.append_assoc, Nat.add_assoc, ← List.drop_drop,
          List.drop_left, Nat.add_comm 1 m, List.cons_append, List.drop_succ_cons,
          List.append_assoc, List.drop_append_of_le_length hm.le, List.append_assoc]
      rw [hdrop]
      exact Search.startsBy_append _ hstarts
    · refine (h.spent other hother).imp (fun hcount => ?_) (·.move move)
      exact hcontained.legible.count_le_occurrences hnames hname hat hdollar hother
        (fun m hm => Bool.eq_false_iff.2 fun hstarts => hin ⟨m, hm, hstarts⟩) (hupper ▸ hcount)
  · intro z hz
    rw [← hplacesGraft] at hz
    rcases Span.mem_graft hz with hnew | ⟨i, -, hi⟩
    · cases List.eq_of_mem_replicate hnew
    · exact h.places_subset z (List.mem_of_getElem? hi)
  · intro i hi
    have hmid : placesMid.length = mid.length := by omega
    have hnamed := h.named
    rw [hplaces, hupper] at hnamed
    exact hcontained.legible.exists_startsFolded hnames (hplacesBefore.trans hbefore.symm) hmid
      hnamed hi

/-! ### What is next -/

/-- A name that stands above no more while it is on the worklist has been swallowed. -/
theorem swallowed (hname : name ∈ ev.names)
    (h : ev.Above s above below x p upper places (name :: left))
    (hzero : Text.occurrences name upper = 0) : ev.Swallowed s p name := by
  refine (h.spent name hname).resolve_left fun hcount => ?_
  rw [List.count_cons_self] at hcount
  omega

/-- What is left out does not stand above. -/
theorem occurrences_of_leave (hnames : Worklist.Separate ev.registry.names)
    (hp : ev.Reached source state p)
    (h : ev.Above s above below x p upper places (name :: left)) (hname : name ∈ ev.names)
    (hfree : isPending p.document name = false) (horder : ev.orderFor p.document name = .leave) :
    Text.occurrences name upper = 0 := by
  by_contra hpos
  obtain ⟨i, hi, hfind⟩ := exists_findName? hnames hp h.text_eq hname (Nat.pos_of_ne_zero hpos)
  exact orderFor_ne_leave hnames h.text_eq h.contained (mem_registry_of_free hname hfree) hi hfind
    horder

/-- A step that is next is a call above, unless a block above is waited for, or the name that is
next has been swallowed. -/
theorem acts (hnames : Worklist.Separate ev.registry.names) (hp : ev.Reached source state p)
    (hsp : ev.Leads s p) (h : ev.Above s above below x p upper places (name :: left))
    (hacts : (∃ f span slots, ev.Calls p f span slots) ∨ ∃ b, ev.Resolves p b) :
    (¬ Uncontrolled above ∧ ev.Interrupted s p) ∨
      (some x ∈ p.places → ev.Overtaken s p above.length x) ∨
      ∃ f span slots, ev.Calls p f span slots ∧ span.start < upper.length := by
  -- a call acts above, or below when its name does not stand above any more
  rcases hacts with ⟨f, span, slots, hcalls⟩ | ⟨b, hb⟩
  · obtain ⟨hnext, hregistered, hcovers⟩ := h.covers hp hcalls
    have hname : name ∈ ev.names := List.mem_append_left _ hregistered
    refine .inr ((Nat.lt_or_ge span.start upper.length).symm.imp (fun hge hxp => ?_)
      fun hlt => ⟨f, span, slots, hcalls, hlt⟩)
    have hzero : Text.occurrences name upper = 0 := by
      by_contra hpos
      obtain ⟨i, hi, hfind⟩ :=
        exists_findName? hnames hp h.text_eq hname (Nat.pos_of_ne_zero hpos)
      obtain ⟨-, -, hat, -⟩ := Document.findName?_eq_some_iff.1 hfind
      exact hcovers.first i (by omega) hat
    obtain ⟨y, hy⟩ := hcalls.exists_place hp
    exact ⟨p, name, y, hsp, .refl, hxp, hnext, h.swallowed hname hzero,
      .inl ⟨f, span, slots, hcalls, hy⟩, h.mem_drop hge hy⟩
  -- a block that is resolved has its opener below, where nothing above is controlled
  · by_cases habove : Uncontrolled above
    · refine .inr (.inl fun hxp => ?_)
      have hupper := h.uncontrolled hnames habove
      obtain ⟨other, hnext, hpending, -⟩ := id hb
      obtain rfl := h.eq_of_next hnext
      have hregistered := habove.mem_names_of_mem_ofText (h.listed other List.mem_cons_self)
      have hname : other ∈ ev.names := List.mem_append_left _ hregistered
      have hzero : Text.occurrences other upper = 0 := by
        by_contra hpos
        obtain ⟨i, hi, hfind⟩ :=
          exists_findName? hnames hp h.text_eq hname (Nat.pos_of_ne_zero hpos)
        rw [isPending, hnames.isControl hregistered, Bool.false_or, hfind, h.text_eq,
          Option.any_some, hupper.isInside _ hi.le] at hpending
        cases hpending
      have hopener := hb.laid.opener
      obtain ⟨y, hy⟩ := hp.exists_place hopener.getElem?_start rfl
      refine ⟨p, other, y, hsp, .refl, hxp, hnext, h.swallowed hname hzero, .inr ⟨b, hb, hy⟩,
        h.mem_drop (Nat.le_of_not_lt fun hlt => ?_) hy⟩
      rw [h.text_eq] at hopener
      exact hupper.not_standsAt_break _ hlt hopener
    · exact .inl ⟨habove, p, b, hsp, h.depth_eq, hb, .refl⟩

/-- What an argument of a call above holds was written above. -/
theorem mem_take_of_argument (hnames : Worklist.Separate ev.registry.names)
    (hp : ev.Reached source state p)
    (h : ev.Above s above below x p upper places (name :: left)) {f : Function} {span slot : Span}
    {slots : List (Option Span)} (hcalls : ev.Calls p f span slots)
    (hstart : span.start < upper.length) (hslot : some slot ∈ slots) {z : Nat}
    (hz : some z ∈ slot.cut p.places) : some z ∈ s.places.take above.length := by
  obtain ⟨-, hregistered, hcovers⟩ := h.covers hp hcalls
  have hstop := h.contained.stop_le hnames h.text_eq hregistered hcovers hstart
  obtain ⟨i, -, hi, hiz⟩ := inside_of_mem_argument hcalls hp.listed hslot hz
  exact h.mem_take (by omega) hiz

end Above

/-! ### Phases of a run -/

/-- Where a run is that comes from the pass at `s`: at work on the text above, inside of a call
above, past the call of the place `x`, past a step below that came too early, or past a block that
was waited for above. -/
inductive Phase (ev : Evaluator) (s : Point) (above below : Text) (x : Nat) (p : Point) : Prop
  | above {upper : Text} {places : List (Option Nat)} {left : List Text}
      (h : ev.Above s above below x p upper places left)
  | inside (h : ∀ z, some z ∈ p.places → some z ∈ s.places.take above.length)
  | past (h : some x ∉ p.places)
  | overtaken (h : ev.Overtaken s p above.length x)
  | interrupted (controls : ¬ Uncontrolled above) (h : ev.Interrupted s p)

/-- A step from the text above leads on in it, or into a call, unless it comes too early or a block
is resolved. -/
theorem Above.move (hnames : Worklist.Separate ev.registry.names) (hs : ev.Reached source state s)
    (hsp : ev.Leads s p) (hx : some x ∈ s.places.take above.length)
    (h : ev.Above s above below x p upper places left) (move : ev.Move p r) :
    ev.Phase s above below x r := by
  have hp : ev.Reached source state p := hs.trans hsp
  cases left with
  | nil =>
    refine .past fun hmem => h.not_mem_places hs.rising hx ?_
    exact Leads.mem_places (.single move) hp.listed hmem
  | cons name left =>
    -- a step that acts is one of the three kinds
    have hstep : (∃ f span slots, ev.Calls p f span slots) ∨ (∃ b, ev.Resolves p b) →
        (∀ f span slots, ev.Calls p f span slots → span.start < upper.length →
          ev.Phase s above below x r) → ev.Phase s above below x r := by
      intro hacts hcalled
      rcases h.acts hnames hp hsp hacts with ⟨hcontrols, hwaits⟩ | hearly | ⟨f, span, slots, hcall⟩
      · exact .interrupted hcontrols (hwaits.trans (.single move))
      · by_cases hxp : some x ∈ p.places
        · exact .overtaken ((hearly hxp).trans (.single move))
        · exact .past fun hmem => hxp (Leads.mem_places (.single move) hp.listed hmem)
      · exact hcalled f span slots hcall.1 hcall.2
    cases move with
    | leave next free order =>
      obtain rfl := h.eq_of_next next
      have hzero := h.occurrences_of_leave hnames hp (next.mem_names hp.listed) free order
      exact .above (h.leave hzero (.leave next free order))
    | call calls returns =>
      refine hstep (.inl ⟨_, _, _, calls⟩) fun f span slots hcalls hstart => ?_
      obtain ⟨rfl, rfl, rfl⟩ := hcalls.unique calls
      exact .above (h.call hnames hp hsp calls hstart returns)
    | argument calls within slots_eq earlier marked =>
      refine hstep (.inl ⟨_, _, _, calls⟩) fun f span slots hcalls hstart => .inside fun z hz => ?_
      obtain ⟨rfl, rfl, rfl⟩ := hcalls.unique calls
      exact h.mem_take_of_argument hnames hp calls hstart (by simp [slots_eq]) hz
    | block resolves =>
      exact hstep (.inr ⟨_, resolves⟩) fun f span slots hcalls _ =>
        (hcalls.not_resolves resolves).elim
    | condition resolves =>
      exact hstep (.inr ⟨_, resolves⟩) fun f span slots hcalls _ =>
        (hcalls.not_resolves resolves).elim

/-- Every point that a pass leads to is in one of the phases. -/
theorem Leads.phase (hnames : Worklist.Separate ev.registry.names) (hs : ev.Reached source state s)
    (hx : some x ∈ s.places.take above.length)
    (hstart : ∃ places left, ev.Above s above below x s above places left) (hsp : ev.Leads s p) :
    ev.Phase s above below x p := by
  induction hsp with
  | refl =>
    obtain ⟨places, left, h⟩ := hstart
    exact .above h
  | @tail u p hsu move ih =>
    have hu : ev.Reached source state u := hs.trans hsu
    -- once a phase other than the first is entered, it stays
    cases ih with
    | above h => exact h.move hnames hs hsu hx move
    | inside h => exact .inside fun z hz => h z (Leads.mem_places (.single move) hu.listed hz)
    | past h => exact .past fun hmem => h (Leads.mem_places (.single move) hu.listed hmem)
    | overtaken h => exact .overtaken (h.trans (.single move))
    | interrupted controls h => exact .interrupted controls (h.trans (.single move))

/-! ### Calls and what comes after them -/

/-- A move never leads up. -/
theorem Move.depth_mono (move : ev.Move p q) : p.depth ≤ q.depth := by
  cases move with
  | leave | call | block => exact le_rfl
  | argument | condition => exact Nat.le_succ _

/-- So no run does. -/
theorem Leads.depth_mono (h : ev.Leads p q) : p.depth ≤ q.depth := by
  induction h with
  | refl => exact le_rfl
  | tail _ move ih => exact ih.trans move.depth_mono

/-- What is resolved as a part of a step is resolved when the run goes on behind the step. -/
theorem Kept.exists_outcome_of_part {R : Session → Session → Prop} (h : ev.Kept R)
    (hv : ev.Move u v) (hw : ev.Move u w) (hdeep : u.depth < v.depth) (hdepth : w.depth = u.depth) :
    ∃ d t, ev.outcome v = (.ok d, t) ∧ R t w.session := by
  cases hv with
  -- only the moves into an argument or a condition lead deeper
  | leave | call | block => exact absurd hdeep (lt_irrefl _)
  | argument calls within slots_eq earlier marked =>
    rcases calls.move hw with ⟨result, t, hresult, rfl⟩ | ⟨done, slot, more, args, t, -, -, rfl⟩
    · exact h.exists_argument calls.mem_functions hresult slots_eq earlier marked
    · exact absurd hdepth (Nat.succ_ne_self _)
  | condition resolves within conditions_eq earlier =>
    rcases resolves.move hw with ⟨chosen, t, hchosen, rfl⟩ | ⟨asked, c, later, t, -, -, rfl⟩
    · obtain ⟨-, hchoose⟩ := chosenBody_eq_ok.1 hchosen
      obtain ⟨part, t', hpart, hrest⟩ :=
        h.exists_condition (h.resolveAt (u.depth + 1)) conditions_eq earlier hchoose
      exact ⟨part, t', by rw [outcome_enterPart, hpart], hrest⟩
    · exact absurd hdepth (Nat.succ_ne_self _)

/-- Where a step does not go into a part, it goes on in one way. -/
theorem Move.eq_of_depth_eq (hv : ev.Move u v) (hw : ev.Move u w) (hvdepth : v.depth = u.depth)
    (hwdepth : w.depth = u.depth) : v = w := by
  by_contra hne
  -- two moves of one depth would be two results of one call, or of one block
  rcases calls_or_resolves hv hw hne with ⟨f, span, slots, hcalls⟩ | ⟨b, hb⟩
  · rcases hcalls.move hv with ⟨result, t, hresult, rfl⟩ | ⟨_, _, _, _, _, -, -, rfl⟩
    · rcases hcalls.move hw with ⟨result', t', hresult', rfl⟩ | ⟨_, _, _, _, _, -, -, rfl⟩
      · rw [hresult] at hresult'
        cases hresult'
        exact hne rfl
      · exact Nat.succ_ne_self _ hwdepth
    · exact Nat.succ_ne_self _ hvdepth
  · rcases hb.move hv with ⟨chosen, t, hchosen, rfl⟩ | ⟨_, _, _, _, -, -, rfl⟩
    · rcases hb.move hw with ⟨chosen', t', hchosen', rfl⟩ | ⟨_, _, _, _, -, -, rfl⟩
      · rw [hchosen] at hchosen'
        cases hchosen'
        exact hne rfl
      · exact Nat.succ_ne_self _ hwdepth
    · exact Nat.succ_ne_self _ hvdepth

/-- A call that returns in a part of a step has returned when the run goes on behind the step. -/
theorem Calls.precedes_of_part (hv : ev.Move u v) (hw : ev.Move u w) (hdeep : u.depth < v.depth)
    (hdepth : w.depth = u.depth) (hvr : ev.Leads v r) {f : Function} {span : Span}
    {slots : List (Option Span)} (hcalls : ev.Calls r f span slots) {result : Text} {t : Session}
    (hresult : ev.callResult (ev.resolveAt (r.depth + 1)) r.document f slots r.session =
      (.ok result, t)) : Precedes t w.session := by
  have hkept := keptPrecedes ev
  obtain ⟨d, t₁, hpart, hlater⟩ := hkept.exists_outcome_of_part hv hw hdeep hdepth
  obtain ⟨d', t₂, hend, hlater'⟩ := hkept.exists_outcome_of_leads hvr hpart
  obtain ⟨result', t₃, hresult', hlater''⟩ := hkept.exists_callResult hcalls hend
  rw [hresult] at hresult'
  cases hresult'
  exact hkept.trans hlater'' (hkept.trans hlater' hlater)

/-- The call written at a place returns, and leaves the session behind. -/
def Leaves (ev : Evaluator) (source : Text) (state : ExecutionState) (x : Nat) (t : Session) :
    Prop :=
  ∃ r f span slots result, ev.Reached source state r ∧ ev.Calls r f span slots ∧
    r.places[span.start]? = some (some x) ∧
    ev.callResult (ev.resolveAt (r.depth + 1)) r.document f slots r.session = (.ok result, t)

/-- A call that is gone from a document, and returns at all, has returned before; unless the
document is an argument or a condition. -/
theorem Leaves.precedes {t : Session} (h : ev.Leaves source state x t)
    (hs : ev.Reached source state s) (hdepth : s.depth = 0) (hx : some x ∉ s.places) :
    Precedes t s.session := by
  obtain ⟨r, f, span, slots, result, hr, hcalls, hplace, hresult⟩ := h
  have hxr := List.mem_of_getElem? hplace
  have hzero : ∀ {p}, ev.Leads p s → p.depth = 0 := fun hleads =>
    Nat.le_zero.1 (hdepth ▸ hleads.depth_mono)
  -- the call returned before this point, or the runs parted
  rcases Leads.fork hr hs with hrs | hsr | ⟨z, v, w, hz, hv, hw, hne, hvr, hws⟩
  · rcases Relation.ReflTransGen.cases_head hrs with rfl | ⟨m, move, hms⟩
    · exact (hx hxr).elim
    · rcases hcalls.move move with ⟨result', t', hresult', rfl⟩ |
        ⟨done, slot, more, args, t', -, -, rfl⟩
      · rw [hresult] at hresult'
        cases hresult'
        exact (keptPrecedes ev).leads hms
      · exact absurd (hzero hms) (Nat.succ_ne_zero _)
  · exact (hx (Leads.mem_places hsr hs.listed hxr)).elim
  · have hreached : ev.Reached source state z := hz
    have hzdepth : z.depth = 0 := hzero (.head hw hws)
    -- they part where the one goes into a part and the other one on
    have hdeep : z.depth < v.depth := by
      refine lt_of_le_of_ne hv.depth_mono fun heq => hne ?_
      exact hv.eq_of_depth_eq hw heq.symm ((hzero hws).trans hzdepth.symm)
    exact (keptPrecedes ev).trans
      (hcalls.precedes_of_part hv hw hdeep ((hzero hws).trans hzdepth.symm) hvr hresult)
      ((keptPrecedes ev).leads hws)

/-- A call whose place a pass holds is next in what the pass leads to, or not at all. -/
theorem Calls.leads_of_mem_places (hs : ev.Reached source state s) (hr : ev.Reached source state r)
    {f : Function} {span : Span} {slots : List (Option Span)} (hcalls : ev.Calls r f span slots)
    (hplace : r.places[span.start]? = some (some x)) (hx : some x ∈ s.places) : ev.Leads s r := by
  have hxr := List.mem_of_getElem? hplace
  rcases Leads.fork hr hs with hrs | hsr | ⟨z, v, w, hz, hv, hw, hne, hvr, hws⟩
  · rcases Relation.ReflTransGen.cases_head hrs with rfl | ⟨m, move, hms⟩
    · exact .refl
    · exact absurd (Leads.mem_places hms (hr.listed.move move) hx)
        (hcalls.not_mem_places hr hplace move)
  · exact hsr
  · have hreached : ev.Reached source state z := hz
    exact (hv.disjoint hreached hw hne (Leads.mem_places hvr (hreached.listed.move hv) hxr)
      (Leads.mem_places hws (hreached.listed.move hw) hx)).elim

/-! ### The order of effects -/

/-- What is acted on is still there. -/
theorem ActsAt.mem_places (h : ev.ActsAt p y) : some y ∈ p.places := by
  rcases h with ⟨f, span, slots, -, hy⟩ | ⟨b, -, hy⟩
  · exact List.mem_of_getElem? hy
  · exact List.mem_of_getElem? hy

/-- A step that acts is a call or a block. -/
theorem ActsAt.calls_or_resolves (h : ev.ActsAt p y) :
    (∃ f span slots, ev.Calls p f span slots) ∨ ∃ b, ev.Resolves p b := by
  rcases h with ⟨f, span, slots, hcalls, -⟩ | ⟨b, hb, -⟩
  · exact .inl ⟨f, span, slots, hcalls⟩
  · exact .inr ⟨b, hb⟩

/-- A step below while a call above is still there comes too early. -/
theorem Phase.overtaken_of_actsAt (hnames : Worklist.Separate ev.registry.names)
    (hs : ev.Reached source state s) (hsp : ev.Leads s p)
    (hx : some x ∈ s.places.take above.length) (h : ev.Phase s above below x p)
    (hwaits : Uncontrolled above ∨ ¬ ev.Interrupted s p) (hacts : ev.ActsAt p y)
    (hy : some y ∈ s.places.drop above.length) (hxp : some x ∈ p.places) :
    ev.Overtaken s p above.length x := by
  have hp : ev.Reached source state p := hs.trans hsp
  cases h with
  | @above upper places left h =>
    cases left with
    | nil => exact absurd hxp (h.not_mem_places hs.rising hx)
    | cons name left =>
      rcases h.acts hnames hp hsp hacts.calls_or_resolves with
        ⟨hcontrols, hends⟩ | hearly | ⟨f, span, slots, hcalls, hlt⟩
      · exact (hwaits.elim hcontrols (· hends)).elim
      · exact hearly hxp
      -- the call that is next is above, so its place is not below
      · rcases hacts with ⟨f', span', slots', hcalls', hplace⟩ | ⟨b, hb, -⟩
        · obtain ⟨rfl, rfl, rfl⟩ := hcalls.unique hcalls'
          exact absurd hy (hs.rising.not_mem_drop (h.mem_take hlt hplace))
        · exact (hcalls.not_resolves hb).elim
  | inside h => exact absurd hy (hs.rising.not_mem_drop (h y hacts.mem_places))
  | past h => exact absurd hxp h
  | overtaken h => exact h
  | interrupted controls h => exact (hwaits.elim controls (· h)).elim

/-- A call above that is followed by a step below has returned before that. -/
theorem Phase.precedes_of_leads (hnames : Worklist.Separate ev.registry.names)
    (hs : ev.Reached source state s) (hsr : ev.Leads s r)
    (hx : some x ∈ s.places.take above.length) (h : ev.Phase s above below x r) {f : Function}
    {span : Span} {slots : List (Option Span)} (hcalls : ev.Calls r f span slots)
    (hplace : r.places[span.start]? = some (some x)) {result : Text} {t : Session}
    (hresult : ev.callResult (ev.resolveAt (r.depth + 1)) r.document f slots r.session =
      (.ok result, t)) (hrq : ev.Leads r q) (hne : r ≠ q)
    (hwaits : Uncontrolled above ∨ ¬ ev.Interrupted s q)
    (hy : some y ∈ s.places.drop above.length) (hyq : some y ∈ q.places) :
    ev.Overtaken s q above.length x ∨ Precedes t q.session := by
  have hr : ev.Reached source state r := hs.trans hsr
  have hxr := List.mem_of_getElem? hplace
  rcases Relation.ReflTransGen.cases_head hrq with heq | ⟨m, move, hmq⟩
  · exact absurd heq hne
  rcases hcalls.move move with ⟨result', t', hresult', rfl⟩ |
    ⟨done, slot, more, args, t', hslots, -, rfl⟩
  · rw [hresult] at hresult'
    cases hresult'
    exact .inr ((keptPrecedes ev).leads hmq)
  -- inside of the call nothing is written below
  · have hym := Leads.mem_places hmq (hr.listed.move move) hyq
    cases h with
    | @above upper places left h =>
      cases left with
      | nil => exact absurd hxr (h.not_mem_places hs.rising hx)
      | cons name left =>
        rcases Nat.lt_or_ge span.start upper.length with hlt | hge
        · exact absurd hy (hs.rising.not_mem_drop
            (h.mem_take_of_argument hnames hr hcalls hlt (by simp [hslots]) hym))
        · exact absurd (h.mem_drop hge hplace) (hs.rising.not_mem_drop hx)
    | inside h =>
      exact absurd hy (hs.rising.not_mem_drop (h y (Leads.mem_places hrq hr.listed hyq)))
    | past h => exact absurd hxr h
    | overtaken h => exact .inl (h.trans hrq)
    | interrupted controls h => exact (hwaits.elim controls (· (h.trans hrq))).elim

/-- Where the run parts, a call above on the one side has returned before a step below on the other
side. -/
theorem Phase.precedes_of_fork (hnames : Worklist.Separate ev.registry.names)
    (hs : ev.Reached source state s) (hsp : ev.Leads s p)
    (hx : some x ∈ s.places.take above.length) (h : ev.Phase s above below x p)
    (hv : ev.Move p v) (hw : ev.Move p w) (hne : v ≠ w) (hvr : ev.Leads v r) {f : Function}
    {span : Span} {slots : List (Option Span)} (hcalls : ev.Calls r f span slots)
    (hplace : r.places[span.start]? = some (some x)) {result : Text} {t : Session}
    (hresult : ev.callResult (ev.resolveAt (r.depth + 1)) r.document f slots r.session =
      (.ok result, t)) (hwq : ev.Leads w q)
    (hwaits : Uncontrolled above ∨ ¬ ev.Interrupted s q)
    (hy : some y ∈ s.places.drop above.length) (hyq : some y ∈ q.places) :
    ev.Overtaken s q above.length x ∨ Precedes t q.session := by
  have hp : ev.Reached source state p := hs.trans hsp
  have hpq : ev.Leads p q := .head hw hwq
  have hxp := Leads.mem_places (.head hv hvr) hp.listed (List.mem_of_getElem? hplace)
  cases h with
  | @above upper places left h =>
    cases left with
    | nil => exact absurd hxp (h.not_mem_places hs.rising hx)
    | cons name left =>
      rcases h.acts hnames hp hsp (calls_or_resolves hv hw hne) with
        ⟨hcontrols, hends⟩ | hearly | ⟨g, span', slots', hcallsp, hlt⟩
      · exact (hwaits.elim hcontrols (· (hends.trans hpq))).elim
      · exact .inl ((hearly hxp).trans hpq)
      · rcases hcallsp.move hw with ⟨result', t', hresult', rfl⟩ |
          ⟨done, slot, more, args, t', hslots, -, rfl⟩
        -- the call above is an argument, and the step below follows the call around it
        · have hdeep : p.depth < v.depth := lt_of_le_of_ne hv.depth_mono fun heq =>
            hne (hv.eq_of_depth_eq hw heq.symm rfl)
          exact .inr ((keptPrecedes ev).trans (hcalls.precedes_of_part hv hw hdeep rfl hvr hresult)
            ((keptPrecedes ev).leads hwq))
        · have hyw := Leads.mem_places hwq (hp.listed.move hw) hyq
          exact absurd hy (hs.rising.not_mem_drop
            (h.mem_take_of_argument hnames hp hcallsp hlt (by simp [hslots]) hyw))
  | inside h =>
    exact absurd hy (hs.rising.not_mem_drop (h y (Leads.mem_places hpq hp.listed hyq)))
  | past h => exact absurd hxp h
  | overtaken h => exact .inl (h.trans hpq)
  | interrupted controls h => exact (hwaits.elim controls (· (h.trans hpq))).elim

/-- In a pass over a text with a line break, whose text above the break is complete in itself, let a
call stand above, or be gone already from a document that is no argument and no condition. It is
over when a step is taken that is written below, and if it has returned at all, it has returned
before. This is so for every step below if no control name stands above, and otherwise for every
step that the pass takes before it resolves a block; unless the worklist holds a name whose own call
went with the call around it, and a step is taken below for that name. Where the step resolves a
block, no block begins behind it in the document. -/
theorem calls_above_complete_first (hnames : Worklist.Separate ev.registry.names)
    (hs : ev.Reached source state s)
    (hpass : s.worklist = Worklist.ofText ev.names s.document.text)
    (htext : s.document.text = above ++ '\n' :: below)
    (habove : SelfContained ev.registry.names above below)
    (hx : (s.depth = 0 ∧ some x ∉ s.places) ∨ ∃ i, s.places[i]? = some (some x) ∧
      ∃ name ∈ ev.registry.names, Text.startsFolded name (above.drop i) = true)
    {j : Nat} (hy : s.places[j]? = some (some y)) (hj : above.length < j) (hsq : ev.Leads s q)
    (hacts : ev.ActsAt q y) (hwaits : Uncontrolled above ∨ ¬ ev.Interrupted s q) :
    ((some x ∉ q.places ∧ ∀ t, ev.Leaves source state x t → Precedes t q.session) ∨
        ev.Overtaken s q above.length x) ∧
      ∀ b, ev.Resolves q b → ∀ k, b.span.start < k →
        ¬ Keyword.ifOpen.StandsAt q.document.text k := by
  refine ⟨?_, fun b hb => hb.laid.last⟩
  have hq : ev.Reached source state q := hs.trans hsq
  rcases hx with ⟨hdepth, hgone⟩ | ⟨i, hx, hcall⟩
  · exact .inl ⟨fun hxq => hgone (Leads.mem_places hsq hs.listed hxq), fun t hleaves =>
      (keptPrecedes ev).trans (hleaves.precedes hs hdepth hgone) ((keptPrecedes ev).leads hsq)⟩
  have hi : i < above.length := by
    obtain ⟨name, hname, hstarts⟩ := hcall
    have hget := Text.getElem?_of_startsFolded (head?_of_mem_names (List.mem_append_left _ hname))
      hstarts
    exact (List.getElem?_eq_some_iff.1 hget).1
  have hxabove : some x ∈ s.places.take above.length :=
    List.mem_of_getElem? (by rw [List.getElem?_take, if_pos hi, hx])
  have hybelow : some y ∈ s.places.drop above.length := by
    refine List.mem_of_getElem? (i := j - above.length) ?_
    rw [List.getElem?_drop, Nat.add_sub_cancel' hj.le, hy]
  have hphase : ∀ {p}, ev.Leads s p → ev.Phase s above below x p := fun hsp =>
    hsp.phase hnames hs hxabove ⟨_, _, .start hnames hs hpass htext habove hx hcall⟩
  by_cases hover : ev.Overtaken s q above.length x
  · exact .inr hover
  have hxq : some x ∉ q.places := fun hxq =>
    hover ((hphase hsq).overtaken_of_actsAt hnames hs hsq hxabove hwaits hacts hybelow hxq)
  refine .inl ⟨hxq, fun t hleaves => ?_⟩
  obtain ⟨r, f, span, slots, result, hr, hcalls, hplace, hresult⟩ := hleaves
  have hxr := List.mem_of_getElem? hplace
  have hsr := hcalls.leads_of_mem_places hs hr hplace (List.mem_of_getElem? hx)
  -- the call comes first, or the run parts before both
  rcases Leads.fork hsr hsq with hrq | hqr | ⟨z, v, w, hsz, hv, hw, hne, hvr, hwq⟩
  · exact ((hphase hsr).precedes_of_leads hnames hs hsr hxabove hcalls hplace hresult hrq
      (fun heq => hxq (heq ▸ hxr)) hwaits hybelow hacts.mem_places).resolve_left hover
  · exact (hxq (Leads.mem_places hqr hq.listed hxr)).elim
  · exact ((hphase hsz).precedes_of_fork hnames hs hsz hxabove hv hw hne hvr hcalls hplace hresult
      hwq hwaits hybelow hacts.mem_places).resolve_left hover

/-- A call above a block that has a call in its condition. -/
def callAndBlock : Text := "$f[]\n$if[$g[]==y]B$endif".toList

/-- The call in the first line of `callAndBlock` is over when the one in the condition below is
made. -/
theorem call_is_over_in_condition : ∃ q,
    twoFunctions.Leads (twoFunctions.start callAndBlock .initial) q ∧
    twoFunctions.ActsAt q 9 ∧ q.session.log.map (·.function) = [['$', 'f']] ∧
    ((some 0 ∉ q.places ∧ ∀ t, twoFunctions.Leaves callAndBlock .initial 0 t →
        Precedes t q.session) ∨
      twoFunctions.Overtaken (twoFunctions.start callAndBlock .initial) q 4 0) := by
  let s := twoFunctions.start callAndBlock .initial
  let p := afterCall s ⟨0, 4⟩ ['x'] ⟨.initial, .empty, 1, [⟨['$', 'f'], [], .text ['x']⟩]⟩
  let q := twoFunctions.enterPart p ⟨6, 13⟩ p.session.counted
  have hcontained : SelfContained twoFunctions.registry.names "$f[]".toList
      "$if[$g[]==y]B$endif".toList := ⟨by decide, by decide, .inl (by decide)⟩
  have hfirst : twoFunctions.Calls s (.constant ['f'] ['x']) ⟨0, 4⟩ [] :=
    ⟨['$', 'f'], ⟨by decide, rfl⟩, rfl, rfl⟩
  have hcall : twoFunctions.Move s p := .call hfirst rfl
  -- the first line is called, and then the condition of the block is entered
  have hblock : twoFunctions.Resolves p ⟨⟨2, 21⟩, ⟨6, 13⟩, [⟨14, 15⟩], [], []⟩ :=
    ⟨['$', 'e', 'n', 'd', 'i', 'f'], ⟨by decide, rfl⟩, rfl, rfl⟩
  have hcondition : twoFunctions.Move p q :=
    .condition hblock (by decide) (show _ = [] ++ (⟨6, 13⟩ : Span) :: [] from rfl) .nil
  have hleads : twoFunctions.Leads s q := (Relation.ReflTransGen.single hcall).tail hcondition
  have hacts : twoFunctions.ActsAt q 9 :=
    .inl ⟨.constant ['g'] ['y'], ⟨0, 4⟩, [], ⟨['$', 'g'], ⟨by decide, rfl⟩, rfl, rfl⟩, rfl⟩
  obtain ⟨hover, -⟩ := calls_above_complete_first separate_twoFunctions .refl rfl rfl hcontained
    (.inr ⟨0, rfl, ['$', 'f'], by decide, by decide⟩) (j := 9) rfl (by decide) hleads hacts
    (.inl (by decide))
  exact ⟨q, hleads, hacts, rfl, hover⟩

/-- What an evaluation has called, and with what. -/
def callLog (ev : Evaluator) (source : String) : List (Text × List Arg) :=
  (ev.evaluate source.toList .initial).calls.map fun c => (c.function, c.args)

/-- Lines of the source need not come one after the other. -/
theorem later_lines_come_first :
    -- the last block is asked first, and does not see what a block above would set
    callLog standardEvaluator "$if[$let[x;1]1==1]A$endif\n$if[$get[x]==1]B$endif" =
      [("$get".toList, [some "x".toList]),
        ("$let".toList, [some "x".toList, some "1".toList])] ∧
    (standardEvaluator.evaluate
      "$if[$let[x;1]1==1]A$endif\n$if[$get[x]==1]B$endif".toList .initial).result.toOption.map
        (·.text) = some "A".toList ∧
    -- the line break goes with what is not chosen, and a line is worked on from its end
    callLog twoFunctions "$if[a==a]$f[1]$else \n$endif$g[2]" =
      [("$g".toList, [some "2".toList]), ("$f".toList, [some "1".toList])] ∧
    -- the call ends below the line it begins in
    callLog twoFunctions "$f[\n$g[]]" =
      [("$g".toList, []), ("$f".toList, [some "y".toList])] ∧
    -- the name of the first call goes with the call around it, and is looked for below
    callLog twoFunctions "$g[$f[1]]$g[2]\n$f[3]" =
      [("$f".toList, [some "1".toList]), ("$g".toList, [some "x".toList]),
        ("$f".toList, [some "3".toList]), ("$g".toList, [some "2".toList])] ∧
    -- a name that begins another one is taken for it
    callLog (withFunctions [.constant ['f'] ['x'], .constant ['f', 'g'] ['y']])
        "$fg[1]$f[2]\n$fg[3]$f[4]" =
      [("$f".toList, [some "1".toList]), ("$fg".toList, [some "3".toList]),
        ("$f".toList, [some "2".toList])] ∧
    -- a result goes on with a name
    callLog (withFunctions [.constant ['f'] ['g'], .constant ['g'] ['x'],
        .constant ['h', 'g'] ['y']]) "$h$f[]\n$hg[1]\n$hg[2]$g[3]" =
      [("$f".toList, []), ("$hg".toList, []), ("$g".toList, [some "3".toList]),
        ("$hg".toList, [some "1".toList])] := by
  refine ⟨?_, ?_, ?_, ?_, ?_, ?_, ?_⟩ <;> decide +kernel

end Evaluator

end Stencil
