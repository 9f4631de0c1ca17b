import Stencil.Proofs.Lines
/-!
# Calls on different lines

In a text of calls take one call further up and one further down, with a line break between their
names, neither of them inside of a call. The worklist holds the names above the break in front of
those below it, and each of them at least as often as its calls are left above (`Upper.covered`). So
the call above completes before the one below begins, or any call inside of that one
(`upper_call_completes_first`).

There is one exception. When a call goes with the call around it, its name stays on the worklist. It
is then taken for the first call of that name that is left, which can stand below the break
(`Mistaken`).
-/

namespace Stencil

/-! ### Calls in a text -/

/-- The call stands in no other call. -/
def TopLevel (source : Text) (x : Nat) : Prop :=
  source[x]? = some '$' ∧ ∀ w, source[w]? = some '$' → ¬ Encloses source w x

instance (source : Text) (x : Nat) : Decidable (TopLevel source x) :=
  decidable_of_iff (source[x]? = some '$' ∧
      ∀ w < source.length, source[w]? = some '$' → ¬ Encloses source w x) <|
    and_congr_right fun _ =>
      ⟨fun h w hw => h w (List.getElem?_eq_some_iff.1 hw).1 hw, fun h w _ hw => h w hw⟩

/-- The second place is that of the call, or stands between its brackets. -/
def Within (source : Text) (y z : Nat) : Prop := z = y ∨ Encloses source y z

/-- Two calls have one of the names in common. -/
def SameName (names : List Text) (source : Text) (z w : Nat) : Prop :=
  ∃ name ∈ names, Text.startsFolded name (source.drop z) = true ∧
    Text.startsFolded name (source.drop w) = true

variable {names : List Text} {name source above below : Text} {w x y z n : Nat}

theorem Encloses.lt (h : Encloses source y z) : y < z := by
  obtain ⟨opening, closing, hopening, -, hlt, -⟩ := h
  obtain ⟨hle, -⟩ := CallSite.listOpening?_eq_some_iff.1 hopening
  omega

theorem Within.le (h : Within source y z) : y ≤ z := by
  rcases h with rfl | h
  · exact le_rfl
  · exact h.lt.le

/-- What encloses a part of a call that stands in no other one is a part of that call. -/
theorem TopLevel.within_of_encloses (hy : TopLevel source y) (hw : source[w]? = some '$')
    (hwz : Encloses source w z) (hz : Within source y z) : Within source y w := by
  rcases hz with rfl | hyz
  · exact absurd hwz (hy.2 w hw)
  · rcases Nat.lt_trichotomy w y with hlt | rfl | hgt
    · exact absurd (hwz.of_between hy.1 hlt hyz.lt) (hy.2 w hw)
    · exact .inl rfl
    · exact .inr (hyz.of_between hw hgt hwz.lt)

/-! ### How often a name is called in front of a position -/

/-- A call of the name is written at the place, in front of the position. -/
def calledBefore (source : Text) (n : Nat) (name : Text) (place : Option Nat) : Bool :=
  place.any fun x => decide (x < n) && Text.startsFolded name (source.drop x)

theorem calledBefore_iff {place : Option Nat} : calledBefore source n name place = true ↔
    ∃ x < n, place = some x ∧ Text.startsFolded name (source.drop x) = true := by
  unfold calledBefore
  rw [Option.any_eq_true]
  constructor
  · rintro ⟨x, hx, hboth⟩
    rw [Bool.and_eq_true, decide_eq_true_eq] at hboth
    exact ⟨x, hboth.1, hx, hboth.2⟩
  · rintro ⟨x, hlt, hx, hstarts⟩
    exact ⟨x, hx, by rw [Bool.and_eq_true, decide_eq_true_eq]; exact ⟨hlt, hstarts⟩⟩

theorem Text.occurrences_eq_countP (name t : Text) : Text.occurrences name t =
    (List.range t.length).countP fun i => Text.startsFolded name (t.drop i) := by
  induction t with
  | nil => rfl
  | cons c t ih =>
    rw [Text.occurrences_cons, ih, List.length_cons, List.range_succ_eq_map, List.countP_cons,
      List.countP_map, List.drop_zero, Nat.add_comm]
    rfl

/-- The calls of a name above a line break are as many as the name stands in the text above. -/
theorem countP_calledBefore_range (h : Worklist.Lettered name)
    (hsource : source = above ++ '\n' :: below) :
    ((List.range source.length).map some).countP (calledBefore source above.length name) =
      Text.occurrences name above := by
  have hlength : source.length = above.length + (below.length + 1) := by
    rw [hsource, List.length_append, List.length_cons]
  rw [hlength, List.range_add, List.map_append, List.countP_append, Text.occurrences_eq_countP,
    List.countP_map, List.map_map, List.countP_map]
  have hbelow : (List.range (below.length + 1)).countP (calledBefore source above.length name ∘
      (some ∘ fun i => above.length + i)) = 0 := by
    rw [List.countP_eq_zero]
    intro i _ hcalled
    obtain ⟨x, hx, heq, -⟩ := calledBefore_iff.1 hcalled
    have hplace : above.length + i = x := Option.some.inj heq
    omega
  rw [hbelow, Nat.add_zero]
  refine List.countP_congr fun i hi => ?_
  have hlt := List.mem_range.1 hi
  have hdrop : source.drop i = above.drop i ++ '\n' :: below := by
    rw [hsource, List.drop_append_of_le_length hlt.le]
  rw [Function.comp_apply, calledBefore, Option.any_some, decide_eq_true hlt, Bool.true_and, hdrop,
    h.startsFolded_append_cons rfl (by decide)]

namespace Evaluator

open Content

variable {ev : Evaluator} {state : ExecutionState} {p q r u : Point} {c q' : Content}
  {results : Nat → Option Text} {left : List Text}

/-! ### Calls that begin and calls that have completed -/

/-- The call written at the place is next. -/
def Begins (ev : Evaluator) (p : Point) (x : Nat) : Prop :=
  ∃ f span slots, ev.Calls p f span slots ∧ p.places[span.start]? = some (some x)

/-- The call written at the place has completed. -/
def Completed (ev : Evaluator) (source : Text) (state : ExecutionState) (x : Nat) (p : Point) :
    Prop :=
  ∃ before record, ev.Completes source state x before record ∧ record :: before <:+ p.session.log

theorem Begins.mem_places (h : ev.Begins p x) : some x ∈ p.places := by
  obtain ⟨f, span, slots, -, hx⟩ := h
  exact List.mem_of_getElem? hx

/-- What begins was written as a call. -/
theorem Begins.getElem? (hp : ev.Reached source state p) (h : ev.Begins p x) :
    source[x]? = some '$' := by
  obtain ⟨f, span, slots, hcalls, hx⟩ := h
  obtain ⟨name, hhead, -, hcovers⟩ := hcalls.covers hp.listed
  obtain ⟨y, hy, hget⟩ := hp.tracks.exists_place (hcovers.head hhead)
  rw [hx] at hy
  cases hy
  exact hget

theorem Completed.leads (h : ev.Completed source state x p) (hleads : ev.Leads p q) :
    ev.Completed source state x q := by
  obtain ⟨before, record, hcompletes, hsuffix⟩ := h
  exact ⟨before, record, hcompletes, hsuffix.trans ((keptLog ev).leads hleads)⟩

/-- The place of a call that has completed is gone. -/
theorem Completed.not_mem_places (hp : ev.Reached source state p)
    (h : ev.Completed source state x p) : some x ∉ p.places := by
  obtain ⟨before, record, hcompletes, hsuffix⟩ := h
  obtain ⟨r, f, span, slots, result, s, s', hr, hcalls, hx, -, hargs, rfl, -, -⟩ := hcompletes
  intro hmem
  -- the call would be next behind the point, and what completes then is not in the log before
  have hkept := keptLog ev
  have hleads := hcalls.leads_of_mem_places hp hr hx hmem
  have hbefore := hkept.leads hleads
  have hbegun : r.session.log <:+ s.log := by
    have harguments := hkept.arguments (d := r.document) (hkept.resolveAt (r.depth + 1)) slots
      r.session.counted
    rw [hargs] at harguments
    exact (hkept.counted r.session).trans harguments
  have hle := ((hsuffix.trans hbefore).trans hbegun).length_le
  rw [List.length_cons] at hle
  omega

/-! ### Places and the tree -/

/-- A name is called where it stands in the document exactly if it is where it was written. -/
theorem Stands.startsFolded_drop (hnames : Worklist.Callable ev.registry.names)
    (hwrites : c.Writes source) (h : ev.Stands source state c q' results p)
    (hp : ev.Reached source state p) (hname : name ∈ ev.registry.names) {i : Nat}
    (hi : p.places[i]? = some (some z)) (hz : source[z]? = some '$') :
    Text.startsFolded name (p.document.text.drop i) =
      Text.startsFolded name (source.drop z) := by
  obtain ⟨d, hcell, hsource⟩ := hp.tracks.exists_cell hi
  rw [hz] at hsource
  cases hsource
  have hdollar : p.document.text[i]? = some '$' := by
    rw [← Document.map_fst_cells, List.getElem?_map, hcell]
    rfl
  obtain ⟨span, site, rest, rfl, hcallAt⟩ := h.exists_callAt hp hdollar
  obtain rfl : z = site.place := by simpa [hi] using hcallAt.place
  obtain ⟨rest', hdrop⟩ := hwrites.exists_text_drop_eq (h.sites_subset hcallAt.mem)
  have hends : ∀ rest, Text.startsFolded name ('$' :: (site.stem ++ '[' :: rest)) =
      Text.startsFolded name ('$' :: site.stem) :=
    fun rest => (hnames.letters name hname).startsFolded_append_opening ('$' :: site.stem) rest
  rw [hcallAt.text_drop hp, hdrop, hends, hends]

/-- A name is not left out as long as a call of it is left. -/
theorem Stands.not_leave (hnames : Worklist.Callable ev.registry.names)
    (hwrites : c.Writes source) (h : ev.Stands source state c q' results p)
    (hp : ev.Reached source state p) (hname : name ∈ ev.registry.names) (hnext : ev.Next p name)
    (hz : some z ∈ p.places) (hstarts : Text.startsFolded name (source.drop z) = true) :
    ev.orderFor p.document name ≠ .leave := by
  intro horder
  obtain ⟨i, hi⟩ := List.mem_iff_getElem?.1 hz
  have hhead := head?_of_mem_names (List.mem_append_left _ hname)
  have hdollar := Text.getElem?_of_startsFolded hhead hstarts
  -- the call would be found in the document
  rw [← h.startsFolded_drop hnames hwrites hp hname hi hdollar] at hstarts
  have hlt : i < p.document.text.length := by
    rw [hp.length_places]
    exact (List.getElem?_eq_some_iff.1 hi).1
  have hpos := Text.occurrences_pos hlt hstarts
  rcases h.orderFor hnames hp (List.mem_of_mem_head? hnext.2) with ⟨-, hzero⟩ | hcall
  · omega
  · obtain ⟨_, _, _, _, hcall, -⟩ := hcall
    rw [horder] at hcall
    cases hcall

/-- What has its place between the ends of a call stands inside of it in the tree. -/
theorem CallAt.mem_inner_labels {span : Span} {site : Site} {rest : List Stamp}
    (h : CallAt q' results p span site rest) (hp : ev.Reached source state p) {i : Nat}
    (hlo : span.start < i) (hhi : i < span.stop) (hi : p.places[i]? = some (some z))
    (hz : source[z]? = some '$') : z ∈ site.inner.labels := by
  obtain ⟨d, hcell, hsource⟩ := hp.tracks.exists_cell hi
  rw [hz] at hsource
  cases hsource
  have hdollar : p.document.text[i]? = some '$' := by
    rw [← Document.map_fst_cells, List.getElem?_map, hcell]
    rfl
  have hstamp : p.stamps[i]? = some ('$', some z) := getElem?_stamps hdollar hi
  obtain ⟨n, rfl⟩ := Nat.exists_eq_add_of_lt hlo
  have hcons : ('$', some site.place) :: (plain site.stem ++ ('[', none) ::
      (site.inner.shown results ++ (']', none) :: rest)) = ('$', some site.place) ::
        ((plain site.stem ++ ('[', none) :: (site.inner.shown results ++ [(']', none)])) ++
          rest) := by
    simp
  have hstop := h.stop_eq
  rw [Nat.add_assoc, ← List.getElem?_drop, h.stamps_eq, hcons, List.getElem?_cons_succ,
    List.getElem?_append_left (by simp [length_plain]; omega)] at hstamp
  have hmem := List.mem_of_getElem? hstamp
  simp only [List.mem_append, not_mem_plain, List.mem_cons, Prod.mk.injEq, reduceCtorEq,
    and_false, List.not_mem_nil, or_false, false_or] at hmem
  exact mem_labels_of_mem_shown hmem

/-! ### What a step takes -/

/-- The name is next, and is taken for the call written at the place, the first one of that name that
is left. -/
structure Takes (ev : Evaluator) (source : Text) (p : Point) (name : Text) (w : Nat) : Prop where
  registered : name ∈ ev.registry.names
  next : ev.Next p name
  begins : ev.Begins p w
  written : Text.startsFolded name (source.drop w) = true
  first : ∀ z, some z ∈ p.places → Text.startsFolded name (source.drop z) = true → w ≤ z

/-- A call of the name, written in front of the position, has gone with the call around it. -/
def Absorbed (ev : Evaluator) (source : Text) (state : ExecutionState) (n : Nat) (name : Text)
    (p : Point) : Prop :=
  ∃ u v z, ev.Reached source state u ∧ ev.Leads u p ∧ ev.Begins u v ∧ Encloses source v z ∧ z < n ∧
    Text.startsFolded name (source.drop z) = true ∧ some z ∈ u.places ∧ some z ∉ p.places

/-- The name that is next has been left behind by a call in front of the position, which has gone
with the call around it, and it is taken for the call written at the place. -/
def Mistaken (ev : Evaluator) (source : Text) (state : ExecutionState) (n : Nat) (p : Point)
    (w : Nat) : Prop :=
  ∃ name, ev.Takes source p name w ∧ ev.Absorbed source state n name p

theorem Absorbed.move (h : ev.Absorbed source state n name p) (hp : ev.Listed p)
    (move : ev.Move p r) : ev.Absorbed source state n name r := by
  obtain ⟨u, v, z, hu, hup, hbegins, hencloses, hlt, hstarts, hmem, hgone⟩ := h
  exact ⟨u, v, z, hu, hup.tail move, hbegins, hencloses, hlt, hstarts, hmem,
    fun hr => hgone (Leads.mem_places (.single move) hp hr)⟩

/-- The call that is next is the first one of its name that is left. -/
theorem Stands.takes (hnames : Worklist.Callable ev.registry.names) (hwrites : c.Writes source)
    (h : ev.Stands source state c q' results p) (hp : ev.Reached source state p) {f : Function}
    {span : Span} {slots : List (Option Span)} (hcalls : ev.Calls p f span slots)
    (hw : p.places[span.start]? = some (some w)) : ∃ name, ev.Takes source p name w := by
  obtain ⟨name, hnext, -, horder⟩ := id hcalls
  have hname := h.listed name (List.mem_of_mem_head? hnext.2)
  have hhead := head?_of_mem_names (hp.listed name (List.mem_of_mem_head? hnext.2))
  have hcovers := (orderFor_eq_call hhead horder).1
  have hbegins : ev.Begins p w := ⟨f, span, slots, hcalls, hw⟩
  refine ⟨name, hname, hnext, hbegins, ?_, fun z hz hstarts => ?_⟩
  · rw [← h.startsFolded_drop hnames hwrites hp hname hw (hbegins.getElem? hp)]
    exact hcovers.name_at.startsBy
  · obtain ⟨i, hi⟩ := List.mem_iff_getElem?.1 hz
    have hdollar := Text.getElem?_of_startsFolded hhead hstarts
    rw [← h.startsFolded_drop hnames hwrites hp hname hi hdollar] at hstarts
    have hle : span.start ≤ i :=
      Nat.le_of_not_lt fun hlt => hcovers.first i hlt (hp.nameAt hhead hstarts)
    rcases hle.eq_or_lt with rfl | hlt
    · rw [hw] at hi
      exact (Option.some.inj (Option.some.inj hi)).le
    · exact (hp.rising.lt hw hi hlt).le

/-- What a call takes away with it. -/
theorem countP_afterCall (hp : ev.Reached source state p) {f : Function} {span : Span}
    {slots : List (Option Span)} (hcalls : ev.Calls p f span slots)
    (hw : p.places[span.start]? = some (some w)) (result : Text) (s : Session) :
    ∃ inside : List (Option Nat),
      (∀ place ∈ inside, ∃ i, span.start < i ∧ i < span.stop ∧ p.places[i]? = some place) ∧
      ∀ name, p.places.countP (calledBefore source n name) =
        (afterCall p span result s).places.countP (calledBefore source n name) +
          inside.countP (calledBefore source n name) +
          if calledBefore source n name (some w) then 1 else 0 := by
  obtain ⟨name, -, -, hcovers⟩ := hcalls.covers hp.listed
  have hstop : span.stop ≤ p.places.length := hp.length_places ▸ hcovers.stop_le
  obtain ⟨before, inside, behind, hplaces, hbefore, hstopEq, -, hgraft⟩ :=
    Span.exists_eq_append_cons hw (hcalls.start_lt_stop hp.listed) hstop
  refine ⟨inside, fun place hplace => ?_, fun other => ?_⟩
  · obtain ⟨m, hm⟩ := List.mem_iff_getElem?.1 hplace
    have hlt := (List.getElem?_eq_some_iff.1 hm).1
    refine ⟨span.start + 1 + m, by omega, by omega, ?_⟩
    rw [hplaces, ← hbefore, Nat.add_assoc, List.getElem?_append_right (Nat.le_add_right _ _),
      Nat.add_sub_cancel_left, Nat.add_comm 1 m, List.getElem?_cons_succ,
      List.getElem?_append_left hlt, hm]
  · have hnone : ∀ k, (List.replicate k none).countP (calledBefore source n other) = 0 :=
      fun k => List.countP_eq_zero.2 fun place hplace hcalled => by
        rw [List.eq_of_mem_replicate hplace] at hcalled
        cases hcalled
    rw [show (afterCall p span result s).places = before ++ (List.replicate _ none ++ behind) from
      hgraft _, hplaces]
    simp only [List.countP_append, List.countP_cons, hnone]
    omega

/-! ### The names of the text above -/

/-- The document is not an argument, and `left` is left on the worklist of the names above the line
break: every name as often as its calls are left there, at least, and not more often unless one of
them has gone with the call around it. -/
structure Upper (ev : Evaluator) (source : Text) (state : ExecutionState) (above below : Text)
    (p : Point) (left : List Text) : Prop where
  depth_eq : p.depth = 0
  worklist_eq : p.worklist = left ++ Worklist.ofText ev.names below
  covered : ∀ name ∈ ev.registry.names,
    p.places.countP (calledBefore source above.length name) ≤ left.count name
  spent : ∀ name ∈ ev.registry.names,
    left.count name ≤ p.places.countP (calledBefore source above.length name) ∨
      ev.Absorbed source state above.length name p

namespace Upper

/-- A run begins with all names above. -/
theorem start (hnames : Worklist.Callable ev.registry.names)
    (hcalled : AllCalled ev.registry.names source) (hsource : source = above ++ '\n' :: below) :
    ev.Upper source state above below (ev.start source state) (Worklist.ofText ev.names above) := by
  have habove : AllCalled ev.registry.names above :=
    (hsource ▸ hcalled).left hnames.letters rfl (by decide) (by decide)
  have hcount : ∀ name ∈ ev.registry.names, (ev.start source state).places.countP
      (calledBefore source above.length name) = (Worklist.ofText ev.names above).count name := by
    intro name hname
    rw [Evaluator.names, habove.count_ofText hnames hname]
    exact countP_calledBefore_range (hnames.letters name hname) hsource
  refine ⟨rfl, ?_, fun name hname => (hcount name hname).le,
    fun name hname => .inl (hcount name hname).ge⟩
  rw [Evaluator.start, enter, Document.text_source, ← Worklist.ofText_break, ← hsource]

/-- As long as a call is left above, a name of those above is left on the worklist. -/
theorem ne_nil (h : ev.Upper source state above below p left)
    (hcalled : AllCalled ev.registry.names source) (hx : source[x]? = some '$')
    (hlt : x < above.length) (hmem : some x ∈ p.places) : left ≠ [] := by
  rintro rfl
  obtain ⟨name, hname, stem, rest, heq, hsame⟩ := hcalled x hx
  have hstarts : Text.startsFolded name (source.drop x) = true := by
    rw [heq]
    exact startsFolded_call hsame _
  have hpos : 0 < p.places.countP (calledBefore source above.length name) :=
    List.countP_pos_iff.2 ⟨_, hmem, calledBefore_iff.2 ⟨x, hlt, rfl, hstarts⟩⟩
  have hcount := h.covered name hname
  rw [List.count_nil] at hcount
  omega

theorem eq_of_next (h : ev.Upper source state above below p (name :: left)) {other : Text}
    (hnext : ev.Next p other) : other = name := by
  obtain ⟨-, hhead⟩ := hnext
  rw [h.worklist_eq] at hhead
  exact (Option.some.inj hhead).symm

/-- A name that does not stand anywhere can be left out. -/
theorem leave (hnames : Worklist.Callable ev.registry.names) (hwrites : c.Writes source)
    (hstands : ev.Stands source state c q' results p) (hp : ev.Reached source state p)
    (h : ev.Upper source state above below p (name :: left)) (hnext : ev.Next p name)
    (horder : ev.orderFor p.document name = .leave)
    (move : ev.Move p { p with worklist := p.worklist.tail }) :
    ev.Upper source state above below { p with worklist := p.worklist.tail } left where
  depth_eq := h.depth_eq
  worklist_eq := by rw [h.worklist_eq]; rfl
  covered other hother := by
    have hcount := h.covered other hother
    rw [List.count_cons] at hcount
    split at hcount
    · next heq =>
      obtain rfl : name = other := beq_iff_eq.1 heq
      suffices hnone : p.places.countP (calledBefore source above.length name) = 0 from
        hnone.le.trans (Nat.zero_le _)
      refine List.countP_eq_zero.2 fun place hplace hcalled => ?_
      obtain ⟨z, -, rfl, hstarts⟩ := calledBefore_iff.1 hcalled
      exact hstands.not_leave hnames hwrites hp hother hnext hplace hstarts horder
    · exact hcount
  spent other hother := by
    have hle := (List.sublist_cons_self name left).count_le other
    exact (h.spent other hother).imp hle.trans (·.move hp.listed move)

/-- A call goes, and what is inside of it with it. -/
theorem call (hnames : Worklist.Callable ev.registry.names)
    (hsound : c.Sound ev.registry.names false) (hwrites : c.Writes source)
    (hstands : ev.Stands source state c q' results p) (hp : ev.Reached source state p)
    (h : ev.Upper source state above below p (name :: left)) {f : Function} {span : Span}
    {slots : List (Option Span)} (hcalls : ev.Calls p f span slots)
    {result : Text} {s : Session} (hresult : ev.callResult (ev.resolveAt (p.depth + 1)) p.document f
      slots p.session = (.ok result, s)) :
    ev.Upper source state above below (afterCall p span result s) left := by
  have move : ev.Move p (afterCall p span result s) := .call hcalls hresult
  obtain ⟨-, site, rest, -, -, -, hcallAt⟩ := hstands.callAt hnames hp hcalls
  obtain ⟨other, htakes⟩ := hstands.takes hnames hwrites hp hcalls hcallAt.place
  obtain rfl := h.eq_of_next htakes.next
  obtain ⟨inside, hinside, hcount⟩ :=
    countP_afterCall (n := above.length) hp hcalls hcallAt.place result s
  -- of the names above only the one that is next can be that of the call
  have hother : ∀ name ∈ ev.registry.names, other ≠ name →
      calledBefore source above.length name (some site.place) = false := by
    intro name hname hne
    rw [Bool.eq_false_iff]
    intro hcalled
    obtain ⟨_, -, heq, hstarts⟩ := calledBefore_iff.1 hcalled
    rw [← Option.some.inj heq] at hstarts
    exact hne (hnames.prefixFree.unique htakes.registered hname htakes.written hstarts)
  refine ⟨h.depth_eq, by rw [afterCall, h.worklist_eq]; rfl, fun name hname => ?_,
    fun name hname => ?_⟩
  · have hcovered := h.covered name hname
    have hgone := hcount name
    by_cases heq : other = name
    · subst heq
      rw [List.count_cons_self] at hcovered
      by_cases habove : site.place < above.length
      · rw [if_pos (calledBefore_iff.2 ⟨_, habove, rfl, htakes.written⟩)] at hgone
        omega
      · -- the call is the first of its name, so none is left above
        have hnone : p.places.countP (calledBefore source above.length other) = 0 := by
          refine List.countP_eq_zero.2 fun place hplace hcalled => ?_
          obtain ⟨z, hlt, rfl, hstarts⟩ := calledBefore_iff.1 hcalled
          have := htakes.first z hplace hstarts
          omega
        omega
    · rw [List.count_cons_of_ne heq] at hcovered
      omega
  · rcases h.spent name hname with hspent | habsorbed
    · by_cases hin : 0 < inside.countP (calledBefore source above.length name)
      · -- a call of the name goes with the one around it
        obtain ⟨place, hplace, hcalled⟩ := List.countP_pos_iff.1 hin
        obtain ⟨z, hlt, rfl, hstarts⟩ := calledBefore_iff.1 hcalled
        obtain ⟨i, hi₁, hi₂, hi⟩ := hinside _ hplace
        have hdollar := Text.getElem?_of_startsFolded
          (head?_of_mem_names (List.mem_append_left _ hname)) hstarts
        have hinner := hcallAt.mem_inner_labels hp hi₁ hi₂ hi hdollar
        refine .inr ⟨p, site.place, z, hp, .single move, htakes.begins, ?_, hlt, hstarts,
          List.mem_of_getElem? hi, fun hafter => ?_⟩
        · exact hwrites.encloses_of_mem_inner_labels hsound hnames.letters
            (hstands.sites_subset hcallAt.mem) hinner
        · obtain ⟨j, hj, hjz⟩ := outside_of_mem_afterCall hafter
          have := hp.rising.eq_of_eq hi hjz
          omega
      · have hgone := hcount name
        refine .inl ?_
        by_cases heq : other = name
        · subst heq
          rw [List.count_cons_self] at hspent
          split at hgone <;> omega
        · rw [List.count_cons_of_ne heq] at hspent
          rw [hother name hname heq, if_neg Bool.false_ne_true] at hgone
          omega
    · exact .inr (habsorbed.move hp.listed move)

/-- What is next further down is taken for a name that has been left behind. -/
theorem mistaken (hnames : Worklist.Callable ev.registry.names) (hwrites : c.Writes source)
    (hstands : ev.Stands source state c q' results p) (hp : ev.Reached source state p)
    (h : ev.Upper source state above below p (name :: left)) (hbegins : ev.Begins p w)
    (hw : above.length ≤ w) : ev.Mistaken source state above.length p w := by
  obtain ⟨f, span, slots, hcalls, hplace⟩ := hbegins
  obtain ⟨other, htakes⟩ := hstands.takes hnames hwrites hp hcalls hplace
  obtain rfl := h.eq_of_next htakes.next
  refine ⟨other, htakes, (h.spent other htakes.registered).resolve_left fun hspent => ?_⟩
  have hnone : p.places.countP (calledBefore source above.length other) = 0 := by
    refine List.countP_eq_zero.2 fun place hplace hcalled => ?_
    obtain ⟨z, hlt, rfl, hstarts⟩ := calledBefore_iff.1 hcalled
    have := htakes.first z hplace hstarts
    omega
  rw [List.count_cons_self] at hspent
  omega

end Upper

/-- As long as a call above is left, the names of those above are in front of the names below. -/
theorem Reached.upper (hnames : Worklist.Callable ev.registry.names)
    (hcalled : AllCalled ev.registry.names source) (hsource : source = above ++ '\n' :: below)
    (hsound : c.Sound ev.registry.names false) (hwrites : c.Writes source)
    (hx : source[x]? = some '$') (hlt : x < above.length) (hp : ev.Reached source state p)
    (hdepth : p.depth = 0) (hmem : some x ∈ p.places) :
    ∃ name left, ev.Upper source state above below p (name :: left) := by
  suffices h : ∃ left, ev.Upper source state above below p left by
    obtain ⟨left, hupper⟩ := h
    obtain ⟨name, left, rfl⟩ := List.exists_cons_of_ne_nil (hupper.ne_nil hcalled hx hlt hmem)
    exact ⟨name, left, hupper⟩
  induction hp with
  | refl => exact ⟨_, .start hnames hcalled hsource⟩
  | @tail q p hq move ih =>
    have hq : ev.Reached source state q := hq
    have hzero : q.depth = 0 := Nat.le_zero.1 (hdepth ▸ move.depth_mono)
    have hmemq := Leads.mem_places (.single move) hq.listed hmem
    obtain ⟨left, hupper⟩ := ih hzero hmemq
    obtain ⟨name, left, rfl⟩ := List.exists_cons_of_ne_nil (hupper.ne_nil hcalled hx hlt hmemq)
    obtain ⟨q', results, hstands⟩ := hq.stands hnames hsound hwrites
    cases move with
    | leave next free order =>
      obtain rfl := hupper.eq_of_next next
      exact ⟨left, hupper.leave hnames hwrites hstands hq next order (.leave next free order)⟩
    | call calls returns =>
      exact ⟨left, hupper.call hnames hsound hwrites hstands hq calls returns⟩
    | argument => simp [enterPart, enter] at hdepth
    | block resolves => exact (hstands.not_resolves hnames hq resolves).elim
    | condition resolves => exact (hstands.not_resolves hnames hq resolves).elim

/-! ### The order of calls on different lines -/

/-- A call that stands in no other one is left in the whole document until it has completed. -/
theorem Reached.mem_places_or_completed (hnames : Worklist.Callable ev.registry.names)
    (hsound : c.Sound ev.registry.names false) (hwrites : c.Writes source) (hx : TopLevel source x)
    (hp : ev.Reached source state p) (hdepth : p.depth = 0) :
    some x ∈ p.places ∨ ev.Completed source state x p := by
  induction hp with
  | refl =>
    refine .inl (List.mem_map_of_mem (List.mem_range.2 ?_))
    exact (List.getElem?_eq_some_iff.1 hx.1).1
  | @tail q p hq move ih =>
    have hq : ev.Reached source state q := hq
    have hzero : q.depth = 0 := Nat.le_zero.1 (hdepth ▸ move.depth_mono)
    rcases ih hzero with hmem | hdone
    · obtain ⟨q', results, hstands⟩ := hq.stands hnames hsound hwrites
      cases move with
      | leave => exact .inl hmem
      | @call f span slots result s calls returns =>
        obtain ⟨-, site, rest, -, -, -, hcallAt⟩ := hstands.callAt hnames hq calls
        obtain ⟨i, hi⟩ := List.mem_iff_getElem?.1 hmem
        by_cases hout : i < span.start ∨ span.stop ≤ i
        · exact .inl (Span.mem_graft_of_outside hi hout _)
        · rcases (Nat.le_of_not_lt fun hlt => hout (.inl hlt) : span.start ≤ i).eq_or_lt with
            rfl | hlt
          · obtain ⟨-, args, s₁, hargs, hcall⟩ := callResult_eq_ok.1 returns
            obtain ⟨outcome, hlog⟩ := callFunction_record hcall
            refine .inr ⟨s₁.log, ⟨f.name.text, args, outcome⟩, ?_, ?_⟩
            · exact ⟨q, f, span, slots, result, s₁, s, hq, calls, hi, rfl, hargs, rfl, hcall, hlog⟩
            · show _ <:+ s.log
              rw [hlog]
          -- a call that stands in no other one does not stand in this one
          · have hinner := hcallAt.mem_inner_labels hq hlt (by omega) hi hx.1
            have hsite := hstands.sites_subset hcallAt.mem
            exact absurd (hwrites.encloses_of_mem_inner_labels hsound hnames.letters hsite hinner)
              (hx.2 _ (hwrites.mem_labels_iff.1 (List.mem_map_of_mem hsite)))
      | argument => simp [enterPart, enter] at hdepth
      | block resolves => exact (hstands.not_resolves hnames hq resolves).elim
      | condition resolves => exact (hstands.not_resolves hnames hq resolves).elim
    · exact .inr (hdone.leads (.single move))

/-- What is resolved in an argument stands inside of a call that is next in the whole document. -/
theorem Reached.exists_outer (hnames : Worklist.Callable ev.registry.names)
    (hsound : c.Sound ev.registry.names false) (hwrites : c.Writes source)
    (hp : ev.Reached source state p) (hdeep : p.depth ≠ 0) :
    ∃ u w, ev.Reached source state u ∧ u.depth = 0 ∧ ev.Leads u p ∧ ev.Begins u w ∧
      ∀ z, some z ∈ p.places → source[z]? = some '$' → Encloses source w z := by
  induction hp with
  | refl => exact absurd rfl hdeep
  | @tail q p hq move ih =>
    have hq : ev.Reached source state q := hq
    by_cases hzero : q.depth = 0
    · obtain ⟨q', results, hstands⟩ := hq.stands hnames hsound hwrites
      cases move with
      | leave | call => exact absurd hzero hdeep
      | @argument f span slot slots done more args s calls within slots_eq earlier marked =>
        obtain ⟨-, site, rest, -, -, -, hcallAt⟩ := hstands.callAt hnames hq calls
        refine ⟨q, site.place, hq, hzero, .single (.argument calls within slots_eq earlier marked),
          ⟨f, span, slots, calls, hcallAt.place⟩, fun z hz hdollar => ?_⟩
        obtain ⟨i, hi₁, hi₂, hi⟩ :=
          inside_of_mem_argument calls hq.listed (by rw [slots_eq]; simp) hz
        exact hwrites.encloses_of_mem_inner_labels hsound hnames.letters
          (hstands.sites_subset hcallAt.mem) (hcallAt.mem_inner_labels hq hi₁ hi₂ hi hdollar)
      | block resolves => exact (hstands.not_resolves hnames hq resolves).elim
      | condition resolves => exact (hstands.not_resolves hnames hq resolves).elim
    · obtain ⟨u, w, hu, hdepth, huq, hbegins, hinside⟩ := ih hzero
      exact ⟨u, w, hu, hdepth, huq.tail move, hbegins, fun z hz hdollar =>
        hinside z (Leads.mem_places (.single move) hq.listed hz) hdollar⟩

/-- The call at `x` completes before the call at `y` begins, and before any call inside of that one
does. -/
def CompletesFirst (ev : Evaluator) (source : Text) (state : ExecutionState) (x y : Nat) : Prop :=
  ∀ p z, ev.Reached source state p → ev.Begins p z → Within source y z →
    ev.Completed source state x p

/-- In a well nested text of calls take two of them that stand in no other call, one that begins
above a line break and one that begins below it. When the call below begins, or a call inside of it,
the one above has completed; unless before that, while the one above was still left, the call below
or a call inside of it was taken for a name left behind by a call above, which had gone with the call
around it. So the call above completes first if no call above that stands in another one has the name
of the call below or of a call inside of it. -/
theorem upper_call_completes_first (hnames : Worklist.Callable ev.registry.names)
    (hcalled : AllCalled ev.registry.names source) (hnested : Bracket.WellNested source)
    (hsource : source = above ++ '\n' :: below) (hx : TopLevel source x) (hy : TopLevel source y)
    (hxabove : x < above.length) (hybelow : above.length < y) (state : ExecutionState) :
    (∀ p z, ev.Reached source state p → ev.Begins p z → Within source y z →
      ev.Completed source state x p ∨
        ∃ u w, ev.Reached source state u ∧ ev.Leads u p ∧ some x ∈ u.places ∧ Within source y w ∧
          ev.Mistaken source state above.length u w) ∧
    ((∀ v z w, source[v]? = some '$' → Encloses source v z → z < above.length →
        Within source y w → ¬ SameName ev.registry.names source z w) →
      ev.CompletesFirst source state x y) := by
  obtain ⟨c, hsound, hwrites⟩ := exists_writes hnames.letters hcalled hnested
  have hturn : ∀ p z, ev.Reached source state p → ev.Begins p z → Within source y z →
      ev.Completed source state x p ∨
        ∃ u w, ev.Reached source state u ∧ ev.Leads u p ∧ some x ∈ u.places ∧ Within source y w ∧
          ev.Mistaken source state above.length u w := by
    intro p z hp hbegins hz
    -- the step in the whole document that the call belongs to
    obtain ⟨u, w, hu, hdepth, hup, houter, hw⟩ : ∃ u w, ev.Reached source state u ∧ u.depth = 0 ∧
        ev.Leads u p ∧ ev.Begins u w ∧ Within source y w := by
      by_cases hdepth : p.depth = 0
      · exact ⟨p, z, hp, hdepth, .refl, hbegins, hz⟩
      · obtain ⟨u, w, hu, hzero, hup, houter, hinside⟩ :=
          hp.exists_outer hnames hsound hwrites hdepth
        have hwz := hinside z hbegins.mem_places (hbegins.getElem? hp)
        exact ⟨u, w, hu, hzero, hup, houter, hy.within_of_encloses (houter.getElem? hu) hwz hz⟩
    rcases hu.mem_places_or_completed hnames hsound hwrites hx hdepth with hmem | hdone
    · obtain ⟨name, left, hupper⟩ :=
        hu.upper hnames hcalled hsource hsound hwrites hx.1 hxabove hdepth hmem
      obtain ⟨q', results, hstands⟩ := hu.stands hnames hsound hwrites
      exact .inr ⟨u, w, hu, hup, hmem, hw,
        hupper.mistaken hnames hwrites hstands hu houter (hybelow.le.trans hw.le)⟩
    · exact .inl (hdone.leads hup)
  refine ⟨hturn, fun hdistinct p z hp hbegins hz => (hturn p z hp hbegins hz).resolve_right ?_⟩
  rintro ⟨u, w, -, -, -, hw, name, htakes, u', v, z', hu', -, hbegins', hencloses, hlt, hstarts,
    -, -⟩
  exact hdistinct v z' w (hbegins'.getElem? hu') hencloses hlt hw
    ⟨name, htakes.registered, hstarts, htakes.written⟩

/-- The call on the second line has another name than the one inside of a call on the first line. -/
theorem nested_name_is_apart :
    twoFunctions.CompletesFirst "$g[$f[1]]\n$g[2]".toList .initial 0 10 := by
  have hcalled : AllCalled twoFunctions.registry.names "$g[$f[1]]\n$g[2]".toList := by
    decide +kernel
  have hsource : "$g[$f[1]]\n$g[2]".toList = "$g[$f[1]]".toList ++ '\n' :: "$g[2]".toList := rfl
  have hupper : ∀ z < 9, 0 < z →
      Text.startsFolded ['$', 'g'] ("$g[$f[1]]\n$g[2]".toList.drop z) = false := by decide
  have hlower : ∀ w < 15, 10 ≤ w →
      Text.startsFolded ['$', 'f'] ("$g[$f[1]]\n$g[2]".toList.drop w) = false := by decide
  have hnames : twoFunctions.registry.names = [['$', 'f'], ['$', 'g']] := rfl
  refine (upper_call_completes_first separate_twoFunctions hcalled (by decide) hsource
    (by decide +kernel) (by decide +kernel) (by decide) (by decide) .initial).2 ?_
  rintro v z w hv hencloses hz hw ⟨name, hname, hstarts, hstarts'⟩
  have hdollar := Text.getElem?_of_startsFolded (head?_of_mem_names (List.mem_append_left _ hname))
    hstarts'
  have hlt : w < 15 := (List.getElem?_eq_some_iff.1 hdollar).1
  rw [hnames, List.mem_cons, List.mem_singleton] at hname
  rcases hname with rfl | rfl
  · rw [hlower w hlt hw.le] at hstarts'
    cases hstarts'
  · rw [hupper z hz ((Nat.zero_le v).trans_lt hencloses.lt)] at hstarts
    cases hstarts

/-- The name of `$f[1]` is left behind when the call goes with the one around it, and it is taken
for the call on the second line, in front of `$g[2]`. -/
theorem lower_call_is_taken_first :
    Worklist.Callable twoFunctions.registry.names ∧
    AllCalled twoFunctions.registry.names "$g[$f[1]]$g[2]\n$f[3]".toList ∧
    Bracket.WellNested "$g[$f[1]]$g[2]\n$f[3]".toList ∧
    TopLevel "$g[$f[1]]$g[2]\n$f[3]".toList 9 ∧ TopLevel "$g[$f[1]]$g[2]\n$f[3]".toList 15 ∧
    "$g[$f[1]]$g[2]\n$f[3]".toList = "$g[$f[1]]$g[2]".toList ++ '\n' :: "$f[3]".toList ∧
    ¬ twoFunctions.CompletesFirst "$g[$f[1]]$g[2]\n$f[3]".toList .initial 9 15 := by
  refine ⟨separate_twoFunctions, by decide +kernel, by decide, by decide +kernel,
    by decide +kernel, rfl, fun hfirst => ?_⟩
  have hcalls : twoFunctions.Calls (twoFunctions.start "$g[$f[1]]$g[2]\n$f[3]".toList .initial)
      _ _ _ := ⟨['$', 'g'], ⟨by decide, rfl⟩, rfl, rfl⟩
  -- the point behind the first call
  obtain ⟨p, hreached, hbegins, hmem⟩ : ∃ p,
      twoFunctions.Reached "$g[$f[1]]$g[2]\n$f[3]".toList .initial p ∧ twoFunctions.Begins p 15 ∧
        some 9 ∈ p.places :=
    ⟨_, Relation.ReflTransGen.single (.call hcalls rfl),
      ⟨_, _, _, ⟨['$', 'f'], ⟨by decide, rfl⟩, rfl, rfl⟩, rfl⟩, by decide +kernel⟩
  exact (hfirst p 15 hreached hbegins (.inl rfl)).not_mem_places hreached hmem

end Evaluator

end Stencil
