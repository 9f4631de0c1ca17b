import Stencil.Proofs.Inert
import Stencil.Proofs.Place
/-!
# Which calls of a block run

A call that stands inside an open block waits until the block is resolved, and what is not chosen
then goes away. For a whole run this comes to the following: a call written between the condition
and the `$endif` of a block runs in one of three ways only. It runs after the block was resolved,
and was chosen; or it belongs to a condition, of this block or of one that was resolved before,
since inner blocks are resolved first; or it belongs to a call that ran before, when no block stood
open around that call.

The places of the characters tell which calls are meant. Two points of a run that hold the same
place lie on one path, except where the run parts (`Leads.fork`), and where it parts the places do:
arguments and conditions share none (`Span.InOrder`), and neither do they share one with what is
left when they are done.
-/

namespace Stencil.Evaluator

variable {ev : Evaluator} {source : Text} {state : ExecutionState} {p q r u v w : Point}

/-! ### What is next is determined -/

/-- The name that is next is the first of the worklist, so there is only one. -/
theorem Next.unique {name name' : Text} (h : ev.Next p name) (h' : ev.Next p name') :
    name = name' :=
  Option.some.inj (h.2.symm.trans h'.2)

/-- Only one call is next. -/
theorem Calls.unique {f f' : Function} {span span' : Span} {slots slots' : List (Option Span)}
    (h : ev.Calls p f span slots) (h' : ev.Calls p f' span' slots') :
    f = f' ∧ span = span' ∧ slots = slots' := by
  obtain ⟨name, hnext, -, horder⟩ := h
  obtain ⟨name', hnext', -, horder'⟩ := h'
  obtain rfl := hnext.unique hnext'
  have heq := horder.symm.trans horder'
  injection heq with hf hspan hslots
  exact ⟨hf, hspan, hslots⟩

/-- Only one block is next. -/
theorem Resolves.unique {b b' : Block} (h : ev.Resolves p b) (h' : ev.Resolves p b') : b = b' := by
  obtain ⟨name, -, -, hb⟩ := h
  obtain ⟨name', -, -, hb'⟩ := h'
  exact Except.ok.inj (hb.symm.trans hb')

/-- What is next is a call or a block, not both. -/
theorem Calls.not_resolves {f : Function} {span : Span} {slots : List (Option Span)} {b : Block}
    (h : ev.Calls p f span slots) (h' : ev.Resolves p b) : False := by
  obtain ⟨name, hnext, hfree, -⟩ := h
  obtain ⟨name', hnext', hpending, -⟩ := h'
  obtain rfl := hnext.unique hnext'
  rw [hfree] at hpending
  cases hpending

/-- A call that is next does not stand inside an open block. -/
theorem Calls.not_isInside {f : Function} {span : Span} {slots : List (Option Span)}
    (h : ev.Calls p f span slots) (hp : ev.Listed p) :
    Block.isInside p.document.text span.start = false := by
  obtain ⟨name, hnext, hfree, horder⟩ := h
  have hcovers := (orderFor_eq_call (head?_of_mem_names (hnext.mem_names hp)) horder).1
  have hfind : p.document.findName? name 0 = some span.start := by
    have hle := hcovers.name_le
    have hstop := hcovers.stop_le
    exact Document.findName?_eq_some_iff.2
      ⟨Nat.zero_le _, by omega, hcovers.name_at, fun m _ hm => hcovers.first m hm⟩
  rw [isPending, hfind, Bool.or_eq_false_iff] at hfree
  exact hfree.2

/-- Conditions that were refuted leave one session. -/
theorem Refuted.unique {nested : Nested} {d : Document} {asked : List Span} {s s₁ s₂ : Session}
    (h : Refuted nested d asked s s₁) (h' : Refuted nested d asked s s₂) : s₁ = s₂ := by
  induction h with
  | nil =>
    cases h'
    rfl
  | cons first _ ih =>
    cases h' with
    | cons first' rest' =>
      rw [first] at first'
      cases first'
      exact ih rest'

/-! ### The moves from a call and from a block -/

/-- The point at which a span of the document is entered. -/
def Enters (ev : Evaluator) (u : Point) (part : Span) (v : Point) : Prop :=
  ev.Move u v ∧ ∃ s, v = ev.enterPart u part s

/-- The point belongs to a part of the step that is next. -/
def PartOf (ev : Evaluator) (u r : Point) : Prop := ∃ part v, ev.Enters u part v ∧ ev.Leads v r

/-- Of two elements of a list either is the other one, or stands before or behind it. -/
theorem split_cases {α : Type} {as bs cs ds : List α} {a c : α}
    (h : as ++ a :: bs = cs ++ c :: ds) : (as = cs ∧ a = c) ∨ c ∈ as ∨ c ∈ bs := by
  rcases List.append_eq_append_iff.1 h with ⟨mid, rfl, hmid⟩ | ⟨mid, rfl, hmid⟩
  -- the one part in front is shorter, or both are the same
  · cases mid with
    | nil =>
      obtain ⟨rfl, -⟩ := List.cons.inj hmid
      exact .inl ⟨(List.append_nil _).symm, rfl⟩
    | cons x mid =>
      obtain ⟨rfl, rfl⟩ := List.cons.inj hmid
      exact .inr (.inr (by simp))
  · cases mid with
    | nil =>
      obtain ⟨rfl, -⟩ := List.cons.inj hmid
      exact .inl ⟨List.append_nil _, rfl⟩
    | cons x mid =>
      obtain ⟨rfl, rfl⟩ := List.cons.inj hmid
      exact .inr (.inl (by simp))

/-- Spans in order that stand at different positions of the list are disjoint. -/
theorem disjoint_of_inOrder {lo hi : Nat} {before behind : List Span} {s s' : Span}
    (h : Span.InOrder lo hi (before ++ s :: behind)) (hs' : s' ∈ before ∨ s' ∈ behind) :
    s.stop ≤ s'.start ∨ s'.stop ≤ s.start := by
  have hpairs := List.pairwise_append.1 h.pairwise
  rcases hs' with hs' | hs'
  · exact .inr (hpairs.2.2 s' hs' s List.mem_cons_self)
  · exact .inl ((List.pairwise_cons.1 hpairs.2.1).1 s' hs')

/-- From a call a run goes on behind the call, or enters an argument of it. -/
theorem Calls.move {f : Function} {span : Span} {slots : List (Option Span)}
    (h : ev.Calls u f span slots) (move : ev.Move u v) :
    (∃ result s, ev.callResult (ev.resolveAt (u.depth + 1)) u.document f slots u.session =
      (.ok result, s) ∧ v = afterCall u span result s) ∨
    ∃ done slot more args s, slots = done ++ some slot :: more ∧
      arguments (ev.resolveAt (u.depth + 1)) u.document done u.session.counted = (.ok args, s) ∧
      v = ev.enterPart u slot s := by
  cases move with
  -- a name that is left is no call
  | leave next free order =>
    obtain ⟨name, hnext, -, horder⟩ := h
    obtain rfl := hnext.unique next
    rw [order] at horder
    cases horder
  | call calls returns =>
    obtain ⟨rfl, rfl, rfl⟩ := h.unique calls
    exact .inl ⟨_, _, returns, rfl⟩
  | argument calls within slots_eq earlier marked =>
    obtain ⟨rfl, rfl, rfl⟩ := h.unique calls
    exact .inr ⟨_, _, _, _, _, slots_eq, earlier, rfl⟩
  | block resolves => exact (h.not_resolves resolves).elim
  | condition resolves => exact (h.not_resolves resolves).elim

/-- From a block a run goes on behind the block, or enters a condition of it. -/
theorem Resolves.move {b : Block} (h : ev.Resolves u b) (move : ev.Move u v) :
    (∃ chosen s, ev.chosenBody (ev.resolveAt (u.depth + 1)) u.document b u.session =
      (.ok chosen, s) ∧ v = ev.afterBlock u b chosen s) ∨
    ∃ asked c later s, b.conditions = asked ++ c :: later ∧
      Refuted (ev.resolveAt (u.depth + 1)) u.document asked u.session.counted s ∧
      v = ev.enterPart u c s := by
  cases move with
  -- nor does a run leave a block where it is
  | leave next free =>
    obtain ⟨name, hnext, hpending, -⟩ := h
    obtain rfl := hnext.unique next
    rw [free] at hpending
    cases hpending
  | call calls => exact (calls.not_resolves h).elim
  | argument calls => exact (calls.not_resolves h).elim
  | block resolves chooses =>
    obtain rfl := h.unique resolves
    exact .inl ⟨_, _, chooses, rfl⟩
  | condition resolves within conditions_eq earlier =>
    obtain rfl := h.unique resolves
    exact .inr ⟨_, _, _, _, conditions_eq, earlier, rfl⟩

/-- Where a run parts, a call or a block is next: leaving a name is all there is to do. -/
theorem calls_or_resolves (hv : ev.Move u v) (hw : ev.Move u w) (hne : v ≠ w) :
    (∃ f span slots, ev.Calls u f span slots) ∨ ∃ b, ev.Resolves u b := by
  cases hv with
  | leave next free order =>
    cases hw with
    | leave => exact absurd rfl hne
    | call calls => exact .inl ⟨_, _, _, calls⟩
    | argument calls => exact .inl ⟨_, _, _, calls⟩
    | block resolves => exact .inr ⟨_, resolves⟩
    | condition resolves => exact .inr ⟨_, resolves⟩
  | call calls => exact .inl ⟨_, _, _, calls⟩
  | argument calls => exact .inl ⟨_, _, _, calls⟩
  | block resolves => exact .inr ⟨_, resolves⟩
  | condition resolves => exact .inr ⟨_, resolves⟩

/-- Two points that a run leads to lie on one path, or the run parts before them. -/
theorem Leads.fork (hr : ev.Leads p r) (hq : ev.Leads p q) :
    ev.Leads r q ∨ ev.Leads q r ∨ ∃ u v w, ev.Leads p u ∧ ev.Move u v ∧ ev.Move u w ∧ v ≠ w ∧
      ev.Leads v r ∧ ev.Leads w q := by
  classical
  induction hr using Relation.ReflTransGen.head_induction_on with
  | refl => exact .inl hq
  | @head p v move hvr ih =>
    rcases Relation.ReflTransGen.cases_head hq with rfl | ⟨w, move', hwq⟩
    · exact .inr (.inl (.head move hvr))
    -- while both runs take the same move they lie on one path
    · by_cases hvw : v = w
      · subst hvw
        rcases ih hwq with h | h | ⟨u, v', w', hu, hrest⟩
        · exact .inl h
        · exact .inr (.inl h)
        · exact .inr (.inr ⟨u, v', w', .head move hu, hrest⟩)
      · exact .inr (.inr ⟨p, v, w, .refl, move, move', hvw, hvr, hwq⟩)

/-! ### Places of parts -/

/-- A place between two places of a part belongs to the part. -/
theorem mem_cut_of_between {places : List (Option Nat)} (h : Rising places) {s : Span}
    {lo x hi i : Nat} (hlo : some lo ∈ s.cut places) (hhi : some hi ∈ s.cut places)
    (hi' : places[i]? = some (some x)) (hlox : lo < x) (hxhi : x < hi) :
    s.start ≤ i ∧ i < s.stop := by
  obtain ⟨j, hj, -, hjlo⟩ := Span.mem_cut_iff.1 hlo
  obtain ⟨k, -, hk, hkhi⟩ := Span.mem_cut_iff.1 hhi
  have := h.lt_of_lt hjlo hi' hlox
  have := h.lt_of_lt hi' hkhi hxhi
  omega

/-- Disjoint parts hold no place between two places of each other. -/
theorem not_between_of_disjoint {places : List (Option Nat)} (h : Rising places) {s s' : Span}
    {lo x hi : Nat} (hlo : some lo ∈ s.cut places) (hhi : some hi ∈ s.cut places)
    (hx : some x ∈ s'.cut places) (hlox : lo < x) (hxhi : x < hi)
    (hdisjoint : s.stop ≤ s'.start ∨ s'.stop ≤ s.start) : False := by
  obtain ⟨i, hi₁, hi₂, hix⟩ := Span.mem_cut_iff.1 hx
  have := mem_cut_of_between h hlo hhi hix hlox hxhi
  omega

/-- The conditions of a block share no place with what is chosen of it. -/
theorem not_mem_gather_of_mem_condition {t : Text} {b : Block} {chosen : List Span} {c : Span}
    (h : Block.Laid t b) (hchosen : chosen ∈ b.choices) (hc : c ∈ b.conditions)
    {places : List (Option Nat)} (hrising : Rising places) {x : Nat} (hx : some x ∈ c.cut places) :
    some x ∉ Span.gather chosen places := by
  intro hx'
  have hone := hrising.countP_le_one x
  have hin := (h.countP_gather_le hchosen (· == some x) places).trans
    (((Span.cut_isInfix _ places).sublist).countP_le)
  have hcond : 0 < (Span.gather b.conditions places).countP (· == some x) :=
    List.countP_pos_iff.2 ⟨some x, List.mem_flatMap.2 ⟨c, hc, hx⟩, beq_self_eq_true _⟩
  have hbody : 0 < (Span.gather chosen places).countP (· == some x) :=
    List.countP_pos_iff.2 ⟨some x, hx', beq_self_eq_true _⟩
  omega

/-! ### The calls of a block -/

/-- The call at the point runs after the block was resolved, and it was chosen. -/
def RunsChosen (ev : Evaluator) (p : Point) (b : Block) (r : Point) (x : Nat) : Prop :=
  ∃ chosen s, ev.chosenBody (ev.resolveAt (p.depth + 1)) p.document b p.session =
      (.ok chosen, s) ∧
    some x ∈ Span.gather chosen p.places ∧ ev.Leads (ev.afterBlock p b chosen s) r

/-- The call at the point belongs to a condition of a block that is resolved no later. -/
def RunsInCondition (ev : Evaluator) (p r : Point) : Prop :=
  ∃ u b, ev.Leads u p ∧ ev.Resolves u b ∧ ev.PartOf u r

/-- The call at the point is, or belongs to, a call behind the place `lo` that ran before and did
not stand inside an open block then. -/
def RunsBefore (ev : Evaluator) (p r : Point) (lo x : Nat) : Prop :=
  ∃ u f span slots x', ev.Leads u p ∧ ev.Calls u f span slots ∧ (r = u ∨ ev.PartOf u r) ∧
    u.places[span.start]? = some (some x') ∧ lo < x' ∧ x' ≤ x ∧
    Block.isInside u.document.text span.start = false

/-- The call that is next begins at a place. -/
theorem Calls.exists_place {f : Function} {span : Span} {slots : List (Option Span)}
    (h : ev.Calls r f span slots) (hr : ev.Reached source state r) :
    ∃ x, r.places[span.start]? = some (some x) := by
  obtain ⟨name, hhead, -, hcovers⟩ := h.covers hr.listed
  obtain ⟨x, hx, -⟩ := hr.tracks.exists_place (hcovers.head hhead)
  exact ⟨x, hx⟩

/-- A marker of a document stands at a place. -/
theorem Reached.exists_place (hp : ev.Reached source state p) {i : Nat} {m : Char}
    (hi : p.document.text[i]? = some m) (hm : isMarker m = true) :
    ∃ x, p.places[i]? = some (some x) := by
  obtain ⟨x, hx, -⟩ :=
    hp.tracks.exists_place (Document.getElem?_cells_of_marked hp.marked hi hm)
  exact ⟨x, hx⟩

/-- The slots of a call lie in its span, and two of them are disjoint. -/
theorem slot_bounds {d : Document} {name : Text} {span slot : Span}
    {slots done more : List (Option Span)} (h : CallSite.Covers d name span slots)
    (hslots : slots = done ++ some slot :: more) :
    span.start ≤ slot.start ∧ slot.stop ≤ span.stop ∧
      ∀ slot', some slot' ∈ done ∨ some slot' ∈ more →
        slot.stop ≤ slot'.start ∨ slot'.stop ≤ slot.start := by
  obtain ⟨inner, hinner, horder, -⟩ := h.slots_inOrder
  -- both are slots of the list, one of them in front of the other
  have hsplit : slots.filterMap id = done.filterMap id ++ slot :: more.filterMap id := by
    rw [hslots, List.filterMap_append]
    rfl
  rw [hsplit] at horder
  have hbounds := horder.bounds (List.mem_append_right _ List.mem_cons_self)
  refine ⟨by omega, hbounds.2.2, fun slot' hslot' => disjoint_of_inOrder horder ?_⟩
  rcases hslot' with h | h
  · exact .inl (List.mem_filterMap.2 ⟨_, h, rfl⟩)
  · exact .inr (List.mem_filterMap.2 ⟨_, h, rfl⟩)

/-- Where the run parts at a call, only the point that belongs to the call can hold a place between
two places of the other one. -/
theorem runsBefore_of_fork {g : Function} {span : Span} {slots : List (Option Span)}
    {lo hi x : Nat} (hu : ev.Reached source state u) (hcalls : ev.Calls u g span slots)
    (hv : ev.Move u v) (hw : ev.Move u w) (hne : v ≠ w) (hvr : ev.Leads v r) (hwp : ev.Leads w p)
    (hlo : some lo ∈ p.places) (hhi : some hi ∈ p.places) (hx : some x ∈ r.places)
    (hlox : lo < x) (hxhi : x < hi) : ev.RunsBefore p r lo x := by
  have hrising := hu.rising
  obtain ⟨name, -, -, hcovers⟩ := hcalls.covers hu.listed
  have hlow := hwp.mem_places (hu.listed.move hw) hlo
  have hhiw := hwp.mem_places (hu.listed.move hw) hhi
  have hxv := hvr.mem_places (hu.listed.move hv) hx
  -- a place that is still there behind the call stands outside of it
  have outside : ∀ {result s y}, some y ∈ (afterCall u span result s).places →
      ∃ i, (i < span.start ∨ span.stop ≤ i) ∧ u.places[i]? = some (some y) := by
    intro result s y hy
    rcases Span.mem_graft hy with hnew | h
    · cases List.eq_of_mem_replicate hnew
    · exact h
  -- each of the two goes on behind the call or into an argument of it
  rcases hcalls.move hv with ⟨result, s, hres, rfl⟩ | ⟨done, slot, more, args, s, hslots, hargs, rfl⟩
  · rcases hcalls.move hw with ⟨result', s', hres', rfl⟩ |
      ⟨done', slot', more', args', s', hslots', hargs', rfl⟩
    · rw [hres] at hres'
      cases hres'
      exact absurd rfl hne
    · -- the block lies in an argument, the call behind it
      exfalso
      obtain ⟨i, hi₁, hi₂⟩ := outside hxv
      obtain ⟨hstart, hstop, -⟩ := slot_bounds hcovers hslots'
      have := mem_cut_of_between hrising hlow hhiw hi₂ hlox hxhi
      omega
  · obtain ⟨hstart, hstop, hdisjoint⟩ := slot_bounds hcovers hslots
    rcases hcalls.move hw with ⟨result', s', hres', rfl⟩ |
      ⟨done', slot', more', args', s', hslots', hargs', rfl⟩
    -- the call lies in an argument, the block behind it: places rise, so the name of the outer call
    -- stands between the condition of the block and the call
    · obtain ⟨x', hx'⟩ := hcalls.exists_place hu
      obtain ⟨i, hi₁, hi₂, hix⟩ := Span.mem_cut_iff.1 hxv
      obtain ⟨j, hj₁, hj₂⟩ := outside hlow
      have hji := hrising.lt_of_lt hj₂ hix hlox
      have hlox' : lo < x' := hrising.lt hj₂ hx' (by omega)
      have hx'x : x' ≤ x := by
        rcases Nat.lt_or_ge span.start i with hlt | hge
        · exact (hrising.lt hx' hix hlt).le
        · obtain rfl : i = span.start := by omega
          rw [hx'] at hix
          cases hix
          exact le_rfl
      exact ⟨u, g, span, slots, x', .head hw hwp, hcalls, .inr ⟨slot, _, ⟨hv, s, rfl⟩, hvr⟩, hx',
        hlox', hx'x, hcalls.not_isInside hu.listed⟩
    · exfalso
      -- two arguments are the same one or share no place
      rcases split_cases (hslots.symm.trans hslots') with ⟨hdone, hslot⟩ | hmem
      · subst hdone
        cases hslot
        rw [hargs] at hargs'
        cases hargs'
        exact hne rfl
      · refine not_between_of_disjoint hrising hlow hhiw hxv hlox hxhi ?_
        have := hdisjoint slot' hmem
        omega

/-- Where the run parts at a block, only the point that belongs to a condition can hold a place
between two places of the other one. -/
theorem partOf_of_fork {b : Block} {lo hi x : Nat} (hu : ev.Reached source state u)
    (hresolves : ev.Resolves u b) (hv : ev.Move u v) (hw : ev.Move u w) (hne : v ≠ w)
    (hvr : ev.Leads v r) (hwp : ev.Leads w p) (hlo : some lo ∈ p.places) (hhi : some hi ∈ p.places)
    (hx : some x ∈ r.places) (hlox : lo < x) (hxhi : x < hi) :
    ev.PartOf u r ∧ ∃ chosen s, w = ev.afterBlock u b chosen s := by
  have hrising := hu.rising
  have hlaid := hresolves.laid
  have hlow := hwp.mem_places (hu.listed.move hw) hlo
  have hhiw := hwp.mem_places (hu.listed.move hw) hhi
  have hxv := hvr.mem_places (hu.listed.move hv) hx
  rcases hresolves.move hv with ⟨chosen, s, hchosen, rfl⟩ |
    ⟨asked, c, later, s, hconds, hasked, rfl⟩
  · exfalso
    rcases hresolves.move hw with ⟨chosen', s', hchosen', rfl⟩ |
      ⟨asked', c', later', s', hconds', hasked', rfl⟩
    · rw [hchosen] at hchosen'
      cases hchosen'
      exact hne rfl
    · -- the block lies in a condition, and what is chosen shares no place with it
      have hmem : c' ∈ b.conditions := by rw [hconds']; simp
      obtain ⟨hstart, -, hstop⟩ := hlaid.conditions_inOrder.bounds hmem
      have hregion := hlaid.span_stop
      rcases Span.mem_graft hxv with hbody | ⟨i, hi₁, hi₂⟩
      · obtain ⟨j, hj⟩ : ∃ j, u.places[j]? = some (some x) := by
          obtain ⟨part, -, hpart⟩ := List.mem_flatMap.1 hbody
          obtain ⟨j, -, -, hj⟩ := Span.mem_cut_iff.1 hpart
          exact ⟨j, hj⟩
        have hbetween := mem_cut_of_between hrising hlow hhiw hj hlox hxhi
        have hcond : some x ∈ c'.cut u.places :=
          Span.mem_cut_iff.2 ⟨j, hbetween.1, hbetween.2, hj⟩
        exact not_mem_gather_of_mem_condition hlaid (mem_choices_of_chosenBody hchosen) hmem
          hrising hcond hbody
      · have := mem_cut_of_between hrising hlow hhiw hi₂ hlox hxhi
        omega
  · rcases hresolves.move hw with ⟨chosen', s', -, rfl⟩ |
      ⟨asked', c', later', s', hconds', hasked', rfl⟩
    -- the call lies in a condition, the block in what was chosen
    · exact ⟨⟨c, _, ⟨hv, s, rfl⟩, hvr⟩, chosen', s', rfl⟩
    · exfalso
      -- two conditions are the same one or share no place
      rcases split_cases (hconds.symm.trans hconds') with ⟨rfl, rfl⟩ | hmem
      · obtain rfl := hasked.unique hasked'
        exact hne rfl
      · have horder := hlaid.conditions_inOrder
        rw [hconds] at horder
        refine not_between_of_disjoint hrising hlow hhiw hxv hlox hxhi ?_
        have := disjoint_of_inOrder horder hmem
        omega

/-- A call written between the condition and the `$endif` of a block that is resolved runs after
that and was chosen, or belongs to a condition of this block or of one resolved before, or belongs
to a call that ran before and stood inside no open block then. -/
theorem runs_in_block {b : Block} {f : Function} {span : Span} {slots : List (Option Span)}
    (hp : ev.Reached source state p) (hb : ev.Resolves p b) (hr : ev.Reached source state r)
    (hcalls : ev.Calls r f span slots) :
    ∃ lo hi x, p.places[b.condition.stop]? = some (some lo) ∧
      p.places[b.regionEnd]? = some (some hi) ∧ r.places[span.start]? = some (some x) ∧
      (lo < x → x < hi →
        ev.RunsChosen p b r x ∨ ev.RunsInCondition p r ∨ ev.RunsBefore p r lo x) := by
  have hlaid := hb.laid
  have hclose := (Bracket.getElem?_of_closing? hlaid.closing).2
  obtain ⟨lo, hlo⟩ := hp.exists_place hclose rfl
  obtain ⟨hi, hhi⟩ := hp.exists_place hlaid.endIf.getElem?_start rfl
  obtain ⟨x, hx⟩ := hcalls.exists_place hr
  refine ⟨lo, hi, x, hlo, hhi, hx, fun hlox hxhi => ?_⟩
  have hlomem := List.mem_of_getElem? hlo
  have hhimem := List.mem_of_getElem? hhi
  have hxmem := List.mem_of_getElem? hx
  -- the call comes first, or the block does, or the run parts before both
  rcases Leads.fork hr hp with hrp | hpr | ⟨u, v, w, hu, hv, hw, hne, hvr, hwp⟩
  · exact .inr (.inr ⟨r, f, span, slots, x, hrp, hcalls, .inl rfl, hx, hlox, le_rfl,
      hcalls.not_isInside hr.listed⟩)
  · rcases Relation.ReflTransGen.cases_head hpr with rfl | ⟨q, hq, hqr⟩
    · exact (hcalls.not_resolves hb).elim
    · rcases hb.move hq with ⟨chosen, s, hchosen, rfl⟩ | ⟨asked, c, later, s, hconds, -, rfl⟩
      · refine .inl ⟨chosen, s, hchosen, ?_, hqr⟩
        have hxq := Leads.mem_places hqr (hp.listed.move hq) hxmem
        rcases Span.mem_graft hxq with hbody | ⟨i, hi₁, hi₂⟩
        · exact hbody
        · -- outside of the block there is no place between its condition and its end
          have hstart := hlaid.condition_start
          have hcond := hlaid.condition_le
          have hstop := hlaid.span_stop
          have := hp.rising.lt_of_lt hlo hi₂ hlox
          have := hp.rising.lt_of_lt hi₂ hhi hxhi
          omega
      · exact .inr (.inl ⟨p, b, .refl, hb, c, _, ⟨hq, s, rfl⟩, hqr⟩)
  · have hureached : ev.Reached source state u := hu
    rcases calls_or_resolves hv hw hne with ⟨g, span', slots', hcallsu⟩ | ⟨b', hresolves⟩
    · exact .inr (.inr (runsBefore_of_fork hureached hcallsu hv hw hne hvr hwp hlomem hhimem hxmem
        hlox hxhi))
    · obtain ⟨hpart, -⟩ := partOf_of_fork hureached hresolves hv hw hne hvr hwp hlomem hhimem hxmem
        hlox hxhi
      exact .inr (.inl ⟨u, b', .head hw hwp, hresolves, hpart⟩)

/-- The evaluator of the function `$hit` alone. -/
def hitting : Evaluator := withFunctions [.constant ['h', 'i', 't'] []]

/-- The block of `$if[a==a]$hit[]$endif`. -/
def hittingBlock : Block := ⟨⟨0, 21⟩, ⟨4, 8⟩, [⟨9, 15⟩], [], []⟩

/-- The call in `$if[a==a]$hit[]$endif` runs after the block was resolved. -/
theorem hit_runs_in_block : ∃ p r f span slots,
    hitting.Resolves p hittingBlock ∧ hitting.Calls r f span slots ∧
    ∃ lo hi x, p.places[hittingBlock.condition.stop]? = some (some lo) ∧
      p.places[hittingBlock.regionEnd]? = some (some hi) ∧
      r.places[span.start]? = some (some x) ∧ lo < x ∧ x < hi ∧
      (hitting.RunsChosen p hittingBlock r x ∨ hitting.RunsInCondition p r ∨
        hitting.RunsBefore p r lo x) := by
  let p := hitting.start "$if[a==a]$hit[]$endif".toList .initial
  have hp : hitting.Reached "$if[a==a]$hit[]$endif".toList .initial p := .refl
  have hb : hitting.Resolves p hittingBlock :=
    ⟨['$', 'e', 'n', 'd', 'i', 'f'], ⟨Nat.zero_le _, rfl⟩, rfl, rfl⟩
  have hchosen : (hitting.chosenBody (hitting.resolveAt 1) p.document hittingBlock p.session).1 =
      .ok [⟨9, 15⟩] := by
    decide +kernel
  obtain ⟨s, hs⟩ := Eval.exists_session hchosen
  -- the block is replaced with its body, where the call is next
  have hr := hp.tail (.block hb hs)
  have hcalls : hitting.Calls (hitting.afterBlock p hittingBlock [⟨9, 15⟩] s)
      (.constant ['h', 'i', 't'] []) ⟨0, 6⟩ [] :=
    ⟨['$', 'h', 'i', 't'], ⟨Nat.zero_le _, rfl⟩, rfl, rfl⟩
  obtain ⟨lo, hi, x, hlo, hhi, hx, hways⟩ := runs_in_block hp hb hr hcalls
  obtain rfl : 8 = lo := Option.some.inj (Option.some.inj hlo)
  obtain rfl : 15 = hi := Option.some.inj (Option.some.inj hhi)
  obtain rfl : 9 = x := Option.some.inj (Option.some.inj hx)
  exact ⟨p, _, _, _, _, hb, hcalls, 8, 15, 9, hlo, hhi, hx, by decide, by decide,
    hways (by decide) (by decide)⟩

/-- A function whose name goes on behind `$endif`, beside `$hit`. -/
def closingEarly : Evaluator :=
  withFunctions [.constant ['e', 'n', 'd', 'i', 'f', 'y'] ['a'], .constant ['h', 'i', 't'] []]

/-- In `$if[$endify[]==b]$hit[]` with the `$endif` on the next line the name of the function in the
condition counts as the end of the block, so the call in the body runs before the block is resolved.
Nothing is chosen then. -/
theorem call_runs_in_discarded_body : ∃ r p f span slots b lo hi x,
    r = closingEarly.start "$if[$endify[]==b]$hit[]\n$endif".toList .initial ∧
    closingEarly.Calls r f span slots ∧ closingEarly.Move r p ∧ p.session.log ≠ [] ∧
    closingEarly.Resolves p b ∧
    (closingEarly.chosenBody (closingEarly.resolveAt 1) p.document b p.session).1 = .ok [] ∧
    p.places[b.condition.stop]? = some (some lo) ∧ p.places[b.regionEnd]? = some (some hi) ∧
    r.places[span.start]? = some (some x) ∧ lo < x ∧ x < hi := by
  -- the `$endif` of the name in the condition ends the block, so the call behind it is free
  have hcalls : closingEarly.Calls
      (closingEarly.start "$if[$endify[]==b]$hit[]\n$endif".toList .initial)
      (.constant ['h', 'i', 't'] []) ⟨17, 23⟩ [] :=
    ⟨['$', 'h', 'i', 't'], ⟨by decide, rfl⟩, rfl, rfl⟩
  have hmove : closingEarly.Move
      (closingEarly.start "$if[$endify[]==b]$hit[]\n$endif".toList .initial)
      (afterCall (closingEarly.start "$if[$endify[]==b]$hit[]\n$endif".toList .initial) ⟨17, 23⟩ []
        ⟨.initial, .empty, 1, [⟨['$', 'h', 'i', 't'], [], .text []⟩]⟩) :=
    .call hcalls rfl
  exact ⟨_, _, _, _, _, ⟨⟨0, 24⟩, ⟨4, 16⟩, [⟨17, 18⟩], [], []⟩, 16, 24, 17, rfl, hcalls, hmove,
    List.cons_ne_nil _ _, ⟨['$', 'e', 'n', 'd', 'i', 'f', 'y'], ⟨by decide, rfl⟩, rfl, rfl⟩,
    by decide +kernel, rfl, rfl, rfl, by decide, by decide⟩

end Stencil.Evaluator
