import Stencil.Proofs.Branches
/-!
# Every call runs once

Where a run parts, the parts share no place: a part of a step has other places than the parts beside
it and than what is left behind the step (`Move.disjoint`). A call takes its place with it, so at
most one point of a run has the call of a place next (`Calls.once`), and what a call `Returns` is
determined by where it was written (`Returns.unique`).
-/

namespace Stencil.Evaluator

variable {ev : Evaluator} {source : Text} {state : ExecutionState} {p q u v w : Point}
  {f g : Function} {span span' : Span} {slots slots' : List (Option Span)} {x : Nat}

/-! ### Places behind a call and in its arguments -/

theorem Calls.start_lt_stop (hcalls : ev.Calls u f span slots) (hu : ev.Listed u) :
    span.start < span.stop := by
  obtain ⟨name, hhead, -, hcovers⟩ := hcalls.covers hu
  have hpos : name ≠ [] := by
    rintro rfl
    cases hhead
  have := hcovers.name_le
  have := List.length_pos_of_ne_nil hpos
  omega

/-- A place that is still there behind a call stands outside of it. -/
theorem outside_of_mem_afterCall {result : Text} {s : Session}
    (h : some x ∈ (afterCall u span result s).places) :
    ∃ i, (i < span.start ∨ span.stop ≤ i) ∧ u.places[i]? = some (some x) := by
  rcases Span.mem_graft h with hnew | houtside
  · cases List.eq_of_mem_replicate hnew
  · exact houtside

/-- A place of an argument stands inside of the call, behind its first character. -/
theorem inside_of_mem_argument (hcalls : ev.Calls u f span slots) (hu : ev.Listed u) {slot : Span}
    (hslot : some slot ∈ slots) (h : some x ∈ slot.cut u.places) :
    ∃ i, span.start < i ∧ i < span.stop ∧ u.places[i]? = some (some x) := by
  obtain ⟨name, hhead, -, hcovers⟩ := hcalls.covers hu
  obtain ⟨inner, hinner, horder, -⟩ := hcovers.slots_inOrder
  have hbounds := horder.bounds (List.mem_filterMap.2 ⟨_, hslot, rfl⟩)
  obtain ⟨i, hi₁, hi₂, hix⟩ := Span.mem_cut_iff.1 h
  have hpos : name ≠ [] := by
    rintro rfl
    cases hhead
  have := List.length_pos_of_ne_nil hpos
  exact ⟨i, by omega, by omega, hix⟩

/-! ### Where a run parts -/

theorem Calls.disjoint (hu : ev.Reached source state u) (hcalls : ev.Calls u f span slots)
    (hv : ev.Move u v) (hw : ev.Move u w) (hne : v ≠ w) (hxv : some x ∈ v.places)
    (hxw : some x ∈ w.places) : False := by
  have hrising := hu.rising
  obtain ⟨name, -, -, hcovers⟩ := hcalls.covers hu.listed
  -- what is left behind the call lies outside of it, and its arguments inside
  have apart : ∀ {result s slot}, some slot ∈ slots →
      some x ∈ (afterCall u span result s).places → some x ∈ slot.cut u.places → False := by
    intro result s slot hslot hafter hin
    obtain ⟨i, hi, hix⟩ := outside_of_mem_afterCall hafter
    obtain ⟨j, hj₁, hj₂, hjx⟩ := inside_of_mem_argument hcalls hu.listed hslot hin
    have := hrising.eq_of_eq hix hjx
    omega
  rcases hcalls.move hv with ⟨result, s, hres, rfl⟩ | ⟨done, slot, more, args, s, hslots, hargs, rfl⟩
  · rcases hcalls.move hw with ⟨result', s', hres', rfl⟩ |
      ⟨done', slot', more', args', s', hslots', -, rfl⟩
    · rw [hres] at hres'
      cases hres'
      exact hne rfl
    · exact apart (by rw [hslots']; simp) hxv hxw
  · rcases hcalls.move hw with ⟨result', s', -, rfl⟩ |
      ⟨done', slot', more', args', s', hslots', hargs', rfl⟩
    · exact apart (by rw [hslots]; simp) hxw hxv
    -- two arguments are the same one or share no place
    · rcases split_cases (hslots.symm.trans hslots') with ⟨hdone, hslot⟩ | hmem
      · subst hdone
        cases hslot
        rw [hargs] at hargs'
        cases hargs'
        exact hne rfl
      · obtain ⟨-, -, hdisjoint⟩ := slot_bounds hcovers hslots
        obtain ⟨i, hi₁, hi₂, hix⟩ := Span.mem_cut_iff.1 hxv
        obtain ⟨j, hj₁, hj₂, hjx⟩ := Span.mem_cut_iff.1 hxw
        have := hdisjoint slot' hmem
        have := hrising.eq_of_eq hix hjx
        omega

theorem Resolves.disjoint {b : Block} (hu : ev.Reached source state u) (hb : ev.Resolves u b)
    (hv : ev.Move u v) (hw : ev.Move u w) (hne : v ≠ w) (hxv : some x ∈ v.places)
    (hxw : some x ∈ w.places) : False := by
  have hrising := hu.rising
  have hlaid := hb.laid
  -- what is left behind the block is what was chosen, which has no place of a condition
  have apart : ∀ {chosen s c}, chosen ∈ b.choices → c ∈ b.conditions →
      some x ∈ (ev.afterBlock u b chosen s).places → some x ∈ c.cut u.places → False := by
    intro chosen s c hchosen hc hafter hin
    rcases Span.mem_graft hafter with hbody | ⟨i, hi, hix⟩
    · exact not_mem_gather_of_mem_condition hlaid hchosen hc hrising hin hbody
    · obtain ⟨j, hj₁, hj₂, hjx⟩ := Span.mem_cut_iff.1 hin
      obtain ⟨hstart, -, hstop⟩ := hlaid.conditions_inOrder.bounds hc
      have := hlaid.span_stop
      have := hrising.eq_of_eq hix hjx
      omega
  rcases hb.move hv with ⟨chosen, s, hchosen, rfl⟩ | ⟨asked, c, later, s, hconds, hasked, rfl⟩
  · rcases hb.move hw with ⟨chosen', s', hchosen', rfl⟩ | ⟨asked', c', later', s', hconds', -, rfl⟩
    · rw [hchosen] at hchosen'
      cases hchosen'
      exact hne rfl
    · exact apart (mem_choices_of_chosenBody hchosen) (by rw [hconds']; simp) hxv hxw
  · rcases hb.move hw with ⟨chosen', s', hchosen', rfl⟩ |
      ⟨asked', c', later', s', hconds', hasked', rfl⟩
    · exact apart (mem_choices_of_chosenBody hchosen') (by rw [hconds]; simp) hxw hxv
    -- two conditions are the same one or share no place
    · rcases split_cases (hconds.symm.trans hconds') with ⟨rfl, rfl⟩ | hmem
      · obtain rfl := hasked.unique hasked'
        exact hne rfl
      · have horder := hlaid.conditions_inOrder
        rw [hconds] at horder
        obtain ⟨i, hi₁, hi₂, hix⟩ := Span.mem_cut_iff.1 hxv
        obtain ⟨j, hj₁, hj₂, hjx⟩ := Span.mem_cut_iff.1 hxw
        have := disjoint_of_inOrder horder hmem
        have := hrising.eq_of_eq hix hjx
        omega

/-- Where a run parts, the parts share no place. -/
theorem Move.disjoint (hu : ev.Reached source state u) (hv : ev.Move u v) (hw : ev.Move u w)
    (hne : v ≠ w) (hxv : some x ∈ v.places) (hxw : some x ∈ w.places) : False := by
  rcases calls_or_resolves hv hw hne with ⟨f, span, slots, hcalls⟩ | ⟨b, hb⟩
  · exact hcalls.disjoint hu hv hw hne hxv hxw
  · exact hb.disjoint hu hv hw hne hxv hxw

/-! ### Calls and their places -/

/-- Behind a call that is next its place is gone. -/
theorem Calls.not_mem_places (hp : ev.Reached source state p) (hcalls : ev.Calls p f span slots)
    (hx : p.places[span.start]? = some (some x)) (move : ev.Move p q) : some x ∉ q.places := by
  intro hxq
  have hlt := hcalls.start_lt_stop hp.listed
  rcases hcalls.move move with ⟨result, s, -, rfl⟩ | ⟨done, slot, more, args, s, hslots, -, rfl⟩
  · obtain ⟨i, hi, hix⟩ := outside_of_mem_afterCall hxq
    have := hp.rising.eq_of_eq hix hx
    omega
  · obtain ⟨i, hi, -, hix⟩ := inside_of_mem_argument hcalls hp.listed (by rw [hslots]; simp) hxq
    have := hp.rising.eq_of_eq hix hx
    omega

/-- The call of a place is next at one point of a run at most. -/
theorem Calls.once (hp : ev.Reached source state p) (hq : ev.Reached source state q)
    (hcalls : ev.Calls p f span slots) (hcalls' : ev.Calls q g span' slots')
    (hx : p.places[span.start]? = some (some x)) (hx' : q.places[span'.start]? = some (some x)) :
    p = q := by
  have hxp := List.mem_of_getElem? hx
  have hxq := List.mem_of_getElem? hx'
  -- no point behind one of the two holds the place
  have behind : ∀ {p q f span slots}, ev.Reached source state p → ev.Calls p f span slots →
      p.places[span.start]? = some (some x) → ev.Leads p q → some x ∈ q.places → p = q := by
    intro p q f span slots hp hcalls hx hleads hxq
    rcases Relation.ReflTransGen.cases_head hleads with rfl | ⟨r, move, hrq⟩
    · rfl
    · exact absurd (Leads.mem_places hrq (hp.listed.move move) hxq) (hcalls.not_mem_places hp hx move)
  rcases Leads.fork hp hq with hpq | hqp | ⟨u, v, w, hu, hv, hw, hne, hvp, hwq⟩
  · exact behind hp hcalls hx hpq hxq
  · exact (behind hq hcalls' hx' hqp hxp).symm
  · have hureached : ev.Reached source state u := hu
    exact (hv.disjoint hureached hw hne (Leads.mem_places hvp (hureached.listed.move hv) hxp)
      (Leads.mem_places hwq (hureached.listed.move hw) hxq)).elim

/-! ### Results and their places -/

/-- The call written at a place returns a text. -/
def Returns (ev : Evaluator) (source : Text) (state : ExecutionState) (x : Nat) (result : Text) :
    Prop :=
  ∃ p f span slots s, ev.Reached source state p ∧ ev.Calls p f span slots ∧
    p.places[span.start]? = some (some x) ∧
    ev.callResult (ev.resolveAt (p.depth + 1)) p.document f slots p.session = (.ok result, s)

theorem Returns.unique {result result' : Text} (h : ev.Returns source state x result)
    (h' : ev.Returns source state x result') : result = result' := by
  obtain ⟨p, f, span, slots, s, hp, hcalls, hx, hreturns⟩ := h
  obtain ⟨q, g, span', slots', s', hq, hcalls', hx', hreturns'⟩ := h'
  obtain rfl := hcalls.once hp hq hcalls' hx hx'
  obtain ⟨rfl, rfl, rfl⟩ := hcalls.unique hcalls'
  rw [hreturns] at hreturns'
  cases hreturns'
  rfl

end Stencil.Evaluator
