import Mathlib.Data.List.Nodup
import Stencil.Proofs.Nesting
/-!
# The order of calls

In a text of calls that is evaluated successfully every call completes once, after the calls inside
of it. `Ran` tells the calls of a stretch of a run in the order in which they complete; by induction
along the run they are the calls that the document shows at its start (`Stands.exists_order`), each
of them behind those of its arguments and with none of its own left behind it.
-/

namespace Stencil.Evaluator

open Content

variable {ev : Evaluator} {source : Text} {state : ExecutionState} {p : Point} {c q : Content}
  {results : Nat → Option Text} {x y : Nat} {old mid new : List CallRecord}

/-! ### Calls that complete -/

/-- The call written at a place completes: its arguments are resolved, which leaves the log `before`,
and its function returns, which adds the record. -/
def Completes (ev : Evaluator) (source : Text) (state : ExecutionState) (x : Nat)
    (before : List CallRecord) (record : CallRecord) : Prop :=
  ∃ p f span slots result s s', ev.Reached source state p ∧ ev.Calls p f span slots ∧
    p.places[span.start]? = some (some x) ∧ record.function = f.name.text ∧
    arguments (ev.resolveAt (p.depth + 1)) p.document slots p.session.counted =
      (.ok record.args, s) ∧ s.log = before ∧
    ev.callFunction f record.args s = (.ok result, s') ∧ s'.log = record :: before

/-- A call completes once. -/
theorem Completes.unique {before before' : List CallRecord} {record record' : CallRecord}
    (h : ev.Completes source state x before record)
    (h' : ev.Completes source state x before' record') : before = before' ∧ record = record' := by
  obtain ⟨p, f, span, slots, result, s, s', hp, hcalls, hx, -, hargs, rfl, hcall, hlog⟩ := h
  obtain ⟨q, g, span', slots', result', t, t', hq, hcalls', hx', -, hargs', rfl, hcall', hlog'⟩ := h'
  obtain rfl := hcalls.once hp hq hcalls' hx hx'
  obtain ⟨rfl, rfl, rfl⟩ := hcalls.unique hcalls'
  rw [hargs] at hargs'
  obtain ⟨hok, rfl⟩ := Prod.ext_iff.1 hargs'
  have hrecord : record.args = record'.args := Except.ok.inj hok
  rw [← hrecord, hcall] at hcall'
  obtain ⟨-, rfl⟩ := Prod.ext_iff.1 hcall'
  exact ⟨rfl, (List.cons.inj (hlog.symm.trans hlog')).1⟩

/-- The calls written at these places complete one after the other, and nothing else does. -/
inductive Ran (ev : Evaluator) (source : Text) (state : ExecutionState) (old : List CallRecord) :
    List Nat → List CallRecord → Prop
  | nil : Ran ev source state old [] old
  | snoc {order : List Nat} {log : List CallRecord} {x : Nat} {record : CallRecord}
      (earlier : Ran ev source state old order log)
      (completes : ev.Completes source state x log record) :
      Ran ev source state old (order ++ [x]) (record :: log)

namespace Ran

variable {order order' : List Nat}

theorem append (h : ev.Ran source state old order mid) (h' : ev.Ran source state mid order' new) :
    ev.Ran source state old (order ++ order') new := by
  induction h' with
  | nil => rwa [List.append_nil]
  | snoc _ completes ih =>
    rw [← List.append_assoc]
    exact .snoc ih completes

theorem length_eq (h : ev.Ran source state old order new) :
    new.length = old.length + order.length := by
  induction h with
  | nil => rfl
  | snoc _ _ ih =>
    rw [List.length_cons, ih, List.length_append, List.length_singleton]
    omega

/-- The call at a position of the order completes with the calls before it in the log. -/
theorem exists_completes (h : ev.Ran source state old order new) {n : Nat}
    (hn : order[n]? = some x) : ∃ before record, ev.Completes source state x before record ∧
      before.length = old.length + n ∧ record :: before <:+ new := by
  induction h with
  | nil => simp at hn
  | @snoc order log z record earlier completes ih =>
    rcases Nat.lt_trichotomy n order.length with hlt | rfl | hgt
    · rw [List.getElem?_append_left hlt] at hn
      obtain ⟨before, record', hcompletes, hlength, hsuffix⟩ := ih hn
      exact ⟨before, record', hcompletes, hlength, hsuffix.trans (List.suffix_cons _ _)⟩
    · obtain rfl : z = x := by simpa using hn
      exact ⟨log, record, completes, earlier.length_eq, List.suffix_refl _⟩
    · rw [List.getElem?_eq_none (by simp; omega)] at hn
      cases hn

/-- A call that completes with so many calls before it has this position in the order. -/
theorem getElem?_of_completes (h : ev.Ran source state old order new) (hx : x ∈ order)
    {before : List CallRecord} {record : CallRecord}
    (hcompletes : ev.Completes source state x before record) {n : Nat}
    (hn : before.length = old.length + n) : order[n]? = some x := by
  obtain ⟨m, hm⟩ := List.mem_iff_getElem?.1 hx
  obtain ⟨before', record', hcompletes', hlength, -⟩ := h.exists_completes hm
  obtain ⟨rfl, -⟩ := hcompletes.unique hcompletes'
  obtain rfl : n = m := by omega
  exact hm

/-- No call completes twice. -/
theorem nodup (h : ev.Ran source state old order new) : order.Nodup := by
  rw [List.nodup_iff_getElem?_ne_getElem?]
  intro i j hij hj heq
  obtain ⟨before, record, hcompletes, hlength, -⟩ :=
    h.exists_completes (List.getElem?_eq_getElem hj)
  rw [List.getElem?_eq_getElem hj] at heq
  obtain ⟨before', record', hcompletes', hlength', -⟩ := h.exists_completes heq
  obtain ⟨rfl, -⟩ := hcompletes.unique hcompletes'
  omega

end Ran

/-! ### The order of the calls that a document shows -/

/-- The first call does not stand around the second one. -/
def NotAround (c : Content) (x y : Nat) : Prop :=
  ∀ site ∈ c.sites, site.place = x → y ∉ site.inner.labels

/-- The calls that the stamps show complete in this order. -/
structure OrderOf (ev : Evaluator) (source : Text) (state : ExecutionState) (c : Content)
    (shown : List Stamp) (old new : List CallRecord) (order : List Nat) : Prop where
  ran : ev.Ran source state old order new
  mem_iff : ∀ x, x ∈ order ↔ ('$', some x) ∈ shown
  inner_first : order.Pairwise (NotAround c)

namespace OrderOf

variable {shown shown' : List Stamp} {order order' : List Nat}

theorem nil (h : ∀ x, ('$', some x) ∉ shown) : ev.OrderOf source state c shown old old [] :=
  ⟨.nil, fun x => by simp [h x], .nil⟩

theorem single {record : CallRecord} (h : ev.Completes source state x old record) :
    ev.OrderOf source state c [('$', some x)] old (record :: old) [x] :=
  ⟨.snoc .nil h, fun y => by simp, List.pairwise_singleton _ _⟩

theorem congr (h : ev.OrderOf source state c shown old new order)
    (hshown : ∀ x, ('$', some x) ∈ shown ↔ ('$', some x) ∈ shown') :
    ev.OrderOf source state c shown' old new order :=
  ⟨h.ran, fun x => (h.mem_iff x).trans (hshown x), h.inner_first⟩

theorem append (h : ev.OrderOf source state c shown old mid order)
    (h' : ev.OrderOf source state c shown' mid new order')
    (hsep : ∀ x y, ('$', some x) ∈ shown → ('$', some y) ∈ shown' → NotAround c x y) :
    ev.OrderOf source state c (shown ++ shown') old new (order ++ order') where
  ran := h.ran.append h'.ran
  mem_iff x := by rw [List.mem_append, List.mem_append, h.mem_iff, h'.mem_iff]
  inner_first := List.pairwise_append.2 ⟨h.inner_first, h'.inner_first,
    fun x hx y hy => hsep x y ((h.mem_iff x).1 hx) ((h'.mem_iff y).1 hy)⟩

/-- A call that stands around all the others completes last. -/
theorem exists_last (h : ev.OrderOf source state c shown old new order)
    (hx : ('$', some x) ∈ shown)
    (hothers : ∀ y, ('$', some y) ∈ shown → y ≠ x → ¬ NotAround c x y) :
    ∃ before record, ev.Completes source state x before record ∧ new = record :: before := by
  have hmem := (h.mem_iff x).2 hx
  rcases List.eq_nil_or_concat' order with rfl | ⟨init, z, rfl⟩
  · cases hmem
  obtain rfl : z = x := by
    by_contra hne
    have hinit : x ∈ init := by
      simpa [Ne.symm hne] using hmem
    have hpairs := (List.pairwise_append.1 h.inner_first).2.2
    exact hothers z ((h.mem_iff z).1 (by simp)) hne (hpairs x hinit z (by simp))
  obtain ⟨before, record, hcompletes, hlength, hsuffix⟩ :=
    h.ran.exists_completes (n := init.length) (x := z) (by simp)
  refine ⟨before, record, hcompletes, (hsuffix.eq_of_length ?_).symm⟩
  rw [h.ran.length_eq, List.length_cons, hlength, List.length_append, List.length_singleton]
  omega

end OrderOf

/-- Calls of parts that have no call in common do not stand around one another. -/
theorem notAround_of_disjoint {a b : Content} (hnodup : c.labels.Nodup) (ha : a.sites ⊆ c.sites)
    (hx : x ∈ a.labels) (hdisjoint : a.labels.Disjoint b.labels) (hy : y ∈ b.labels) :
    NotAround c x y := by
  rintro site hsite rfl hmem
  obtain ⟨site', hsite', hplace⟩ := List.mem_map.1 hx
  obtain rfl := List.inj_on_of_nodup_map hnodup (ha hsite') hsite hplace
  exact hdisjoint (labels_inner_subset hsite' hmem) hy

/-- A call inside of another one does not stand around what is not inside of that one. -/
theorem notAround_of_inner (hnodup : c.labels.Nodup) {site : Site} (hsite : site ∈ c.sites)
    (hx : x ∈ site.place :: site.inner.labels) (hy : y ∉ site.inner.labels) : NotAround c x y := by
  rintro other hother rfl hmem
  rcases List.mem_cons.1 hx with hplace | hx
  · obtain rfl := List.inj_on_of_nodup_map hnodup hother hsite hplace
    exact hy hmem
  · obtain ⟨site', hsite', hplace⟩ := List.mem_map.1 hx
    obtain rfl := List.inj_on_of_nodup_map hnodup (sites_inner_subset hsite hsite') hother hplace
    exact hy (labels_inner_subset hsite' hmem)

/-- What the slots of a call show. -/
def slotStamps (p : Point) (parts : List (Content × Option Span)) : List Stamp :=
  parts.flatMap fun part => part.2.elim [] (·.cut p.stamps)

theorem mem_slotStamps {parts : List (Content × Option Span)} {s : Stamp} :
    s ∈ slotStamps p parts ↔ ∃ part ∈ parts, ∃ slot ∈ part.2, s ∈ slot.cut p.stamps := by
  rw [slotStamps, List.mem_flatMap]
  refine exists_congr fun part => and_congr_right fun _ => ?_
  cases part.2 <;> simp

/-- A slot without markers shows no call. -/
theorem not_mem_cut_of_unmarked (hp : ev.Reached source state p) {slot : Span}
    (h : (p.document.slice slot).hasMarker = false) : ('$', some x) ∉ slot.cut p.stamps := by
  intro hmem
  have hmarked : Marked (p.document.slice slot).cells := by
    rw [Document.cells_slice_eq_cut]
    exact hp.marked.subset fun _ => Span.mem_of_mem_cut
  have htext : '$' ∈ (p.document.slice slot).text := by
    rw [Document.text_slice_eq_cut, ← hp.map_fst_stamps, ← Span.map_cut]
    exact List.mem_map_of_mem hmem
  cases Document.isMarker_of_hasMarker_eq_false hmarked h htext

/-- The calls of the points that moves lead to complete in some order. -/
def Ordered (ev : Evaluator) (source : Text) (state : ExecutionState) (c : Content) (p : Point) :
    Prop :=
  ∀ q results d s, ev.Reached source state p → ev.Stands source state c q results p →
    ev.outcome p = (.ok d, s) →
      ∃ order, ev.OrderOf source state c p.stamps p.session.log s.log order

/-- The arguments of a call are resolved one after the other. -/
theorem Stands.exists_order_arguments (hnames : Worklist.Callable ev.registry.names)
    (hnodup : c.labels.Nodup) (h : ev.Stands source state c q results p)
    (hp : ev.Reached source state p) {f : Function} {span : Span} {slots : List (Option Span)}
    (hcalls : ev.Calls p f span slots) (hwithin : p.session.work + 1 ≤ ev.limits.invocations)
    {site : Site} (hsite : site ∈ q.sites)
    (ih : ∀ r, ev.Move p r → ev.Ordered source state c r)
    {done more : List (Content × Option Span)} (hslots : slots = (done ++ more).map Prod.snd)
    (hpieces : (done.map Prod.fst).Sublist site.inner.pieces)
    (hparts : ∀ part ∈ done, part.1.ShowsSlot results p.stamps part.2) {args : List Arg}
    {s : Session} (hargs : arguments (ev.resolveAt (p.depth + 1)) p.document (done.map Prod.snd)
      p.session.counted = (.ok args, s)) :
    ∃ order, ev.OrderOf source state c (slotStamps p done) p.session.log s.log order := by
  induction done using List.reverseRecOn generalizing more args s with
  | nil =>
    cases hargs
    exact ⟨[], .nil (by simp [slotStamps])⟩
  | append_singleton done part ihDone =>
    obtain ⟨piece, slot⟩ := part
    rw [List.map_append, List.map_singleton, arguments_concat_eq_ok] at hargs
    obtain ⟨before, a, s₁, hbefore, hlast, rfl⟩ := hargs
    rw [List.map_append, List.map_singleton] at hpieces
    have hslots' : slots = done.map Prod.snd ++ slot :: more.map Prod.snd := by
      rw [hslots]
      simp
    obtain ⟨order, horder⟩ := ihDone
      (show slots = (done ++ (piece, slot) :: more).map Prod.snd by
        rw [hslots, List.append_assoc]; rfl) ((List.sublist_append_left _ _).trans hpieces)
      (fun part hpart => hparts part (List.mem_append_left _ hpart)) hbefore
    -- nothing is left of a slot without calls
    have hnone : (∀ x, ('$', some x) ∉ slot.elim [] (·.cut p.stamps)) → s = s₁ →
        ∃ order, ev.OrderOf source state c (slotStamps p (done ++ [(piece, slot)]))
          p.session.log s.log order := by
      rintro hshown rfl
      refine ⟨order, horder.congr fun x => ?_⟩
      simp [slotStamps, hshown x]
    cases slot with
    | none =>
      cases hlast
      exact hnone (by simp) rfl
    | some slot =>
      have hslot := hparts (piece, some slot) (by simp)
      rcases argument_some_eq_ok.1 hlast with ⟨hmarked, part, hpart, rfl⟩ | ⟨hunmarked, rfl, rfl⟩
      · -- the calls of the slot complete after those of the slots before it
        have hmove : ev.Move p (ev.enterPart p slot s₁) :=
          .argument hcalls hwithin hslots' hbefore hmarked
        have hreached : ev.Reached source state (ev.enterPart p slot s₁) :=
          Relation.ReflTransGen.tail hp hmove
        have hpiece : piece ∈ site.inner.pieces := hpieces.subset (by simp)
        have hshows := hslot.shows slot rfl
        have hstands := h.argument (s := s₁) hnames hsite hpiece hshows hreached
        obtain ⟨order', horder'⟩ := ih _ hmove _ _ _ _ hreached hstands
          (by rw [outcome_enterPart, hpart])
        rw [stamps_enterPart] at horder'
        have hstamps : slotStamps p (done ++ [(piece, some slot)]) =
            slotStamps p done ++ slot.cut p.stamps := by
          simp [slotStamps]
        rw [hstamps]
        refine ⟨order ++ order', horder.append horder' fun x y hx hy => ?_⟩
        obtain ⟨part', hpart', slot', hslot', hx⟩ := mem_slotStamps.1 hx
        have hother := hpieces.subset (List.mem_append_left _ (List.mem_map_of_mem hpart'))
        -- the two slots are of different pieces
        have hdisjoint : part'.1.labels.Disjoint piece.labels := by
          have hinner : (site.inner.pieces.flatMap labels).Nodup := by
            rw [flatMap_labels_pieces]
            exact ((List.sublist_cons_self _ _).trans (labels_site_sublist hsite)).nodup h.nodup
          have hpairs := (List.nodup_flatMap.1 hinner).2.sublist hpieces
          exact (List.pairwise_append.1 hpairs).2.2 _ (List.mem_map_of_mem hpart') _ (by simp)
        refine notAround_of_disjoint hnodup ?_ ?_ hdisjoint ?_
        · exact List.Subset.trans (sites_piece_subset hother)
            (List.Subset.trans (sites_inner_subset hsite) h.sites_subset)
        · exact mem_labels_of_mem_shown
            (((hparts part' (List.mem_append_left _ hpart')).shows slot' hslot').mem_iff.2 hx)
        · exact mem_labels_of_mem_shown (hshows.mem_iff.2 hy)
      · exact hnone (fun x => not_mem_cut_of_unmarked hp hunmarked) rfl

/-- Wherever a document of calls is resolved, the calls that it shows complete in some order, each
of them behind those inside of it. -/
theorem ordered (hnames : Worklist.Callable ev.registry.names) (hnodup : c.labels.Nodup)
    (hp : ev.Listed p) : ev.Ordered source state c p := by
  induction acc_move hp with
  | intro p _ ih =>
    intro q results d s hp h hout
    have ih : ∀ r, ev.Move p r → ev.Ordered source state c r :=
      fun r move => ih r move (hp.listed.move move)
    cases ev.progress p with
    | done settled houtcome =>
      rw [hout] at houtcome
      cases houtcome
      refine ⟨[], .nil fun x hmem => h.not_mem_of_settled hp settled ?_⟩
      rw [← hp.map_fst_stamps]
      exact List.mem_map_of_mem hmem
    | stops _ houtcome =>
      rw [hout] at houtcome
      cases houtcome
    | fails _ _ houtcome =>
      rw [hout] at houtcome
      cases houtcome
    | moves move hdepth houtcome =>
      rw [hout] at houtcome
      have hr := Relation.ReflTransGen.tail hp move
      cases move with
      | leave next free order =>
        exact ih _ (.leave next free order) _ _ _ _ hr (h.leave hnames hp next order)
          houtcome.symm
      | argument => simp [enterPart, enter] at hdepth
      | block resolves => exact (h.not_resolves hnames hp resolves).elim
      | condition resolves => exact (h.not_resolves hnames hp resolves).elim
      | @call f span slots result s' calls returns =>
        obtain ⟨-, site, rest, -, -, hslots, hcallAt⟩ := h.callAt hnames hp calls
        obtain ⟨parts, hparts, hpieces, hshow⟩ := hcallAt.exists_slots hnames h hp
        have hafter := h.call hnames hp calls returns hcallAt
        obtain ⟨order, horder⟩ := ih _ (.call calls returns) _ _ _ _ hr hafter houtcome.symm
        obtain ⟨hwithin, args, s₁, hargs, hcall⟩ := callResult_eq_ok.1 returns
        obtain ⟨outcome, hlog⟩ := callFunction_record hcall
        obtain ⟨inner, hinner⟩ := h.exists_order_arguments hnames hnodup hp calls hwithin
          hcallAt.mem ih
          (show slots = (parts ++ []).map Prod.snd by rw [List.append_nil, hparts, hslots])
          (hpieces ▸ dropLastIf_sublist _ _) hshow (by rw [hparts, ← hslots, hargs])
        have hone : ev.OrderOf source state c [('$', some site.place)] s₁.log s'.log
            [site.place] := by
          rw [hlog]
          exact .single ⟨p, f, span, slots, result, s₁, s', hp, calls, hcallAt.place, rfl, hargs, rfl,
            hcall, hlog⟩
        -- what the slots show stands inside of the call, and what is left shows nothing of it
        have hslot : ∀ x, ('$', some x) ∈ slotStamps p parts ↔
            ('$', some x) ∈ site.inner.shown results := by
          intro x
          rw [mem_shown_iff_slots hpieces hshow, mem_slotStamps]
        have hsite := h.sites_subset hcallAt.mem
        have hplace : site.place ∉ site.inner.labels :=
          (List.nodup_cons.1 ((labels_site_sublist hsite).nodup hnodup)).1
        have hstamps : (afterCall p span result s').stamps =
            p.stamps.take span.start ++ (plain (Text.escape result) ++ rest) := by
          rw [stamps_afterCall hp, Span.graft, hcallAt.drop_stop, List.append_assoc]
        have hgone : ∀ y, ('$', some y) ∈ (afterCall p span result s').stamps →
            y ∉ site.inner.labels := by
          intro y hy hmem
          obtain ⟨hbefore, hrest⟩ := hcallAt.not_mem_outside h.nodup hmem
          rw [hstamps, List.mem_append, List.mem_append] at hy
          exact hy.elim hbefore fun hy => hy.elim (not_mem_plain _ _ _) hrest
        have hcall := hinner.append hone fun x y hx hy => by
          obtain rfl : y = site.place := by simpa using hy
          have hmem := mem_labels_of_mem_shown ((hslot x).1 hx)
          exact notAround_of_inner hnodup hsite (List.mem_cons_of_mem _ hmem) hplace
        have hall := hcall.append horder fun x y hx hy => by
          refine notAround_of_inner hnodup hsite ?_ (hgone y hy)
          rcases List.mem_append.1 hx with hx | hx
          · exact List.mem_cons_of_mem _ (mem_labels_of_mem_shown ((hslot x).1 hx))
          · obtain rfl : x = site.place := by simpa using hx
            exact List.mem_cons_self
        refine ⟨_, hall.congr fun x => ?_⟩
        rw [hcallAt.mem_stamps_iff, hstamps]
        simp only [List.mem_append, List.mem_singleton, hslot, not_mem_plain, Prod.mk.injEq,
          Option.some.injEq, true_and, false_or]
        tauto

/-! ### Whole evaluations -/

/-- A point at which a call is next has the place of a `$` there. -/
theorem Completes.getElem? {record : CallRecord} (h : ev.Completes source state x old record) :
    source[x]? = some '$' := by
  obtain ⟨p, f, span, slots, -, -, -, hp, hcalls, hx, -⟩ := h
  obtain ⟨name, hhead, -, hcovers⟩ := hcalls.covers hp.listed
  obtain ⟨y, hy, hget⟩ := hp.tracks.exists_place (hcovers.head hhead)
  rw [hx] at hy
  cases hy
  exact hget

/-- The function that completes is the one that is written at the place. -/
theorem Completes.startsFolded (hnames : Worklist.Callable ev.registry.names) {top : Bool}
    (hsound : c.Sound ev.registry.names top) (hwrites : c.Writes source) {record : CallRecord}
    (h : ev.Completes source state x old record) :
    Text.startsFolded record.function (source.drop x) = true := by
  obtain ⟨p, f, span, slots, -, -, -, hp, hcalls, hx, hname, -⟩ := h
  obtain ⟨q, results, hstands⟩ := hp.stands hnames hsound hwrites
  obtain ⟨-, site, rest, -, -, -, hcallAt⟩ := hstands.callAt hnames hp hcalls
  obtain rfl : x = site.place := by simpa [hx] using hcallAt.place
  obtain ⟨rest, hdrop⟩ := hwrites.exists_text_drop_eq (hstands.sites_subset hcallAt.mem)
  rw [hname, hdrop]
  exact startsFolded_call (hcallAt.sameFolded_function hnames hstands hp hcalls) _

/-- The call written at a place is the n-th of the evaluation that completes, and it is one of the
function that is written there. -/
def CompletesAs (ev : Evaluator) (source : Text) (state : ExecutionState) (n x : Nat) : Prop :=
  ∃ before record, ev.Completes source state x before record ∧ before.length = n ∧
    before.reverse ++ [record] <+: (ev.evaluate source state).calls ∧
    Text.startsFolded record.function (source.drop x) = true

/-- Every call of a text of calls that is evaluated successfully completes exactly once: the calls
that complete are as many as the `$` of the text, and an order of their places tells which one is
the n-th to complete. Calls inside of a call come before it in this order, and no `$` is left in the
resolved document. -/
theorem calls_complete_once (hnames : Worklist.Callable ev.registry.names)
    (hnested : Bracket.WellNested source) (hcalled : AllCalled ev.registry.names source)
    {e : Evaluation} (h : (ev.evaluate source state).result = .ok e) :
    (ev.evaluate source state).calls.length = Text.markers '$' source ∧
    (∃ order : List Nat, order.Nodup ∧ (∀ x, x ∈ order ↔ source[x]? = some '$') ∧
      (∀ n x, order[n]? = some x ↔ ev.CompletesAs source state n x) ∧
      order.Pairwise fun x y => ¬ Encloses source x y) ∧
    ∃ d, (ev.resolve (ev.limits.depth + 1) (.source source) (.start state)).1 = .ok d ∧
      '$' ∉ d.text ∧ e.text = d.rendered := by
  obtain ⟨c, hsound, hwrites⟩ := exists_writes hnames.letters hcalled hnested
  obtain ⟨d, s, hout, rfl, hcalls⟩ := evaluate_result_eq_ok h
  have hstart : ev.Stands source state c c (fun _ => none) (ev.start source state) :=
    stands_start hnames hsound hwrites
  obtain ⟨order, horder⟩ := ordered (p := ev.start source state) hnames hwrites.nodup_labels
    (ev.listed_enter _ _ _ _) _ _ _ _ .refl hstart hout
  have hmem : ∀ x, x ∈ order ↔ source[x]? = some '$' := by
    intro x
    rw [horder.mem_iff, ← hstart.shows.mem_iff, hwrites.mem_shown_iff]
  have hlength : (ev.evaluate source state).calls.length = order.length := by
    rw [hcalls, Session.calls, List.length_reverse, horder.ran.length_eq]
    exact Nat.zero_add _
  have hperm : order.Perm c.labels := (List.perm_ext_iff_of_nodup horder.ran.nodup
    hwrites.nodup_labels).2 fun x => (hmem x).trans hwrites.mem_labels_iff.symm
  refine ⟨by rw [hlength, hperm.length_eq, hwrites.length_labels],
    ⟨order, horder.ran.nodup, hmem, fun n x => ⟨fun hn => ?_, ?_⟩, ?_⟩, d, ?_, ?_, rfl⟩
  · obtain ⟨before, record, hcompletes, hn, hsuffix⟩ := horder.ran.exists_completes hn
    refine ⟨before, record, hcompletes, hn.trans (Nat.zero_add n), ?_,
      hcompletes.startsFolded hnames hsound hwrites⟩
    rw [hcalls, ← List.reverse_cons]
    exact List.reverse_prefix.2 hsuffix
  · rintro ⟨before, record, hcompletes, hn, -, -⟩
    exact horder.ran.getElem?_of_completes ((hmem x).2 hcompletes.getElem?) hcompletes
      (hn.trans (Nat.zero_add n).symm)
  · refine horder.inner_first.imp_of_mem fun {x y} hx hy hnot hencloses => ?_
    obtain ⟨site, hsite, rfl⟩ := List.mem_map.1 (hwrites.mem_labels_iff.2 ((hmem x).1 hx))
    exact hnot site hsite rfl
      (hwrites.mem_inner_labels_of_encloses hsound hnames.letters hsite ((hmem y).1 hy) hencloses)
  · rw [← (show ev.outcome (ev.start source state) =
      ev.resolve (ev.limits.depth + 1) (.source source) (.start state) from
        (resolveAt_eq_outcome 0 _ _ _).symm), hout]
  · obtain ⟨q, hleads, -, hsettled, rfl, -⟩ := exists_settled (ev.listed_enter _ _ _ _) hout
    obtain ⟨q', results, hstands⟩ := Reached.stands hnames hsound hwrites hleads
    exact hstands.not_mem_of_settled hleads hsettled

/-- The evaluator with a function `$f`, which gives `x`, and a function `$g`, which gives `y`. -/
def twoFunctions : Evaluator := withFunctions [.constant ['f'] ['x'], .constant ['g'] ['y']]

theorem separate_twoFunctions : Worklist.Separate twoFunctions.registry.names where
  letters name hname := by
    have hnames : twoFunctions.registry.names = [['$', 'f'], ['$', 'g']] := rfl
    rw [hnames, List.mem_cons, List.mem_singleton] at hname
    rcases hname with rfl | rfl
    · exact ⟨['f'], rfl, by simp⟩
    · exact ⟨['g'], rfl, by simp⟩
  prefixFree := by decide
  not_begins := by decide
  not_extends := by decide

theorem three_calls_complete :
    Bracket.WellNested "$f[$g[]]\n$g[]".toList ∧
    AllCalled twoFunctions.registry.names "$f[$g[]]\n$g[]".toList ∧
    (twoFunctions.evaluate "$f[$g[]]\n$g[]".toList .initial).calls.length = 3 := by
  have hnested : Bracket.WellNested "$f[$g[]]\n$g[]".toList := by decide
  have hcalled : AllCalled twoFunctions.registry.names "$f[$g[]]\n$g[]".toList := by
    decide +kernel
  refine ⟨hnested, hcalled, ?_⟩
  have hok : (twoFunctions.evaluate "$f[$g[]]\n$g[]".toList .initial).result.toOption.isSome =
      true := by
    decide +kernel
  cases hresult : (twoFunctions.evaluate "$f[$g[]]\n$g[]".toList .initial).result with
  | error e =>
    rw [hresult] at hok
    cases hok
  | ok e => exact (calls_complete_once separate_twoFunctions hnested hcalled hresult).1

end Stencil.Evaluator
