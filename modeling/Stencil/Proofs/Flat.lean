import Stencil.Proofs.Longest
import Stencil.Proofs.Pairing
/-!
# Texts without nested calls

Where no call stands in another one (`Flat`) a run is one pass: it goes through the worklist entry
by entry, and each entry is acted on where its name first stands. A result brings no name, so the
calls of a name that are left are the last ones of the text (`InStep.left_iff`), and the first of
them is the one that the next entry of the name is for (`InStep.entryFor`). So the calls complete in
the order of the worklist (`flat_calls_follow_worklist`).
-/

namespace Stencil

/-- No call stands in another one. -/
def Flat (source : Text) : Prop :=
  ∀ x y, source[x]? = some '$' → source[y]? = some '$' → ¬ Encloses source x y

instance (source : Text) : Decidable (Flat source) :=
  decidable_of_iff (∀ x < source.length, ∀ y < source.length,
      source[x]? = some '$' → source[y]? = some '$' → ¬ Encloses source x y)
    ⟨fun h x y hx hy =>
        h x (List.getElem?_eq_some_iff.1 hx).1 y (List.getElem?_eq_some_iff.1 hy).1 hx hy,
      fun h x _ y _ => h x y⟩

namespace Evaluator

open Content
open Text (lineOf occurrencesBefore)
open Worklist (ofText EntryFor Alone)

variable {ev : Evaluator} {source name : Text} {state : ExecutionState} {p q : Point}
  {c q' : Content} {results : Nat → Option Text} {f : Function} {span : Span}
  {slots : List (Option Span)} {x z n m : Nat}

/-! ### Calls without calls inside -/

/-- A run that was given no calls has added none. -/
theorem Ran.eq_of_nil {old new : List CallRecord} {order : List Nat}
    (h : ev.Ran source state old order new) (hnil : order = []) : new = old := by
  cases h with
  | nil => rfl
  | snoc => simp at hnil

/-- Where no call stands in another one, none stands between the brackets of a call. -/
theorem inner_labels_eq_nil (hnames : Worklist.Callable ev.registry.names) (hflat : Flat source)
    (hsound : c.Sound ev.registry.names false) (hwrites : c.Writes source) {site : Site}
    (hsite : site ∈ c.sites) : site.inner.labels = [] := by
  refine List.eq_nil_iff_forall_not_mem.2 fun y hy => ?_
  refine hflat site.place y ?_ ?_
    (hwrites.encloses_of_mem_inner_labels hsound hnames.letters hsite hy)
  · exact hwrites.mem_labels_iff.1 (List.mem_map_of_mem hsite)
  · exact hwrites.mem_labels_iff.1 (labels_inner_subset hsite hy)

/-- To resolve the arguments of a call without calls inside completes no call. -/
theorem Stands.log_arguments (hnames : Worklist.Callable ev.registry.names)
    (hflat : Flat source) (hsound : c.Sound ev.registry.names false) (hwrites : c.Writes source)
    (h : ev.Stands source state c q' results p) (hp : ev.Reached source state p)
    (hcalls : ev.Calls p f span slots) (hwithin : p.session.work + 1 ≤ ev.limits.invocations)
    {args : List Arg} {s : Session} (hargs : arguments (ev.resolveAt (p.depth + 1)) p.document slots
      p.session.counted = (.ok args, s)) : s.log = p.session.log := by
  have hnodup := hwrites.nodup_labels
  obtain ⟨-, site, rest, -, -, hslots, hcallAt⟩ := h.callAt hnames hp hcalls
  obtain ⟨parts, hparts, hpieces, hshow⟩ := hcallAt.exists_slots hnames h hp
  obtain ⟨order, horder⟩ := h.exists_order_arguments hnames hnodup hp hcalls hwithin hcallAt.mem
    (fun r move => ordered hnames hnodup (hp.listed.move move))
    (show slots = (parts ++ []).map Prod.snd by rw [List.append_nil, hparts, hslots])
    (hpieces ▸ dropLastIf_sublist _ _) hshow (by rw [hparts, ← hslots, hargs])
  -- every call made for the arguments would be in the brackets
  refine horder.ran.eq_of_nil (List.eq_nil_iff_forall_not_mem.2 fun x hx => ?_)
  have hmem := (horder.mem_iff x).1 hx
  rw [mem_slotStamps, ← mem_shown_iff_slots hpieces hshow] at hmem
  have hinner := mem_labels_of_mem_shown hmem
  rw [inner_labels_eq_nil hnames hflat hsound hwrites (h.sites_subset hcallAt.mem)] at hinner
  cases hinner

/-- A call without calls inside takes but its own place away. -/
theorem Stands.mem_places_afterCall (hnames : Worklist.Callable ev.registry.names)
    (hflat : Flat source) (hsound : c.Sound ev.registry.names false) (hwrites : c.Writes source)
    (h : ev.Stands source state c q' results p) (hp : ev.Reached source state p)
    (hcalls : ev.Calls p f span slots) (hx : p.places[span.start]? = some (some x))
    (hz : source[z]? = some '$') (result : Text) (s : Session) :
    some z ∈ (afterCall p span result s).places ↔ some z ∈ p.places ∧ z ≠ x := by
  constructor
  · intro hmem
    -- its own place is in the span, so it is gone
    obtain ⟨i, hout, hi⟩ := outside_of_mem_afterCall hmem
    refine ⟨List.mem_of_getElem? hi, ?_⟩
    rintro rfl
    have := hp.rising.eq_of_eq hi hx
    have := hcalls.start_lt_stop hp.listed
    omega
  · rintro ⟨hmem, hne⟩
    obtain ⟨i, hi⟩ := List.mem_iff_getElem?.1 hmem
    refine Span.mem_graft_of_outside hi (Decidable.byContradiction fun hin => ?_) _
    rcases (show span.start ≤ i by omega).eq_or_lt with rfl | hlt
    · rw [hx, Option.some_inj, Option.some_inj] at hi
      exact hne hi.symm
    -- any other place in the span would be that of a call inside
    · obtain ⟨-, site, rest, -, -, -, hcallAt⟩ := h.callAt hnames hp hcalls
      have hinner := hcallAt.mem_inner_labels hp hlt (by omega) hi hz
      rw [inner_labels_eq_nil hnames hflat hsound hwrites (h.sites_subset hcallAt.mem)] at hinner
      cases hinner

/-! ### Runs that follow the worklist -/

/-- The call written at the place has completed, as the one that an entry of the worklist is for. -/
def CompletedFor (ev : Evaluator) (source : Text) (state : ExecutionState) (x : Nat) (p : Point) :
    Prop :=
  ∃ before record, ev.Completes source state x before record ∧
    record :: before <:+ p.session.log ∧ EntryFor ev.registry.names source before.length x

/-- The whole document has come so far on the worklist as calls have completed, and those were the
calls of the entries. Of every name as many calls are gone, the first ones in the text. -/
structure InStep (ev : Evaluator) (source : Text) (state : ExecutionState) (p : Point) :
    Prop where
  depth_eq : p.depth = 0
  worklist_eq : p.worklist = (ofText ev.names source).drop p.session.log.length
  functions_eq : p.session.calls.map (·.function) =
    (ofText ev.names source).take p.session.log.length
  left_iff : ∀ name ∈ ev.registry.names, ∀ z, Text.startsFolded name (source.drop z) = true →
    (some z ∈ p.places ↔ ((ofText ev.names source).take p.session.log.length).count name ≤
      occurrencesBefore name source z)
  done : ∀ z, source[z]? = some '$' → some z ∈ p.places ∨ ev.CompletedFor source state z p

namespace InStep

/-- A run begins in step: nothing is done and every place is there. -/
theorem start (ev : Evaluator) (source : Text) (state : ExecutionState) :
    ev.InStep source state (ev.start source state) := by
  have hmem : ∀ z, source[z]? = some '$' → some z ∈ (ev.start source state).places :=
    fun z hz => List.mem_map_of_mem (List.mem_range.2 (List.getElem?_eq_some_iff.1 hz).1)
  refine ⟨rfl, ?_, rfl, fun name hname z hstarts => ?_, fun z hz => .inl (hmem z hz)⟩
  · rw [Evaluator.start, enter, Document.text_source]
    rfl
  · refine ⟨fun _ => Nat.zero_le _, fun _ => hmem z ?_⟩
    exact Text.getElem?_of_startsFolded (head?_of_mem_names (List.mem_append_left _ hname)) hstarts

/-- What is next is the entry behind those of the calls that have completed. -/
theorem getElem?_of_next (h : ev.InStep source state p) (hnext : ev.Next p name) :
    (ofText ev.names source)[p.session.log.length]? = some name := by
  obtain ⟨-, hhead⟩ := hnext
  rwa [h.worklist_eq, List.head?_drop] at hhead

/-- The call that the next entry is for is left. -/
theorem exists_left (hnames : Worklist.Callable ev.registry.names)
    (hcalled : AllCalled ev.registry.names source) (h : ev.InStep source state p)
    (hnext : ev.Next p name) :
    ∃ z, some z ∈ p.places ∧ Text.startsFolded name (source.drop z) = true ∧
      occurrencesBefore name source z =
        ((ofText ev.names source).take p.session.log.length).count name := by
  have hget := h.getElem?_of_next hnext
  obtain ⟨z, other, hother, hget', hstarts, hcount⟩ :=
    hcalled.exists_position hnames (List.getElem?_eq_some_iff.1 hget).1
  obtain rfl : other = name := Option.some.inj (hget'.symm.trans hget)
  exact ⟨z, (h.left_iff other hother z hstarts).2 hcount.ge, hstarts, hcount⟩

/-- The call that is next is the one that the next entry is for. -/
theorem entryFor (hnames : Worklist.Callable ev.registry.names)
    (hcalled : AllCalled ev.registry.names source) (hwrites : c.Writes source)
    (hstands : ev.Stands source state c q' results p) (hp : ev.Reached source state p)
    (h : ev.InStep source state p) (hcalls : ev.Calls p f span slots)
    (hx : p.places[span.start]? = some (some x)) :
    EntryFor ev.registry.names source p.session.log.length x := by
  obtain ⟨name, htakes⟩ := hstands.takes hnames hwrites hp hcalls hx
  obtain ⟨z, hz, hstarts, hcount⟩ := h.exists_left hnames hcalled htakes.next
  have hle := Text.occurrencesBefore_mono name source (htakes.first z hz hstarts)
  have hge := (h.left_iff name htakes.registered x htakes.written).1 (List.mem_of_getElem? hx)
  exact ⟨name, htakes.registered, h.getElem?_of_next htakes.next, htakes.written,
    Nat.le_antisymm (hle.trans hcount.le) hge⟩

/-- The call that is next completes as the one of its entry. -/
theorem call (hnames : Worklist.Callable ev.registry.names)
    (hcalled : AllCalled ev.registry.names source) (hflat : Flat source)
    (hsound : c.Sound ev.registry.names false) (hwrites : c.Writes source)
    (hstands : ev.Stands source state c q' results p) (hp : ev.Reached source state p)
    (h : ev.InStep source state p) (hcalls : ev.Calls p f span slots) {result : Text} {s : Session}
    (hresult : ev.callResult (ev.resolveAt (p.depth + 1)) p.document f slots p.session =
      (.ok result, s)) : ev.InStep source state (afterCall p span result s) := by
  obtain ⟨-, site, rest, -, -, -, hcallAt⟩ := hstands.callAt hnames hp hcalls
  have hentry := h.entryFor hnames hcalled hwrites hstands hp hcalls hcallAt.place
  obtain ⟨hwithin, args, s₁, hargs, hcall⟩ := callResult_eq_ok.1 hresult
  obtain ⟨outcome, hlog⟩ := callFunction_record hcall
  have hkept := hstands.log_arguments hnames hflat hsound hwrites hp hcalls hwithin hargs
  have hlength : s.log.length = p.session.log.length + 1 := by rw [hlog, hkept, List.length_cons]
  -- the record is one of the name of the entry
  obtain ⟨name, hnext, hfree, horder⟩ := id hcalls
  obtain rfl := name_of_orderFor (hnext.mem_names hp.listed) hfree horder
  have hget := h.getElem?_of_next hnext
  have hplaces : ∀ z, source[z]? = some '$' →
      (some z ∈ (afterCall p span result s).places ↔ some z ∈ p.places ∧ z ≠ site.place) :=
    fun z hz => hstands.mem_places_afterCall hnames hflat hsound hwrites hp hcalls hcallAt.place hz
      result s
  refine ⟨h.depth_eq, ?_, ?_, fun name hname z hstarts => ?_, fun z hz => ?_⟩
  · show p.worklist.tail = (ofText ev.names source).drop s.log.length
    rw [h.worklist_eq, List.tail_drop, hlength]
  · show s.calls.map (·.function) = (ofText ev.names source).take s.log.length
    rw [hlength, List.take_add_one, hget, ← h.functions_eq, Session.calls, hlog, hkept,
      List.reverse_cons, List.map_append]
    rfl
  · have hhead := head?_of_mem_names (List.mem_append_left _ hname)
    rw [hplaces z (Text.getElem?_of_startsFolded hhead hstarts), h.left_iff name hname z hstarts]
    show _ ↔ ((ofText ev.names source).take s.log.length).count name ≤ _
    rw [hlength]
    exact (hentry.count_take_succ_le_iff hnames hname hstarts).symm
  · rcases h.done z hz with hmem | ⟨before, record, hcompletes, hsuffix, hfor⟩
    · by_cases heq : z = site.place
      · subst heq
        refine .inr ⟨s₁.log, ⟨f.name.text, args, outcome⟩, ?_, ?_, by rwa [hkept]⟩
        · exact ⟨p, f, span, slots, result, s₁, s, hp, hcalls, hcallAt.place, rfl, hargs, rfl,
            hcall, hlog⟩
        · show _ <:+ s.log
          rw [hlog]
      · exact .inl ((hplaces z hz).2 ⟨hmem, heq⟩)
    · refine .inr ⟨before, record, hcompletes, hsuffix.trans ?_, hfor⟩
      show p.session.log <:+ s.log
      rw [hlog, hkept]
      exact List.suffix_cons _ _

end InStep

/-- Every point of a run in the whole document is in step with the worklist. -/
theorem Reached.inStep (hnames : Worklist.Callable ev.registry.names)
    (hcalled : AllCalled ev.registry.names source) (hflat : Flat source)
    (hsound : c.Sound ev.registry.names false) (hwrites : c.Writes source)
    (hp : ev.Reached source state p) (hdepth : p.depth = 0) : ev.InStep source state p := by
  induction hp with
  | refl => exact .start ev source state
  | @tail q p hq move ih =>
    have hq : ev.Reached source state q := hq
    have h := ih (Nat.le_zero.1 (hdepth ▸ move.depth_mono))
    obtain ⟨q', results, hstands⟩ := hq.stands hnames hsound hwrites
    cases move with
    -- a name is not left, since an occurrence of it stands there
    | @leave name next free order =>
      obtain ⟨z, hz, hstarts, -⟩ := h.exists_left hnames hcalled next
      have hname := hstands.listed name (List.mem_of_mem_head? next.2)
      exact absurd order (hstands.not_leave hnames hwrites hq hname next hz hstarts)
    | call calls returns =>
      exact h.call hnames hcalled hflat hsound hwrites hstands hq calls returns
    -- in an argument the depth would not be that of the document
    | argument => simp [enterPart, enter] at hdepth
    | block resolves => exact (hstands.not_resolves hnames hq resolves).elim
    | condition resolves => exact (hstands.not_resolves hnames hq resolves).elim

/-! ### Whole evaluations -/

/-- A successful evaluation ends when every entry has been acted on and every call has completed. -/
theorem exists_inStep (hnames : Worklist.Callable ev.registry.names)
    (hcalled : AllCalled ev.registry.names source) (hflat : Flat source)
    (hsound : c.Sound ev.registry.names false) (hwrites : c.Writes source) {e : Evaluation}
    (h : (ev.evaluate source state).result = .ok e) :
    ∃ q, ev.InStep source state q ∧ (ev.evaluate source state).calls = q.session.calls ∧
      (ofText ev.names source).length ≤ q.session.log.length ∧
      ∀ x, source[x]? = some '$' → ev.CompletedFor source state x q := by
  obtain ⟨d, s, hout, -, hcalls⟩ := evaluate_result_eq_ok h
  obtain ⟨q, hleads, hdepth, hsettled, -, rfl⟩ := exists_settled (ev.listed_enter _ _ _ _) hout
  have hq : ev.Reached source state q := hleads
  have hstep := hq.inStep hnames hcalled hflat hsound hwrites hdepth
  obtain ⟨q', results, hstands⟩ := hq.stands hnames hsound hwrites
  refine ⟨q, hstep, hcalls, ?_, fun x hx => (hstep.done x hx).resolve_left fun hmem => ?_⟩
  · rw [← List.drop_eq_nil_iff, ← hstep.worklist_eq, hsettled]
  -- no call is left in the document
  · obtain ⟨i, hi⟩ := List.mem_iff_getElem?.1 hmem
    have hdollar : q.document.text[i]? = some '$' := by rw [hq.getElem?_text hi, hx]
    exact hstands.not_mem_of_settled hq hsettled (List.mem_of_getElem? hdollar)

/-- Where a text of calls none of which stands in another one is evaluated successfully, the
functions are called in the order of the worklist of the text, and the n-th entry for a name
executes the n-th call of that name. So what begins on an earlier line is called earlier, a line in
which no name is called twice is called from right to left, and calls of one name are called from
left to right. -/
theorem flat_calls_follow_worklist (hnames : Worklist.Callable ev.registry.names)
    (hnested : Bracket.WellNested source) (hcalled : AllCalled ev.registry.names source)
    (hflat : Flat source) {e : Evaluation} (h : (ev.evaluate source state).result = .ok e) :
    (ev.evaluate source state).calls.map (·.function) = ofText ev.names source ∧
    (∀ n x, ev.CompletesAs source state n x ↔ EntryFor ev.registry.names source n x) ∧
    (∀ n < (ofText ev.names source).length, ∃ x, ev.CompletesAs source state n x) ∧
    (∀ x, source[x]? = some '$' → ∃ n, ev.CompletesAs source state n x) ∧
    ∀ n m x y, ev.CompletesAs source state n x → ev.CompletesAs source state m y →
      (lineOf source x < lineOf source y → n < m) ∧
      (x < y → lineOf source x = lineOf source y → Alone ev.registry.names source x →
        Alone ev.registry.names source y → m < n) ∧
      (x < y → SameName ev.registry.names source x y → n < m) := by
  obtain ⟨c, hsound, hwrites⟩ := exists_writes hnames.letters hcalled hnested
  obtain ⟨q, hstep, hcalls, hall, hdone⟩ :=
    exists_inStep hnames hcalled hflat hsound hwrites h
  have hiff : ∀ n x, ev.CompletesAs source state n x ↔
      EntryFor ev.registry.names source n x := by
    -- an entry is completed once, so it is the one for its occurrence
    refine fun n x => ⟨?_, fun hfor => ?_⟩
    · rintro ⟨before, record, hcompletes, rfl, -, -⟩
      obtain ⟨before', record', hcompletes', -, hfor⟩ := hdone x hcompletes.getElem?
      obtain ⟨rfl, -⟩ := hcompletes.unique hcompletes'
      exact hfor
    · obtain ⟨before, record, hcompletes, hsuffix, hfor'⟩ := hdone x (hfor.getElem? hnames)
      refine ⟨before, record, hcompletes, hfor'.unique hnames hfor, ?_,
        hcompletes.startsFolded hnames hsound hwrites⟩
      rw [hcalls, ← List.reverse_cons]
      exact List.reverse_prefix.2 hsuffix
  refine ⟨?_, hiff, fun n hn => ?_, fun x hx => ?_, fun n m x y hx hy => ?_⟩
  · rw [hcalls, hstep.functions_eq, List.take_of_length_le hall]
  · obtain ⟨x, hfor⟩ := hcalled.exists_position hnames hn
    exact ⟨x, (hiff n x).2 hfor⟩
  · obtain ⟨n, hfor⟩ := hcalled.exists_entryFor hnames hx
    exact ⟨n, (hiff n x).2 hfor⟩
  · rw [hiff] at hx hy
    exact ⟨hx.lt_of_lineOf_lt hnames hcalled hy, hx.lt_of_alone hnames hcalled hy,
      hx.lt_of_sameName hnames hy⟩

/-- The first line is called from right to left, since its names differ, and the second one from
left to right. -/
theorem two_lines_are_called :
    Worklist.Separate twoFunctions.registry.names ∧
    Bracket.WellNested "$f[a]$g[b]\n$f[]$f[]".toList ∧
    AllCalled twoFunctions.registry.names "$f[a]$g[b]\n$f[]$f[]".toList ∧
    Flat "$f[a]$g[b]\n$f[]$f[]".toList ∧
    (twoFunctions.evaluate "$f[a]$g[b]\n$f[]$f[]".toList .initial).calls.map (·.function) =
      [['$', 'g'], ['$', 'f'], ['$', 'f'], ['$', 'f']] ∧
    twoFunctions.CompletesAs "$f[a]$g[b]\n$f[]$f[]".toList .initial 2 11 := by
  have hnested : Bracket.WellNested "$f[a]$g[b]\n$f[]$f[]".toList := by decide
  have hcalled : AllCalled twoFunctions.registry.names "$f[a]$g[b]\n$f[]$f[]".toList := by
    decide +kernel
  have hflat : Flat "$f[a]$g[b]\n$f[]$f[]".toList := by decide +kernel
  have hok : (twoFunctions.evaluate "$f[a]$g[b]\n$f[]$f[]".toList .initial).result.toOption.isSome =
      true := by
    decide +kernel
  refine ⟨separate_twoFunctions, hnested, hcalled, hflat, ?_⟩
  -- the evaluation succeeds, so the theorem applies
  cases hresult : (twoFunctions.evaluate "$f[a]$g[b]\n$f[]$f[]".toList .initial).result with
  | error e =>
    rw [hresult] at hok
    cases hok
  | ok e =>
    obtain ⟨hfunctions, hiff, -⟩ :=
      flat_calls_follow_worklist separate_twoFunctions hnested hcalled hflat hresult
    have hlisted : ofText twoFunctions.names "$f[a]$g[b]\n$f[]$f[]".toList =
        [['$', 'g'], ['$', 'f'], ['$', 'f'], ['$', 'f']] := by decide +kernel
    refine ⟨hfunctions.trans hlisted, (hiff 2 11).2 ?_⟩
    exact ⟨['$', 'f'], by decide, by decide +kernel, by decide, by decide +kernel⟩

end Evaluator

end Stencil
