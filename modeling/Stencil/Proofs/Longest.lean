import Stencil.Proofs.Nesting
import Stencil.Proofs.Scan
/-!
# Which name is called

A pass takes the entries of its worklist one after the other (`Continues`). An entry is the longest
name that stands at its `$`, and as long as the `$` is there, the text that decided stands behind it
(`Continues.segment_stands`): a call that comes in between begins at a `$` of its own. But the entry
is a name and no position, and it is acted on where the name first stands. So the longest name is
called where that is the `$` of the entry; where it is another `$`, a longer name may stand there.
-/

namespace Stencil

/-- A function is found under its own name. -/
theorem Registry.get?_text {r : Registry} {f : Function} (hf : f ∈ r.functions) :
    r.get? f.name.text = some f := by
  have hsome : (r.find? f.name).isSome = true :=
    List.find?_isSome.2 ⟨f, hf, beq_self_eq_true f.name.key⟩
  obtain ⟨g, hg⟩ := Option.isSome_iff_exists.1 hsome
  have hkey : g.name.key = f.name.key := by simpa using List.find?_some hg
  rw [Registry.get?, FunctionName.ofText_text, hg,
    List.inj_on_of_nodup_map r.distinct (List.mem_of_find?_eq_some hg) hf hkey]

namespace Evaluator

open Worklist (entries segmentAt)

variable {ev : Evaluator} {source : Text} {state : ExecutionState} {u p : Point} {f : Function}
  {span : Span} {slots : List (Option Span)} {n i k x : Nat}

/-- A character with a place is the one that was written there. -/
theorem Reached.getElem?_text (hp : ev.Reached source state p) (hk : p.places[k]? = some (some x)) :
    p.document.text[k]? = source[x]? := by
  obtain ⟨c, hcell, hc⟩ := hp.tracks.exists_cell hk
  rw [hc, ← Document.map_fst_cells, List.getElem?_map, hcell]
  rfl

/-! ### The entries of a pass -/

/-- The pass that begins at one point has come to another one, by so many of its entries. -/
inductive Continues (ev : Evaluator) (u : Point) : Nat → Point → Prop
  | begin (enters : u.worklist = Worklist.ofText ev.names u.document.text) : Continues ev u 0 u
  | leave {n : Nat} {p : Point} {name : Text} (earlier : Continues ev u n p)
      (next : ev.Next p name) (free : isPending p.document name = false)
      (order : ev.orderFor p.document name = .leave) :
      Continues ev u (n + 1) { p with worklist := p.worklist.tail }
  | call {n : Nat} {p : Point} {f : Function} {span : Span} {slots : List (Option Span)}
      {result : Text} {s : Session} (earlier : Continues ev u n p)
      (calls : ev.Calls p f span slots)
      (returns : ev.callResult (ev.resolveAt (p.depth + 1)) p.document f slots p.session =
        (.ok result, s)) :
      Continues ev u (n + 1) (afterCall p span result s)

/-- Every point of a run is one that some pass has come to. -/
theorem Reached.exists_pass (hp : ev.Reached source state p) :
    ∃ u n, ev.Reached source state u ∧ ev.Continues u n p := by
  induction hp with
  | refl => exact ⟨_, 0, .refl, .begin rfl⟩
  | tail hreached move ih =>
    obtain ⟨u, n, hu, h⟩ := ih
    have hq := Relation.ReflTransGen.tail hreached move
    cases move with
    | leave next free order => exact ⟨u, n + 1, hu, .leave h next free order⟩
    | call calls returns => exact ⟨u, n + 1, hu, .call h calls returns⟩
    | argument | block | condition => exact ⟨_, 0, hq, .begin rfl⟩

namespace Continues

/-- A run that continues leads there. -/
theorem leads (h : ev.Continues u n p) : ev.Leads u p := by
  induction h with
  | begin => exact .refl
  | leave _ next free order ih => exact ih.tail (.leave next free order)
  | call _ calls returns ih => exact ih.tail (.call calls returns)

/-- So the point is one of the whole run. -/
theorem reached (h : ev.Continues u n p) (hu : ev.Reached source state u) :
    ev.Reached source state p :=
  hu.trans h.leads

/-- What is left of the worklist are the entries that the pass has not come to. -/
theorem worklist_eq (h : ev.Continues u n p) :
    p.worklist = ((entries ev.names u.document.text).map Prod.snd).drop n := by
  induction h with
  | begin enters => rw [enters, Worklist.map_snd_entries, List.drop_zero]
  | leave _ _ _ _ ih => rw [ih, List.tail_drop]
  | call _ _ _ ih => rw [afterCall, ih, List.tail_drop]

/-- A `$` stands behind the segment of another one. -/
theorem length_segment_le {t rest : Text} {m : Nat} (h : '$' :: segmentAt t i <+: rest) (hm : 0 < m)
    (hdollar : rest[m]? = some '$') : ('$' :: segmentAt t i).length ≤ m := by
  by_contra hlt
  obtain ⟨j, rfl⟩ := Nat.exists_eq_succ_of_ne_zero hm.ne'
  have hinner : (segmentAt t i)[j]? = some '$' := by
    obtain ⟨more, rfl⟩ := h
    rwa [List.getElem?_append_left (Nat.lt_of_not_le hlt), List.getElem?_cons_succ] at hdollar
  have hne := List.mem_takeWhile_imp (List.mem_of_getElem? hinner)
  simp at hne

/-- What stands behind a `$` up to the next one, or to the end of its line, stands there as long as
the `$` does. -/
theorem segment_stands (h : ev.Continues u n p) (hu : ev.Reached source state u)
    (hi : u.stamps[i]? = some ('$', some x)) (hk : p.stamps[k]? = some ('$', some x)) :
    '$' :: segmentAt u.document.text i <+: (p.stamps.drop k).map Prod.fst := by
  induction h generalizing k with
  | begin =>
    obtain rfl : i = k := hu.rising.eq_of_eq (getElem?_of_stamps hi) (getElem?_of_stamps hk)
    obtain ⟨hlt, hget⟩ := List.getElem?_eq_some_iff.1 hi
    rw [List.map_drop, hu.map_fst_stamps, List.drop_eq_getElem_cons (hu.length_stamps ▸ hlt)]
    have hdollar : u.document.text[i]? = some '$' := by
      rw [← hu.map_fst_stamps, List.getElem?_map, hi]
      rfl
    rw [(List.getElem?_eq_some_iff.1 hdollar).2]
    exact List.cons_prefix_cons.2 ⟨rfl, List.takeWhile_prefix _⟩
  | leave _ _ _ _ ih => exact ih hk
  | @call n p f span slots result s earlier calls _ ih =>
    have hp := earlier.reached hu
    obtain ⟨name, hhead, -, hcovers⟩ := calls.covers hp.listed
    rw [stamps_afterCall hp] at hk ⊢
    rcases Span.getElem?_graft_cases hk (not_mem_plain _ _ _) with ⟨hlt, hk⟩ | ⟨j, -, hj, hdrop⟩
    -- the call begins at a `$`, which is behind the segment
    · have hbegins := ih hk
      have hdollar : ((p.stamps.drop k).map Prod.fst)[span.start - k]? = some '$' := by
        rw [List.map_drop, hp.map_fst_stamps, List.getElem?_drop, Nat.add_sub_cancel' hlt.le]
        exact Text.getElem?_of_startsFolded hhead hcovers.name_at.startsBy
      have hle := length_segment_le hbegins (Nat.sub_pos_of_lt hlt) hdollar
      have hwithin := List.prefix_take_iff.2 ⟨hbegins, hle⟩
      have hlength : k ≤ (p.stamps.take span.start).length := by
        have hin := (List.getElem?_eq_some_iff.1 hk).1
        rw [List.length_take]
        omega
      rw [Span.graft, List.append_assoc, List.drop_append_of_le_length hlength, List.map_append,
        List.drop_take, List.map_take]
      exact hwithin.trans (List.prefix_append _ _)
    · rw [hdrop]
      exact ih hj

/-- Where a `$` still is, the text that decided stands behind it. -/
theorem segment_stands_at (h : ev.Continues u n p) (hu : ev.Reached source state u)
    (hdollar : u.document.text[i]? = some '$') (hk : p.places[k]? = u.places[i]?) :
    '$' :: segmentAt u.document.text i <+: p.document.text.drop k := by
  obtain ⟨x, hstamp, hplace⟩ := hu.exists_stamp hdollar
  rw [hplace] at hk
  have hreached := h.reached hu
  have htext : p.document.text[k]? = some '$' := by
    rw [hreached.getElem?_text hk, ← hu.getElem?_text hplace, hdollar]
  have hbegins := h.segment_stands hu hstamp (getElem?_stamps htext hk)
  rwa [List.map_drop, hreached.map_fst_stamps] at hbegins

end Continues

/-! ### The longest name -/

/-- The function that is called has the name that is next. -/
theorem name_of_orderFor {name : Text} (hname : name ∈ ev.names)
    (hfree : isPending p.document name = false)
    (horder : ev.orderFor p.document name = .call f span slots) : f.name.text = name := by
  have hmem := mem_registry_names hname (Bool.or_eq_false_iff.1 hfree).1
  obtain ⟨g, hg, rfl⟩ := List.mem_map.1 hmem
  have hget := (orderFor_eq_call rfl horder).2
  rw [Registry.get?_text hg, Option.some_inj] at hget
  rw [hget]

/-- A name that is called is an entry of the pass, the longest name that stands at some `$` of the
document that the pass began with, as far as the next `$` or the end of the line. It is called where
it first stands. So it is called at the `$` that it is the entry of, or at one before it, unless
that one is gone; and where it is called at that `$`, no longer name stands there but one that
reaches beyond the text that decided. -/
theorem longest_name_is_called (hp : ev.Reached source state p) (hcalls : ev.Calls p f span slots) :
    ∃ u n i, ev.Reached source state u ∧ ev.Continues u n p ∧
      (entries ev.names u.document.text)[n]? = some (i, f.name.text) ∧
      Text.startsFolded f.name.text ('$' :: segmentAt u.document.text i) = true ∧
      (∀ name ∈ ev.names, Text.startsFolded name ('$' :: segmentAt u.document.text i) = true →
        name.length ≤ f.name.text.length) ∧
      p.document.NameAt f.name.text span.start ∧
      (∀ m < span.start, ¬ p.document.NameAt f.name.text m) ∧
      (∀ k, p.places[k]? = u.places[i]? → span.start ≤ k) ∧
      (p.places[span.start]? = u.places[i]? → ∀ name ∈ ev.names,
        p.document.NameAt name span.start → name.length ≤ f.name.text.length ∨
          (segmentAt u.document.text i).length + 1 < name.length) := by
  obtain ⟨u, n, hu, hpass⟩ := hp.exists_pass
  obtain ⟨name, hnext, hfree, horder⟩ := hcalls
  have hname := hnext.mem_names hp.listed
  have hhead := head?_of_mem_names hname
  obtain rfl := name_of_orderFor hname hfree horder
  have hcovers := (orderFor_eq_call hhead horder).1
  -- the entry that the pass has come to
  have hentry : ((entries ev.names u.document.text).map Prod.snd)[n]? = some f.name.text := by
    rw [← List.head?_drop, ← hpass.worklist_eq, hnext.2]
  rw [List.getElem?_map] at hentry
  obtain ⟨⟨i, _⟩, hi, rfl⟩ := Option.map_eq_some_iff.1 hentry
  obtain ⟨hdollar, hbehind⟩ := Worklist.of_mem_entries (List.mem_of_getElem? hi)
  have hnames : ∀ name ∈ ev.names, name ≠ [] := by
    rintro _ hmem rfl
    cases head?_of_mem_names hmem
  rw [Worklist.nameBehind?_of_ne_nil hnames] at hbehind
  split at hbehind
  · cases hbehind
  have hstands := Worklist.startsFolded_of_longestName? hbehind
  have hown : ∀ k, p.places[k]? = u.places[i]? →
      '$' :: segmentAt u.document.text i <+: p.document.text.drop k :=
    fun _ => hpass.segment_stands_at hu hdollar
  refine ⟨u, n, i, hu, hpass, hi, hstands, fun other hother => ?_, hcovers.name_at, hcovers.first,
    fun k hk => ?_, fun hk other hother hat => ?_⟩
  · exact Worklist.length_le_of_longestName? hbehind hother
  · obtain ⟨rest, hrest⟩ := hown k hk
    refine Nat.le_of_not_lt fun hlt => hcovers.first k hlt (hp.nameAt hhead ?_)
    rw [← hrest]
    exact Search.startsBy_append rest hstands
  · by_contra hneither
    obtain ⟨hlonger, hwithin⟩ := not_or.1 hneither
    refine hlonger (Worklist.length_le_of_longestName? hbehind hother ?_)
    obtain ⟨rest, hrest⟩ := hown _ hk
    have hat := hat.startsBy
    rw [← hrest] at hat
    have hlength : other.length ≤ ('$' :: segmentAt u.document.text i).length :=
      Nat.le_of_not_lt hwithin
    exact (Search.startsBy_append_of_le hlength).symm.trans hat

/-- The evaluator with a function `$user` and one with a longer name that begins with it. -/
def userAndTag : Evaluator :=
  withFunctions [.constant "user".toList "U".toList, .constant "userTag".toList "T".toList]

/-- The longer name is the entry of its `$`, and it is called there. -/
theorem longer_name_is_called :
    let p := userAndTag.start "$userTag[x]".toList .initial
    ∃ f slots, userAndTag.Reached "$userTag[x]".toList .initial p ∧
      userAndTag.Calls p f ⟨0, 11⟩ slots ∧ f.name.text = "$userTag".toList ∧
      ∃ u n i, userAndTag.Continues u n p ∧
        (entries userAndTag.names u.document.text)[n]? = some (i, "$userTag".toList) := by
  have hcalls : userAndTag.Calls (userAndTag.start "$userTag[x]".toList .initial)
      (.constant "userTag".toList "T".toList) ⟨0, 11⟩ [some ⟨9, 10⟩] :=
    ⟨"$userTag".toList, ⟨Nat.zero_le _, by decide⟩, by decide, rfl⟩
  obtain ⟨u, n, i, -, hpass, hentry, -⟩ := longest_name_is_called (.refl) hcalls
  exact ⟨_, _, .refl, hcalls, rfl, u, n, i, hpass, hentry⟩

/-- The last name of the line is next. It is called where it first stands, as the beginning of a
longer name. -/
theorem beginning_of_longer_name_is_called :
    let p := userAndTag.start "$userTag[x] $user".toList .initial
    userAndTag.Reached "$userTag[x] $user".toList .initial p ∧
      (∃ f slots, userAndTag.Calls p f ⟨0, 11⟩ slots ∧ f.name.text = "$user".toList) ∧
      "$userTag".toList ∈ userAndTag.names ∧ p.document.NameAt "$userTag".toList 0 ∧
      "$user".toList.length < "$userTag".toList.length := by
  have hcalls : userAndTag.Calls (userAndTag.start "$userTag[x] $user".toList .initial)
      (.constant "user".toList "U".toList) ⟨0, 11⟩ [some ⟨9, 10⟩] :=
    ⟨"$user".toList, ⟨Nat.zero_le _, by decide⟩, by decide, rfl⟩
  exact ⟨.refl, ⟨_, _, hcalls, rfl⟩, by decide, by decide, by decide⟩

end Evaluator

end Stencil
