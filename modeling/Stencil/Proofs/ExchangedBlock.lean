import Stencil.Proofs.Exchange
import Stencil.Proofs.Ranges
import Stencil.Proofs.Tiling
/-!
# Blocks around an exchanged text

Where an exchange is `Steady`, the block that is found in the changed text is the one that is found
in the text, with every part where it has moved to (`findInnermost_changed`). A part that held no
more than the exchanged text is missing if the new text is empty (`moveParts`). Whether a position
lies inside a block does not change either (`isInside_move`).

The block has a tiling, and what is exchanged lies in one of its parts. Right behind a `$else` that is
the other body, unless it is a condition or the body of an alternative (`exists_mem_otherwise`).
-/

namespace Stencil.Exchange

open Block

variable {x : Exchange} {names : List Text} {n i : Nat} {k : Keyword} {strict : Bool}
  {s within : Span}

/-! ### Parts -/

/-- The parts where they have moved to, without those that are empty there. -/
def moveParts (x : Exchange) (spans : List Span) : List Span := (spans.map x.moveSpan).flatMap part

def moveAlternative (x : Exchange) (a : Alternative) : Alternative :=
  ⟨x.moveSpan a.condition, x.moveSpan a.body⟩

def moveBlock (x : Exchange) (b : Block) : Block :=
  ⟨x.moveSpan b.span, x.moveSpan b.condition, x.moveParts b.body,
    b.alternatives.map x.moveAlternative, x.moveParts b.otherwise⟩

/-- Parts in a row are moved one after the other. -/
theorem moveParts_append (spans more : List Span) :
    x.moveParts (spans ++ more) = x.moveParts spans ++ x.moveParts more := by
  rw [moveParts, List.map_append, List.flatMap_append]
  rfl

/-- The part in front is moved first. -/
theorem moveParts_cons (s : Span) (spans : List Span) :
    x.moveParts (s :: spans) = part (x.moveSpan s) ++ x.moveParts spans := rfl

/-- The part of a moved span is the moved part of the span. -/
theorem part_moveSpan (hs : x.ClearSpan s) : part (x.moveSpan s) = x.moveParts (part s) := by
  by_cases hempty : s.isEmpty = true
  · have hmoved : (x.moveSpan s).isEmpty = true :=
      decide_eq_true (hs.2.move_le hs.1 (of_decide_eq_true hempty))
    rw [part, part, if_pos hempty, if_pos hmoved]
    rfl
  · have hpart : part s = [s] := if_neg hempty
    rw [hpart, moveParts_cons]
    exact (List.append_nil _).symm

/-- A bracket is closed in front of a position where it is closed in front of where that has moved
to. -/
theorem filter_closing?_move {opening stop : Nat} (hstop : x.Clear stop) :
    ((Bracket.closing? x.text opening).map x.move).filter (· < x.move stop) =
      ((Bracket.closing? x.text opening).filter (· < stop)).map x.move := by
  cases hclose : Bracket.closing? x.text opening with
  | none => rfl
  | some closing =>
    have hget := (Bracket.getElem?_of_closing? hclose).2
    have hlt : x.move closing < x.move stop ↔ closing < stop :=
      (outside_of_marker hget rfl).move_lt_iff hstop
    by_cases hin : closing < stop <;>
      simp only [Option.map_some, Option.filter_some, hlt, hin, decide_true, decide_false,
        Bool.false_eq_true, if_true, if_false, Option.map_none]

/-- The next span behind a position is found where it has moved to. -/
theorem getD_find?_start_move {spans : List Span} (stop : Nat) (hn : x.Outside n)
    (hspans : ∀ s ∈ spans, x.Clear s.start) :
    (((spans.map x.moveSpan).find? (x.move n < ·.start)).map (·.start)).getD (x.move stop) =
      x.move (((spans.find? (n < ·.start)).map (·.start)).getD stop) := by
  induction spans with
  | nil => rfl
  | cons s spans ih =>
    have hiff : x.move n < (x.moveSpan s).start ↔ n < s.start :=
      hn.move_lt_iff (hspans s List.mem_cons_self)
    rw [List.map_cons, List.find?_cons, List.find?_cons]
    simp only [hiff]
    split
    · rfl
    · exact ih fun s' hs' => hspans s' (List.mem_cons_of_mem s hs')

/-! ### Alternatives and `$else` -/

namespace Steady

variable (hx : x.Steady names)
include hx

/-- No keyword ends with what is exchanged. -/
theorem move_lt_stop_iff (hn : x.Clear n) (hi : k.StandsAt x.text i) :
    x.move n < x.move (i + k.size) ↔ n < i + k.size := by
  have hpos : 0 < k.size := by cases k <;> decide
  have hin := hx.add_size_le hi
  have hmove := (outside_of_standsAt hi).move_add hin
  have hlast : x.Outside (i + (k.size - 1)) := by
    rcases outside_of_standsAt hi with h | h
    · have := hin h
      exact .inl (by omega)
    · exact .inr (by omega)
  have hmoveLast := (outside_of_standsAt hi).move_add (m := k.size - 1)
    (fun h => by have := hin h; omega)
  have hle := hn.move_le_iff hlast
  omega

/-- The `$else` among those listed is found where it has moved to. -/
theorem firstElse?_changed {es : List Span} (hes : ∀ e ∈ es, ∃ j,
    e = Keyword.otherwise.spanAt j ∧ Keyword.otherwise.StandsAt x.text j)
    (hwithin : x.ClearSpan within) :
    firstElse? x.changed (x.moveSpan within) (es.map x.moveSpan) =
      (firstElse? x.text within es).map x.moveSpan := by
  induction es with
  | nil => rfl
  | cons e es ih =>
    obtain ⟨j, rfl, hj⟩ := hes e List.mem_cons_self
    -- a keyword is not exchanged, so it is in the span exactly when it was
    have hstop : (x.moveSpan within).stop < (x.moveSpan (Keyword.otherwise.spanAt j)).stop ↔
        within.stop < (Keyword.otherwise.spanAt j).stop := hx.move_lt_stop_iff hwithin.2 hj
    have hstart : (x.moveSpan (Keyword.otherwise.spanAt j)).start < (x.moveSpan within).start ↔
        (Keyword.otherwise.spanAt j).start < within.start :=
      (outside_of_standsAt hj).move_lt_iff hwithin.1
    have hif : goesOnWithIf (x.changed.drop (x.moveSpan (Keyword.otherwise.spanAt j)).stop) =
        goesOnWithIf (x.text.drop (Keyword.otherwise.spanAt j).stop) := hx.goesOnWithIf_move hj
    rw [List.map_cons, firstElse?, firstElse?, hif,
      ih fun e' he' => hes e' (List.mem_cons_of_mem _ he')]
    simp only [hstop, hstart]
    split
    · rfl
    · split <;> rfl

/-- The `$else` of a span is found where it has moved to. -/
theorem findElse?_moveSpan (within : Span) (hwithin : x.ClearSpan within) :
    findElse? x.changed (x.moveSpan within) = (findElse? x.text within).map x.moveSpan := by
  rw [findElse?, hx.findAll_changed]
  exact hx.firstElse?_changed (fun e he => (Keyword.mem_findAll.1 he).imp fun j h => h.symm) hwithin

/-- An alternative is read as in the text, with its parts where they have moved to. -/
theorem alternativeAt_changed (strict : Bool) (condition : Span) {next : Nat}
    (hclosing : x.text[condition.stop]? = some ']') (hnext : x.Clear next) :
    alternativeAt x.changed strict (x.moveSpan condition) (x.move next) =
      (alternativeAt x.text strict condition next).map fun found =>
        (x.moveAlternative found.1, x.move found.2) := by
  have hout : x.Outside condition.stop := outside_of_marker hclosing rfl
  have hstart : (x.moveSpan condition).stop + 1 = x.move (condition.stop + 1) := hout.move_succ.symm
  -- the `$endelseif` that ends in the region is the same
  have hending : (Keyword.endElseIf.find? x.changed (x.move (condition.stop + 1))).filter
        (·.stop ≤ x.move next) =
      ((Keyword.endElseIf.find? x.text (condition.stop + 1)).filter (·.stop ≤ next)).map
        x.moveSpan := by
    rw [hx.find?_move _ hout.clear_succ]
    cases hfind : Keyword.endElseIf.find? x.text (condition.stop + 1) with
    | none => rfl
    | some e =>
      obtain ⟨j, rfl, -, hj, -⟩ := Keyword.find?_eq_some_iff.1 hfind
      have hle : (x.moveSpan (Keyword.endElseIf.spanAt j)).stop ≤ x.move next ↔
          (Keyword.endElseIf.spanAt j).stop ≤ next := by
        rw [← Nat.not_lt, ← Nat.not_lt]
        exact not_congr (hx.move_lt_stop_iff hnext hj)
      by_cases he : (Keyword.endElseIf.spanAt j).stop ≤ next <;>
        simp only [Option.map_some, Option.filter_some, hle, he, decide_true, decide_false,
          Bool.false_eq_true, if_true, if_false, Option.map_none]
  unfold alternativeAt
  simp only [hstart, hending]
  cases (Keyword.endElseIf.find? x.text (condition.stop + 1)).filter (·.stop ≤ next) with
  | some e => exact congrArg (fun start => Except.ok (Alternative.mk (x.moveSpan condition)
      ⟨start, x.move e.start⟩, x.move e.stop)) rfl
  | none =>
    cases strict with
    | true => rfl
    | false =>
      have helse := hx.findElse?_moveSpan ⟨condition.stop + 1, next⟩ ⟨hout.clear_succ, hnext⟩
      rw [moveSpan] at helse
      simp only [Option.map_none, Bool.false_eq_true, if_false, helse]
      cases findElse? x.text ⟨condition.stop + 1, next⟩ <;> rfl

/-- The positions between which an alternative is cut out are not exchanged. -/
theorem clear_of_alternativeAt {condition : Span} {next stop : Nat} {a : Alternative}
    (hnext : x.Clear next) (h : alternativeAt x.text strict condition next = .ok (a, stop)) :
    x.Clear stop := by
  unfold alternativeAt at h
  simp only at h
  split at h
  -- the position behind a keyword is not in what is exchanged
  · next e he =>
    cases h
    obtain ⟨j, rfl, -, hj, -⟩ := Keyword.find?_eq_some_iff.1 (Option.filter_eq_some_iff.1 he).1
    exact hx.clear_add_size hj
  · split at h
    · cases h
    · cases h
      cases helse : findElse? x.text ⟨condition.stop + 1, next⟩ with
      | none => exact hnext
      | some e =>
        obtain ⟨j, rfl, hj, -⟩ := findElse?_eq_some helse
        exact (outside_of_standsAt hj).clear

/-- The bracket of an opener is closed where its end has moved to. -/
theorem closing?_opener (hk : k.StandsAt x.text i) (hopens : k.text[k.size - 1]? = some '[') :
    Bracket.closing? x.changed ((x.moveSpan (k.spanAt i)).stop - 1) =
      (Bracket.closing? x.text ((k.spanAt i).stop - 1)).map x.move := by
  have hsize : 0 < k.size := Nat.succ_pos _
  have hmoved : x.move (i + (k.size - 1)) = x.move i + (k.size - 1) :=
    (outside_of_standsAt hk).move_add fun hlt => by
      have := hx.add_size_le hk hlt
      omega
  rw [hx.moveSpan_spanAt hk, Keyword.spanAt_stop, Keyword.spanAt_stop, Nat.add_sub_assoc hsize,
    Nat.add_sub_assoc hsize, ← hmoved,
    closing?_move (outside_of_marker (hk.getElem?_bracket hopens) rfl)]

/-- A region is cut into the same parts and alternatives, where they have moved to. -/
theorem cutAlternatives_changed (strict : Bool) {openers : List Span} {stop position : Nat}
    (hopeners : ∀ o ∈ openers, ∃ j, o = Keyword.elseIfOpen.spanAt j ∧
      Keyword.elseIfOpen.StandsAt x.text j) (hposition : x.Clear position)
    (hstop : x.Outside stop) :
    cutAlternatives x.changed strict (x.move stop) (x.move position) (openers.map x.moveSpan) =
      (cutAlternatives x.text strict stop position openers).map fun found =>
        (x.moveParts found.1, found.2.map x.moveAlternative) := by
  induction openers generalizing position with
  | nil =>
    have hpart := part_moveSpan (x := x) (s := ⟨position, stop⟩) ⟨hposition, hstop.clear⟩
    exact congrArg (fun parts => Except.ok (parts, [])) hpart
  | cons opener later ih =>
    have hlater := fun position (h : x.Clear position) =>
      @ih position (fun o ho => hopeners o (List.mem_cons_of_mem opener ho)) h
    obtain ⟨j, rfl, hj⟩ := hopeners opener List.mem_cons_self
    have hout := outside_of_standsAt hj
    -- an opener is in front of a position exactly when it was
    have hbefore : (x.moveSpan (Keyword.elseIfOpen.spanAt j)).start < x.move position ↔
        (Keyword.elseIfOpen.spanAt j).start < position := hout.move_lt_iff hposition
    rw [List.map_cons, cutAlternatives, cutAlternatives, hx.closing?_opener hj rfl,
      filter_closing?_move hstop.clear]
    simp only [hbefore]
    split
    · exact hlater position hposition
    cases hfound : (Bracket.closing? x.text ((Keyword.elseIfOpen.spanAt j).stop - 1)).filter
        (· < stop) with
    | none => rfl
    | some closing =>
      have hget := (Bracket.getElem?_of_closing? (Option.filter_eq_some_iff.1 hfound).1).2
      have hclosingOut : x.Outside closing := outside_of_marker hget rfl
      -- no alternative begins in what is exchanged
      have hstarts : ∀ o ∈ later, x.Clear o.start := by
        intro o ho
        obtain ⟨m, rfl, hm⟩ := hopeners o (List.mem_cons_of_mem _ ho)
        exact (outside_of_standsAt hm).clear
      have hnext := getD_find?_start_move stop hclosingOut hstarts
      obtain ⟨next, hnextEq, hnextClear⟩ : ∃ next,
          ((later.find? (closing < ·.start)).map (·.start)).getD stop = next ∧ x.Clear next := by
        refine ⟨_, rfl, ?_⟩
        cases hfind : later.find? (closing < ·.start) with
        | none => exact hstop.clear
        | some o => exact hstarts o (List.mem_of_find?_eq_some hfind)
      have halternative := hx.alternativeAt_changed strict
        ⟨(Keyword.elseIfOpen.spanAt j).stop, closing⟩ hget hnextClear
      rw [moveSpan] at halternative
      simp only [Option.map_some, moveSpan, hnext, hnextEq, halternative]
      cases hat : alternativeAt x.text strict ⟨(Keyword.elseIfOpen.spanAt j).stop, closing⟩ next with
      | error e => rfl
      | ok found =>
        obtain ⟨a, position'⟩ := found
        have hrest := hlater position' (hx.clear_of_alternativeAt hnextClear hat)
        have hpart := part_moveSpan (x := x) (s := ⟨position, j⟩) ⟨hposition, hout.clear⟩
        rw [moveSpan] at hpart
        simp only [Except.map, hrest]
        cases cutAlternatives x.text strict stop position' later with
        | error e => rfl
        | ok rest =>
          simp only [Keyword.spanAt_start, hpart, moveParts_append, List.map_cons]

/-- A span between two fences is not cut by the exchange. -/
theorem clearSpan_of_fenced (h : Fenced x.text s) : x.ClearSpan s := by
  refine ⟨?_, (outside_of_marker h.2 rfl).clear⟩
  rcases h.1 with ⟨j, hstart, hj⟩ | ⟨k, j, hj, hstart⟩ | hdollar
  · rw [hstart]
    exact (outside_of_marker hj rfl).clear_succ
  · rw [hstart]
    exact hx.clear_add_size hj
  · exact (outside_of_marker hdollar rfl).clear

/-- The text is split at the same `$else`. -/
theorem splitAtElse_changed {parts : List Span} (hparts : ∀ p ∈ parts, x.ClearSpan p) :
    splitAtElse x.changed (x.moveParts parts) =
      (x.moveParts (splitAtElse x.text parts).1, x.moveParts (splitAtElse x.text parts).2) := by
  induction parts with
  | nil => rfl
  | cons p parts ih =>
    have hp := hparts p List.mem_cons_self
    have hlater := ih fun q hq => hparts q (List.mem_cons_of_mem p hq)
    have helse := hx.findElse?_moveSpan p hp
    rw [moveParts_cons, splitAtElse]
    by_cases hempty : (x.moveSpan p).isEmpty = true
    -- a part that is empty where it has moved to has no `$else`
    · have hnone : findElse? x.text p = none := by
        cases hfound : findElse? x.text p with
        | none => rfl
        | some e =>
          rw [hfound] at helse
          obtain ⟨j, -, -, hstart, hstop⟩ := findElse?_eq_some helse
          have hle : (x.moveSpan p).stop ≤ (x.moveSpan p).start := of_decide_eq_true hempty
          omega
      rw [part, if_pos hempty, List.nil_append, hlater, hnone]
      simp only [moveParts_cons, part, if_pos hempty, List.nil_append]
    · rw [part, if_neg hempty, List.singleton_append, splitAtElse, helse]
      cases hfound : findElse? x.text p with
      | none =>
        simp only [Option.map_none, hlater, moveParts_cons, part, if_neg hempty,
          List.singleton_append]
      | some e =>
        obtain ⟨j, rfl, hj, -⟩ := findElse?_eq_some hfound
        have hfront := part_moveSpan (x := x) (s := ⟨p.start, j⟩)
          ⟨hp.1, (outside_of_standsAt hj).clear⟩
        have hback := part_moveSpan (x := x) (s := ⟨j + 5, p.stop⟩) ⟨hx.clear_add_size hj, hp.2⟩
        simp only [Option.map_some, moveParts_append]
        exact Prod.ext hfront (congrArg (· ++ x.moveParts parts) hback)

/-- The block of the changed text is that of the text, with its parts where they have moved to. -/
theorem findInnermost_changed (strict : Bool) :
    findInnermost x.changed strict = (findInnermost x.text strict).map x.moveBlock := by
  unfold findInnermost
  rw [hx.isPresent_changed, hx.findLast?_changed]
  split
  · rfl
  cases hopener : Keyword.ifOpen.findLast? x.text with
  | none => rfl
  | some opener =>
    obtain ⟨i, rfl, hi, -⟩ := Keyword.findLast?_eq_some_iff.1 hopener
    simp only [Option.map_some, hx.closing?_opener hi rfl]
    cases hclose : Bracket.closing? x.text ((Keyword.ifOpen.spanAt i).stop - 1) with
    | none => rfl
    | some closing =>
      have hget := (Bracket.getElem?_of_closing? hclose).2
      -- the bracket of the condition is a marker, so it is not exchanged
      have hclosingOut : x.Outside closing := outside_of_marker hget rfl
      simp only [Option.map_some, ← hclosingOut.move_succ,
        hx.find?_move .endIf hclosingOut.clear_succ]
      cases hend : Keyword.endIf.find? x.text (closing + 1) with
      | none => rfl
      | some endIf =>
        obtain ⟨hle, hends⟩ : closing + 1 ≤ endIf.start ∧
            Keyword.endIf.StandsAt x.text endIf.start := by
          obtain ⟨j, rfl, hle, hends, -⟩ := Keyword.find?_eq_some_iff.1 hend
          exact ⟨hle, hends⟩
        have hstop := outside_of_standsAt hends
        -- the alternatives of the region are those of the text
        have hopeners : (Keyword.elseIfOpen.findAll x.changed).filter
              (·.start < x.move endIf.start) =
            ((Keyword.elseIfOpen.findAll x.text).filter (·.start < endIf.start)).map
              x.moveSpan := by
          rw [hx.findAll_changed, List.filter_map]
          refine congrArg _ (List.filter_congr fun o ho => ?_)
          obtain ⟨j, hj, rfl⟩ := Keyword.mem_findAll.1 ho
          exact decide_eq_decide.2 ((outside_of_standsAt hj).move_lt_iff hstop.clear)
        have hat : ∀ o ∈ (Keyword.elseIfOpen.findAll x.text).filter (·.start < endIf.start),
            ∃ j, o = Keyword.elseIfOpen.spanAt j ∧ Keyword.elseIfOpen.StandsAt x.text j :=
          fun o ho => (exists_of_mem_openers ho).imp fun j h => ⟨h.1, h.2.1⟩
        have hcut := hx.cutAlternatives_changed strict hat hclosingOut.clear_succ hstop
        simp only [Option.map_some, moveSpan, hopeners, hcut]
        cases hparts : cutAlternatives x.text strict endIf.start (closing + 1)
            ((Keyword.elseIfOpen.findAll x.text).filter (·.start < endIf.start)) with
        | error e => rfl
        | ok found =>
          obtain ⟨parts, alternatives⟩ := found
          -- the parts lie between fences, so they can be split at the `$else`
          have hfenced := ((cut_of_cutAlternatives hparts (fun _ => exists_of_mem_openers) hle
            (.inl ⟨closing, rfl, hget⟩) hends.getElem?_start).fenced hends.getElem?_start).1
          have hclear : ∀ p ∈ parts, x.ClearSpan p :=
            fun p hp => hx.clearSpan_of_fenced (hfenced p hp)
          simp only [Except.map, hx.splitAtElse_changed hclear]
          rfl

/-! ### Positions inside blocks -/

end Steady

/-- Where no keyword reaches out of a text, its marks are those of the text alone. -/
theorem marks_append {t rest : Text} (h : ¬ Straddles names t rest) :
    marks (t ++ rest) = marks t ++ marks rest := by
  have hat : ∀ k : Keyword, ∀ i < t.length, k.StandsAt (t ++ rest) i ↔ k.StandsAt t i :=
    fun k i hi => standsAt_append_iff h hi
  clear h
  induction t with
  | nil => rfl
  | cons c t ih =>
    have hhead : ∀ k : Keyword, k.startsIn (c :: (t ++ rest)) = k.startsIn (c :: t) :=
      fun k => Bool.eq_iff_iff.2 (hat k 0 (Nat.succ_pos _))
    have hrest := ih fun k i hi => hat k (i + 1) (Nat.succ_lt_succ hi)
    rw [List.cons_append, marks, marks, hhead, hhead, hrest]
    split
    · rfl
    · split <;> rfl

/-- A text without `$` has no marks. -/
theorem marks_of_not_mem {t : Text} (h : '$' ∉ t) (rest : Text) :
    marks (t ++ rest) = marks rest := by
  induction t with
  | nil => rfl
  | cons c t ih =>
    obtain ⟨hc, ht⟩ := not_or.1 (mt List.mem_cons.2 h)
    have hno : ∀ k : Keyword, ¬ k.startsIn (c :: (t ++ rest)) = true :=
      fun k hstarts => hc (Keyword.eq_dollar_of_startsIn hstarts).symm
    rw [List.cons_append, marks, if_neg (hno _), if_neg (hno _), ih ht]

/-- Whether a position lies inside a block does not depend on what is exchanged. -/
theorem Steady.isInside_move (hx : x.Steady names) (hn : x.Outside n) :
    Block.isInside x.changed (x.move n) = Block.isInside x.text n := by
  rcases hn with hn | hn
  · rw [move_of_le hn.le, Block.isInside, Block.isInside, changed, text,
      List.take_append_of_le_length hn.le, List.take_append_of_le_length hn.le]
  · obtain ⟨m, rfl⟩ := Nat.exists_eq_add_of_le hn
    have htake : ∀ t : Text, (x.before ++ (t ++ x.behind)).take (x.before.length + t.length + m) =
        x.before ++ (t ++ x.behind.take m) := by
      intro t
      rw [Nat.add_assoc, List.take_length_add_append, List.take_length_add_append]
    -- neither the old text nor the new one has a mark, whatever part of the rest is taken
    have hmarks : ∀ t : Text, (∀ c ∈ t, isMarker c = false) →
        ¬ Straddles names x.before (t ++ x.behind) →
        marks (x.before ++ (t ++ x.behind.take m)) = marks x.before ++ marks (x.behind.take m) := by
      intro t ht hstraddles
      have hshort : ¬ Straddles names x.before (t ++ x.behind.take m) := fun h => hstraddles (by
        rw [← List.take_append_drop m x.behind, ← List.append_assoc]
        exact h.append _)
      rw [marks_append hshort, marks_of_not_mem (dollar_not_mem ht)]
    rw [move_add, Block.isInside, Block.isInside, changed, text, htake, htake,
      hmarks x.new x.new_plain hx.new, hmarks x.old x.old_plain hx.old]

/-! ### Spans of blocks -/

end Stencil.Exchange

namespace Stencil.Block

variable {t : Text} {strict : Bool} {lo hi n j : Nat} {parts : List Span}
  {alternatives : List Alternative} {b : Block} {a : Alternative}

/-- An alternative of a tiled stretch stands in the text. -/
theorem Tiled.exists_stands (h : Tiled t lo hi parts alternatives) (ha : a ∈ alternatives) :
    ∃ i k, a.Stands t i k := by
  induction h with
  | done => cases ha
  | piece _ _ ih => exact ih ha
  | alternative stands _ ih =>
    rcases List.mem_cons.1 ha with rfl | ha
    · exact ⟨_, _, stands⟩
    · exact ih ha

/-- Every alternative of a block is written somewhere. -/
theorem exists_stands_of_findInnermost (h : findInnermost t strict = .ok b)
    (ha : a ∈ b.alternatives) : ∃ i k, a.Stands t i k := by
  rcases (tiling_of_findInnermost h).tiled with ⟨-, htiled⟩ | ⟨i, front, back, -, heq, hfront, hback⟩
  · exact htiled.exists_stands ha
  · rw [heq] at ha
    rcases List.mem_append.1 ha with ha | ha
    · exact hfront.exists_stands ha
    · exact hback.exists_stands ha

end Stencil.Block

namespace Stencil.Exchange

open Block

variable {x : Exchange} {names : List Text} {strict : Bool} {b : Block} {c s : Span}

/-- A block is not cut by the exchange. -/
theorem Steady.clearSpan_span (hx : x.Steady names) (h : Laid x.text b) : x.ClearSpan b.span := by
  refine ⟨(outside_of_standsAt h.opener).clear, ?_⟩
  rw [h.span_stop]
  exact hx.clear_add_size h.endIf

/-- Nor is one of its conditions. -/
theorem Steady.clearSpan_of_mem_conditions (hx : x.Steady names)
    (h : findInnermost x.text strict = .ok b) (hc : c ∈ b.conditions) : x.ClearSpan c := by
  have hlaid := laid_of_findInnermost h
  rcases List.mem_cons.1 hc with rfl | hc
  · refine ⟨?_, (outside_of_marker (Bracket.getElem?_of_closing? hlaid.closing).2 rfl).clear⟩
    rw [hlaid.condition_start]
    exact hx.clear_add_size hlaid.opener
  · obtain ⟨a, ha, rfl⟩ := List.mem_map.1 hc
    obtain ⟨i, k, hstands⟩ := exists_stands_of_findInnermost h ha
    refine ⟨?_, (outside_of_marker hstands.closing rfl).clear⟩
    rw [hstands.condition_start]
    exact hx.clear_add_size hstands.opener

/-- Nor is what may be chosen. -/
theorem Steady.clearSpan_of_mem_choices (hx : x.Steady names) (h : Laid x.text b)
    {chosen : List Span} (hchosen : chosen ∈ b.choices) (hs : s ∈ chosen) : x.ClearSpan s :=
  hx.clearSpan_of_fenced ((h.choice_laid hchosen).2 s hs)

/-! ### Behind `$else` -/

end Stencil.Exchange

namespace Stencil.Block

variable {t : Text} {lo hi n j : Nat} {parts : List Span} {alternatives : List Alternative}

/-- A position of a tiled stretch is in a piece or in an alternative. -/
theorem Tiled.cases (h : Tiled t lo hi parts alternatives) (hlo : lo ≤ n) (hhi : n < hi) :
    (∃ s ∈ parts, s.Has n) ∨ ∃ a ∈ alternatives, ∃ i k, a.Stands t i k ∧ i ≤ n ∧ n < k := by
  induction h with
  | done => omega
  | @piece i j hi pieces alternatives lt next ih =>
    -- it is in this piece, or behind it
    by_cases hn : n < j
    · exact .inl ⟨_, List.mem_cons_self, hlo, hn⟩
    · rcases ih (Nat.le_of_not_lt hn) hhi with ⟨s, hs, hin⟩ | hin
      · exact .inl ⟨s, List.mem_cons_of_mem _ hs, hin⟩
      · exact .inr hin
  | @alternative i j hi a pieces later stands next ih =>
    -- it is in this alternative, or behind it
    by_cases hn : n < j
    · exact .inr ⟨a, List.mem_cons_self, i, j, stands, hlo, hn⟩
    · rcases ih (Nat.le_of_not_lt hn) hhi with hin | ⟨a', ha', hin⟩
      · exact .inl hin
      · exact .inr ⟨a', List.mem_cons_of_mem _ ha', hin⟩

/-- The `$else` that is found in a span does not stand behind another one. -/
theorem exists_findElse? {within : Span} (h : ElseAt t j) (hstart : within.start ≤ j)
    (hstop : j + 5 ≤ within.stop) :
    ∃ i ≤ j, findElse? t within = some (Keyword.otherwise.spanAt i) := by
  have hfirst : ∀ es : List Span, es.Pairwise (·.start < ·.start) →
      (∀ e ∈ es, ∃ i, e = Keyword.otherwise.spanAt i) → Keyword.otherwise.spanAt j ∈ es →
      ∃ i ≤ j, firstElse? t within es = some (Keyword.otherwise.spanAt i) := by
    intro es
    induction es with
    | nil => exact fun _ _ hmem => nomatch hmem
    | cons e es ih =>
      intro hsorted hspans hmem
      obtain ⟨hlater, hrest⟩ := List.pairwise_cons.1 hsorted
      obtain ⟨i, rfl⟩ := hspans e List.mem_cons_self
      rw [firstElse?]
      rcases List.mem_cons.1 hmem with heq | hmem
      -- the `$else` itself lies in the span, so it is found if none is before it
      · obtain rfl : j = i := congrArg Span.start heq
        have hin : ¬ within.stop < (Keyword.otherwise.spanAt j).stop := Nat.not_lt.2 hstop
        have hbehind : ¬ (Keyword.otherwise.spanAt j).start < within.start := Nat.not_lt.2 hstart
        have hif : goesOnWithIf (t.drop (Keyword.otherwise.spanAt j).stop) = false := h.2
        rw [if_neg hin, hif, Bool.or_false, decide_eq_false hbehind, if_neg Bool.false_ne_true]
        exact ⟨j, le_rfl, rfl⟩
      -- an earlier one ends in the span as well
      · have hlt : i < j := hlater _ hmem
        have hin : ¬ within.stop < (Keyword.otherwise.spanAt i).stop := by
          simp only [Keyword.spanAt_stop, Keyword.size_otherwise]
          omega
        rw [if_neg hin]
        split
        · exact ih hrest (fun e' he' => hspans e' (List.mem_cons_of_mem _ he')) hmem
        · exact ⟨i, hlt.le, rfl⟩
  exact hfirst _ Keyword.findAll_pairwise
    (fun e he => (Keyword.mem_findAll.1 he).imp fun i hi => hi.2)
    (Keyword.mem_findAll.2 ⟨j, h.1, rfl⟩)

/-- What stands behind a `$else` of the parts belongs to the part behind the first one. -/
theorem exists_splitAtElse_has (h : ElseAt t j) {s : Span} (hs : s ∈ parts) (hstart : s.start ≤ j)
    (hstop : j + 5 < s.stop) : ∃ s' ∈ (splitAtElse t parts).2, s'.Has (j + 5) := by
  induction parts with
  | nil => cases hs
  | cons p parts ih =>
    rw [splitAtElse]
    split
    · next e he =>
      rcases List.mem_cons.1 hs with rfl | hs
      · obtain ⟨i, hi, hfound⟩ := exists_findElse? h hstart hstop.le
        obtain rfl : e = Keyword.otherwise.spanAt i := Option.some.inj (he.symm.trans hfound)
        have hbehind : (Keyword.otherwise.spanAt i).stop ≤ j + 5 := Nat.add_le_add_right hi 5
        -- the part is cut at an `$else` that is not behind this one
        refine ⟨⟨(Keyword.otherwise.spanAt i).stop, s.stop⟩, List.mem_append_left _ ?_, hbehind,
          hstop⟩
        exact mem_part.2 ⟨rfl, decide_eq_false (by simp only; omega)⟩
      · exact ⟨s, List.mem_append_right _ hs, Nat.le_add_right_of_le hstart, hstop⟩
    · next hnone =>
      -- some `$else` is found in the part, so it is cut
      rcases List.mem_cons.1 hs with rfl | hs
      · obtain ⟨i, -, hfound⟩ := exists_findElse? h hstart hstop.le
        rw [hnone] at hfound
        cases hfound
      · exact ih hs

end Stencil.Block

namespace Stencil.Exchange

open Block

variable {x : Exchange} {names : List Text} {strict : Bool} {b : Block} {j : Nat}

/-- No keyword stands where what is exchanged begins. -/
theorem Steady.not_standsAt_over (hx : x.Steady names) {k : Keyword} (h : k.StandsAt x.text j)
    (hle : j ≤ x.before.length) : ¬ x.before.length < j + k.size := by
  have hpos := x.length_old_pos
  rcases outside_of_standsAt h with hlt | hge
  · exact Nat.not_lt.2 (hx.add_size_le h hlt)
  · omega

/-- Behind a `$else` that stands right in front of what is exchanged the next fence is behind the
beginning of that. -/
theorem lt_of_fence (helse : Keyword.otherwise.StandsAt x.text j) (hj : j + 5 = x.before.length)
    {m : Nat} (hm : j < m) (hfence : x.text[m]? = some '$' ∨ x.text[m]? = some ']') :
    x.before.length < m := by
  have hpos := x.length_old_pos
  have hout : x.Outside m :=
    hfence.elim (outside_of_marker · rfl) (outside_of_marker · rfl)
  rcases hout with hlt | hge
  -- within the letters of the `$else` there is no fence
  · obtain ⟨k, rfl⟩ := Nat.exists_eq_add_of_lt hm
    have hin : k + 1 < Keyword.otherwise.size := by
      rw [Keyword.size_otherwise]
      omega
    rcases hfence with hfence | hfence
    · exact absurd rfl (helse.ne_of_inner (Nat.succ_pos k) hin hfence).1
    · exact absurd rfl (helse.ne_of_inner (Nat.succ_pos k) hin hfence).2
  · omega

/-- A `$else` that stands in an alternative right in front of what is exchanged stands in its body or
in its condition, and so does that. -/
theorem Steady.has_of_stands (hx : x.Steady names) {a : Alternative} {m k : Nat}
    (ha : a.Stands x.text m k) (hfence : x.text[a.body.stop]? = some '$')
    (helse : Keyword.otherwise.StandsAt x.text j) (hj : j + 5 = x.before.length) (hm : m ≤ j)
    (hk : j < k) : a.condition.Has x.before.length ∨ a.body.Has x.before.length := by
  have hopener := hx.not_standsAt_over ha.opener (by omega)
  rw [Keyword.size_elseIfOpen] at hopener
  -- the `$else` lies behind the opener, for keywords do not overlap
  have hstart : m + 8 ≤ j := ha.opener.add_size_le_of_dollar helse.getElem?_start (by omega)
  have hcondition := ha.condition_start
  have hbody := ha.body_start
  rcases Nat.lt_trichotomy j a.condition.stop with hlt | heq | hgt
  · have := lt_of_fence helse hj hlt (.inr ha.closing)
    exact .inl ⟨by omega, this⟩
  · have hclosing := ha.closing
    rw [← heq, helse.getElem?_start] at hclosing
    cases hclosing
  · rcases Nat.lt_or_ge j a.body.stop with hlt | hge
    · have := lt_of_fence helse hj hlt (.inl hfence)
      exact .inr ⟨by omega, this⟩
    · rcases ha.ending with ⟨hend, rfl⟩ | rfl
      -- it would lie in the `$endelseif`
      · have hending := hx.not_standsAt_over hend (by omega)
        rw [Keyword.size_endElseIf] at hending
        have hle := hend.add_size_le_of_dollar helse.getElem?_start (by omega)
        exact absurd hle (Nat.not_le.2 hk)
      · omega

/-- What stands right behind a `$else` of a block, and in no alternative, belongs to the other body:
no such text can undo the `$else`. -/
theorem Steady.exists_mem_otherwise (hx : x.Steady names)
    (hb : findInnermost x.text strict = .ok b) (helse : Keyword.otherwise.StandsAt x.text j)
    (hj : j + 5 = x.before.length) (hspan : b.span.Has x.before.length)
    (hconditions : ∀ c ∈ b.conditions, ¬ c.Has x.before.length)
    (hbodies : ∀ a ∈ b.alternatives, ¬ a.body.Has x.before.length) :
    ∃ s ∈ b.otherwise, s.Has x.before.length := by
  have hpos := x.length_old_pos
  have helseAt : ElseAt x.text j := by
    refine ⟨helse, Bool.eq_false_iff.2 fun hif =>
      hx.old ⟨j, j + 7, ?_, ?_, .elseIf helse hif⟩⟩ <;> omega
  obtain ⟨i, closing, stop, parts, alternatives, ⟨hat, -⟩, hclosing, ⟨hle, hend, -⟩, hcut, rfl⟩ :=
    findInnermost_eq_ok hb
  have hclose := (Bracket.getElem?_of_closing? hclosing).2
  have htiled := tiled_of_cutAlternatives hcut (fun _ => exists_of_mem_openers) hle
    (.inl ⟨closing, rfl, hclose⟩) hend.getElem?_start
  obtain ⟨hparts, hbodyFences⟩ := (cut_of_cutAlternatives hcut (fun _ => exists_of_mem_openers) hle
    (.inl ⟨closing, rfl, hclose⟩) hend.getElem?_start).fenced hend.getElem?_start
  have hcondition := hconditions _ List.mem_cons_self
  have hopener := hx.not_standsAt_over hat
  have hending := hx.not_standsAt_over hend
  simp only [Span.Has, Keyword.size_ifOpen, Keyword.size_endIf] at hspan hcondition hopener hending
  -- the `$else` stands between the condition and the `$endif`
  have hbehind : closing < j := by
    rcases Nat.lt_trichotomy j closing with hlt | rfl | hgt
    · have := lt_of_fence helse hj hlt (.inr hclose)
      omega
    · rw [helse.getElem?_start] at hclose
      cases hclose
    · exact hgt
  rcases htiled.cases hbehind (by omega) with ⟨s, hs, hstart, hstop⟩ | ⟨a, ha, m, k, hstands, hm, hk⟩
  · have hfar := lt_of_fence helse hj hstop (.inl (hparts s hs).2)
    rw [← hj] at hfar ⊢
    exact exists_splitAtElse_has helseAt hs hstart hfar
  · rcases hx.has_of_stands hstands (hbodyFences a ha).2 helse hj hm hk with hhas | hhas
    · exact absurd hhas (hconditions _ (List.mem_cons_of_mem _ (List.mem_map_of_mem ha)))
    · exact absurd hhas (hbodies a ha)

end Stencil.Exchange
