import Mathlib.Data.List.Induction
import Stencil.Block
import Stencil.Proofs.Keyword
/-!
# Positions inside blocks

Whether a position lies inside a block is told by the marks in front of it. They are counted, and an
`$endif` without a block to close counts for nothing. So the count is not how many more opening
marks than closing ones the whole row has, but the most that any end of it has
(`lt_foldl_openAfter_iff`).

`placedMarks` lists the marks of a text with their positions: the two keywords are searched for one
by one, and what is found is put in order. The marks in front of a position are those of the list
that end there or before (`placedMarks_take`), so a keyword that the position cuts is none, and what
stands behind the position does not matter.

Where the marks of a text are nested, each of them has one that it matches. There a position is
inside a block exactly if it lies between two marks that match, behind the whole `$if[` and before
the end of the `$endif` (`inside_is_between_matching_marks`). Between the two a block is open,
however the marks go on outside (`foldl_openAfter_pos`); that an open block has its two marks around
the position is an induction on the nesting (`Mark.Nested.exists_pair`).
-/

namespace Stencil.Block

/-! ### The count of open blocks -/

/-- Behind a row of marks more than `k` blocks are open exactly if some end of the row has more than
`k` opening marks in excess. -/
theorem lt_foldl_openAfter_iff {ms : List Mark} {k : Nat} :
    k < ms.foldl openAfter 0 ↔ ∃ s, s <:+ ms ∧ s.count .closing + k < s.count .opening := by
  -- the count goes on from the left, so the last mark is taken off
  induction ms using List.reverseRecOn generalizing k with
  | nil => simp [List.suffix_nil]
  | append_singleton ms m ih =>
    -- an end that has an excess is not empty, so it ends with the last mark
    have hends : (∃ s, s <:+ ms ++ [m] ∧ s.count .closing + k < s.count .opening) ↔
        ∃ s, s <:+ ms ∧ (s ++ [m]).count .closing + k < (s ++ [m]).count .opening := by
      constructor
      · rintro ⟨s, hs, hlt⟩
        rcases List.suffix_concat_iff.1 hs with rfl | ⟨s, rfl, hsuffix⟩
        · exact absurd hlt (Nat.not_lt_zero _)
        · exact ⟨s, hsuffix, hlt⟩
      · rintro ⟨s, hs, hlt⟩
        exact ⟨s ++ [m], List.suffix_concat_iff.2 (.inr ⟨s, rfl, hs⟩), hlt⟩
    rw [hends, List.foldl_concat]
    simp only [List.count_append]
    cases m with
    | opening =>
      cases k with
      | zero => exact iff_of_true (Nat.succ_pos _) ⟨[], List.nil_suffix, Nat.one_pos⟩
      | succ k =>
        rw [openAfter, Nat.succ_lt_succ_iff, ih]
        exact exists_congr fun s => and_congr_right fun _ => Nat.succ_lt_succ_iff.symm
    | closing =>
      have hlt : k < ms.foldl openAfter 0 - 1 ↔ k + 1 < ms.foldl openAfter 0 := by omega
      rw [openAfter, hlt, ih]
      refine exists_congr fun s => and_congr_right fun _ => ?_
      rw [Nat.add_assoc, Nat.add_comm k]
      rfl

/-! ### Nested marks -/

namespace Mark

/-- Every opening mark is closed by one behind it, and every closing mark closes one in front. -/
inductive Nested : List Mark → Prop
  | nil : Nested []
  | block {inner rest : List Mark} (inside : Nested inner) (behind : Nested rest) :
      Nested (.opening :: (inner ++ .closing :: rest))

/-- A row of marks that begins with a block is cut in front of the block, in it, or behind it. -/
theorem block_eq_append {inner rest front back : List Mark}
    (h : .opening :: (inner ++ .closing :: rest) = front ++ back) :
    front = [] ∨
      (∃ inner' inner'', inner = inner' ++ inner'' ∧ front = .opening :: inner' ∧
        back = inner'' ++ .closing :: rest) ∨
      ∃ rest', rest = rest' ++ back ∧ front = .opening :: (inner ++ .closing :: rest') := by
  cases front with
  | nil => exact .inl rfl
  | cons m front =>
    rw [List.cons_append, List.cons.injEq] at h
    obtain ⟨rfl, h⟩ := h
    refine .inr ?_
    -- the cut is in the block, or behind it
    rcases List.append_eq_append_iff.1 h with ⟨part, rfl, hpart⟩ | ⟨part, rfl, rfl⟩
    · cases part with
      | nil => exact .inl ⟨inner, [], (List.append_nil _).symm, by rw [List.append_nil], hpart.symm⟩
      | cons c part =>
        obtain ⟨rfl, rfl⟩ := List.cons.inj hpart
        exact .inr ⟨part, rfl, rfl⟩
    · exact .inl ⟨front, part, rfl, rfl, rfl⟩

namespace Nested

variable {ms front back : List Mark}

/-- As many blocks are open behind nested marks as in front of them. -/
theorem foldl_openAfter (h : Nested ms) (depth : Nat) : ms.foldl openAfter depth = depth := by
  induction h generalizing depth with
  | nil => rfl
  | block _ _ ihinner ihrest =>
    rw [List.foldl_cons, List.foldl_append, ihinner, List.foldl_cons, ihrest]
    rfl

/-- No part that begins nested marks closes more blocks than it opens. -/
theorem le_foldl_openAfter (h : Nested (front ++ back)) (depth : Nat) :
    depth ≤ front.foldl openAfter depth := by
  generalize hms : front ++ back = ms at h
  induction h generalizing front back depth with
  | nil =>
    obtain ⟨rfl, -⟩ := List.append_eq_nil_iff.1 hms
    exact le_rfl
  -- the cut lies before, in or behind the first block
  | block hinner _ ihinner ihrest =>
    rcases block_eq_append hms.symm with rfl | ⟨inner', inner'', hsplit, rfl, -⟩ |
      ⟨rest', hsplit, rfl⟩
    · exact le_rfl
    · have hle := ihinner (depth + 1) hsplit.symm
      rw [List.foldl_cons]
      exact (Nat.le_succ depth).trans hle
    · rw [List.foldl_cons, List.foldl_append, hinner.foldl_openAfter, List.foldl_cons]
      exact ihrest depth hsplit.symm

/-- Where blocks are open between nested marks, two marks match across: what stands between them is
nested. -/
theorem exists_pair (h : Nested (front ++ back)) (hopen : 0 < front.foldl openAfter 0) :
    ∃ before inner inner' behind, front = before ++ .opening :: inner ∧
      back = inner' ++ .closing :: behind ∧ Nested (inner ++ inner') := by
  generalize hms : front ++ back = ms at h
  induction h generalizing front back with
  | nil =>
    obtain ⟨rfl, -⟩ := List.append_eq_nil_iff.1 hms
    cases hopen
  | @block first _ hfirst _ _ ihrest =>
    rcases block_eq_append hms.symm with rfl | ⟨inner, inner', rfl, rfl, rfl⟩ |
      ⟨rest', hsplit, rfl⟩
    · cases hopen
    · exact ⟨[], inner, inner', _, rfl, rfl, hfirst⟩
    -- the first block is closed, so one of the rest is open
    · rw [List.foldl_cons, List.foldl_append, hfirst.foldl_openAfter, List.foldl_cons] at hopen
      obtain ⟨before, inner, inner', behind, rfl, rfl, hnested⟩ := ihrest hopen hsplit.symm
      refine ⟨.opening :: (first ++ .closing :: before), inner, inner', behind, ?_, rfl, hnested⟩
      simp

end Nested

end Mark

/-- Behind an opening mark, and before the closing one that it matches, a block is open. -/
theorem foldl_openAfter_pos {inner inner' : List Mark} (h : Mark.Nested (inner ++ inner'))
    (before : List Mark) : 0 < (before ++ .opening :: inner).foldl openAfter 0 := by
  rw [List.foldl_append, List.foldl_cons]
  exact (Nat.succ_pos _).trans_le (h.le_foldl_openAfter _)

/-! ### Where marks stand -/

/-- The keyword that is the mark. -/
def Mark.keyword : Mark → Keyword
  | opening => .ifOpen
  | closing => .endIf

/-- At one position stands one mark. -/
theorem Mark.eq_of_standsAt {m m' : Mark} {t : Text} {i : Nat} (h : m.keyword.StandsAt t i)
    (h' : m'.keyword.StandsAt t i) : m = m' := by
  -- the two differ in their first letter
  have hone : Keyword.ifOpen.StandsAt t i → ¬ Keyword.endIf.StandsAt t i := by
    intro hopens hends
    rw [Keyword.StandsAt, Keyword.startsIn_eq] at hopens hends
    obtain ⟨c, hc, hlike⟩ := Search.getElem?_of_startsBy (n := 1) hopens rfl
    obtain ⟨c', hc', hlike'⟩ := Search.getElem?_of_startsBy (n := 1) hends rfl
    obtain rfl := Option.some.inj (hc.symm.trans hc')
    cases (beq_iff_eq.1 hlike).trans (beq_iff_eq.1 hlike').symm
  cases m with
  | opening =>
    cases m' with
    | opening => rfl
    | closing => exact absurd h' (hone h)
  | closing =>
    cases m' with
    | opening => exact absurd h (hone h')
    | closing => rfl

/-- A mark and where it begins in a text. -/
structure PlacedMark where
  mark : Mark
  start : Nat
deriving DecidableEq, Repr

namespace PlacedMark

def span (m : PlacedMark) : Span := m.mark.keyword.spanAt m.start

/-- The text has the mark there. -/
def Stands (m : PlacedMark) (t : Text) : Prop := m.mark.keyword.StandsAt t m.start

/-- The same mark in a text with one more character in front. -/
def next (m : PlacedMark) : PlacedMark := { m with start := m.start + 1 }

/-- Marks that stand at one place are the same. -/
theorem Stands.eq {a b : PlacedMark} {t : Text} (ha : a.Stands t) (hb : b.Stands t)
    (hstart : a.start = b.start) : a = b := by
  obtain ⟨kind, start⟩ := a
  obtain ⟨kind', start'⟩ := b
  obtain rfl : start = start' := hstart
  obtain rfl : kind = kind' := Mark.eq_of_standsAt ha hb
  rfl

/-- Marks do not overlap. -/
theorem Stands.stop_le {a b : PlacedMark} {t : Text} (ha : a.Stands t) (hb : b.Stands t)
    (hlt : a.start < b.start) : a.span.stop ≤ b.start :=
  Keyword.StandsAt.add_size_le_of_dollar ha (Keyword.StandsAt.getElem?_start hb) hlt

end PlacedMark

/-- The marks of one kind in a text. -/
def Mark.findAll (m : Mark) (t : Text) : List PlacedMark :=
  (m.keyword.findAll t).map fun s => ⟨m, s.start⟩

/-- The marks of a text in order. Those of either kind are searched for on their own. -/
def placedMarks (t : Text) : List PlacedMark :=
  (Mark.opening.findAll t ++ Mark.closing.findAll t).mergeSort (·.start ≤ ·.start)

/-- The marks that end at a position or before. -/
def completeMarks (t : Text) (i : Nat) : List PlacedMark :=
  (placedMarks t).filter (·.span.stop ≤ i)

variable {t : Text} {i : Nat} {m : PlacedMark}

/-- The marks of a kind are those of its keyword. -/
theorem Mark.mem_findAll {kind : Mark} : m ∈ kind.findAll t ↔ m.mark = kind ∧ m.Stands t := by
  simp only [Mark.findAll, List.mem_map, Keyword.mem_findAll]
  constructor
  · rintro ⟨_, ⟨j, hj, rfl⟩, rfl⟩
    exact ⟨rfl, hj⟩
  · rintro ⟨rfl, hstands⟩
    exact ⟨_, ⟨m.start, hstands, rfl⟩, rfl⟩

/-- The marks are those that stand in the text. -/
theorem mem_placedMarks : m ∈ placedMarks t ↔ m.Stands t := by
  rw [placedMarks, List.mem_mergeSort, List.mem_append, Mark.mem_findAll, Mark.mem_findAll]
  constructor
  · rintro (h | h) <;> exact h.2
  · intro h
    cases hmark : m.mark with
    | opening => exact .inl ⟨rfl, h⟩
    | closing => exact .inr ⟨rfl, h⟩

/-- A kind of mark occurs exactly when its keyword stands somewhere. -/
theorem mem_map_mark_iff {kind : Mark} :
    kind ∈ (placedMarks t).map (·.mark) ↔ ∃ j, kind.keyword.StandsAt t j := by
  rw [List.mem_map]
  constructor
  · rintro ⟨m, hm, rfl⟩
    exact ⟨m.start, mem_placedMarks.1 hm⟩
  · rintro ⟨j, hj⟩
    exact ⟨⟨kind, j⟩, mem_placedMarks.2 hj, rfl⟩

/-- Marks in strict order are distinct. -/
theorem nodup_of_pairwise {ms : List PlacedMark} (h : ms.Pairwise (·.start < ·.start)) :
    ms.Nodup :=
  h.imp fun hlt heq => Nat.ne_of_lt hlt (congrArg PlacedMark.start heq)

/-- No mark of a kind is listed twice. -/
theorem Mark.nodup_findAll (kind : Mark) (t : Text) : (kind.findAll t).Nodup :=
  nodup_of_pairwise (List.pairwise_map.2 Keyword.findAll_pairwise)

/-- The marks are listed in the order of their places. -/
theorem placedMarks_pairwise (t : Text) : (placedMarks t).Pairwise (·.start < ·.start) := by
  have hsorted : (placedMarks t).Pairwise fun a b => decide (a.start ≤ b.start) = true := by
    refine List.pairwise_mergeSort (fun a b c hab hbc => ?_) (fun a b => ?_) _
    · exact decide_eq_true ((of_decide_eq_true hab).trans (of_decide_eq_true hbc))
    · simpa using Nat.le_total a.start b.start
  have hnodup : (placedMarks t).Nodup := by
    refine (List.mergeSort_perm _ _).nodup_iff.2 (List.nodup_append.2
      ⟨Mark.nodup_findAll _ t, Mark.nodup_findAll _ t, fun a ha b hb => ?_⟩)
    rintro rfl
    cases (Mark.mem_findAll.1 ha).1.symm.trans (Mark.mem_findAll.1 hb).1
  refine (hsorted.and hnodup).imp_of_mem fun {a b} ha hb hab => ?_
  have hne : a.start ≠ b.start :=
    fun heq => hab.2 ((mem_placedMarks.1 ha).eq (mem_placedMarks.1 hb) heq)
  exact Nat.lt_of_le_of_ne (of_decide_eq_true hab.1) hne

/-- Marks in order that are just those of the text are the list of them. -/
theorem placedMarks_eq_of {ms : List PlacedMark} (h : ms.Pairwise (·.start < ·.start))
    (hmem : ∀ m, m ∈ ms ↔ m.Stands t) : placedMarks t = ms := by
  have hsorted := placedMarks_pairwise t
  have hperm : (placedMarks t).Perm ms := by
    refine (List.perm_ext_iff_of_nodup (nodup_of_pairwise hsorted) (nodup_of_pairwise h)).2 ?_
    intro m
    rw [mem_placedMarks, hmem]
  exact hperm.eq_of_pairwise (fun a b _ _ hab hba => absurd hab (Nat.lt_asymm hba)) hsorted h

/-- A mark is complete when it ends at or in front of the position. -/
theorem mem_completeMarks : m ∈ completeMarks t i ↔ m.Stands t ∧ m.span.stop ≤ i := by
  rw [completeMarks, List.mem_filter, mem_placedMarks, decide_eq_true_eq]

/-- In front of a position stand the marks that end there or before. -/
theorem placedMarks_take (t : Text) (i : Nat) : placedMarks (t.take i) = completeMarks t i := by
  refine placedMarks_eq_of ((placedMarks_pairwise t).filter _) fun m => ?_
  rw [mem_completeMarks]
  exact Keyword.standsAt_take.symm

/-- The marks of a text are those at its first character and those of the rest, one further on. -/
theorem placedMarks_cons {c : Char} {front : List PlacedMark}
    (h : front.Pairwise (·.start < ·.start))
    (hmem : ∀ m, m ∈ front ↔ m.start = 0 ∧ m.Stands (c :: t)) :
    placedMarks (c :: t) = front ++ (placedMarks t).map PlacedMark.next := by
  refine placedMarks_eq_of (List.pairwise_append.2 ⟨h, ?_, fun a ha b hb => ?_⟩) fun m => ?_
  · exact List.pairwise_map.2 ((placedMarks_pairwise t).imp Nat.succ_lt_succ)
  · obtain ⟨b, -, rfl⟩ := List.mem_map.1 hb
    rw [((hmem a).1 ha).1]
    exact Nat.succ_pos _
  · rw [List.mem_append, hmem, List.mem_map]
    constructor
    · rintro (⟨-, hstands⟩ | ⟨m, hm, rfl⟩)
      · exact hstands
      · have hstands : m.Stands t := mem_placedMarks.1 hm
        exact hstands
    · intro hstands
      obtain ⟨kind, start⟩ := m
      cases start with
      | zero => exact .inl ⟨rfl, hstands⟩
      | succ start => exact .inr ⟨⟨kind, start⟩, mem_placedMarks.2 hstands, rfl⟩

/-- Read in one go, the marks are the same. -/
theorem map_mark_placedMarks (t : Text) : (placedMarks t).map (·.mark) = marks t := by
  induction t with
  | nil =>
    have hnil : placedMarks [] = [] := List.mergeSort_nil
    rw [hnil]
    rfl
  | cons c t ih =>
    have hlater : ((placedMarks t).map PlacedMark.next).map (·.mark) = marks t := by
      rw [List.map_map, ← ih]
      rfl
    -- one mark at most stands at the first character
    have hhead : ∀ kind : Mark, kind.keyword.startsIn (c :: t) = true →
        placedMarks (c :: t) = ⟨kind, 0⟩ :: (placedMarks t).map PlacedMark.next := by
      intro kind hkind
      refine placedMarks_cons (List.pairwise_singleton _ _) fun m => ?_
      rw [List.mem_singleton]
      constructor
      · rintro rfl
        exact ⟨rfl, hkind⟩
      · rintro ⟨hzero, hstands⟩
        exact hstands.eq hkind hzero
    rw [marks]
    split
    · next hopens => rw [hhead .opening hopens, List.map_cons, hlater]
    · next hopens =>
      split
      · next hends => rw [hhead .closing hends, List.map_cons, hlater]
      · next hends =>
        have hnone : placedMarks (c :: t) = (placedMarks t).map PlacedMark.next := by
          refine placedMarks_cons .nil fun m => iff_of_false List.not_mem_nil ?_
          rintro ⟨hzero, hstands⟩
          obtain ⟨kind, start⟩ := m
          obtain rfl : start = 0 := hzero
          cases kind with
          | opening => exact hopens hstands
          | closing => exact hends hstands
        rw [hnone, hlater]

/-! ### Positions and the marks around them -/

/-- The marks that are counted are those of the text that end at the position or before. -/
theorem isInside_iff_foldl :
    isInside t i = true ↔ 0 < ((completeMarks t i).map (·.mark)).foldl openAfter 0 := by
  rw [isInside, decide_eq_true_eq, ← map_mark_placedMarks, placedMarks_take]

/-- A position is inside a block exactly if some end of the row of marks in front of it has more
opening marks than closing ones. -/
theorem isInside_iff_exists_suffix :
    isInside t i = true ↔ ∃ s, s <:+ (completeMarks t i).map (·.mark) ∧
      s.count .closing < s.count .opening := by
  rw [isInside_iff_foldl, lt_foldl_openAfter_iff]
  rfl

/-- Behind a `$if[`, and before every `$endif`, a position is inside of a block. -/
theorem isInside_of_standsAt {j : Nat} (hopens : Keyword.ifOpen.StandsAt (t.take i) j)
    (hnone : ∀ n, ¬ Keyword.endIf.StandsAt (t.take i) n) : isInside t i = true := by
  refine isInside_iff_exists_suffix.2 ⟨_, List.suffix_rfl, ?_⟩
  rw [← placedMarks_take, List.count_eq_zero_of_not_mem, List.count_pos_iff]
  · exact mem_map_mark_iff.2 ⟨j, hopens⟩
  · rw [mem_map_mark_iff, not_exists]
    exact hnone

/-- Where no block begins, no position is inside of one. -/
theorem isInside_eq_false (h : ∀ j, ¬ Keyword.ifOpen.StandsAt t j) (i : Nat) :
    isInside t i = false := by
  rw [Bool.eq_false_iff, Ne, isInside_iff_exists_suffix]
  rintro ⟨s, hs, hlt⟩
  have hmem : .opening ∈ s := List.count_pos_iff.1 ((Nat.zero_le _).trans_lt hlt)
  have hopens : .opening ∈ (placedMarks t).map (·.mark) :=
    List.map_subset _ (List.filter_subset_self _) (hs.subset hmem)
  obtain ⟨j, hj⟩ := mem_map_mark_iff.1 hopens
  exact h j hj

/-! ### Marks that match -/

/-- Behind the marks in front of a position stand only marks that end behind it. -/
theorem exists_placedMarks_eq (t : Text) (i : Nat) :
    ∃ later, placedMarks t = completeMarks t i ++ later ∧ ∀ m ∈ later, i < m.span.stop := by
  refine ⟨(placedMarks t).filter (i < ·.span.stop), placedMarks_eq_of ?_ fun m => ?_,
    fun m hm => of_decide_eq_true (List.mem_filter.1 hm).2⟩
  · have hsorted := placedMarks_pairwise t
    refine List.pairwise_append.2 ⟨hsorted.filter _, hsorted.filter _, fun a ha b hb => ?_⟩
    obtain ⟨ha, hstop⟩ := mem_completeMarks.1 ha
    obtain ⟨hb, hlater⟩ := List.mem_filter.1 hb
    have hb : b.Stands t := mem_placedMarks.1 hb
    have hlater : i < b.span.stop := of_decide_eq_true hlater
    -- a mark that does not begin behind another one ends with it or before
    by_contra hlt
    rcases Nat.eq_or_lt_of_le (Nat.le_of_not_lt hlt) with heq | hlt
    · rw [hb.eq ha heq] at hlater
      omega
    · have hbefore := hb.stop_le ha hlt
      have hle : a.start ≤ a.span.stop := Nat.le_add_right _ _
      omega
  · rw [List.mem_append, mem_completeMarks, List.mem_filter, mem_placedMarks, decide_eq_true_eq,
      ← and_or_left]
    exact and_iff_left (Nat.lt_or_ge _ _).symm

/-- Two marks of a text match: one opens a block, the other one closes it, and those between them
are nested. -/
structure Matched (t : Text) (a b : PlacedMark) : Prop where
  opening : a.mark = .opening
  closing : b.mark = .closing
  nested : ∃ before inner behind, placedMarks t = before ++ a :: (inner ++ b :: behind) ∧
    Mark.Nested (inner.map (·.mark))

/-- If the first of two elements is not behind a cut of the list, and the second not in front of it,
then the cut is between them. -/
theorem exists_eq_append_of_cut {α : Type} {front back before inner behind : List α} {a b : α}
    (h : front ++ back = before ++ a :: (inner ++ b :: behind)) (ha : a ∉ back) (hb : b ∉ front) :
    ∃ inner' inner'', inner = inner' ++ inner'' ∧ front = before ++ a :: inner' := by
  rcases List.append_eq_append_iff.1 h with ⟨part, -, rfl⟩ | ⟨part, rfl, hpart⟩
  · exact absurd (List.mem_append_right part List.mem_cons_self) ha
  -- the first element is in front of the cut, and the second one is not
  cases part with
  | nil =>
    rw [List.nil_append] at hpart
    exact absurd (hpart ▸ List.mem_cons_self) ha
  | cons c part =>
    rw [List.cons_append, List.cons.injEq] at hpart
    obtain ⟨rfl, hpart⟩ := hpart
    rcases List.append_eq_append_iff.1 hpart with ⟨rest, rfl, hrest⟩ | ⟨rest, rfl, -⟩
    · cases rest with
      | nil => exact ⟨inner, [], (List.append_nil _).symm, by rw [List.append_nil]⟩
      | cons c' rest =>
        obtain rfl : b = c' := (List.cons.inj hrest).1
        exact absurd (by simp) hb
    · exact ⟨part, rest, rfl, rfl⟩

/-- Between matching marks a position is inside. -/
theorem Matched.isInside {a b : PlacedMark} (h : Matched t a b) (ha : a.span.stop ≤ i)
    (hb : i < b.span.stop) : isInside t i = true := by
  obtain ⟨before, inner, behind, heq, hnested⟩ := h.nested
  obtain ⟨later, hsplit, hlater⟩ := exists_placedMarks_eq t i
  obtain ⟨inner', inner'', rfl, hfront⟩ := exists_eq_append_of_cut (hsplit.symm.trans heq)
    (fun hmem => Nat.not_lt_of_le ha (hlater a hmem))
    (fun hmem => Nat.not_lt_of_le (mem_completeMarks.1 hmem).2 hb)
  rw [List.map_append] at hnested
  rw [isInside_iff_foldl, hfront, List.map_append, List.map_cons, h.opening]
  exact foldl_openAfter_pos hnested _

/-- A position inside well nested marks is between matching ones. -/
theorem exists_matched_of_isInside (h : Mark.Nested ((placedMarks t).map (·.mark)))
    (hin : isInside t i = true) : ∃ a b, Matched t a b ∧ a.span.stop ≤ i ∧ i < b.span.stop := by
  obtain ⟨later, hsplit, hlater⟩ := exists_placedMarks_eq t i
  rw [hsplit, List.map_append] at h
  obtain ⟨_, _, _, _, hfront, hback, hnested⟩ := h.exists_pair (isInside_iff_foldl.1 hin)
  -- the marks of the pair are marks of the text
  obtain ⟨before, front, hcomplete, rfl, hopens⟩ := List.map_eq_append_iff.1 hfront
  obtain ⟨a, inner, rfl, ha, rfl⟩ := List.map_eq_cons_iff.1 hopens
  obtain ⟨inner', back, rfl, rfl, hends⟩ := List.map_eq_append_iff.1 hback
  obtain ⟨b, behind, rfl, hb, rfl⟩ := List.map_eq_cons_iff.1 hends
  have hmem : a ∈ completeMarks t i := by
    rw [hcomplete]
    exact List.mem_append_right _ List.mem_cons_self
  refine ⟨a, b, ⟨ha, hb, before, inner ++ inner', behind, ?_, ?_⟩, (mem_completeMarks.1 hmem).2,
    hlater b (List.mem_append_right _ List.mem_cons_self)⟩
  · rw [hsplit, hcomplete]
    simp
  · rwa [List.map_append]

/-- In a text with nested marks the positions inside blocks are those between two marks that match,
behind the whole `$if[` and before the end of the `$endif`. In any text they are those in front of
which some end of the row of complete marks opens more blocks than it closes. -/
theorem inside_is_between_matching_marks (t : Text) (i : Nat) :
    (Mark.Nested ((placedMarks t).map (·.mark)) →
      (isInside t i = true ↔ ∃ a b, Matched t a b ∧ a.span.stop ≤ i ∧ i < b.span.stop)) ∧
    (isInside t i = true ↔ ∃ s, s <:+ (completeMarks t i).map (·.mark) ∧
      s.count .closing < s.count .opening) := by
  refine ⟨fun hnested => ⟨exists_matched_of_isInside hnested, ?_⟩, isInside_iff_exists_suffix⟩
  rintro ⟨a, b, hmatched, ha, hb⟩
  exact hmatched.isInside ha hb

/-- A text with a block inside of another one. -/
def nestedBlocks : Text := "$if[x]$IF[y]B$endif $b$ENDIF".toList

/-- A position in the last `$endif` is inside of the block that it closes. -/
theorem position_in_endIf_is_inside :
    Mark.Nested ((placedMarks nestedBlocks).map (·.mark)) ∧ isInside nestedBlocks 27 = true ∧
      ∃ a b, Matched nestedBlocks a b ∧ a.span.stop ≤ 27 ∧ 27 < b.span.stop := by
  have hnested : Mark.Nested ((placedMarks nestedBlocks).map (·.mark)) := by
    rw [map_mark_placedMarks]
    exact .block (.block .nil .nil) .nil
  have hin : isInside nestedBlocks 27 = true := rfl
  exact ⟨hnested, hin, ((inside_is_between_matching_marks nestedBlocks 27).1 hnested).1 hin⟩

end Stencil.Block
