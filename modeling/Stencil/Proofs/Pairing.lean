import Mathlib.Data.Nat.Nth
import Stencil.Proofs.Sequence
/-!
# Which call an entry is for

A worklist names the calls of a text and does not tell their positions. Where a name is called more
than once its first entry is for its first call, its second entry for its second one, and so on
(`EntryFor`). In a text of calls that pairs the entries and the calls one by one
(`AllCalled.exists_entryFor`, `AllCalled.exists_position`).

So two calls of one name are listed from left to right (`EntryFor.lt_of_sameName`), although a line
is listed from right to left: that is how a line is listed in which no name is called twice
(`EntryFor.lt_of_alone`). What stands on an earlier line is listed earlier
(`EntryFor.lt_of_lineOf_lt`).
-/

namespace Stencil

variable {names : List Text} {name entry t source : Text} {n m s x y : Nat}

/-! ### Counting -/

/-- Up to a position there are as many as there are numbers to count them. -/
theorem exists_count_eq {p : Nat → Prop} [DecidablePred p] {k : Nat} (h : k < Nat.count p n) :
    ∃ i < n, p i ∧ Nat.count p i = k := by
  have hcard : ∀ hfinite : (Set.ofPred p).Finite, k < hfinite.toFinset.card :=
    fun hfinite => h.trans_le (Nat.count_le_card hfinite n)
  exact ⟨Nat.nth p k, Nat.nth_lt_of_lt_count h, Nat.nth_mem k hcard, Nat.count_nth hcard⟩

theorem count_take (l : List Text) (name : Text) (n : Nat) :
    (l.take n).count name = Nat.count (fun i => l[i]? = some name) n := by
  induction n with
  | zero => rfl
  | succ n ih =>
    rw [List.take_add_one, List.count_append, ih, Nat.count_succ]
    cases l[n]? with
    | none => rfl
    | some other => simp [List.count_singleton]

/-- With an entry of its own a name is listed once more. -/
theorem count_take_lt {l : List Text} (hn : l[n]? = some name) (h : n < m) :
    (l.take n).count name < (l.take m).count name := by
  rw [count_take, count_take]
  exact Nat.count_strict_mono hn h

theorem lt_of_count_take_lt {l : List Text}
    (h : (l.take n).count name < (l.take m).count name) : n < m := by
  rw [count_take, count_take] at h
  exact Nat.lt_of_count_lt_count h

theorem exists_count_take_eq {l : List Text} {k : Nat} (h : k < l.count name) :
    ∃ n, l[n]? = some name ∧ (l.take n).count name = k := by
  rw [← List.take_length (l := l), count_take] at h
  obtain ⟨n, -, hn, hcount⟩ := exists_count_eq h
  exact ⟨n, hn, by rw [count_take, hcount]⟩

/-- The last one of a kind parts a list. -/
theorem exists_eq_append_cons_of_mem {α : Type} {l : List α} {a : α} (h : a ∈ l) :
    ∃ before behind, l = before ++ a :: behind ∧ a ∉ behind := by
  obtain ⟨before, behind, heq, hnot⟩ := List.eq_append_cons_of_mem (List.mem_reverse.2 h)
  refine ⟨behind.reverse, before.reverse, ?_, by rwa [List.mem_reverse]⟩
  rw [← List.reverse_reverse l, heq]
  simp

namespace Text

/-- How often a name stands in front of a position. -/
def occurrencesBefore (name t : Text) (x : Nat) : Nat :=
  Nat.count (fun i => startsFolded name (t.drop i) = true) x

/-- How many line breaks stand in front of a position. -/
def lineOf (t : Text) (x : Nat) : Nat := Nat.count (fun i => t[i]? = some '\n') x

theorem occurrencesBefore_length (name t : Text) :
    occurrencesBefore name t t.length = occurrences name t := by
  rw [occurrences_eq_countP, occurrencesBefore, Nat.count]
  simp

theorem occurrencesBefore_lt (hx : startsFolded name (t.drop x) = true) (h : x < y) :
    occurrencesBefore name t x < occurrencesBefore name t y := Nat.count_strict_mono hx h

theorem occurrencesBefore_mono (name t : Text) (h : x ≤ y) :
    occurrencesBefore name t x ≤ occurrencesBefore name t y := Nat.count_monotone _ h

theorem exists_occurrencesBefore_eq {k : Nat} (h : k < occurrences name t) :
    ∃ x, startsFolded name (t.drop x) = true ∧ occurrencesBefore name t x = k := by
  rw [← occurrencesBefore_length] at h
  obtain ⟨x, -, hx, hcount⟩ := exists_count_eq h
  exact ⟨x, hx, hcount⟩

/-- The line break in front of a line belongs to no name. -/
theorem occurrencesBefore_break (h : Worklist.Lettered name) (above below : Text) :
    occurrencesBefore name (above ++ '\n' :: below) (above.length + 1) =
      occurrences name above := by
  have hbreak : ¬ startsFolded name ((above ++ '\n' :: below).drop above.length) = true := by
    rw [List.drop_left]
    intro hstarts
    obtain ⟨stem, rfl, -⟩ := h
    cases getElem?_of_startsFolded (t := '\n' :: below) (i := 0) rfl hstarts
  rw [occurrencesBefore, Nat.count_succ, if_neg hbreak, Nat.add_zero, occurrences_eq_countP,
    Nat.count]
  refine List.countP_congr fun i hi => ?_
  rw [List.drop_append_of_le_length (List.mem_range.1 hi).le,
    h.startsFolded_append_cons rfl (by decide), decide_eq_true_iff]

theorem lineOf_mono (t : Text) (h : x ≤ y) : lineOf t x ≤ lineOf t y := Nat.count_monotone _ h

theorem exists_break_of_lineOf_lt (h : lineOf t x < lineOf t y) :
    ∃ i, x ≤ i ∧ i < y ∧ t[i]? = some '\n' := by
  obtain ⟨i, hi, hbreak⟩ := Nat.exists_of_count_lt_count h
  exact ⟨i, hi.1, hi.2, hbreak⟩

theorem lineOf_lt_of_break {i : Nat} (hx : x ≤ i) (hy : i < y) (hbreak : t[i]? = some '\n') :
    lineOf t x < lineOf t y :=
  (lineOf_mono t hx).trans_lt (Nat.count_strict_mono hbreak hy)

/-- Without a line break in between a line goes on. -/
theorem lineOf_eq_of_forall (hle : x ≤ y) (h : ∀ i, x ≤ i → i < y → t[i]? ≠ some '\n') :
    lineOf t y = lineOf t x := by
  refine Nat.le_antisymm (Nat.le_of_not_lt fun hlt => ?_) (lineOf_mono t hle)
  obtain ⟨i, hxi, hiy, hbreak⟩ := exists_break_of_lineOf_lt hlt
  exact h i hxi hiy hbreak

end Text

open Text (lineOf occurrencesBefore)

namespace Worklist

/-! ### The worklist around an entry -/

/-- A line is listed from right to left: what stands behind a `$` comes first, then the entry of the
`$` itself. -/
theorem exists_ofLine_eq (names : List Text) (left right : Text) :
    ∃ later, ofLine names (left ++ '$' :: right) = ofLine names right ++
      ((nameBehind? names (right.takeWhile (· ≠ '$'))).toList ++ later) := by
  obtain ⟨first, more, hmore, -⟩ := Text.split_singleton '$' left
  obtain ⟨pieces, hpieces⟩ := Text.exists_split_eq_cons '$' right
  refine ⟨more.reverse.filterMap (nameBehind? names), ?_⟩
  rw [ofLine, ofLine, Text.split_append_cons, hmore, hpieces]
  generalize right.takeWhile (· ≠ '$') = segment
  cases h : nameBehind? names segment <;> simp [h]

theorem exists_ofText_eq (names : List Text) {left : Text} (hleft : '\n' ∉ left) (rest : Text) :
    ∃ later, ofText names (left ++ '$' :: rest) = ofLine names (rest.takeWhile (· ≠ '\n')) ++
      ((nameBehind? names (rest.takeWhile fun c => c ≠ '$' && c ≠ '\n')).toList ++ later) := by
  obtain ⟨lines, hlines⟩ := Text.exists_split_eq_cons '\n' (left ++ '$' :: rest)
  obtain ⟨later, hlater⟩ := exists_ofLine_eq names left (rest.takeWhile (· ≠ '\n'))
  have hline : (left ++ '$' :: rest).takeWhile (· ≠ '\n') =
      left ++ '$' :: rest.takeWhile (· ≠ '\n') := by
    have hpos : ∀ c ∈ left, decide (c ≠ '\n') = true := by
      rintro c hc
      rw [decide_eq_true_eq]
      rintro rfl
      exact hleft hc
    rw [List.takeWhile_append_of_pos hpos, List.takeWhile_cons_of_pos (by decide)]
  rw [List.takeWhile_takeWhile] at hlater
  simp only [Bool.decide_and, Bool.decide_eq_true] at hlater
  refine ⟨later ++ lines.flatMap (ofLine names), ?_⟩
  rw [ofText, hlines, List.flatMap_cons, hline, hlater, List.append_assoc, List.append_assoc]

/-- The worklist of a text around the entry of a `$`: the entries of the lines above, which end in
front of a position, and those of the calls further right on the line. -/
structure EntryOf (names : List Text) (source : Text) (x s : Nat) (above right : List Text)
    (entry : Text) (later : List Text) : Prop where
  eq_append : ofText (withControls names) source = above ++ (right ++ entry :: later)
  lt_iff : ∀ i, i < s ↔ lineOf source i < lineOf source x
  count_above : ∀ name ∈ names, above.count name = occurrencesBefore name source s
  mem_names : entry ∈ names
  written : Text.startsFolded entry (source.drop x) = true
  right_written : ∀ name ∈ names, name ∈ right → ∃ z, x < z ∧ lineOf source z = lineOf source x ∧
    Text.startsFolded name (source.drop z) = true

/-- What a line lists stands on it. -/
theorem exists_of_mem_ofLine {line : Text} (hline : '\n' ∉ line) (h : name ∈ ofLine names line) :
    ∃ i, Text.startsFolded name (line.drop i) = true := by
  obtain ⟨lines, hlines⟩ := Text.exists_split_eq_cons '\n' line
  have hall : line.takeWhile (· ≠ '\n') = line := by
    rw [List.takeWhile_eq_self_iff]
    intro c hc
    rw [decide_eq_true_eq]
    rintro rfl
    exact hline hc
  have hlisted : name ∈ ofText names line := by
    rw [ofText, hlines, List.flatMap_cons, hall]
    exact List.mem_append_left _ h
  exact stands_of_mem_ofText hlisted

/-- What is listed in front of the entry of a `$` stands behind it on the line. -/
theorem exists_of_mem_ofLine_behind (hname : Lettered name) (before : Text) {rest : Text}
    (h : name ∈ ofLine names (rest.takeWhile (· ≠ '\n'))) :
    ∃ z, before.length < z ∧
      lineOf (before ++ '$' :: rest) z = lineOf (before ++ '$' :: rest) before.length ∧
      Text.startsFolded name ((before ++ '$' :: rest).drop z) = true := by
  obtain ⟨more, hmore⟩ : rest.takeWhile (· ≠ '\n') <+: rest := List.takeWhile_prefix _
  have hbreak : '\n' ∉ rest.takeWhile (· ≠ '\n') := fun hmem => by
    simpa using List.mem_takeWhile_imp hmem
  obtain ⟨i, hstarts⟩ := exists_of_mem_ofLine hbreak h
  generalize rest.takeWhile (· ≠ '\n') = ending at *
  subst hmore
  have hlt : i < ending.length := by
    obtain ⟨stem, rfl, -⟩ := hname
    exact (List.getElem?_eq_some_iff.1 (Text.getElem?_of_startsFolded rfl hstarts)).1
  have hget : ∀ j, (before ++ '$' :: (ending ++ more))[before.length + j]? =
      ('$' :: (ending ++ more))[j]? := by
    intro j
    rw [List.getElem?_append_right (Nat.le_add_right _ _), Nat.add_sub_cancel_left]
  refine ⟨before.length + (i + 1), by omega, ?_, ?_⟩
  · refine Text.lineOf_eq_of_forall (Nat.le_add_right _ _) fun j hle hj hbreak' => ?_
    obtain ⟨j, rfl⟩ := Nat.exists_eq_add_of_le hle
    rw [hget] at hbreak'
    cases j with
    | zero => cases hbreak'
    | succ j =>
      rw [List.getElem?_cons_succ, List.getElem?_append_left (by omega)] at hbreak'
      exact hbreak (List.mem_of_getElem? hbreak')
  · rw [← List.drop_drop, List.drop_left, List.drop_succ_cons, List.drop_append_of_le_length hlt.le]
    exact Search.startsBy_append more hstarts

end Worklist

open Worklist (ofText ofLine withControls EntryOf)

/-- The entry of a `$` behind the last line break in front of it. -/
theorem AllCalled.entryOf_of_line (hnames : Worklist.Callable names)
    (hcalled : AllCalled names source) (front : Text) (above : List Text) {left rest : Text}
    (hsource : source = front ++ (left ++ '$' :: rest)) (hleft : '\n' ∉ left)
    (habove : ofText (withControls names) source =
      above ++ ofText (withControls names) (left ++ '$' :: rest))
    (hcount : ∀ name ∈ names, above.count name = occurrencesBefore name source front.length)
    (hfront : ∀ i < front.length, lineOf source i < lineOf source front.length) :
    ∃ right entry later, EntryOf names source (front.length + left.length) front.length above right
      entry later := by
  have hdrop : source.drop (front.length + left.length) = '$' :: rest := by
    rw [hsource, ← List.append_assoc, ← List.length_append, List.drop_left]
  have hget : ∀ i, source[front.length + i]? = (left ++ '$' :: rest)[i]? := by
    intro i
    rw [hsource, List.getElem?_append_right (Nat.le_add_right _ _), Nat.add_sub_cancel_left]
  have hhere : source[front.length + left.length]? = some '$' := by
    rw [hget, List.getElem?_append_right le_rfl, Nat.sub_self]
    rfl
  have hline : lineOf source (front.length + left.length) = lineOf source front.length := by
    refine Text.lineOf_eq_of_forall (Nat.le_add_right _ _) fun i hle hlt hbreak => ?_
    obtain ⟨i, rfl⟩ := Nat.exists_eq_add_of_le hle
    rw [hget, List.getElem?_append_left (Nat.lt_of_add_lt_add_left hlt)] at hbreak
    exact hleft (List.mem_of_getElem? hbreak)
  have hbegins := hcalled _ hhere
  rw [hdrop] at hbegins
  obtain ⟨entry, hentry, hstands, hbehind⟩ := hbegins.nameBehind? hnames
  obtain ⟨later, hlater⟩ := Worklist.exists_ofText_eq (withControls names) hleft rest
  rw [hbehind, Option.toList_some, List.singleton_append] at hlater
  refine ⟨_, entry, later, by rw [habove, hlater], fun i => ?_, hcount, hentry, by rwa [hdrop],
    fun name hname hmem => ?_⟩
  · rw [hline]
    exact ⟨hfront i, fun hlt => Nat.lt_of_not_le fun hle => hlt.not_ge (Text.lineOf_mono _ hle)⟩
  · have hright :=
      Worklist.exists_of_mem_ofLine_behind (hnames.letters name hname) (front ++ left) hmem
    rwa [List.append_assoc, ← hsource, List.length_append] at hright

/-- The worklist of a text of calls around the entry of a call. -/
theorem AllCalled.exists_entryOf (hnames : Worklist.Callable names)
    (hcalled : AllCalled names source) (hx : source[x]? = some '$') :
    ∃ s above right entry later, EntryOf names source x s above right entry later := by
  obtain ⟨before, rest, rfl, rfl⟩ : ∃ before rest, source = before ++ '$' :: rest ∧
      before.length = x := by
    obtain ⟨hlt, hget⟩ := List.getElem?_eq_some_iff.1 hx
    refine ⟨source.take x, source.drop (x + 1), ?_, List.length_take_of_le hlt.le⟩
    rw [← hget, ← List.drop_eq_getElem_cons hlt, List.take_append_drop]
  by_cases hbreak : '\n' ∈ before
  · obtain ⟨above, left, rfl, hleft⟩ := exists_eq_append_cons_of_mem hbreak
    have hsource : above ++ '\n' :: left ++ '$' :: rest =
        above ++ '\n' :: (left ++ '$' :: rest) := by simp
    have hlength : (above ++ '\n' :: left).length = (above ++ ['\n']).length + left.length := by
      simp
      omega
    rw [hlength]
    rw [hsource] at hcalled ⊢
    have habove : AllCalled names above :=
      hcalled.left hnames.letters rfl (by decide) (by decide)
    have hline : (above ++ '\n' :: (left ++ '$' :: rest))[above.length]? = some '\n' := by
      rw [List.getElem?_append_right le_rfl, Nat.sub_self]
      rfl
    refine ⟨_, _, hcalled.entryOf_of_line hnames _ _ (List.append_cons above '\n' _) hleft
      (Worklist.ofText_break _ above _) (fun name hname => ?_) fun i hi => ?_⟩
    · rw [habove.count_ofText hnames hname, List.length_append]
      exact (Text.occurrencesBefore_break (hnames.letters name hname) above _).symm
    · rw [List.length_append, List.length_singleton] at hi ⊢
      exact Text.lineOf_lt_of_break (Nat.le_of_lt_succ hi) (Nat.lt_succ_self _) hline
  · have hline := hcalled.entryOf_of_line hnames [] [] rfl hbreak rfl
      (fun name _ => rfl) nofun
    rw [List.length_nil, Nat.zero_add] at hline
    exact ⟨_, _, hline⟩

namespace Worklist

theorem EntryOf.count_take_above {above right later : List Text}
    (h : EntryOf names source x s above right entry later) (hname : name ∈ names) :
    ((ofText (withControls names) source).take above.length).count name =
      occurrencesBefore name source s := by
  rw [h.eq_append, List.take_left, h.count_above name hname]

theorem EntryOf.count_take_entry {above right later : List Text}
    (h : EntryOf names source x s above right entry later) (name : Text) :
    ((ofText (withControls names) source).take (above.length + right.length + 1)).count name =
      above.count name + (right.count name + [entry].count name) := by
  have hsplit : ofText (withControls names) source = (above ++ (right ++ [entry])) ++ later := by
    rw [h.eq_append]
    simp
  have hlength : (above ++ (right ++ [entry])).length = above.length + right.length + 1 := by
    simp
    omega
  rw [hsplit, List.take_left' hlength, List.count_append, List.count_append]

theorem EntryOf.lt_of_count_lt {above right later : List Text}
    (h : EntryOf names source x s above right entry later) (name : Text)
    (hlt : ((ofText (withControls names) source).take n).count name <
      above.count name + (right.count name + [entry].count name)) :
    n < above.length + right.length + 1 := by
  rw [← h.count_take_entry] at hlt
  exact lt_of_count_take_lt hlt

/-! ### Entries and calls -/

/-- The entry at an index of the worklist is for the call at a position: its name is called there,
and as many entries of the name are in front of it as the name stands in front of the position. -/
def EntryFor (names : List Text) (source : Text) (n x : Nat) : Prop :=
  ∃ name ∈ names, (ofText (withControls names) source)[n]? = some name ∧
    Text.startsFolded name (source.drop x) = true ∧
    occurrencesBefore name source x = ((ofText (withControls names) source).take n).count name

/-- No other call on the line has the name of the call. -/
def Alone (names : List Text) (source : Text) (x : Nat) : Prop :=
  ∀ z, lineOf source z = lineOf source x → SameName names source x z → z = x

theorem EntryFor.getElem? (hnames : Callable names) (h : EntryFor names source n x) :
    source[x]? = some '$' := by
  obtain ⟨name, hname, -, hstarts, -⟩ := h
  obtain ⟨stem, rfl, -⟩ := hnames.letters name hname
  exact Text.getElem?_of_startsFolded rfl hstarts

/-- A call has one entry. -/
theorem EntryFor.unique (hnames : Callable names) (h : EntryFor names source n x)
    (h' : EntryFor names source m x) : n = m := by
  obtain ⟨name, hname, hn, hstarts, hcount⟩ := h
  obtain ⟨other, hother, hm, hstarts', hcount'⟩ := h'
  obtain rfl := hnames.prefixFree.unique hname hother hstarts hstarts'
  rcases Nat.lt_trichotomy n m with hlt | heq | hgt
  · have hmore := count_take_lt hn hlt
    omega
  · exact heq
  · have hmore := count_take_lt hm hgt
    omega

/-- When its entry has been passed, a call no longer is among those that have their entries to
come. -/
theorem EntryFor.count_take_succ_le_iff (hnames : Callable names) (h : EntryFor names source n x)
    (hname : name ∈ names) {z : Nat} (hz : Text.startsFolded name (source.drop z) = true) :
    ((ofText (withControls names) source).take (n + 1)).count name ≤
        occurrencesBefore name source z ↔
      ((ofText (withControls names) source).take n).count name ≤ occurrencesBefore name source z ∧
        z ≠ x := by
  obtain ⟨other, hother, hn, hstarts, hcount⟩ := h
  rw [List.take_add_one, hn, Option.toList_some, List.count_append]
  by_cases heq : name = other
  · subst heq
    rw [List.count_singleton_self, ← hcount]
    constructor
    · intro hlt
      refine ⟨by omega, ?_⟩
      rintro rfl
      omega
    · rintro ⟨hle, hne⟩
      exact Nat.lt_of_le_of_ne hle fun heq => hne (Nat.count_injective hz hstarts heq.symm)
  · have hnone : [other].count name = 0 := List.count_eq_zero.2 (by simp [heq])
    rw [hnone, Nat.add_zero]
    refine (and_iff_left ?_).symm
    rintro rfl
    exact heq (hnames.prefixFree.unique hname hother hz hstarts)

end Worklist

open Worklist (EntryFor Alone)

/-- Every call has an entry. -/
theorem AllCalled.exists_entryFor (hnames : Worklist.Callable names)
    (hcalled : AllCalled names source) (hx : source[x]? = some '$') :
    ∃ n, EntryFor names source n x := by
  obtain ⟨name, hname, stem, rest, heq, hsame⟩ := hcalled x hx
  have hstarts : Text.startsFolded name (source.drop x) = true := by
    rw [heq]
    exact startsFolded_call hsame _
  have hlt := Text.occurrencesBefore_lt hstarts (List.getElem?_eq_some_iff.1 hx).1
  rw [Text.occurrencesBefore_length, ← hcalled.count_ofText hnames hname] at hlt
  obtain ⟨n, hn, hcount⟩ := exists_count_take_eq hlt
  exact ⟨n, name, hname, hn, hstarts, hcount.symm⟩

/-- Every entry is for some call. -/
theorem AllCalled.exists_position (hnames : Worklist.Callable names)
    (hcalled : AllCalled names source) (hn : n < (ofText (withControls names) source).length) :
    ∃ x, EntryFor names source n x := by
  have hget := List.getElem?_eq_getElem hn
  have hname := hcalled.mem_names_of_mem_ofText hnames (List.getElem_mem hn)
  generalize (ofText (withControls names) source)[n] = name at hget hname
  have hlt := count_take_lt hget hn
  rw [List.take_length, hcalled.count_ofText hnames hname] at hlt
  obtain ⟨x, hstarts, hcount⟩ := Text.exists_occurrencesBefore_eq hlt
  exact ⟨x, name, hname, hget, hstarts, hcount⟩

namespace Worklist.EntryFor

/-- Calls of one name are listed from left to right. -/
theorem lt_of_sameName (hnames : Callable names) (h : EntryFor names source n x)
    (h' : EntryFor names source m y) (hlt : x < y) (hsame : SameName names source x y) : n < m := by
  obtain ⟨name, hname, hn, hstarts, hcount⟩ := h
  obtain ⟨other, hother, hm, hstarts', hcount'⟩ := h'
  obtain ⟨common, hcommon, hx, hy⟩ := hsame
  obtain rfl := hnames.prefixFree.unique hcommon hname hx hstarts
  obtain rfl := hnames.prefixFree.unique hcommon hother hy hstarts'
  have hbefore := Text.occurrencesBefore_lt hstarts hlt
  rw [hcount, hcount'] at hbefore
  exact lt_of_count_take_lt hbefore

/-- Calls on an earlier line are listed earlier. -/
theorem lt_of_lineOf_lt (hnames : Callable names) (hcalled : AllCalled names source)
    (h : EntryFor names source n x) (h' : EntryFor names source m y)
    (hline : lineOf source x < lineOf source y) : n < m := by
  obtain ⟨s, above, right, entry, later, hentry⟩ :=
    hcalled.exists_entryOf hnames (h'.getElem? hnames)
  obtain ⟨name, hname, -, hstarts, hcount⟩ := h
  obtain ⟨other, hother, hm, -, hcount'⟩ := h'
  have hxs : x < s := (hentry.lt_iff x).2 hline
  have hsy : s ≤ y := Nat.le_of_not_lt fun hlt => Nat.lt_irrefl _ ((hentry.lt_iff y).1 hlt)
  -- the first call is listed among those above, and the second one is not
  have hfirst : n < above.length := by
    have hmore := Text.occurrencesBefore_lt hstarts hxs
    rw [hcount, ← hentry.count_take_above hname] at hmore
    exact lt_of_count_take_lt hmore
  have hsecond : above.length ≤ m := by
    refine Nat.le_of_not_lt fun hlt => ?_
    have hmore := count_take_lt hm hlt
    rw [← hcount', hentry.count_take_above hother] at hmore
    exact hmore.not_ge (Text.occurrencesBefore_mono _ _ hsy)
  exact hfirst.trans_le hsecond

/-- On a line calls of names that are called only once there are listed from right to left. -/
theorem lt_of_alone (hnames : Callable names) (hcalled : AllCalled names source)
    (h : EntryFor names source n x) (h' : EntryFor names source m y) (hlt : x < y)
    (hline : lineOf source x = lineOf source y) (hx : Alone names source x)
    (hy : Alone names source y) : m < n := by
  obtain ⟨s, above, right, entry, later, hentry⟩ :=
    hcalled.exists_entryOf hnames (h'.getElem? hnames)
  obtain ⟨name, hname, hn, hstarts, hcount⟩ := h
  obtain ⟨other, hother, -, hstarts', hcount'⟩ := h'
  obtain rfl := hnames.prefixFree.unique hentry.mem_names hother hentry.written hstarts'
  have hsx : s ≤ x := Nat.le_of_not_lt fun hlt => ((hentry.lt_iff x).1 hlt).ne hline
  -- the name of the second call does not stand further left on the line
  have hsecond : m < above.length + right.length + 1 := by
    have hleft : occurrencesBefore entry source y ≤ occurrencesBefore entry source s := by
      refine Nat.le_of_not_lt fun hmore => ?_
      obtain ⟨i, ⟨hsi, hiy⟩, hi⟩ := Nat.exists_of_count_lt_count hmore
      have hsame : lineOf source i = lineOf source y := Nat.le_antisymm (Text.lineOf_mono _ hiy.le)
        (Nat.le_of_not_lt fun hlt => ((hentry.lt_iff i).2 hlt).not_ge hsi)
      exact hiy.ne (hy i hsame ⟨entry, hother, hstarts', hi⟩)
    refine hentry.lt_of_count_lt entry ?_
    rw [← hcount', List.count_singleton_self, hentry.count_above entry hother]
    omega
  -- that of the first one does not stand further right
  have hfirst : above.length + right.length + 1 ≤ n := by
    refine Nat.le_of_not_lt fun hless => ?_
    have hmore := count_take_lt hn hless
    have hright : right.count name = 0 := by
      refine List.count_eq_zero.2 fun hmem => ?_
      obtain ⟨z, hyz, hz, hat⟩ := hentry.right_written name hname hmem
      have heq := hx z (hz.trans hline.symm) ⟨name, hname, hstarts, hat⟩
      omega
    have hne : [entry].count name = 0 := by
      refine List.count_eq_zero.2 fun hmem => ?_
      obtain rfl := List.mem_singleton.1 hmem
      exact hlt.ne' (hx y hline.symm ⟨name, hname, hstarts, hstarts'⟩)
    rw [← hcount, hentry.count_take_entry, hright, hne, hentry.count_above name hname] at hmore
    exact hmore.not_ge (Text.occurrencesBefore_mono _ _ hsx)
  omega

end Worklist.EntryFor

end Stencil
