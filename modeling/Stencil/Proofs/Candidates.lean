import Mathlib.Data.List.Forall2
import Mathlib.Order.Bounds.Basic
import Stencil.Proofs.Exchange
import Stencil.Proofs.Longest
import Stencil.Proofs.Pairing
import Stencil.Proofs.Separator
import Stencil.Proofs.Slots
/-!
# The candidates of a text

A worklist is cut out of a text line by line and piece by piece. Told by positions, it lists every
`$` at which one of the names stands, with the longest of them (`Longest`), from the first line to
the last and in each line from right to left (`ReadBefore`).

That a piece ends at the next `$` or at the end of its line makes no difference for names that
contain neither (`startsFolded_segmentAt`), and that pieces of blanks are passed over makes none for
names with more than blanks behind their `$` (`nameBehind?_segmentAt`). The pieces are searched for
the leftmost and longest name, and a search that finds it gives the worklist
(`scan_eq_ofText`).
-/

namespace Stencil

/-! ### The dollars of a text in the order of reading -/

namespace Text

theorem drop_below (above below : Text) (i : Nat) :
    (above ++ '\n' :: below).drop (above.length + 1 + i) = below.drop i := by
  have hlength : (above ++ ['\n']).length = above.length + 1 := List.length_append
  rw [← List.drop_drop, List.append_cons, ← hlength, List.drop_left]

/-- A position behind the break is one of the part below it. -/
theorem getElem?_below (above below : Text) (i : Nat) :
    (above ++ '\n' :: below)[above.length + 1 + i]? = below[i]? := by
  have hdrop : ((above ++ '\n' :: below).drop (above.length + 1))[i]? =
      (above ++ '\n' :: below)[above.length + 1 + i]? := List.getElem?_drop
  rw [← hdrop, ← Nat.add_zero (above.length + 1), drop_below, List.drop_zero]

/-- Between the two parts stands the break. -/
theorem getElem?_break (above below : Text) :
    (above ++ '\n' :: below)[above.length]? = some '\n' := by
  rw [List.getElem?_append_right le_rfl, Nat.sub_self]
  rfl

/-- In the part above, lines are counted as if there were nothing below. -/
theorem lineOf_above {above : Text} {x : Nat} (h : x ≤ above.length) (below : Text) :
    lineOf (above ++ '\n' :: below) x = lineOf above x := by
  rw [lineOf, lineOf, Nat.count, Nat.count]
  -- up to the position both texts have the same breaks
  refine List.countP_congr fun i hi => ?_
  rw [List.getElem?_append_left (lt_of_lt_of_le (List.mem_range.1 hi) h)]

/-- Below a line break lines are counted on. -/
theorem lineOf_below (above below : Text) (x : Nat) :
    lineOf (above ++ '\n' :: below) (above.length + 1 + x) =
      lineOf above above.length + 1 + lineOf below x := by
  have hfront := lineOf_above (le_refl above.length) below
  rw [lineOf] at hfront
  rw [lineOf, Nat.count_add, Nat.count_succ, hfront, if_pos (getElem?_break above below), lineOf,
    lineOf]
  congr 2
  funext i
  rw [getElem?_below]

end Text

namespace Worklist

variable {names : List Text} {t name other segment : Text} {i j : Nat}

/-- What stands on an earlier line is read before, and so is what stands on the right of the same
line. -/
def ReadBefore (t : Text) (i j : Nat) : Prop :=
  Text.lineOf t i < Text.lineOf t j ∨ Text.lineOf t i = Text.lineOf t j ∧ j < i

/-- The positions of the `$` of a text, from left to right. -/
def dollars (t : Text) : List Nat := (List.range t.length).filter fun i => t[i]? = some '$'

/-- The positions of `$` are the ones at which it stands. -/
theorem mem_dollars : i ∈ dollars t ↔ t[i]? = some '$' := by
  rw [dollars, List.mem_filter, List.mem_range, decide_eq_true_iff, and_iff_right_iff_imp]
  exact fun h => (List.getElem?_eq_some_iff.1 h).1

/-- A character in front moves all positions by one, and adds its own if it is a `$`. -/
theorem dollars_cons (c : Char) (t : Text) :
    dollars (c :: t) = (if c = '$' then [0] else []) ++ (dollars t).map (· + 1) := by
  rw [dollars, List.length_cons, List.range_succ_eq_map, List.filter_cons, List.filter_map, dollars]
  simp only [List.getElem?_cons_zero, Option.some_inj, decide_eq_true_eq]
  split <;> rfl

/-- The pieces behind the `$` of a text are the segments at its positions. -/
theorem behind_eq_map (t : Text) : behind t = (dollars t).map (segmentAt t) := by
  induction t with
  | nil => rfl
  | cons c t ih =>
    have hlater : ((dollars t).map (· + 1)).map (segmentAt (c :: t)) = behind t := by
      rw [ih, List.map_map]
      rfl
    rw [behind, dollars_cons, List.map_append, hlater]
    split <;> rfl

/-- A line is scanned from its last `$` to its first. -/
theorem ofText_of_line (h : '\n' ∉ t) (names : List Text) :
    ofText names t = (dollars t).reverse.filterMap fun i => nameBehind? names (segmentAt t i) := by
  have hsplit : Text.split ['\n'] t = [t] :=
    Text.split_eq_singleton fun hbreak => h (hbreak.subset List.mem_cons_self)
  have hpieces := flatMap_split t
  rw [hsplit, List.flatMap_singleton, behind_eq_map] at hpieces
  rw [ofText, hsplit, List.flatMap_singleton, ofLine, hpieces, ← List.map_reverse,
    List.filterMap_map]
  rfl

/-- A segment ends at the break at the latest, so it is the same without what is below. -/
theorem segmentAt_above {above : Text} (h : i < above.length) (below : Text) :
    segmentAt (above ++ '\n' :: below) i = segmentAt above i := by
  -- the break ends the segment
  have hends : ∀ u : Text, (u ++ '\n' :: below).takeWhile (fun c => c ≠ '$' && c ≠ '\n') =
      u.takeWhile fun c => c ≠ '$' && c ≠ '\n' := by
    intro u
    induction u with
    | nil => rfl
    | cons c u ih => rw [List.cons_append, List.takeWhile_cons, List.takeWhile_cons, ih]
  rw [segmentAt, segmentAt, List.drop_append_of_le_length h, hends]

/-- A segment below the break is one of the part below it. -/
theorem segmentAt_below (above below : Text) (i : Nat) :
    segmentAt (above ++ '\n' :: below) (above.length + 1 + i) = segmentAt below i := by
  rw [segmentAt, segmentAt, Nat.add_assoc _ i, Text.drop_below]

/-- The positions of a text with a line break are those above it, the break, and those below it. -/
theorem dollar_break_iff {above below : Text} :
    (above ++ '\n' :: below)[i]? = some '$' ↔
      above[i]? = some '$' ∨ ∃ j, below[j]? = some '$' ∧ above.length + 1 + j = i := by
  -- the position is above the break, at it, or below it
  rcases Nat.lt_trichotomy i above.length with hlt | rfl | hgt
  · rw [List.getElem?_append_left hlt]
    refine ⟨.inl, fun h => h.resolve_right ?_⟩
    rintro ⟨j, -, rfl⟩
    omega
  · rw [Text.getElem?_break, List.getElem?_eq_none le_rfl]
    constructor
    · intro h
      cases h
    · rintro (h | ⟨j, -, hj⟩)
      · cases h
      · omega
  · obtain ⟨j, rfl⟩ := Nat.exists_eq_add_of_le (show above.length + 1 ≤ i from hgt)
    have hnone : above[above.length + 1 + j]? = none := List.getElem?_eq_none hgt.le
    rw [Text.getElem?_below, hnone]
    simp

/-- The `$` of a text line by line and each line from right to left; read in this order they give the
worklist. -/
structure Reading (t : Text) (places : List Nat) : Prop where
  ordered : places.Pairwise (ReadBefore t)
  mem_iff : ∀ i, i ∈ places ↔ t[i]? = some '$'
  ofText_eq : ∀ names, ofText names t = places.filterMap fun i => nameBehind? names (segmentAt t i)

/-- One line is read from right to left, and its segments are looked up in that order. -/
theorem reading_of_line (h : '\n' ∉ t) : Reading t (dollars t).reverse where
  ordered := by
    -- all positions are on one line
    have hline : ∀ i, Text.lineOf t i = Text.lineOf t 0 := fun i =>
      Text.lineOf_eq_of_forall (Nat.zero_le i) fun _ _ _ hget => h (List.mem_of_getElem? hget)
    rw [List.pairwise_reverse]
    refine (List.Pairwise.filter _ List.pairwise_lt_range).imp fun hlt => ?_
    exact .inr ⟨(hline _).trans (hline _).symm, hlt⟩
  mem_iff i := by rw [List.mem_reverse, mem_dollars]
  ofText_eq := ofText_of_line h

/-- What stands above a line break is read before what stands below it. -/
theorem Reading.append_break {above below : Text} {upper lower : List Nat} (hupper : Reading above upper)
    (hlower : Reading below lower) :
    Reading (above ++ '\n' :: below) (upper ++ lower.map (above.length + 1 + ·)) where
  ordered := by
    have hlt : ∀ i ∈ upper, i < above.length :=
      fun i hi => (List.getElem?_eq_some_iff.1 ((hupper.mem_iff i).1 hi)).1
    rw [List.pairwise_append, List.pairwise_map]
    -- two positions are both above, both below, or one above and one below
    refine ⟨hupper.ordered.imp_of_mem fun hi hj h => ?_, hlower.ordered.imp fun h => ?_,
      fun i hi j hj => ?_⟩
    · rwa [ReadBefore, Text.lineOf_above (hlt _ hi).le, Text.lineOf_above (hlt _ hj).le]
    · rw [ReadBefore, Text.lineOf_below, Text.lineOf_below]
      rw [ReadBefore] at h
      omega
    -- the part below is on later lines
    · obtain ⟨k, -, rfl⟩ := List.mem_map.1 hj
      apply Or.inl
      rw [Text.lineOf_above (hlt i hi).le, Text.lineOf_below]
      have hmono := Text.lineOf_mono above (hlt i hi).le
      omega
  mem_iff i := by
    rw [List.mem_append, List.mem_map, hupper.mem_iff, dollar_break_iff]
    simp only [hlower.mem_iff]
  ofText_eq names := by
    rw [ofText_break, hupper.ofText_eq, hlower.ofText_eq, List.filterMap_append,
      List.filterMap_map]
    congr 1
    · refine List.filterMap_congr fun i hi => ?_
      rw [segmentAt_above (List.getElem?_eq_some_iff.1 ((hupper.mem_iff i).1 hi)).1]
    · refine List.filterMap_congr fun i _ => ?_
      rw [Function.comp_apply, segmentAt_below]

/-- By induction on the length, from the first line to the text below it. -/
theorem exists_reading (t : Text) : ∃ places, Reading t places := by
  generalize hn : t.length = n
  induction n using Nat.strong_induction_on generalizing t with
  | _ n ih =>
    subst hn
    by_cases hbreak : '\n' ∈ t
    · obtain ⟨above, below, rfl, -⟩ := List.eq_append_cons_of_mem hbreak
      obtain ⟨upper, hupper⟩ := ih above.length (by simp) above rfl
      obtain ⟨lower, hlower⟩ := ih below.length (by simp; omega) below rfl
      exact ⟨_, hupper.append_break hlower⟩
    · exact ⟨_, reading_of_line hbreak⟩

/-! ### The longest name -/

/-- Among the names with which the text begins this one is the longest, and the first of those that
are as long. -/
def Longest (names : List Text) (t name : Text) : Prop :=
  ∃ before behind, names = before ++ name :: behind ∧ Text.startsFolded name t = true ∧
    (∀ other ∈ before, Text.startsFolded other t = true → other.length < name.length) ∧
    (∀ other ∈ behind, Text.startsFolded other t = true → other.length ≤ name.length)

/-- The longest name is one of the names. -/
theorem Longest.mem (h : Longest names t name) : name ∈ names := by
  obtain ⟨before, behind, rfl, -⟩ := h
  exact List.mem_append_right _ List.mem_cons_self

/-- The longest name stands there. -/
theorem Longest.stands (h : Longest names t name) : Text.startsFolded name t = true := by
  obtain ⟨before, behind, -, hstands, -⟩ := h
  exact hstands

/-- No name that stands there is longer. -/
theorem Longest.length_le (h : Longest names t name) (hother : other ∈ names)
    (hstands : Text.startsFolded other t = true) : other.length ≤ name.length := by
  obtain ⟨before, behind, rfl, -, hbefore, hbehind⟩ := h
  rcases List.mem_append.1 hother with hother | hother
  · exact (hbefore other hother hstands).le
  · rcases List.mem_cons.1 hother with rfl | hother
    · exact le_rfl
    · exact hbehind other hother hstands

/-- There is one longest name, since of equally long ones the first is meant. -/
theorem Longest.unique (h : Longest names t name) (h' : Longest names t other) : name = other := by
  have hlength : name.length = other.length :=
    Nat.le_antisymm (h'.length_le h.mem h.stands) (h.length_le h'.mem h'.stands)
  have hstands := h.stands
  have hstands' := h'.stands
  obtain ⟨before, behind, heq, -, hbefore, -⟩ := h
  obtain ⟨before', behind', heq', -, hbefore', -⟩ := h'
  -- neither of the two stands in front of the other one
  rcases List.append_eq_append_iff.1 (heq.symm.trans heq') with ⟨mid, rfl, hmid⟩ | ⟨mid, rfl, hmid⟩
  · cases mid with
    | nil => exact (List.cons.inj hmid).1
    | cons x mid =>
      obtain ⟨rfl, -⟩ := List.cons.inj hmid
      exact absurd hlength (hbefore' name (by simp) hstands).ne
  · cases mid with
    | nil => exact (List.cons.inj hmid).1.symm
    | cons x mid =>
      obtain ⟨rfl, -⟩ := List.cons.inj hmid
      exact absurd hlength (hbefore other (by simp) hstands').ne'

/-- The last name is held against the longest of those before it. -/
theorem longestName?_concat (names : List Text) (t name : Text) :
    longestName? (names ++ [name]) t = longerName? t (longestName? names t) name := by
  rw [longestName?, List.foldl_append]
  rfl

/-- By induction on the names from the last one on: it is the longest if it is longer than the
longest one in front of it. -/
theorem longest_of_longestName? (h : longestName? names t = some name) : Longest names t name := by
  induction names using List.reverseRecOn generalizing name with
  | nil => cases h
  | append_singleton names last ih =>
    rw [longestName?_concat, longerName?] at h
    split at h
    -- the last name is longer than all before it
    · next hlonger =>
      rw [Bool.and_eq_true] at hlonger
      obtain rfl := Option.some.inj h
      refine ⟨names, [], rfl, hlonger.1, fun other hother hstands => ?_,
        fun other hother => absurd hother List.not_mem_nil⟩
      obtain ⟨best, hbest⟩ := Option.isSome_iff_exists.1 (isSome_longestName? hother hstands)
      have hlt : best.length < last.length := by simpa [hbest] using hlonger.2
      exact (length_le_of_longestName? hbest hother hstands).trans_lt hlt
    -- the last name does not stand there, or it is not longer
    · next hshorter =>
      obtain ⟨before, behind, rfl, hstands, hbefore, hbehind⟩ := ih h
      refine ⟨before, behind ++ [last], by simp, hstands, hbefore, fun other hother hother' => ?_⟩
      rcases List.mem_append.1 hother with hother | hother
      · exact hbehind other hother hother'
      · obtain rfl := List.mem_singleton.1 hother
        simpa [h, hother'] using hshorter

/-- The longest name that a search gives is the one that is meant. -/
theorem longestName?_eq_some_iff : longestName? names t = some name ↔ Longest names t name := by
  refine ⟨longest_of_longestName?, fun h => ?_⟩
  obtain ⟨best, hbest⟩ := Option.isSome_iff_exists.1 (isSome_longestName? h.mem h.stands)
  rw [hbest, (longest_of_longestName? hbest).unique h]

/-- A name that is listed already, in either case of its letters, makes no difference. -/
theorem longerName?_of_sameFolded (hname : name ∈ names)
    (hsame : Text.sameFolded other name = true) :
    longerName? t (longestName? names t) other = longestName? names t := by
  rw [longerName?, if_neg]
  rintro hlonger
  rw [Bool.and_eq_true] at hlonger
  rw [Text.sameFolded_iff] at hsame
  have hlength : other.length = name.length := by
    simpa [Text.lowerAscii] using congrArg List.length hsame
  have hstands : Text.startsFolded name t = true := by
    rw [Text.startsFolded_iff, ← hlength, ← hsame]
    exact Text.startsFolded_iff.1 hlonger.1
  obtain ⟨best, hbest⟩ := Option.isSome_iff_exists.1 (isSome_longestName? hname hstands)
  have hle := length_le_of_longestName? hbest hname hstands
  have hlt : best.length < other.length := by simpa [hbest] using hlonger.2
  omega

/-- The control names that are listed already need not be listed again. -/
theorem longestName?_withControls (names : List Text) (t : Text) :
    longestName? (withControls names) t = longestName? (names ++ controlNames) t := by
  have hfilter : ∀ controls : List Text,
      longestName? (names ++ controls.filter fun c => !names.any (Text.sameFolded c)) t =
        longestName? (names ++ controls) t := by
    intro controls
    -- a control name that is listed already is never longer than its namesake
    induction controls using List.reverseRecOn with
    | nil => rfl
    | append_singleton controls control ih =>
      rw [List.filter_append, List.filter_singleton, ← List.append_assoc, ← List.append_assoc,
        longestName?_concat]
      cases hlisted : names.any (Text.sameFolded control) with
      | false => rw [Bool.not_false, cond_true, longestName?_concat, ih]
      | true =>
        obtain ⟨name, hname, hsame⟩ := List.any_eq_true.1 hlisted
        rw [Bool.not_true, cond_false, List.append_nil, ih,
          longerName?_of_sameFolded (List.mem_append_left _ hname) hsame]
  exact hfilter controlNames

/-! ### Names and segments -/

/-- A `$` with something behind it, which is on one line and has no other `$`. -/
structure Scannable (name : Text) : Prop where
  head : name.head? = some '$'
  not_blank : Text.isBlankText name.tail = false
  one_line : ∀ c ∈ name.tail, c ≠ '$' ∧ c ≠ '\n'

/-- A name that can be scanned for is `$` and a stem on one line. -/
theorem Scannable.exists_eq_cons (h : Scannable name) : ∃ stem, name = '$' :: stem ∧
    Text.isBlankText stem = false ∧ ∀ c ∈ stem, c ≠ '$' ∧ c ≠ '\n' := by
  obtain ⟨stem, rfl⟩ := List.head?_eq_some_iff.1 h.head
  exact ⟨stem, rfl, h.not_blank, h.one_line⟩

theorem Scannable.ne_nil (h : Scannable name) : name ≠ [] := by
  obtain ⟨stem, rfl, -⟩ := h.exists_eq_cons
  exact List.cons_ne_nil _ _

/-- The control names can be scanned for. -/
theorem scannable_of_mem_controlNames (h : name ∈ controlNames) : Scannable name := by
  simp only [controlNames, List.mem_cons, List.not_mem_nil, or_false] at h
  rcases h with rfl | rfl <;> exact ⟨rfl, by decide, by simp⟩

/-- So can registered names together with them. -/
theorem scannable_of_mem (hnames : ∀ name ∈ names, Scannable name)
    (h : name ∈ names ++ controlNames) : Scannable name :=
  (List.mem_append.1 h).elim (hnames name) scannable_of_mem_controlNames

/-- Control names are added where they are not registered. -/
theorem withControls_subset (names : List Text) : withControls names ⊆ names ++ controlNames := by
  intro name hname
  rcases List.mem_append.1 hname with hname | hname
  · exact List.mem_append_left _ hname
  · exact List.mem_append_right _ (List.mem_filter.1 hname).1

/-- Without a `$` and a line break a name does not reach beyond the segment. -/
theorem startsFolded_takeWhile {stem : Text} (h : ∀ c ∈ stem, c ≠ '$' ∧ c ≠ '\n') (u : Text) :
    Text.startsFolded stem (u.takeWhile fun c => c ≠ '$' && c ≠ '\n') =
      Text.startsFolded stem u := by
  induction stem generalizing u with
  | nil => rfl
  | cons c stem ih =>
    cases u with
    | nil => rfl
    | cons d u =>
      have hmore := ih (fun c hc => h c (List.mem_cons_of_mem _ hc)) u
      rw [List.takeWhile_cons]
      split
      · exact congrArg (sameLetter c d && ·) hmore
      -- the segment ends here, and so does what the stem could stand for
      · next hends =>
        have hother : sameLetter c d = false := by
          obtain ⟨hdollar, hbreak⟩ := h c List.mem_cons_self
          rw [Bool.eq_false_iff]
          intro hlike
          refine hends ?_
          rw [Bool.and_eq_true, decide_eq_true_eq, decide_eq_true_eq]
          constructor <;> rintro rfl
          · exact hdollar (eq_of_toLower_eq (by decide) (beq_iff_eq.1 hlike))
          · exact hbreak (eq_of_toLower_eq (by decide) (beq_iff_eq.1 hlike))
        show false = (sameLetter c d && _)
        rw [hother, Bool.false_and]

/-- What stands among blanks is blank. -/
theorem isBlankText_of_startsFolded {stem u : Text} (h : Text.startsFolded stem u = true)
    (hblank : Text.isBlankText u = true) : Text.isBlankText stem = true := by
  induction stem generalizing u with
  | nil => rfl
  | cons c stem ih =>
    cases u with
    | nil => cases h
    | cons d u =>
      rw [Text.startsFolded, Search.startsBy, Bool.and_eq_true] at h
      rw [Text.isBlankText, List.all_cons, Bool.and_eq_true] at hblank ⊢
      exact ⟨isBlank_of_toLower_eq (beq_iff_eq.1 h.1) hblank.1, ih h.2 hblank.2⟩

/-- A name stands at a `$` where it stands in front of its segment. -/
theorem Scannable.startsFolded_segmentAt (h : Scannable name) (hi : t[i]? = some '$') :
    Text.startsFolded name ('$' :: segmentAt t i) = Text.startsFolded name (t.drop i) := by
  obtain ⟨stem, rfl, -, hline⟩ := h.exists_eq_cons
  rw [drop_eq_cons hi, segmentAt]
  exact congrArg (sameLetter '$' '$' && ·) (startsFolded_takeWhile hline (t.drop (i + 1)))

/-- The entry of a `$` is the longest of the names that stand there. -/
theorem nameBehind?_segmentAt (hnames : ∀ name ∈ names, Scannable name) (hi : t[i]? = some '$') :
    nameBehind? (withControls names) (segmentAt t i) =
      longestName? (names ++ controlNames) (t.drop i) := by
  have hall : ∀ name ∈ withControls names, Scannable name :=
    fun name hname => scannable_of_mem hnames (withControls_subset names hname)
  rw [nameBehind?_of_ne_nil fun name hname => (hall name hname).ne_nil,
    ← longestName?_withControls,
    ← longestName?_congr fun name hname => (hall name hname).startsFolded_segmentAt hi]
  split
  -- a blank segment begins no name, because a stem is not blank
  · next hblank =>
    refine (Option.eq_none_iff_forall_ne_some.2 fun name hname => ?_).symm
    obtain ⟨stem, rfl, hstem, -⟩ := (hall name (longestName?_mem hname)).exists_eq_cons
    have hstands := startsFolded_of_longestName? hname
    rw [Text.startsFolded, Search.startsBy, Bool.and_eq_true] at hstands
    rw [isBlankText_of_startsFolded hstands.2 hblank] at hstem
    cases hstem
  · rfl

/-! ### Searching the pieces -/

/-- The search finds the leftmost position at which one of the names stands, and the longest of those
that do. -/
def FindsLongest (names : List Text) (find : Text → Option (Nat × Text)) : Prop :=
  ∀ t i name, find t = some (i, name) ↔
    IsLeast {i | ∃ other ∈ names, Text.startsFolded other (t.drop i) = true} i ∧
      Longest names (t.drop i) name

/-- The name with which a piece goes on from its `$`, if the search finds it there. -/
def anchored? (find : Text → Option (Nat × Text)) (piece : Text) : Option Text :=
  if Text.isBlankText piece then none
  else ((find ('$' :: piece)).filter fun found => found.1 == 0).map Prod.snd

/-- The names that a search finds in the pieces of a text behind its `$`, line by line, and in the
reverse order in each line. -/
def scan (find : Text → Option (Nat × Text)) (t : Text) : List Text :=
  (Text.split ['\n'] t).flatMap fun line =>
    (((Text.split ['$'] line).drop 1).filterMap (anchored? find)).reverse

variable {find : Text → Option (Nat × Text)}

/-- A piece gives the name that a search finds right at its `$`. -/
theorem anchored?_eq (h : FindsLongest names find) (hne : ∀ name ∈ names, name ≠ [])
    (piece : Text) : anchored? find piece = nameBehind? names piece := by
  rw [anchored?, nameBehind?_of_ne_nil hne]
  split
  · rfl
  · refine Option.ext fun name => ?_
    rw [longestName?_eq_some_iff, Option.map_eq_some_iff]
    constructor
    -- a find at the first position is one of a longest name there
    · rintro ⟨⟨i, other⟩, hfound, rfl⟩
      obtain ⟨hfind, hzero⟩ := Option.filter_eq_some_iff.1 hfound
      obtain rfl : i = 0 := beq_iff_eq.1 hzero
      exact ((h _ _ _).1 hfind).2
    · intro hlongest
      -- a name at the first position is found first
      have hleast : IsLeast {i | ∃ other ∈ names,
          Text.startsFolded other (('$' :: piece).drop i) = true} 0 :=
        ⟨⟨name, hlongest.mem, hlongest.stands⟩, fun i _ => Nat.zero_le i⟩
      exact ⟨(0, name), Option.filter_eq_some_iff.2 ⟨(h _ _ _).2 ⟨hleast, hlongest⟩, rfl⟩, rfl⟩

/-- Whatever search is used, the worklist is what it finds. -/
theorem scan_eq_ofText (h : FindsLongest names find) (hne : ∀ name ∈ names, name ≠ [])
    (t : Text) : scan find t = ofText names t := by
  rw [scan, ofText]
  refine List.flatMap_congr fun line _ => ?_
  rw [ofLine, ← List.filterMap_reverse]
  exact List.filterMap_congr fun piece _ => anchored?_eq h hne piece

/-- A search that goes from position to position. -/
def firstLongest? (names : List Text) (t : Text) : Option (Nat × Text) :=
  (Search.first? (fun rest => (longestName? names rest).isSome) t).bind fun i =>
    (longestName? names (t.drop i)).map (i, ·)

/-- Searching for the first position at which a name stands, and for the longest name there, is a
way of finding. -/
theorem findsLongest_firstLongest? (names : List Text) :
    FindsLongest names (firstLongest? names) := by
  intro t i name
  -- a name is found at a position where one stands
  have hsome : ∀ j, (longestName? names (t.drop j)).isSome = true ↔
      ∃ other ∈ names, Text.startsFolded other (t.drop j) = true := by
    intro j
    constructor
    · intro h
      obtain ⟨best, hbest⟩ := Option.isSome_iff_exists.1 h
      exact ⟨best, longestName?_mem hbest, startsFolded_of_longestName? hbest⟩
    · rintro ⟨other, hother, hstands⟩
      exact isSome_longestName? hother hstands
  rw [firstLongest?, Option.bind_eq_some_iff]
  simp only [Option.map_eq_some_iff, Prod.mk.injEq, Search.first?_eq_some_iff]
  constructor
  · rintro ⟨i, ⟨-, hstands, hfirst⟩, name, hname, rfl, rfl⟩
    refine ⟨⟨(hsome i).1 hstands, fun j hj => Nat.le_of_not_lt fun hlt => ?_⟩,
      longest_of_longestName? hname⟩
    have hnone := hfirst j hlt
    rw [(hsome j).2 hj] at hnone
    cases hnone
  · rintro ⟨⟨hstands, hleast⟩, hlongest⟩
    have hstands : ∃ other ∈ names, Text.startsFolded other (t.drop i) = true := hstands
    refine ⟨i, ⟨?_, (hsome i).2 hstands, fun j hj => ?_⟩, name,
      longestName?_eq_some_iff.2 hlongest, rfl, rfl⟩
    -- behind the text nothing begins that does not begin at its end
    · by_contra hlt
      have hend : t.drop i = t.drop t.length := by
        rw [List.drop_length, List.drop_eq_nil_of_le (Nat.le_of_not_le hlt)]
      rw [hend] at hstands
      exact hlt (hleast hstands)
    · rw [Bool.eq_false_iff]
      exact fun h => absurd (hleast ((hsome j).1 h)) (Nat.not_le_of_lt hj)

/-! ### The worklist by positions -/

/-- What a partial function is defined on goes along with its values. -/
theorem forall₂_filterMap {α β : Type} (g : α → Option β) (l : List α) :
    List.Forall₂ (fun a b => g a = some b) (l.filter fun a => (g a).isSome) (l.filterMap g) := by
  induction l with
  | nil => exact .nil
  | cons a l ih =>
    cases h : g a with
    | none => simpa [h] using ih
    | some b => simpa [h] using ih

/-- What is listed for a registry and is no control name is the name of a function of it. -/
theorem exists_function_of_mem {r : Registry} (hname : name ∈ ofText (withControls r.names) t)
    (hcontrol : isControl name = false) : ∃ f, r.get? name = some f ∧ f.name.text = name := by
  rcases List.mem_append.1 (withControls_subset _ (mem_of_mem_ofText hname)) with hmem | hmem
  · obtain ⟨f, hf, rfl⟩ := List.mem_map.1 hmem
    exact ⟨f, Registry.get?_text hf, rfl⟩
  · have hself : isControl name = true :=
      List.any_eq_true.2 ⟨name, hmem, Text.sameFolded_iff.2 rfl⟩
    rw [hcontrol] at hself
    cases hself

/-- No name on a worklist is empty. -/
theorem ne_nil_of_mem_withControls {r : Registry} (h : name ∈ withControls r.names) :
    name ≠ [] := by
  rcases List.mem_append.1 (withControls_subset _ h) with hmem | hmem
  · obtain ⟨f, -, rfl⟩ := List.mem_map.1 hmem
    exact List.cons_ne_nil _ _
  · exact (scannable_of_mem_controlNames hmem).ne_nil

/-- A worklist has one entry for every `$` at which a name or a control name stands, and no others:
the longest name that stands there, the lines from the first to the last and each line from right to
left. The search that is used has only to find the leftmost and longest name. An entry for a registry
that is no control name is found there, under the name that it was registered with. -/
theorem candidates_are_listed (hnames : ∀ name ∈ names, Scannable name)
    (hfind : FindsLongest (withControls names) find) (t : Text) :
    scan find t = ofText (withControls names) t ∧
    (∃ places : List Nat, places.Pairwise (ReadBefore t) ∧
      (∀ i, i ∈ places ↔ t[i]? = some '$' ∧
        ∃ name ∈ names ++ controlNames, Text.startsFolded name (t.drop i) = true) ∧
      List.Forall₂ (fun i name => Longest (names ++ controlNames) (t.drop i) name) places
        (scan find t)) ∧
    ∀ (r : Registry) find, FindsLongest (withControls r.names) find → ∀ t, ∀ name ∈ scan find t,
      isControl name = false → ∃ f, r.get? name = some f ∧ f.name.text = name := by
  have hscan := scan_eq_ofText hfind
    (fun name hname => (scannable_of_mem hnames (withControls_subset names hname)).ne_nil) t
  refine ⟨hscan, ?_, fun r find hfind t name hname hcontrol => ?_⟩
  -- the places are those `$` of the reading at which a name stands
  · obtain ⟨dollars, hreading⟩ := exists_reading t
    have hentry : ∀ i ∈ dollars, nameBehind? (withControls names) (segmentAt t i) =
        longestName? (names ++ controlNames) (t.drop i) :=
      fun i hi => nameBehind?_segmentAt hnames ((hreading.mem_iff i).1 hi)
    rw [hscan, hreading.ofText_eq, List.filterMap_congr hentry]
    refine ⟨_, hreading.ordered.filter _, fun i => ?_,
      (forall₂_filterMap (fun i => longestName? (names ++ controlNames) (t.drop i)) dollars).imp
        fun i name => longest_of_longestName?⟩
    rw [List.mem_filter, hreading.mem_iff]
    refine and_congr_right fun hi => ⟨fun hsome => ?_, ?_⟩
    · obtain ⟨name, hname⟩ := Option.isSome_iff_exists.1 hsome
      exact ⟨name, longestName?_mem hname, startsFolded_of_longestName? hname⟩
    · rintro ⟨name, hname, hstands⟩
      exact isSome_longestName? hname hstands
  · rw [scan_eq_ofText hfind fun _ => ne_nil_of_mem_withControls] at hname
    exact exists_function_of_mem hname hcontrol

/-- A short name, and one that goes on from it. -/
def userNames : List Text := [['$', 'u', 's', 'e', 'r'], ['$', 'u', 's', 'e', 'r', 'T', 'a', 'g']]

theorem user_names_are_listed :
    let t := "x$user\n$USERTAG[$if $$us $User]".toList
    ∃ places : List Nat, places.Pairwise (ReadBefore t) ∧
      List.Forall₂ (fun i name => Longest (userNames ++ controlNames) (t.drop i) name) places
        ["$user".toList, "$user".toList, "$if".toList, "$userTag".toList] := by
  intro t
  have hnames : ∀ name ∈ userNames, Scannable name := by
    intro name hname
    simp only [userNames, List.mem_cons, List.not_mem_nil, or_false] at hname
    rcases hname with rfl | rfl <;> exact ⟨rfl, by decide, by simp⟩
  obtain ⟨hscan, ⟨places, hordered, -, hlongest⟩, -⟩ :=
    candidates_are_listed hnames (findsLongest_firstLongest? _) t
  have hlist : ofText (withControls userNames) t =
      ["$user".toList, "$user".toList, "$if".toList, "$userTag".toList] := by decide +kernel
  rw [hscan, hlist] at hlongest
  exact ⟨places, hordered, hlongest⟩

end Worklist

end Stencil
