import Stencil.Proofs.Block
import Stencil.Proofs.Closed
/-!
# One plain text in place of another

An `Exchange` is a text with a plain stretch in it, one without markers, and another plain text that
takes its place. A position outside of the stretch moves with what stands there (`move`). Where no
word that begins in front of the stretch reaches into it, with either text (`Steady`), keywords and
brackets are found where they have moved to (`findAll_changed`, `closing?_move`). A character that is
a letter of no keyword and of no name ends every word, so that a text that begins with one can stand
anywhere (`steady_of_endsWords`).
-/

namespace Stencil

open Keyword (foldLetter)

/-- What is read as one where a `$` stands, from there up to a position: a keyword, `$elseif` without
its bracket, or a name to look for. Behind a name it is asked whether anything but blanks follows, so
a name of blanks goes on with the blanks behind it and one character more. -/
inductive WordAt (names : List Text) (t : Text) (i : Nat) : Nat → Prop
  | keyword {k : Keyword} (stands : k.StandsAt t i) : WordAt names t i (i + k.size)
  | elseIf (stands : Keyword.otherwise.StandsAt t i)
      (goesOn : Block.goesOnWithIf (t.drop (i + 5)) = true) : WordAt names t i (i + 7)
  | name {name : Text} (mem : name ∈ names) (stands : Text.startsFolded name (t.drop i) = true) :
      WordAt names t i (i + name.length)
  | blank {name : Text} {j : Nat} (mem : name ∈ names)
      (stands : Text.startsFolded name (t.drop i) = true)
      (blanks : Text.isBlankText (t.slice ⟨i + 1, j⟩) = true) : WordAt names t i (j + 1)

/-- A word begins in the text and ends in what stands behind it. -/
def Straddles (names : List Text) (t behind : Text) : Prop :=
  ∃ i j, i < t.length ∧ t.length < j ∧ WordAt names (t ++ behind) i j

/-- What goes on with `if` goes on with it in front of more text. -/
theorem goesOnWithIf_append {t : Text} (h : Block.goesOnWithIf t = true) (rest : Text) :
    Block.goesOnWithIf (t ++ rest) = true := by
  have htwo := congrArg List.length (beq_iff_eq.1 h)
  simp only [Text.lowerAscii, List.length_map, List.length_take, List.length_cons,
    List.length_nil] at htwo
  rwa [Block.goesOnWithIf, List.take_append_of_le_length (by omega)]

/-- Blanks that reach over the end of a text reach there whatever stands behind. -/
theorem isBlankText_drop_of_slice {t rest : Text} {i j : Nat} (hi : i ≤ t.length) (hj : t.length ≤ j)
    (h : Text.isBlankText ((t ++ rest).slice ⟨i, j⟩) = true) :
    Text.isBlankText (t.drop i) = true := by
  -- the rest of the text is not longer than the slice, so it is its beginning
  have hshort : (t.drop i).length ≤ j - i := by
    rw [List.length_drop]
    omega
  have hbegins : t.drop i <+: (t ++ rest).slice ⟨i, j⟩ := by
    rw [Text.slice, List.drop_append_of_le_length hi, List.take_append,
      List.take_of_length_le hshort]
    exact List.prefix_append _ _
  rw [Text.isBlankText, List.all_eq_true] at h ⊢
  exact fun c hc => h c (hbegins.subset hc)

/-- A slice up to the end of the first text is the rest of that text. -/
theorem slice_length_append {t : Text} {i : Nat} (hi : i ≤ t.length) (rest : Text) :
    (t ++ rest).slice ⟨i, t.length⟩ = t.drop i := by
  rw [Text.slice, List.drop_append_of_le_length hi, List.take_append_of_le_length
    (by rw [List.length_drop]), ← List.length_drop, List.take_length]

/-- No blank has a lower case but itself, or is one. -/
theorem isBlank_of_toLower_eq {c d : Char} (h : d.toLower = c.toLower) (hc : isBlank c = true) :
    isBlank d = true := by
  have hnat := toNat_toLower c
  have hblank := hc
  simp only [isBlank, Bool.or_eq_true, Bool.and_eq_true, decide_eq_true_eq, beq_iff_eq] at hblank
  rw [if_neg (by omega)] at hnat
  have hlow : ¬ (97 ≤ c.toNat ∧ c.toNat ≤ 122) := by omega
  rw [Char.toNat_inj.1 hnat] at h
  rwa [eq_of_toLower_eq hlow h]

/-- No word goes on with the character: it is a letter of no keyword and of no name. -/
structure EndsWords (names : List Text) (c : Char) : Prop where
  keyword : ∀ k : Keyword, foldLetter c ∉ k.letters
  name : ∀ name ∈ names, ∀ d ∈ name.tail, d.toLower ≠ c.toLower

/-- Folding is lowering, apart from the long s. -/
theorem foldLetter_of_toLower {c a : Char} (h : c.toLower = a) (ha : a ≠ 'ſ') : foldLetter c = a := by
  have hlong : c ≠ 'ſ' := by
    rintro rfl
    exact ha h.symm
  rw [foldLetter, if_neg hlong, h]

/-- A word ends in front of such a character. -/
theorem EndsWords.not_straddles {names : List Text} {c : Char} (hc : EndsWords names c)
    (hnames : ∀ name ∈ names, ∃ d ∈ name.tail, isBlank d = false) (t rest : Text) :
    ¬ Straddles names t (c :: rest) := by
  rintro ⟨i, j, hi, hj, hword⟩
  -- the character in question stands at the end of the first text, inside of the word
  obtain ⟨n, hn⟩ := Nat.exists_eq_add_of_lt hi
  have hget : (t ++ c :: rest)[i + (n + 1)]? = some c := by
    rw [← Nat.add_assoc, ← hn, List.getElem?_append_right le_rfl, Nat.sub_self]
    rfl
  -- no name has it behind its first character
  have hname : ∀ name ∈ names, Text.startsFolded name ((t ++ c :: rest).drop i) = true →
      ¬ n + 1 < name.length := by
    intro name mem stands hlt
    obtain ⟨d, hd⟩ : ∃ d, name[n + 1]? = some d := ⟨_, List.getElem?_eq_getElem hlt⟩
    obtain ⟨e, he, hlike⟩ := Search.getElem?_of_startsBy (n := n + 1) stands hd
    rw [List.getElem?_drop, hget] at he
    obtain rfl : c = e := Option.some.inj he
    rw [← List.getElem?_tail] at hd
    exact hc.name name mem d (List.mem_of_getElem? hd) (beq_iff_eq.1 hlike)
  cases hword with
  | @keyword k stands => exact hc.keyword k (stands.mem_letters (by omega) hget)
  | elseIf stands goesOn =>
    by_cases hin : n + 1 < Keyword.otherwise.size
    · exact hc.keyword _ (stands.mem_letters hin hget)
    -- behind the `$else` it is one of the two letters of `if`
    · rw [Keyword.size_otherwise] at hin
      have hmem : c ∈ ((t ++ c :: rest).drop (i + 5)).take 2 := by
        refine List.mem_of_getElem? (i := n + 1 - 5) ?_
        rw [List.getElem?_take, if_pos (by omega), List.getElem?_drop,
          show i + 5 + (n + 1 - 5) = i + (n + 1) by omega, hget]
      have hlower : c.toLower ∈ ['i', 'f'] := beq_iff_eq.1 goesOn ▸ List.mem_map_of_mem hmem
      have hletter : c.toLower = 'i' ∨ c.toLower = 'f' := by simpa using hlower
      refine hc.keyword .ifOpen ?_
      rcases hletter with hletter | hletter
      · rw [foldLetter_of_toLower hletter (by decide)]
        decide
      · rw [foldLetter_of_toLower hletter (by decide)]
        decide
  | name mem stands => exact hname _ mem stands (by omega)
  | @blank name j mem stands blanks =>
    obtain ⟨d, hd, hletter⟩ := hnames name mem
    obtain ⟨m, hm⟩ := List.mem_iff_getElem?.1 hd
    rw [List.getElem?_tail] at hm
    have hlt : m + 1 < name.length := (List.getElem?_eq_some_iff.1 hm).1
    have hover := hname name mem stands
    obtain ⟨e, he, hlike⟩ := Search.getElem?_of_startsBy (n := m + 1) stands hm
    rw [List.getElem?_drop] at he
    -- the letter of the name would be one of the blanks
    have hblank : isBlank e = true := by
      refine List.all_eq_true.1 blanks e (List.mem_of_getElem? (i := m) ?_)
      rw [Text.slice, List.getElem?_take, if_pos (by simp only; omega), List.getElem?_drop]
      rwa [show i + 1 + m = i + (m + 1) by omega]
    have hlower : d.toLower = e.toLower := beq_iff_eq.1 hlike
    rw [isBlank_of_toLower_eq hlower hblank] at hletter
    cases hletter

/-- What reaches into a text reaches into it whatever stands behind. -/
theorem Straddles.append {names : List Text} {t rest : Text} (h : Straddles names t rest)
    (more : Text) : Straddles names t (rest ++ more) := by
  obtain ⟨i, j, hi, hj, hword⟩ := h
  have hle : i ≤ (t ++ rest).length := by
    rw [List.length_append]
    omega
  have hdrop : (t ++ rest ++ more).drop i = (t ++ rest).drop i ++ more :=
    List.drop_append_of_le_length hle
  rw [Straddles, ← List.append_assoc]
  cases hword with
  | keyword stands => exact ⟨i, _, hi, hj, .keyword (stands.append more)⟩
  | elseIf stands goesOn =>
    have hin : i + 5 ≤ (t ++ rest).length := stands.add_size_le
    refine ⟨i, _, hi, hj, .elseIf (stands.append more) ?_⟩
    rw [List.drop_append_of_le_length hin]
    exact goesOnWithIf_append goesOn more
  | name mem stands =>
    exact ⟨i, _, hi, hj, .name mem (hdrop ▸ Search.startsBy_append more stands)⟩
  | blank mem stands blanks =>
    -- the blanks that reach to the end of the text are blanks whatever stands behind
    refine ⟨i, t.length + 1, hi, Nat.lt_succ_self _,
      .blank mem (hdrop ▸ Search.startsBy_append more stands) ?_⟩
    rw [List.append_assoc, slice_length_append hi]
    exact isBlankText_drop_of_slice hi (Nat.le_of_lt_succ hj) blanks

/-- A plain text, what stands around it, and another plain text. -/
structure Exchange where
  before : Text
  old : Text
  new : Text
  behind : Text
  old_ne : old ≠ []
  old_plain : ∀ c ∈ old, isMarker c = false
  new_plain : ∀ c ∈ new, isMarker c = false

namespace Exchange

variable (x : Exchange)

def text : Text := x.before ++ (x.old ++ x.behind)

/-- The text with the other plain text in it. -/
def changed : Text := x.before ++ (x.new ++ x.behind)

/-- Where a position of the text is in the changed one. -/
def move (n : Nat) : Nat :=
  if n ≤ x.before.length then n else n + x.new.length - x.old.length

def moveSpan (s : Span) : Span := ⟨x.move s.start, x.move s.stop⟩

/-- What stands at the position is not exchanged. -/
def Outside (n : Nat) : Prop := n < x.before.length ∨ x.before.length + x.old.length ≤ n

/-- The position does not lie within what is exchanged. -/
def Clear (n : Nat) : Prop := n ≤ x.before.length ∨ x.before.length + x.old.length ≤ n

/-- No word in front of what is exchanged reaches over its end, neither with the one text behind it
nor with the other one, and if nothing takes its place no `$` stands right in front. -/
structure Steady (names : List Text) : Prop where
  old : ¬ Straddles names x.before (x.old ++ x.behind)
  new : ¬ Straddles names x.before (x.new ++ x.behind)
  dollar : x.new = [] → x.before.getLast? ≠ some '$'

variable {x} {names : List Text} {n i : Nat} {c : Char} {k : Keyword}

/-- Where both plain texts begin with characters that end words, no word reaches into them wherever
they stand. -/
theorem steady_of_endsWords (hnames : ∀ name ∈ names, ∃ d ∈ name.tail, isBlank d = false)
    (hold : ∀ c ∈ x.old.head?, EndsWords names c) (hnew : ∀ c ∈ x.new.head?, EndsWords names c)
    (hne : x.new ≠ []) : x.Steady names := by
  obtain ⟨c, old, hc⟩ := List.exists_cons_of_ne_nil x.old_ne
  obtain ⟨d, new, hd⟩ := List.exists_cons_of_ne_nil hne
  refine ⟨?_, ?_, fun hnil => absurd hnil hne⟩
  · rw [hc]
    exact (hold c (by rw [hc]; rfl)).not_straddles hnames _ _
  · rw [hd]
    exact (hnew d (by rw [hd]; rfl)).not_straddles hnames _ _

/-! ### Positions that move -/

/-- A position outside of the stretch is not inside of it. -/
theorem Outside.clear (h : x.Outside n) : x.Clear n := h.imp_left Nat.le_of_lt

theorem length_old_pos : 0 < x.old.length := List.length_pos_iff.2 x.old_ne

/-- Positions in front keep their place, and those behind move by as much as the text gets longer. -/
theorem Clear.cases (h : x.Clear n) :
    n ≤ x.before.length ∧ x.move n = n ∨
      x.before.length + x.old.length ≤ n ∧ x.move n + x.old.length = n + x.new.length := by
  have hpos := x.length_old_pos
  unfold move
  rcases h with h | h
  · exact .inl ⟨h, if_pos h⟩
  · rw [if_neg (by omega)]
    exact .inr ⟨h, by omega⟩

/-- Outside, a position stays where it is, or it moves by the difference of the lengths. -/
theorem Outside.cases (h : x.Outside n) :
    n < x.before.length ∧ x.move n = n ∨
      x.before.length + x.old.length ≤ n ∧ x.move n + x.old.length = n + x.new.length := by
  have hpos := x.length_old_pos
  rcases h.clear.cases with hcases | hcases
  · exact .inl ⟨by rcases h with h | h <;> omega, hcases.2⟩
  · exact .inr hcases

theorem move_of_le (h : n ≤ x.before.length) : x.move n = n := if_pos h

/-- Behind the stretch positions move alike. -/
theorem move_add (n : Nat) :
    x.move (x.before.length + x.old.length + n) = x.before.length + x.new.length + n := by
  have hpos := x.length_old_pos
  rw [move, if_neg (by omega)]
  omega

/-- Positions keep their order. -/
theorem Clear.move_le_iff {m : Nat} (hn : x.Clear n) (hm : x.Outside m) :
    x.move n ≤ x.move m ↔ n ≤ m := by
  have hpos := x.length_old_pos
  rcases hn.cases with hn | hn <;> rcases hm.cases with hm | hm <;> omega

/-- The order is strict where it was. -/
theorem Outside.move_lt_iff {m : Nat} (hn : x.Outside n) (hm : x.Clear m) :
    x.move n < x.move m ↔ n < m := by
  have hpos := x.length_old_pos
  rcases hn.cases with hn | hn <;> rcases hm.cases with hm | hm <;> omega

theorem Clear.move_le {m : Nat} (hn : x.Clear n) (hm : x.Clear m) (h : n ≤ m) :
    x.move n ≤ x.move m := by
  have hpos := x.length_old_pos
  rcases hn.cases with hn | hn <;> rcases hm.cases with hm | hm <;> omega

/-- A position from which one goes on within the front, or behind the stretch, moves along. -/
theorem Outside.move_add {m : Nat} (h : x.Outside n)
    (hm : n < x.before.length → n + m ≤ x.before.length) : x.move (n + m) = x.move n + m := by
  rcases h.cases with ⟨hlt, heq⟩ | ⟨hle, heq⟩
  · rw [heq, move_of_le (hm hlt)]
  · have hpos := x.length_old_pos
    rcases Clear.cases (x := x) (n := n + m) (.inr (by omega)) with h | h <;> omega

/-- A few characters on from an outside position one is still clear, as long as they do not reach
into the stretch. -/
theorem Outside.clear_add {m : Nat} (h : x.Outside n)
    (hm : n < x.before.length → n + m ≤ x.before.length) : x.Clear (n + m) := by
  rcases h with h | h
  · exact .inl (hm h)
  · exact .inr (by omega)

theorem Outside.clear_succ (h : x.Outside n) : x.Clear (n + 1) := h.clear_add fun hlt => hlt

theorem Outside.move_succ (h : x.Outside n) : x.move (n + 1) = x.move n + 1 :=
  h.move_add fun hlt => hlt

/-! ### What stands there -/

/-- Behind the stretch stands what stands behind it. -/
theorem drop_text (n : Nat) :
    x.text.drop (x.before.length + x.old.length + n) = x.behind.drop n := by
  rw [text, Nat.add_assoc, ← List.drop_drop, List.drop_left, ← List.drop_drop, List.drop_left]

theorem drop_changed (n : Nat) :
    x.changed.drop (x.before.length + x.new.length + n) = x.behind.drop n := by
  rw [changed, Nat.add_assoc, ← List.drop_drop, List.drop_left, ← List.drop_drop, List.drop_left]

/-- A position behind the stretch moves with the text behind it. -/
theorem drop_move (h : x.before.length + x.old.length ≤ n) :
    x.changed.drop (x.move n) = x.text.drop n := by
  obtain ⟨m, rfl⟩ := Nat.exists_eq_add_of_le h
  rw [move_add, drop_changed, drop_text]

/-- At an outside position stands what stood there before. -/
theorem getElem?_move (h : x.Outside n) : x.changed[x.move n]? = x.text[n]? := by
  rcases h with h | h
  · rw [move_of_le h.le, changed, text, List.getElem?_append_left h, List.getElem?_append_left h]
  · have := drop_move h
    rw [← Nat.add_zero (x.move n), ← List.getElem?_drop, this, List.getElem?_drop, Nat.add_zero]

/-- A marker is not exchanged. -/
theorem outside_of_marker (h : x.text[n]? = some c) (hc : isMarker c = true) : x.Outside n := by
  by_contra hin
  obtain ⟨m, rfl⟩ : ∃ m, n = x.before.length + m :=
    ⟨n - x.before.length, by unfold Outside at hin; omega⟩
  have hm : m < x.old.length := by unfold Outside at hin; omega
  rw [text, List.getElem?_append_right (Nat.le_add_right _ _), Nat.add_sub_cancel_left,
    List.getElem?_append_left hm] at h
  rw [x.old_plain c (List.mem_of_getElem? h)] at hc
  cases hc

/-- Every marker of the changed text has moved there. -/
theorem exists_move_of_marker (h : x.changed[n]? = some c) (hc : isMarker c = true) :
    ∃ m, x.Outside m ∧ x.move m = n := by
  -- in front of the stretch, in the new text, or behind it
  rcases Nat.lt_or_ge n x.before.length with hlt | hge
  · exact ⟨n, .inl hlt, move_of_le hlt.le⟩
  obtain ⟨m, rfl⟩ := Nat.exists_eq_add_of_le hge
  rcases Nat.lt_or_ge m x.new.length with hlt | hge'
  · rw [changed, List.getElem?_append_right hge, Nat.add_sub_cancel_left,
      List.getElem?_append_left hlt] at h
    -- the new text has no markers
    rw [x.new_plain c (List.mem_of_getElem? h)] at hc
    cases hc
  · obtain ⟨r, rfl⟩ := Nat.exists_eq_add_of_le hge'
    exact ⟨x.before.length + x.old.length + r, .inr (by omega), by rw [move_add, Nat.add_assoc]⟩

/-! ### Keywords -/

/-- Where no word reaches out of a text, a keyword in it stands there without what is behind it. -/
theorem standsAt_append_iff {t rest : Text} (h : ¬ Straddles names t rest) (hi : i < t.length) :
    k.StandsAt (t ++ rest) i ↔ k.StandsAt t i := by
  refine ⟨fun hat => ?_, fun hat => hat.append rest⟩
  have hin : i + k.size ≤ t.length :=
    Nat.le_of_not_lt fun hlt => h ⟨i, i + k.size, hi, hlt, .keyword hat⟩
  rw [Keyword.StandsAt, Keyword.startsIn_eq] at hat ⊢
  rw [List.drop_append_of_le_length hi.le] at hat
  rwa [Search.startsBy_append_of_le] at hat
  rw [List.length_drop, ← Keyword.size]
  omega

/-- Where no word reaches over the border of two texts, the keywords in them are all there are. -/
theorem findAllFrom_append_of_not_straddles {t rest : Text} (h : ¬ Straddles names t rest)
    (k : Keyword) (n : Nat) :
    k.findAllFrom n (t ++ rest) = k.findAllFrom n t ++ k.findAllFrom (n + t.length) rest := by
  have hat : ∀ i < t.length, k.StandsAt (t ++ rest) i ↔ k.StandsAt t i :=
    fun i hi => standsAt_append_iff h hi
  clear h
  induction t generalizing n with
  | nil => rfl
  | cons c t ih =>
    have hhead : k.startsIn (c :: (t ++ rest)) = k.startsIn (c :: t) :=
      Bool.eq_iff_iff.2 (hat 0 (Nat.succ_pos _))
    have hlen : n + (c :: t).length = n + 1 + t.length := by
      rw [List.length_cons]
      omega
    rw [List.cons_append, Keyword.findAllFrom, Keyword.findAllFrom, hhead, hlen,
      ih (n + 1) fun i hi => hat (i + 1) (Nat.succ_lt_succ hi)]
    split <;> rfl

theorem dollar_not_mem {t : Text} (h : ∀ c ∈ t, isMarker c = false) : '$' ∉ t :=
  fun hmem => nomatch h '$' hmem

/-- A keyword begins outside, since it begins with a marker. -/
theorem outside_of_standsAt (h : k.StandsAt x.text n) : x.Outside n :=
  outside_of_marker h.getElem?_start rfl

namespace Steady

variable (hx : x.Steady names)
include hx

/-- A keyword in front of the stretch ends in front of it. -/
theorem add_size_le (h : k.StandsAt x.text n) (hn : n < x.before.length) :
    n + k.size ≤ x.before.length :=
  Nat.le_of_not_lt fun hlt => hx.old ⟨n, n + k.size, hn, hlt, .keyword h⟩

/-- Keywords stand at positions as they did before they moved. -/
theorem standsAt_move (hn : x.Outside n) :
    k.StandsAt x.changed (x.move n) ↔ k.StandsAt x.text n := by
  rcases hn with hn | hn
  · rw [move_of_le hn.le, changed, text, standsAt_append_iff hx.new hn,
      standsAt_append_iff hx.old hn]
  · rw [Keyword.StandsAt, Keyword.StandsAt, drop_move hn]

/-- The end of a keyword moves with the keyword. -/
theorem moveSpan_spanAt (h : k.StandsAt x.text n) :
    x.moveSpan (k.spanAt n) = k.spanAt (x.move n) := by
  have hstop := (outside_of_standsAt h).move_add (hx.add_size_le h)
  exact congrArg (Span.mk (x.move n)) hstop

/-- Behind a keyword one is clear. -/
theorem clear_add_size (h : k.StandsAt x.text n) : x.Clear (n + k.size) :=
  (outside_of_standsAt h).clear_add (hx.add_size_le h)

/-- All occurrences of a keyword move. -/
theorem findAll_changed (k : Keyword) : k.findAll x.changed = (k.findAll x.text).map x.moveSpan := by
  -- what is found in front of the stretch stays, and what is found behind it moves
  have hbefore : (k.findAllFrom 0 x.before).map x.moveSpan = k.findAllFrom 0 x.before := by
    refine (List.map_congr_left fun s hs => ?_).trans (List.map_id _)
    obtain ⟨i, hi, rfl⟩ := Keyword.mem_findAllFrom.1 hs
    have hin := hi.add_size_le
    rw [Nat.zero_add]
    exact congrArg₂ Span.mk (move_of_le (Nat.le_of_add_right_le hin)) (move_of_le hin)
  have hbehind : ∀ (n : Nat) (t : Text),
      (k.findAllFrom (x.before.length + x.old.length + n) t).map x.moveSpan =
        k.findAllFrom (x.before.length + x.new.length + n) t := by
    intro n t
    induction t generalizing n with
    | nil => rfl
    | cons c t ih =>
      have hstop : x.move (x.before.length + x.old.length + n + k.size) =
          x.before.length + x.new.length + n + k.size := by
        rw [Nat.add_assoc, move_add, ← Nat.add_assoc]
      have hspan : x.moveSpan (k.spanAt (x.before.length + x.old.length + n)) =
          k.spanAt (x.before.length + x.new.length + n) := congrArg₂ Span.mk (move_add n) hstop
      have hrest := ih (n + 1)
      rw [← Nat.add_assoc, ← Nat.add_assoc] at hrest
      rw [Keyword.findAllFrom, Keyword.findAllFrom]
      split
      · rw [List.map_cons, hspan, hrest]
      · exact hrest
  rw [Keyword.findAll, Keyword.findAll, changed, text, findAllFrom_append_of_not_straddles hx.new,
    findAllFrom_append_of_not_straddles hx.old,
    Keyword.findAllFrom_of_not_mem (dollar_not_mem x.new_plain),
    Keyword.findAllFrom_of_not_mem (dollar_not_mem x.old_plain), List.map_append, hbefore,
    Nat.zero_add]
  exact congrArg _ (hbehind 0 x.behind).symm

/-- A keyword is present as it was. -/
theorem isPresent_changed (k : Keyword) : k.isPresent x.changed = k.isPresent x.text := by
  have hiff : ∀ t, k.isPresent t = true ↔ k.findAll t ≠ [] := fun t => by
    rw [Keyword.isPresent_iff, Keyword.findAll, Ne, Keyword.findAllFrom_eq_nil_iff, not_forall]
    simp only [not_not]
  rw [Bool.eq_iff_iff, hiff, hiff, hx.findAll_changed, Ne, List.map_eq_nil_iff]

/-- So the last keyword is found as it was. -/
theorem findLast?_changed (k : Keyword) :
    k.findLast? x.changed = (k.findLast? x.text).map x.moveSpan := by
  rw [Keyword.findLast?, hx.findAll_changed, List.getLast?_map]
  rfl

/-- And so is the first one from a clear position on. -/
theorem find?_move (k : Keyword) (hn : x.Clear n) :
    k.find? x.changed (x.move n) = (k.find? x.text n).map x.moveSpan := by
  have hfirst : ∀ t n, k.find? t n = ((k.findAll t).filter (n ≤ ·.start)).head? := by
    intro t n
    rw [Keyword.find?_eq_head?, Keyword.findAll, Keyword.filter_findAllFrom (Nat.zero_le n),
      Nat.sub_zero]
  -- the keywords that are left out are the same
  have hfilter : (k.findAll x.text).filter ((x.move n ≤ ·.start) ∘ x.moveSpan) =
      (k.findAll x.text).filter (n ≤ ·.start) := by
    refine List.filter_congr fun s hs => ?_
    obtain ⟨i, hi, rfl⟩ := Keyword.mem_findAll.1 hs
    exact decide_eq_decide.2 (hn.move_le_iff (outside_of_standsAt hi))
  rw [hfirst, hfirst, hx.findAll_changed, List.filter_map, List.head?_map, hfilter]

/-- What is asked behind a `$else` has the same answer. -/
theorem goesOnWithIf_move (h : Keyword.otherwise.StandsAt x.text n) :
    Block.goesOnWithIf (x.changed.drop (x.move (n + 5))) =
      Block.goesOnWithIf (x.text.drop (n + 5)) := by
  rcases outside_of_standsAt h with hn | hn
  · have hin : n + 5 ≤ x.before.length := hx.add_size_le h hn
    have hat := (hx.standsAt_move (.inl hn)).2 h
    rw [move_of_le hn.le] at hat
    rw [move_of_le hin]
    -- an answer that depends on what is exchanged would be that of a word
    have hif : ∀ rest, ¬ Straddles names x.before rest →
        Keyword.otherwise.StandsAt (x.before ++ rest) n →
        Block.goesOnWithIf ((x.before ++ rest).drop (n + 5)) =
          Block.goesOnWithIf (x.before.drop (n + 5)) := by
      intro rest hrest hat
      rw [Bool.eq_iff_iff]
      rw [List.drop_append_of_le_length hin]
      -- if it goes on within the text in front, it goes on whatever comes behind
      constructor
      · intro hgoesOn
        have hle : n + 7 ≤ x.before.length := Nat.le_of_not_lt fun hlt =>
          hrest ⟨n, n + 7, hn, hlt, .elseIf hat
            (by rwa [List.drop_append_of_le_length hin])⟩
        rwa [Block.goesOnWithIf, List.take_append_of_le_length
          (by rw [List.length_drop]; omega)] at hgoesOn
      · exact fun hgoesOn => goesOnWithIf_append hgoesOn rest
    rw [changed, text, hif _ hx.new hat, hif _ hx.old h]
  · rw [drop_move (by omega)]

end Steady

/-! ### Brackets -/

/-- A plain text closes no bracket. -/
theorem closingFrom_plain {t : Text} (ht : ∀ c ∈ t, isMarker c = false) (i depth : Nat)
    (rest : Text) :
    Bracket.closingFrom i depth (t ++ rest) = Bracket.closingFrom (i + t.length) depth rest := by
  induction t generalizing i with
  | nil => rfl
  | cons c t ih =>
    have hc := ht c List.mem_cons_self
    have hopen : c ≠ '[' := by rintro rfl; cases hc
    have hclose : c ≠ ']' := by rintro rfl; cases hc
    rw [List.cons_append, Bracket.closingFrom, if_neg hopen, if_neg hclose,
      ih fun c' hc' => ht c' (List.mem_cons_of_mem c hc'), List.length_cons, Nat.add_assoc,
      Nat.add_comm 1]

/-- Behind what is exchanged brackets close each other as they did. -/
theorem closingFrom_behind (n depth : Nat) (t : Text) :
    Bracket.closingFrom (x.before.length + x.new.length + n) depth t =
      (Bracket.closingFrom (x.before.length + x.old.length + n) depth t).map x.move := by
  have hbase : ∀ m, Bracket.closingFrom m depth t =
      (Bracket.closingFrom 0 depth t).map (· + m) := fun m => by
    rw [← Bracket.closingFrom_add, Nat.zero_add]
  rw [hbase, hbase (x.before.length + x.old.length + n), Option.map_map]
  congr 1
  funext k
  have hmove := x.move_add (n + k)
  rw [Function.comp_apply, Nat.add_comm k, Nat.add_comm k, Nat.add_assoc, Nat.add_assoc _ n k, hmove]

/-- A bracket outside of what is exchanged is closed where it was. -/
theorem closing?_move (hn : x.Outside n) :
    Bracket.closing? x.changed (x.move n) = (Bracket.closing? x.text n).map x.move := by
  rcases hn with hn | hn
  -- through the text in front, over the stretch, and on behind it
  · have hfront : ∀ (t : Text) (i depth : Nat), i + t.length = x.before.length →
        Bracket.closingFrom i depth (t ++ (x.new ++ x.behind)) =
          (Bracket.closingFrom i depth (t ++ (x.old ++ x.behind))).map x.move := by
      intro t
      induction t with
      | nil =>
        intro i depth hi
        obtain rfl : i = x.before.length := hi
        rw [List.nil_append, List.nil_append, closingFrom_plain x.new_plain,
          closingFrom_plain x.old_plain]
        exact closingFrom_behind 0 depth x.behind
      | cons c t ih =>
        intro i depth hi
        rw [List.length_cons] at hi
        have hrest := fun depth => ih (i + 1) depth (by omega)
        simp only [List.cons_append, Bracket.closingFrom]
        split
        · exact hrest _
        · split
          · split
            · exact congrArg some (move_of_le (by omega)).symm
            · exact hrest _
          · exact hrest _
    rw [move_of_le hn.le, Bracket.closing?, Bracket.closing?, changed, text,
      List.drop_append_of_le_length hn.le, List.drop_append_of_le_length hn.le]
    exact hfront _ n 0 (by rw [List.length_drop]; omega)
  · obtain ⟨m, rfl⟩ := Nat.exists_eq_add_of_le hn
    rw [Bracket.closing?, Bracket.closing?, drop_move hn, move_add]
    exact closingFrom_behind m 0 _

/-! ### Lists that run along the text -/

/-- Neither end of the span lies within what is exchanged. -/
def ClearSpan (x : Exchange) (s : Span) : Prop := x.Clear s.start ∧ x.Clear s.stop

/-- Two lists that are alike but for one stretch, which is `w` in the one and `w'` in the other. -/
def Swapped {α : Type} (w w' l l' : List α) : Prop :=
  ∃ front back, l = front ++ (w ++ back) ∧ l' = front ++ (w' ++ back)

namespace Swapped

variable {α : Type} {w w' l l' : List α}

theorem append_left (h : Swapped w w' l l') (r : List α) : Swapped w w' (r ++ l) (r ++ l') := by
  obtain ⟨front, back, rfl, rfl⟩ := h
  exact ⟨r ++ front, back, (List.append_assoc _ _ _).symm, (List.append_assoc _ _ _).symm⟩

theorem append_right (h : Swapped w w' l l') (r : List α) : Swapped w w' (l ++ r) (l' ++ r) := by
  obtain ⟨front, back, rfl, rfl⟩ := h
  exact ⟨front, back ++ r, by simp only [List.append_assoc], by simp only [List.append_assoc]⟩

end Swapped

/-- The span lies in front of what is exchanged or behind it. -/
def Beside (x : Exchange) (s : Span) : Prop :=
  s.stop ≤ x.before.length ∨ x.before.length + x.old.length ≤ s.start

/-- What is exchanged lies in the span. -/
def Around (x : Exchange) (s : Span) : Prop :=
  s.start ≤ x.before.length ∧ x.before.length + x.old.length ≤ s.stop

/-- The first list runs along the text and the second one along the changed text; they are alike but
for what is exchanged. -/
def Along {α : Type} (x : Exchange) (w w' l l' : List α) : Prop :=
  ∃ front back, front.length = x.before.length ∧ w.length = x.old.length ∧
    w'.length = x.new.length ∧ l = front ++ (w ++ back) ∧ l' = front ++ (w' ++ back)

/-- Inside of a span that lies beside what is exchanged positions move along. -/
theorem Beside.move_add {s : Span} (hs : x.Beside s) (hn : s.start + n ≤ s.stop) :
    x.move (s.start + n) = x.move s.start + n := by
  rcases hs with hs | hs
  · rw [move_of_le (by omega), move_of_le (by omega)]
  · obtain ⟨m, hm⟩ := Nat.exists_eq_add_of_le hs
    rw [hm, Nat.add_assoc, Exchange.move_add, Exchange.move_add]
    omega

/-- A part of the span lies beside it as well. -/
theorem Beside.mono {s p : Span} (hs : x.Beside s) (hstart : s.start ≤ p.start)
    (hstop : p.stop ≤ s.stop) : x.Beside p :=
  hs.imp (fun h => hstop.trans h) fun h => h.trans hstart

/-- A span with clear ends is beside the stretch or around it. -/
theorem ClearSpan.beside_or_around {s : Span} (hs : x.ClearSpan s) : x.Beside s ∨ x.Around s := by
  rcases hs with ⟨h | h, h' | h'⟩
  · exact .inl (.inl h')
  · exact .inr ⟨h, h'⟩
  · exact .inl (.inr h)
  · exact .inl (.inr h)

namespace Along

variable {α : Type} {w w' l l' : List α} {s : Span}

/-- The two texts themselves run along. -/
theorem text (x : Exchange) : x.Along x.old x.new x.text x.changed :=
  ⟨x.before, x.behind, rfl, rfl, rfl, rfl, rfl⟩

/-- In front of the stretch nothing is different. -/
theorem take_move (h : x.Along w w' l l') (hn : n ≤ x.before.length) :
    l'.take (x.move n) = l.take n := by
  obtain ⟨front, back, hfront, -, -, rfl, rfl⟩ := h
  rw [move_of_le hn, List.take_append_of_le_length (by omega),
    List.take_append_of_le_length (by omega)]

/-- Behind it the same elements follow. -/
theorem drop_move (h : x.Along w w' l l') (hn : x.before.length + x.old.length ≤ n) :
    l'.drop (x.move n) = l.drop n := by
  obtain ⟨front, back, hfront, hw, hw', rfl, rfl⟩ := h
  obtain ⟨m, rfl⟩ := Nat.exists_eq_add_of_le hn
  have hdrop : ∀ v : List α, (front ++ (v ++ back)).drop (x.before.length + v.length + m) =
      back.drop m := fun v => by
    rw [← hfront, Nat.add_assoc, ← List.drop_drop, List.drop_left, ← List.drop_drop, List.drop_left]
  rw [move_add, ← hw, ← hw', hdrop, hdrop]

/-- A part that lies beside what is exchanged is the same in both lists. -/
theorem cut_of_beside (h : x.Along w w' l l') (hs : x.Beside s) (hle : s.start ≤ s.stop) :
    (x.moveSpan s).cut l' = s.cut l := by
  have hstop := hs.move_add (n := s.stop - s.start) (by omega)
  rw [Nat.add_sub_cancel' hle] at hstop
  -- the span is in front of the stretch, or it moves with what is behind
  rcases hs with hs | hs
  · have htake := h.take_move hs
    rw [Span.cut, Span.cut, ← List.drop_take, ← List.drop_take, moveSpan, htake,
      move_of_le (hle.trans hs)]
  · have hsize : (x.moveSpan s).stop - (x.moveSpan s).start = s.stop - s.start := by
      simp only [moveSpan]
      omega
    rw [Span.cut, Span.cut, hsize, moveSpan, h.drop_move hs]

/-- A part that holds what is exchanged is alike but for that. -/
theorem cut_of_around (h : x.Along w w' l l') (hs : x.Around s) :
    Swapped w w' (s.cut l) ((x.moveSpan s).cut l') := by
  obtain ⟨front, back, hfront, hw, hw', rfl, rfl⟩ := h
  obtain ⟨hstart, hstop⟩ := hs
  obtain ⟨m, hm⟩ := Nat.exists_eq_add_of_le hstop
  have hin : s.start ≤ front.length := hfront ▸ hstart
  -- the part is what is in front of the stretch from the start of the span on, the stretch, and
  -- what is behind it
  have hcut : ∀ v : List α, (Span.mk s.start (x.before.length + v.length + m)).cut
      (front ++ (v ++ back)) = front.drop s.start ++ (v ++ back.take m) := fun v => by
    rw [Span.cut, ← List.drop_take, ← hfront, Nat.add_assoc, List.take_length_add_append,
      List.take_length_add_append, List.drop_append_of_le_length hin]
  refine ⟨front.drop s.start, back.take m, ?_, ?_⟩
  · rw [← hcut, hw, ← hm]
  · rw [← hcut, hw', ← move_add, ← hm, moveSpan, move_of_le hstart]

/-- A beginning that reaches over the stretch has it exchanged. -/
theorem take_swapped (h : x.Along w w' l l') (hn : x.before.length + x.old.length ≤ n) :
    Swapped w w' (l.take n) (l'.take (x.move n)) := by
  have hcut := h.cut_of_around (s := ⟨0, n⟩) ⟨Nat.zero_le _, hn⟩
  rwa [Span.cut, Span.cut, moveSpan, move_of_le (Nat.zero_le _)] at hcut

/-- So has a rest that begins in front of it. -/
theorem drop_swapped (h : x.Along w w' l l') (hn : n ≤ x.before.length) :
    Swapped w w' (l.drop n) (l'.drop (x.move n)) := by
  obtain ⟨front, back, hfront, -, -, rfl, rfl⟩ := h
  rw [move_of_le hn, List.drop_append_of_le_length (by omega),
    List.drop_append_of_le_length (by omega)]
  exact ⟨front.drop n, back, rfl, rfl⟩

/-- What is put in beside the stretch leaves it to be exchanged. -/
theorem graft_of_beside (h : x.Along w w' l l') (hs : x.Beside s) (hle : s.start ≤ s.stop)
    (r : List α) : Swapped w w' (s.graft r l) ((x.moveSpan s).graft r l') := by
  rw [Span.graft, Span.graft, moveSpan]
  rcases hs with hs | hs
  · rw [h.take_move (hle.trans hs)]
    exact (h.drop_swapped hs).append_left _
  · rw [h.drop_move (hs.trans hle)]
    exact ((h.take_swapped hs).append_right _).append_right _

/-- Where a part goes that held what is exchanged, the lists are the same around it. -/
theorem graft_of_around (h : x.Along w w' l l') (hs : x.Around s) (r : List α) :
    (x.moveSpan s).graft r l' = s.graft r l := by
  rw [Span.graft, Span.graft, moveSpan, h.take_move hs.1, h.drop_move hs.2]

/-- Parts in order are the same in both lists, or one of them holds what is exchanged. -/
theorem gather (h : x.Along w w' l l') {lo hi : Nat} {spans : List Span}
    (horder : Span.InOrder lo hi spans) (hclear : ∀ s ∈ spans, x.ClearSpan s) :
    (∀ s ∈ spans, x.Beside s) ∧ Span.gather (spans.map x.moveSpan) l' = Span.gather spans l ∨
      (∃ s ∈ spans, x.Around s) ∧
        Swapped w w' (Span.gather spans l) (Span.gather (spans.map x.moveSpan) l') := by
  induction spans generalizing lo with
  | nil => exact .inl ⟨nofun, rfl⟩
  | cons s spans ih =>
    obtain ⟨-, hle, hrest⟩ := horder
    have hlater := ih hrest fun s' hs' => hclear s' (List.mem_cons_of_mem s hs')
    rw [List.map_cons, Span.gather_cons, Span.gather_cons]
    -- a span beside the stretch is cut out unchanged, and the later ones may still hold it
    rcases (hclear s List.mem_cons_self).beside_or_around with hs | hs
    · rw [h.cut_of_beside hs hle]
      rcases hlater with ⟨hall, heq⟩ | ⟨⟨s', hs', haround⟩, hswap⟩
      · exact .inl ⟨List.forall_mem_cons.2 ⟨hs, hall⟩, congrArg _ heq⟩
      · exact .inr ⟨⟨s', List.mem_cons_of_mem s hs', haround⟩, hswap.append_left _⟩
    -- the parts behind one that holds it lie behind it
    · have hpos := x.length_old_pos
      have heq : Span.gather (spans.map x.moveSpan) l' = Span.gather spans l := by
        rcases hlater with ⟨-, heq⟩ | ⟨⟨s', hs', haround⟩, -⟩
        · exact heq
        · have hbehind := (hrest.bounds hs').1
          have hstart := haround.1
          have hstop := hs.2
          omega
      rw [heq]
      exact .inr ⟨⟨s, List.mem_cons_self, hs⟩, (h.cut_of_around hs).append_right _⟩

/-- Where parts of a span come in for the span, what is exchanged stays, or it was in the span and in
none of the parts. -/
theorem graft_gather (h : x.Along w w' l l') {spans : List Span} (hs : x.ClearSpan s)
    (hle : s.start ≤ s.stop) (horder : Span.InOrder s.start s.stop spans)
    (hclear : ∀ c ∈ spans, x.ClearSpan c) :
    Swapped w w' (s.graft (Span.gather spans l) l)
        ((x.moveSpan s).graft (Span.gather (spans.map x.moveSpan) l') l') ∨
      x.Around s ∧ (∀ c ∈ spans, x.Beside c) ∧
        (x.moveSpan s).graft (Span.gather (spans.map x.moveSpan) l') l' =
          s.graft (Span.gather spans l) l := by
  have hpos := x.length_old_pos
  -- beside the span the stretch stays in the document, and none of the gathered spans holds it
  rcases hs.beside_or_around with hbeside | haround
  · rcases h.gather horder hclear with ⟨-, heq⟩ | ⟨⟨c, hc, haround⟩, -⟩
    · rw [heq]
      exact .inl (h.graft_of_beside hbeside hle _)
    · obtain ⟨hstart, -, hstop⟩ := horder.bounds hc
      rcases hbeside.mono hstart hstop with hbefore | hbehind
      · have := haround.2
        omega
      · have := haround.1
        omega
  -- within the span it stays only if one of the gathered spans holds it
  · rw [h.graft_of_around haround]
    rcases h.gather horder hclear with ⟨hall, heq⟩ | ⟨-, hswap⟩
    · exact .inr ⟨haround, hall, by rw [heq]⟩
    · exact .inl ((hswap.append_left _).append_right _)

end Along

/-- A slice beside the stretch is the same. -/
theorem Beside.slice_moveSpan {s : Span} (hs : x.Beside s) (hle : s.start ≤ s.stop) :
    x.changed.slice (x.moveSpan s) = x.text.slice s :=
  (Along.text x).cut_of_beside hs hle

end Exchange

end Stencil
