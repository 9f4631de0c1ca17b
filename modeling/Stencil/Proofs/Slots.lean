import Mathlib.Data.List.Forall2
import Mathlib.Order.Bounds.Basic
import Stencil.Proofs.Balanced
import Stencil.Proofs.Unescape
/-!
# Argument lists by counting brackets

The bracket that closes an opening one is found with a counter that does not go below zero. Counted
from the opening bracket no counter is needed: the closing one is the least position up to which as
many brackets are closed as are opened (`closing?_eq_some_iff_isLeast`), and where no such position
is there is none (`closing?_eq_none_iff`).

The slots of a list are told in the same way. Its `separators` are the semicolons in front of which
the brackets of the list are all closed, its `parts` lie between them (`pieces_eq_parts`), and each
part gives a slot by trimming (`trims_iff`), but for a blank last one (`slots_eq_iff`).
-/

namespace Stencil

/-- A text from a position with a character on is that character and what follows. -/
theorem drop_eq_cons {α : Type} {l : List α} {a : α} {i : Nat} (h : l[i]? = some a) :
    l.drop i = a :: l.drop (i + 1) := by
  rw [List.drop_eq_getElem?_toList_append, h]
  rfl

namespace Bracket

variable {t : Text} {s part : Span} {i k depth depth' : Nat} {c : Char}

/-! ### The closing bracket -/

/-- From one position to another as many brackets are opened as are closed. -/
def EvenFrom (t : Text) (i k : Nat) : Prop :=
  (t.slice ⟨i, k⟩).count '[' = (t.slice ⟨i, k⟩).count ']'

instance (t : Text) (i k : Nat) : Decidable (EvenFrom t i k) :=
  inferInstanceAs (Decidable (_ = _))

/-- A search inside of brackets that finds no end does not come out of them. -/
theorem inside_of_closingFrom_eq_none (hdepth : 1 ≤ depth) (h : closingFrom i depth t = none) :
    Inside depth t := by
  induction t generalizing i depth with
  | nil => exact inside_nil hdepth
  | cons c t ih =>
    rw [closingFrom] at h
    split at h
    -- the next depth is the one behind the bracket, so the induction is over every depth
    · next hopen =>
      subst hopen
      exact inside_cons hdepth rfl (ih (Nat.le_add_left 1 depth) h)
    · next hopen =>
      split at h
      · next hclose =>
        subst hclose
        split at h
        · cases h
        · next hdeep =>
          -- the bracket closes one that is not the outermost, so one stays open
          have hdeep : 1 < depth := Nat.lt_of_not_le hdeep
          exact inside_cons hdepth (Nat.sub_add_cancel hdepth)
            (ih (Nat.le_sub_one_of_lt hdeep) h)
      · next hclose =>
        -- any other character opens and closes nothing
        have hsame : depth + [c].count ']' = depth + [c].count '[' := by
          rw [List.count_singleton, List.count_singleton]
          simp [hopen, hclose]
        exact inside_cons hdepth hsame (ih hdepth h)

/-- Counted from an opening bracket, that bracket is one more than the others. -/
theorem evenFrom_iff_of_opening (hi : t[i]? = some '[') (hk : i ≤ k) :
    EvenFrom t i (k + 1) ↔
      ((t.drop (i + 1)).take (k - i)).count '[' + 1 = ((t.drop (i + 1)).take (k - i)).count ']' := by
  have hslice : t.slice ⟨i, k + 1⟩ = '[' :: (t.drop (i + 1)).take (k - i) := by
    have hlen : k + 1 - i = k - i + 1 := by omega
    rw [Text.slice, drop_eq_cons hi]
    simp only
    rw [hlen, List.take_succ_cons]
  rw [EvenFrom, hslice, List.count_cons_self, List.count_cons_of_ne (by decide)]

/-- Where no bracket closes an opening one, the brackets counted from it never balance. -/
theorem not_evenFrom_of_closing?_eq_none (hi : t[i]? = some '[') (h : closing? t i = none)
    (hk : i ≤ k) : ¬ EvenFrom t i (k + 1) := by
  rw [evenFrom_iff_of_opening hi hk]
  rw [closing?, drop_eq_cons hi, closingFrom, if_pos rfl] at h
  have hlt := inside_of_closingFrom_eq_none (Nat.le_add_left 1 0) h _ (List.take_prefix (k - i) _)
  omega

/-- The bracket that is found is the least position up to which as many brackets are closed as are
opened. -/
theorem isLeast_of_closing? (hi : t[i]? = some '[') (h : closing? t i = some k) :
    IsLeast {k | i ≤ k ∧ k < t.length ∧ EvenFrom t i (k + 1)} k := by
  obtain ⟨inner, behind, hdrop, hk, hnested⟩ := (closing?_eq_some_iff hi).1 h
  obtain ⟨hle, hclose⟩ := getElem?_of_closing? h
  have hrest : t.drop (i + 1) = inner ++ ']' :: behind :=
    (List.cons.inj ((drop_eq_cons hi).symm.trans hdrop)).2
  constructor
  · refine ⟨hle, (List.getElem?_eq_some_iff.1 hclose).1, (evenFrom_iff_of_opening hi hle).2 ?_⟩
    -- up to the closing bracket there is the balanced text and that bracket
    have htake : (t.drop (i + 1)).take (k - i) = inner ++ [']'] := by
      have hlen : k - i = (inner ++ [']']).length := by
        rw [List.length_append, List.length_singleton]
        omega
      have hsplit : inner ++ ']' :: behind = (inner ++ [']']) ++ behind := by
        rw [List.append_assoc, List.singleton_append]
      rw [hrest, hsplit, hlen, List.take_left]
    rw [htake, List.count_append, List.count_append, hnested.count_eq]
    rfl
  · rintro m ⟨hm, -, heven⟩
    -- a shorter part that is even would end inside the balanced text, one bracket being still
    -- open
    by_contra hlt
    rw [evenFrom_iff_of_opening hi hm, hrest, List.take_append_of_le_length (by omega)] at heven
    have hcount := hnested.count_le _ (List.take_prefix (m - i) inner)
    omega

/-- An opening bracket is closed at the least position up to which the brackets balance. -/
theorem closing?_eq_some_iff_isLeast (hi : t[i]? = some '[') :
    closing? t i = some k ↔ IsLeast {k | i ≤ k ∧ k < t.length ∧ EvenFrom t i (k + 1)} k := by
  refine ⟨isLeast_of_closing? hi, fun h => ?_⟩
  cases hclosing : closing? t i with
  | none => exact absurd h.1.2.2 (not_evenFrom_of_closing?_eq_none hi hclosing h.1.1)
  | some k' => rw [(isLeast_of_closing? hi hclosing).unique h]

/-- No bracket is found exactly when no position behind the opening one makes the counts even. -/
theorem closing?_eq_none_iff (hi : t[i]? = some '[') :
    closing? t i = none ↔ ∀ k, i ≤ k → k < t.length → ¬ EvenFrom t i (k + 1) := by
  refine ⟨fun h k hk _ => not_evenFrom_of_closing?_eq_none hi h hk, fun h => ?_⟩
  rw [Option.eq_none_iff_forall_ne_some]
  intro k hclosing
  obtain ⟨hk, hlt, heven⟩ := (isLeast_of_closing? hi hclosing).1
  exact h k hk hlt heven

/-! ### The parts of a list -/

/-- In a text that is read at some depth, a semicolon outside of all brackets stands there. -/
def Separates (depth : Nat) (t : Text) (n : Nat) : Prop :=
  t[n]? = some ';' ∧ depth + (t.take n).count '[' = (t.take n).count ']'

instance (depth : Nat) (t : Text) (n : Nat) : Decidable (Separates depth t n) :=
  inferInstanceAs (Decidable (_ ∧ _))

/-- The positions of the semicolons outside of all brackets, from left to right. -/
def separators (depth : Nat) (t : Text) : List Nat :=
  (List.range t.length).filter fun n => Separates depth t n

/-- A span without the positions at which it is cut. -/
def parts (s : Span) : List Nat → List Span
  | [] => [s]
  | i :: cuts => ⟨s.start, i⟩ :: parts ⟨i + 1, s.stop⟩ cuts

/-- Cutting a span anywhere leaves at least one part. -/
theorem parts_ne_nil (s : Span) (cuts : List Nat) : parts s cuts ≠ [] := by
  cases cuts <;> exact List.cons_ne_nil _ _

/-- The first character is a separator exactly when it is a semicolon that no bracket encloses. -/
theorem separates_zero : Separates depth (c :: t) 0 ↔ c = ';' ∧ depth = 0 := by
  simp [Separates]

/-- Behind the first character the separators are those of the rest, at the depth the character
leaves. -/
theorem separates_succ {n : Nat} (hnext : depth' + [c].count ']' = depth + [c].count '[') :
    Separates depth (c :: t) (n + 1) ↔ Separates depth' t n := by
  rw [Separates, Separates, List.getElem?_cons_succ, List.take_succ_cons,
    ← List.singleton_append, List.count_append, List.count_append]
  refine and_congr_right fun _ => ?_
  omega

/-- The first character is a separator or changes the depth of the others. -/
theorem separators_cons (hnext : depth' + [c].count ']' = depth + [c].count '[') :
    separators depth (c :: t) =
      (if c = ';' ∧ depth = 0 then [0] else []) ++ (separators depth' t).map (· + 1) := by
  -- the positions behind the first are those of the rest, moved on by one
  have htail : ((List.range t.length).map Nat.succ).filter (fun n => Separates depth (c :: t) n) =
      (separators depth' t).map (· + 1) := by
    rw [List.filter_map, separators]
    congr 1
    refine List.filter_congr fun n _ => ?_
    simp only [Function.comp_apply, Nat.succ_eq_add_one, separates_succ hnext]
  rw [separators, List.length_cons, List.range_succ_eq_map, List.filter_cons, htail]
  simp only [separates_zero, decide_eq_true_eq]
  split <;> rfl

/-- The cut in progress comes to the parts between the separators that are still ahead. -/
theorem piecesFrom_eq_parts (hinside : Inside (depth + 1) t) (start i : Nat) (done : List Span) :
    piecesFrom start i depth done t =
      done.reverse ++ parts ⟨start, i + t.length⟩ ((separators depth t).map (i + ·)) := by
  induction t generalizing start i depth done with
  | nil => exact List.reverse_cons
  | cons c t ih =>
    have hlen : i + (c :: t).length = i + 1 + t.length := by
      rw [List.length_cons]
      omega
    have hshift : ∀ cuts : List Nat,
        (cuts.map (· + 1)).map (i + ·) = cuts.map (i + 1 + ·) := by
      intro cuts
      rw [List.map_map]
      exact List.map_congr_left fun n _ => by simp only [Function.comp_apply]; omega
    -- a character that is not a separator leaves the cut as it is
    have hstep : ∀ {depth'}, depth' + [c].count ']' = depth + [c].count '[' →
        ¬ (c = ';' ∧ depth = 0) →
        piecesFrom start (i + 1) depth' done t = done.reverse ++
          parts ⟨start, i + (c :: t).length⟩ ((separators depth (c :: t)).map (i + ·)) := by
      intro depth' hnext hno
      have hnext' : depth' + 1 + [c].count ']' = depth + 1 + [c].count '[' := by omega
      rw [ih (hinside.of_cons hnext'), separators_cons hnext, if_neg hno, List.nil_append, hshift,
        hlen]
    rw [piecesFrom]
    split
    · next hopen =>
      subst hopen
      exact hstep rfl (by simp)
    · next hopen =>
      split
      · next hclose =>
        subst hclose
        -- the bracket closes one that is open
        have hone := hinside [']'] ((List.prefix_cons_inj _).2 List.nil_prefix)
        have hdeep : 0 < depth := by simpa using hone
        exact hstep (Nat.sub_add_cancel hdeep) (by simp)
      · next hclose =>
        have hsame : depth + [c].count ']' = depth + [c].count '[' := by
          rw [List.count_singleton, List.count_singleton]
          simp [hopen, hclose]
        split
        · next hcut =>
          -- a semicolon that no bracket encloses ends the piece and begins the next one
          rw [Bool.and_eq_true, decide_eq_true_iff, beq_iff_eq] at hcut
          have hnext' : depth + 1 + [c].count ']' = depth + 1 + [c].count '[' := by omega
          rw [ih (hinside.of_cons hnext'), separators_cons hsame, if_pos hcut, List.map_append,
            hshift, hlen, List.reverse_cons, List.append_assoc]
          rfl
        · next hcut =>
          -- any other character, or a semicolon in brackets, is passed over
          rw [Bool.and_eq_true, decide_eq_true_iff, beq_iff_eq] at hcut
          exact hstep hsame hcut

/-- Where the brackets of a list are nested, its pieces are the parts between its separators. -/
theorem pieces_eq_parts (h : Nested (t.slice s)) (hstart : s.start ≤ s.stop)
    (hs : s.stop ≤ t.length) :
    pieces t s = parts s ((separators 0 (t.slice s)).map (s.start + ·)) := by
  have hlen : s.start + (t.slice s).length = s.stop := by
    have hcut : (t.slice s).length = s.stop - s.start := Span.length_cut_of_le hs
    omega
  rw [pieces, piecesFrom_eq_parts (h.inside le_rfl), List.reverse_nil, List.nil_append, hlen]

/-! ### The slots of a list -/

/-- What a part of a list gives: nothing where it has only blanks, otherwise the text in it around
which there are only blanks. -/
inductive Trims (t : Text) (part : Span) : Option Span → Prop where
  | blank (hblank : Text.isBlankText (t.slice part) = true) : Trims t part none
  | text (before word behind : Text) (hslice : t.slice part = before ++ (word ++ behind))
      (hbefore : ∀ c ∈ before, isBlank c = true) (hbehind : ∀ c ∈ behind, isBlank c = true)
      (hne : word ≠ []) (hword : word.Trimmed) :
      Trims t part (some ⟨part.start + before.length, part.start + before.length + word.length⟩)

/-- The blanks in front of a trimmed text are exactly the run of blanks the whole begins with. -/
theorem takeWhile_isBlank_append {before word : Text} (behind : Text)
    (hbefore : ∀ c ∈ before, isBlank c = true) (hne : word ≠ []) (hword : word.Trimmed) :
    (before ++ (word ++ behind)).takeWhile isBlank = before := by
  obtain ⟨c, rest, rfl⟩ := List.exists_cons_of_ne_nil hne
  rw [List.takeWhile_append_of_pos hbefore, List.cons_append, List.takeWhile_cons_of_neg,
    List.append_nil]
  rw [hword.head c rfl]
  exact Bool.false_ne_true

/-- The slot of a part: its span without the blanks at the ends. -/
def slotOf (t : Text) (part : Span) : Option Span :=
  if (Text.trimSpan t part).isEmpty then none else some (Text.trimSpan t part)

/-- A part gives no slot exactly when it is blank. -/
theorem slotOf_eq_none_iff (hs : part.stop ≤ t.length) :
    slotOf t part = none ↔ Text.isBlankText (t.slice part) = true := by
  rw [slotOf, Text.isEmpty_trimSpan hs]
  simp

/-- What a part is trimmed to by counting blanks is what the slot of the part is. -/
theorem trims_iff (hs : part.stop ≤ t.length) {slot : Option Span} :
    Trims t part slot ↔ slot = slotOf t part := by
  obtain ⟨before, behind, hslice, hbefore, hbehind, htrim⟩ := Text.exists_trimSpan t hs
  have hempty := Text.isEmpty_trimSpan hs
  have hnil : Text.isBlankText (t.slice part) = true ↔ Text.trim (t.slice part) = [] := by
    rw [← hempty, htrim, Span.isEmpty, decide_eq_true_iff, ← List.length_eq_zero_iff]
    simp only
    omega
  rw [slotOf]
  constructor
  · rintro (hblank | ⟨before', word, behind', hslice', hbefore', hbehind', hne, hword⟩)
    · rw [hempty, if_pos hblank]
    · have hkept : Text.trim (t.slice part) = word := by
        rw [hslice', Text.trim_blanks hbefore' hbehind', hword.trim_eq]
      -- both ways of cutting take off the same blanks in front
      have hsame : before = before' := by
        rw [hkept] at hslice
        rw [← takeWhile_isBlank_append behind hbefore hne hword, ← hslice, hslice',
          takeWhile_isBlank_append behind' hbefore' hne hword]
      rw [hempty, if_neg (by rw [hnil, hkept]; exact hne), htrim, hkept, hsame]
  · rintro rfl
    rw [hempty]
    split
    · next hblank => exact .blank hblank
    · next hblank =>
      rw [htrim]
      exact .text before _ behind hslice hbefore hbehind (by rwa [hnil] at hblank)
        (Text.trimmed_trim _)

/-- The slots of the list in a span, part by part. A blank last part has no slot. -/
inductive ListSlots (t : Text) (s : Span) : List (Option Span) → Prop where
  | full {slots : List (Option Span)}
      (hslots : List.Forall₂ (Trims t) (parts s ((separators 0 (t.slice s)).map (s.start + ·))) slots)
      (hlast : slots.getLast? ≠ some none) : ListSlots t s slots
  | short {kept : List Span} {last : Span} {slots : List (Option Span)}
      (hparts : parts s ((separators 0 (t.slice s)).map (s.start + ·)) = kept ++ [last])
      (hslots : List.Forall₂ (Trims t) kept slots)
      (hlast : Text.isBlankText (t.slice last) = true) : ListSlots t s slots

/-- The slots are the trimmed pieces, without the last one when it is blank. -/
theorem slots_of_pieces {kept : List Span} {last : Span} (h : pieces t s = kept ++ [last])
    (hlast : last.stop ≤ t.length) :
    slots t s =
      (if Text.isBlankText (t.slice last) then kept else kept ++ [last]).map (slotOf t) := by
  rw [slots, h, dropEmptyLast, List.map_append, List.map_singleton, List.getLast?_concat]
  simp only [List.dropLast_concat, Text.isEmpty_trimSpan hlast]
  split
  · exact List.map_map
  · rw [← List.map_singleton, ← List.map_append, List.map_map]
    rfl

/-- Parts are trimmed to slots one by one exactly when the slots are those of the parts. -/
theorem forall₂_trims_iff {spans : List Span} (hs : ∀ part ∈ spans, part.stop ≤ t.length)
    {slots : List (Option Span)} :
    List.Forall₂ (Trims t) spans slots ↔ slots = spans.map (slotOf t) := by
  induction spans generalizing slots with
  | nil => rw [List.forall₂_nil_left_iff, List.map_nil]
  | cons part spans ih =>
    rw [List.forall₂_cons_left_iff, List.map_cons]
    simp only [trims_iff (hs part List.mem_cons_self),
      ih fun p hp => hs p (List.mem_cons_of_mem part hp)]
    constructor
    · rintro ⟨_, _, rfl, rfl, rfl⟩
      rfl
    · exact fun h => ⟨_, _, rfl, rfl, h⟩

/-- Where the brackets of a list are nested, its slots are those of its parts. -/
theorem slots_eq_iff (h : Nested (t.slice s)) (hstart : s.start ≤ s.stop) (hs : s.stop ≤ t.length)
    {found : List (Option Span)} : slots t s = found ↔ ListSlots t s found := by
  have hpieces := pieces_eq_parts h hstart hs
  have horder := pieces_inOrder hstart hs
  obtain ⟨kept, last, hparts⟩ := (List.eq_nil_or_concat' _).resolve_left
    (parts_ne_nil s ((separators 0 (t.slice s)).map (s.start + ·)))
  rw [hpieces, hparts] at horder
  -- the pieces lie in the list, so each of them can be trimmed on its own
  have hbounds : ∀ part ∈ kept ++ [last], part.stop ≤ t.length :=
    fun part hpart => (horder.bounds hpart).2.2.trans hs
  have hkept : ∀ part ∈ kept, part.stop ≤ t.length :=
    fun part hpart => hbounds part (List.mem_append_left _ hpart)
  have hlast := hbounds last (List.mem_append_right _ List.mem_cons_self)
  have hslot : ((kept ++ [last]).map (slotOf t)).getLast? = some (slotOf t last) := by
    rw [List.map_append, List.map_singleton, List.getLast?_concat]
  rw [slots_of_pieces (hpieces.trans hparts) hlast]
  constructor
  · rintro rfl
    split
    · next hblank => exact .short hparts ((forall₂_trims_iff hkept).2 rfl) hblank
    · next hword =>
      refine .full (hparts ▸ (forall₂_trims_iff hbounds).2 rfl) ?_
      rwa [hslot, ne_eq, Option.some_inj, slotOf_eq_none_iff hlast]
  · rintro (⟨hslots, hword⟩ | ⟨hparts', hslots, hblank⟩)
    -- a list without a blank last part keeps every part
    · rw [hparts, forall₂_trims_iff hbounds] at hslots
      subst hslots
      rw [hslot, ne_eq, Option.some_inj, slotOf_eq_none_iff hlast] at hword
      rw [if_neg hword]
    -- of a list with one the last part is dropped, whatever it is trimmed to
    · obtain ⟨rfl, hsame⟩ := List.append_inj' (hparts.symm.trans hparts') rfl
      obtain rfl := List.singleton_inj.1 hsame
      rw [if_pos hblank, (forall₂_trims_iff hkept).1 hslots]

end Bracket

end Stencil
