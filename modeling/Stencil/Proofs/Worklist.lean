import Mathlib.Data.List.Perm.Basic
import Mathlib.Data.List.TakeWhile
import Stencil.Worklist
/-!
# What a worklist tells about a text

A worklist is read off the pieces of the lines of a text. Each piece but the first of a line stands
behind a `$`, so every entry is a name that stands somewhere in the text (`stands_of_mem_ofText`).
Up to their order the entries come from the `$` of the text one by one (`ofText_perm`).
-/

namespace Stencil

namespace Text

/-- The pieces between the occurrences of one character put the text together again. -/
theorem splitLoop_singleton (c : Char) (piece : Text) (done : List Text) (t : Text) :
    ∃ first rest, splitLoop [c] 0 piece done t = done.reverse ++ (piece.reverse ++ first) :: rest ∧
      t = first ++ rest.flatMap (c :: ·) := by
  induction t generalizing piece done with
  | nil => exact ⟨[], [], by simp [splitLoop], rfl⟩
  | cons x t ih =>
    by_cases hx : c = x
    · subst hx
      obtain ⟨first, rest, heq, ht⟩ := ih [] (piece.reverse :: done)
      refine ⟨[], first :: rest, ?_, by rw [ht]; rfl⟩
      simp [splitLoop, heq]
    · obtain ⟨first, rest, heq, ht⟩ := ih (x :: piece) done
      refine ⟨x :: first, rest, ?_, by rw [List.cons_append, ← ht]⟩
      simp [splitLoop, hx, heq]

theorem split_singleton (c : Char) (t : Text) :
    ∃ first rest, split [c] t = first :: rest ∧ t = first ++ rest.flatMap (c :: ·) := by
  obtain ⟨first, rest, heq, ht⟩ := splitLoop_singleton c [] [] t
  exact ⟨first, rest, by simpa [split] using heq, ht⟩

theorem splitLoop_eq_modifyHead (c : Char) (piece : Text) (done : List Text) (t : Text) :
    splitLoop [c] 0 piece done t =
      done.reverse ++ (split [c] t).modifyHead (piece.reverse ++ ·) := by
  have hsplit : ∀ u, split [c] u = splitLoop [c] 0 [] [] u := fun _ => rfl
  rw [hsplit]
  induction t generalizing piece done with
  | nil => simp [splitLoop]
  | cons x t ih =>
    by_cases hx : c = x
    · subst hx
      simp only [splitLoop, List.isPrefixOf, beq_self_eq_true, Bool.and_self, if_true,
        List.length_singleton, Nat.sub_self]
      rw [ih [] (piece.reverse :: done), ih [] [[].reverse]]
      generalize splitLoop [c] 0 [] [] t = pieces
      cases pieces <;> simp
    · have hne : (c == x) = false := beq_false_of_ne hx
      simp only [splitLoop, List.isPrefixOf, hne, Bool.false_and, Bool.false_eq_true, if_false]
      rw [ih (x :: piece) done, ih [x] []]
      generalize splitLoop [c] 0 [] [] t = pieces
      cases pieces <;> simp

/-- A separator ends a piece that is empty so far; any other character goes in front of the first
piece. -/
theorem split_cons (c x : Char) (t : Text) :
    split [c] (x :: t) =
      if c = x then [] :: split [c] t else (split [c] t).modifyHead (x :: ·) := by
  have hsplit : split [c] (x :: t) = splitLoop [c] 0 [] [] (x :: t) := rfl
  rw [hsplit, splitLoop]
  by_cases hx : c = x
  · subst hx
    simp only [List.isPrefixOf, beq_self_eq_true, Bool.and_self, if_true, List.length_singleton,
      Nat.sub_self]
    rw [splitLoop_eq_modifyHead]
    cases split [c] t <;> simp
  · have hne : (c == x) = false := beq_false_of_ne hx
    simp only [List.isPrefixOf, hne, Bool.false_and, Bool.false_eq_true, if_false, if_neg hx]
    rw [splitLoop_eq_modifyHead]
    rfl

/-- Texts on the two sides of a separator are cut apart. -/
theorem split_append_cons (c : Char) (t rest : Text) :
    split [c] (t ++ c :: rest) = split [c] t ++ split [c] rest := by
  induction t with
  | nil =>
    rw [List.nil_append, split_cons, if_pos rfl]
    rfl
  | cons x t ih =>
    rw [List.cons_append, split_cons, split_cons, ih]
    split
    · rfl
    · obtain ⟨first, more, heq, -⟩ := split_singleton c t
      rw [heq]
      rfl

/-- The first piece ends at the first separator. -/
theorem exists_split_eq_cons (c : Char) (t : Text) :
    ∃ rest, split [c] t = t.takeWhile (· ≠ c) :: rest := by
  induction t with
  | nil => exact ⟨[], rfl⟩
  | cons x t ih =>
    obtain ⟨rest, heq⟩ := ih
    rw [split_cons, List.takeWhile_cons]
    by_cases hx : c = x
    · exact ⟨split [c] t, by simp [hx]⟩
    · exact ⟨rest, by simp [hx, Ne.symm hx, heq]⟩

/-- A piece behind a separator stands in the text together with it. -/
theorem infix_of_mem_split_drop {c : Char} {t piece : Text} (h : piece ∈ (split [c] t).drop 1) :
    c :: piece <:+: t := by
  obtain ⟨first, rest, heq, ht⟩ := split_singleton c t
  rw [heq, List.drop_one, List.tail_cons] at h
  obtain ⟨before, behind, hrest⟩ := List.append_of_mem h
  refine ⟨first ++ before.flatMap (c :: ·), behind.flatMap (c :: ·), ?_⟩
  rw [ht, hrest]
  simp

theorem infix_of_mem_split {c : Char} {t piece : Text} (h : piece ∈ split [c] t) :
    piece <:+: t := by
  obtain ⟨first, rest, heq, ht⟩ := split_singleton c t
  rw [heq] at h
  rcases List.mem_cons.1 h with rfl | hmem
  · exact ⟨[], rest.flatMap (c :: ·), ht.symm⟩
  · have hbehind : piece ∈ (split [c] t).drop 1 := by rwa [heq]
    exact (List.suffix_cons c piece).isInfix.trans (infix_of_mem_split_drop hbehind)

end Text

/-- Of two names that stand at the same position the shorter one begins the other. -/
theorem Text.startsFolded_of_length_le {name other t : Text} (h : startsFolded name t = true)
    (hother : startsFolded other t = true) (hle : name.length ≤ other.length) :
    startsFolded name other = true := by
  rw [startsFolded_iff] at h hother ⊢
  have htake := congrArg (List.take name.length) hother
  simp only [lowerAscii, ← List.map_take, List.take_take, Nat.min_eq_left hle] at h htake ⊢
  rw [← htake, h]

namespace Worklist

/-- Which name is the longest depends only on which names the text begins with. -/
theorem longestName?_congr {names : List Text} {t t' : Text}
    (h : ∀ name ∈ names, Text.startsFolded name t = Text.startsFolded name t') :
    longestName? names t = longestName? names t' := by
  have hfold : ∀ (names : List Text) (best : Option Text),
      (∀ name ∈ names, Text.startsFolded name t = Text.startsFolded name t') →
      names.foldl (longerName? t) best = names.foldl (longerName? t') best := by
    intro names
    induction names with
    | nil => exact fun _ _ => rfl
    | cons name names ih =>
      intro best h
      rw [List.foldl_cons, List.foldl_cons, longerName?, longerName?, h name List.mem_cons_self]
      exact ih _ fun other hother => h other (List.mem_cons_of_mem name hother)
  exact hfold names none h

theorem startsFolded_of_longestName? {names : List Text} {t name : Text}
    (h : longestName? names t = some name) : Text.startsFolded name t = true := by
  -- the best name so far always stands at the head of the text
  have keeps : ∀ (names : List Text) (best : Option Text),
      (∀ b ∈ best, Text.startsFolded b t = true) →
      ∀ b ∈ names.foldl (longerName? t) best, Text.startsFolded b t = true := by
    intro names
    induction names with
    | nil => exact fun _ h => h
    | cons n names ih =>
      intro best hbest
      refine ih _ fun b hb => ?_
      unfold longerName? at hb
      split at hb
      · next hn =>
        obtain rfl : n = b := by simpa using hb
        exact (Bool.and_eq_true_iff.1 hn).1
      · exact hbest b hb
  exact keeps names none (by simp) name h

/-- A worklist holds names that were looked for. -/
theorem mem_of_mem_ofText {names : List Text} {t name : Text} (h : name ∈ ofText names t) :
    name ∈ names := by
  obtain ⟨line, -, hline⟩ := List.mem_flatMap.1 h
  obtain ⟨segment, -, hname⟩ := List.mem_filterMap.1 hline
  unfold nameBehind? at hname
  split at hname
  · cases hname
  · exact longestName?_mem (Option.filter_eq_some_iff.1 hname).1

/-- Every name in the worklist of a text stands somewhere in the text. -/
theorem stands_of_mem_ofText {names : List Text} {t name : Text} (h : name ∈ ofText names t) :
    ∃ i, Text.startsFolded name (t.drop i) = true := by
  obtain ⟨line, hmem, hline⟩ := List.mem_flatMap.1 h
  obtain ⟨segment, hsegment, hname⟩ := List.mem_filterMap.1 hline
  unfold nameBehind? at hname
  split at hname
  · cases hname
  · have hstarts := startsFolded_of_longestName? (Option.filter_eq_some_iff.1 hname).1
    have hinfix := (Text.infix_of_mem_split_drop (List.mem_reverse.1 hsegment)).trans
      (Text.infix_of_mem_split hmem)
    obtain ⟨before, behind, rfl⟩ := hinfix
    refine ⟨before.length, ?_⟩
    rw [List.append_assoc, List.drop_left]
    exact Search.startsBy_append behind hstarts

/-! ### The entries of a text

The lines and the order within a line say when an entry is done. Which entries there are is a matter
of the `$` alone. -/

/-- The texts behind the `$` of a text, each up to the next `$` or to the end of the line. -/
def behind : Text → List Text
  | [] => []
  | c :: t => if c = '$' then t.takeWhile (fun c => c ≠ '$' && c ≠ '\n') :: behind t else behind t

theorem mem_behind (lead rest : Text) :
    rest.takeWhile (fun c => c ≠ '$' && c ≠ '\n') ∈ behind (lead ++ '$' :: rest) := by
  induction lead with
  | nil => exact List.mem_cons_self
  | cons c lead ih =>
    rw [List.cons_append, behind]
    split
    · exact List.mem_cons_of_mem _ ih
    · exact ih

theorem flatMap_split (t : Text) :
    (Text.split ['\n'] t).flatMap (fun line => (Text.split ['$'] line).drop 1) = behind t := by
  induction t with
  | nil => rfl
  | cons c t ih =>
    rw [Text.split_cons, behind]
    by_cases hline : '\n' = c
    -- a line that ends at once has no `$`
    · subst hline
      rw [if_pos rfl, if_neg (by decide), List.flatMap_cons, ih]
      rfl
    obtain ⟨lines, hlines⟩ := Text.exists_split_eq_cons '\n' t
    rw [hlines, List.flatMap_cons] at ih
    rw [if_neg hline, hlines, List.modifyHead_cons, List.flatMap_cons, Text.split_cons]
    by_cases hdollar : '$' = c
    · subst hdollar
      obtain ⟨pieces, hpieces⟩ := Text.exists_split_eq_cons '$' (t.takeWhile (· ≠ '\n'))
      rw [hpieces, List.takeWhile_takeWhile, List.drop_one, List.tail_cons] at ih
      rw [if_pos rfl, if_pos rfl, hpieces, List.takeWhile_takeWhile, List.drop_one, List.tail_cons,
        List.cons_append, ih]
      simp
    · rw [if_neg hdollar, if_neg (Ne.symm hdollar), ← ih]
      cases Text.split ['$'] (t.takeWhile (· ≠ '\n')) <;> rfl

/-- The entries come from the `$` of the text one by one. -/
theorem ofText_perm (names : List Text) (t : Text) :
    (ofText names t).Perm ((behind t).filterMap (nameBehind? names)) := by
  rw [← flatMap_split, List.filterMap_flatMap]
  refine List.Perm.flatMap_left _ fun line _ => ?_
  exact (List.reverse_perm _).filterMap _

/-- The entries of the lines above a line break come before those of the lines below it. -/
theorem ofText_break (names : List Text) (above below : Text) :
    ofText names (above ++ '\n' :: below) = ofText names above ++ ofText names below := by
  rw [ofText, Text.split_append_cons, List.flatMap_append]
  rfl

/-! ### Names that do not begin one another -/

/-- A `$` and ASCII letters. -/
def Lettered (name : Text) : Prop := ∃ stem, name = '$' :: stem ∧ ∀ c ∈ stem, c.isAlpha = true

/-- No name begins another one. -/
def PrefixFree (names : List Text) : Prop :=
  ∀ name ∈ names, ∀ other ∈ names, Text.startsFolded name other = true → name = other

instance (names : List Text) : Decidable (PrefixFree names) :=
  inferInstanceAs (Decidable (∀ name ∈ names, ∀ other ∈ names, _ = true → name = other))

/-- Two names that stand at the same position are the same. -/
theorem PrefixFree.unique {names : List Text} (h : PrefixFree names) {name other t : Text}
    (hname : name ∈ names) (hother : other ∈ names) (hstands : Text.startsFolded name t = true)
    (hstands' : Text.startsFolded other t = true) : name = other := by
  rcases Nat.le_total name.length other.length with hle | hle
  · exact h name hname other hother (Text.startsFolded_of_length_le hstands hstands' hle)
  · exact (h other hother name hname (Text.startsFolded_of_length_le hstands' hstands hle)).symm

theorem isSome_longestName? {names : List Text} {name t : Text} (hname : name ∈ names)
    (hstands : Text.startsFolded name t = true) : (longestName? names t).isSome = true := by
  -- a name that was found is kept or exchanged for a longer one
  have keeps : ∀ (names : List Text) (best : Option Text), best.isSome = true ∨ name ∈ names →
      (names.foldl (longerName? t) best).isSome = true := by
    intro names
    induction names with
    | nil =>
      intro best h
      exact h.resolve_right List.not_mem_nil
    | cons n names ih =>
      intro best h
      refine ih _ ?_
      have hbest : best.isSome = true → (longerName? t best n).isSome = true := by
        intro hsome
        unfold longerName?
        split
        · rfl
        · exact hsome
      rcases h with h | h
      · exact .inl (hbest h)
      · rcases List.mem_cons.1 h with rfl | h
        · refine .inl ?_
          cases best with
          | none => simp [longerName?, hstands]
          | some b => exact hbest rfl
        · exact .inr h
  exact keeps names none (.inr hname)

/-- Among names that do not begin one another the one that stands there is the longest. -/
theorem PrefixFree.longestName? {names : List Text} (h : PrefixFree names) {name t : Text}
    (hname : name ∈ names) (hstands : Text.startsFolded name t = true) :
    longestName? names t = some name := by
  obtain ⟨best, hbest⟩ := Option.isSome_iff_exists.1 (isSome_longestName? hname hstands)
  rw [hbest, h.unique (longestName?_mem hbest) hname (startsFolded_of_longestName? hbest) hstands]

/-- It is the entry of the `$`, unless there are but blanks behind it. -/
theorem PrefixFree.nameBehind? {names : List Text} (h : PrefixFree names)
    (hne : ∀ name ∈ names, name ≠ []) {name segment : Text} (hname : name ∈ names)
    (hstands : Text.startsFolded name ('$' :: segment) = true)
    (hblank : Text.isBlankText segment = false) : nameBehind? names segment = some name := by
  rw [nameBehind?_of_ne_nil hne, hblank, if_neg Bool.false_ne_true, h.longestName? hname hstands]

/-- Names of letters of which none begins another one, and none is a control name. -/
structure Callable (names : List Text) : Prop where
  letters : ∀ name ∈ names, Lettered name
  prefixFree : PrefixFree names
  not_control : ∀ name ∈ names, isControl name = false

/-- Names of letters of which none begins another one, and none begins a control name or goes on
like it. -/
structure Separate (names : List Text) : Prop where
  letters : ∀ name ∈ names, Lettered name
  prefixFree : PrefixFree names
  not_begins : ∀ name ∈ names, ∀ control ∈ controlNames, Text.startsFolded name control = false
  not_extends : ∀ name ∈ names, ∀ control ∈ controlNames, Text.startsFolded control name = false

/-- With the control names they do not begin one another either. -/
theorem Separate.withControls {names : List Text} (h : Separate names) :
    PrefixFree (withControls names) := by
  have hcontrols : PrefixFree controlNames := by
    intro name hname other hother
    simp only [controlNames, List.mem_cons, List.not_mem_nil, or_false] at hname hother
    rcases hname with rfl | rfl <;> rcases hother with rfl | rfl <;> decide
  intro name hname other hother hstarts
  rcases List.mem_append.1 hname with hname | hname <;>
    rcases List.mem_append.1 hother with hother | hother
  · exact h.prefixFree name hname other hother hstarts
  · rw [h.not_begins name hname other (List.mem_filter.1 hother).1] at hstarts
    cases hstarts
  · rw [h.not_extends other hother name (List.mem_filter.1 hname).1] at hstarts
    cases hstarts
  · exact hcontrols name (List.mem_filter.1 hname).1 other (List.mem_filter.1 hother).1 hstarts

end Worklist

end Stencil
