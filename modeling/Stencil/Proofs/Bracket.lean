import Mathlib.Data.List.TakeWhile
import Stencil.Bracket
import Stencil.Proofs.Span
/-!
# Where brackets and slots are

The bracket that closes another one stands behind it, and the slots between the two stand one behind
the other: pieces meet at the semicolons (`pieces_inOrder`), trimming shrinks each of them in place
(`trimSpan_bounds`), and dropping empty ones leaves the others where they are (`slots_inOrder`).
-/

namespace Stencil

namespace Text

/-- Runs from the two ends of a text do not overlap, unless the text is one run. -/
theorem length_takeWhile_add_reverse_le {p : Char → Bool} {t : Text}
    (h : (t.takeWhile p).length ≠ t.length) :
    (t.takeWhile p).length + (t.reverse.takeWhile p).length ≤ t.length := by
  -- so some character of the text does not have the property
  obtain ⟨x, rest, hrest⟩ : ∃ x rest, t.dropWhile p = x :: rest := by
    cases hd : t.dropWhile p with
    | nil =>
      have hall : t.takeWhile p = t := by
        have := List.takeWhile_append_dropWhile (p := p) (l := t)
        rwa [hd, List.append_nil] at this
      rw [hall] at h
      exact absurd rfl h
    | cons x rest => exact ⟨x, rest, rfl⟩
  have hx : p x = false := by
    have := List.head?_dropWhile_not p t
    rw [hrest] at this
    simpa using this
  have ht : t = t.takeWhile p ++ x :: rest := by
    rw [← hrest, List.takeWhile_append_dropWhile]
  -- the run at the end does not reach over the first character without the property
  have hend : (t.reverse.takeWhile p).length ≤ rest.length := by
    rw [ht, List.reverse_append, List.reverse_cons, List.append_assoc, List.takeWhile_append]
    split
    · simp [hx]
    · simpa using (List.takeWhile_prefix p (l := rest.reverse)).length_le
  have hlen := congrArg List.length ht
  simp only [List.length_append, List.length_cons] at hlen
  omega

/-- Trimming a span shrinks it in place. -/
theorem trimSpan_bounds (t : Text) {s : Span} (h : s.start ≤ s.stop) (hs : s.stop ≤ t.length) :
    s.start ≤ (trimSpan t s).start ∧ (trimSpan t s).start ≤ (trimSpan t s).stop ∧
      (trimSpan t s).stop ≤ s.stop := by
  -- the two runs of blanks fit into the span side by side
  have hlen : (t.slice s).length = s.stop - s.start := Span.length_cut_of_le hs
  unfold trimSpan
  simp only
  split
  · exact ⟨Nat.le_refl _, Nat.le_refl _, h⟩
  · next hne =>
    have := length_takeWhile_add_reverse_le hne
    simp only
    omega

/-- Of blanks alone trimming leaves nothing. -/
theorem trim_eq_nil {p : Text} (h : isBlankText p = true) : trim p = [] := by
  have hdrop : p.dropWhile isBlank = [] := by
    rw [List.dropWhile_eq_nil_iff]
    exact List.all_eq_true.1 h
  rw [trim, trimStart, hdrop]
  rfl

/-- A text is what trimming leaves of it, with the blanks around. -/
theorem eq_blanks_trim (p : Text) :
    p = p.takeWhile isBlank ++
      (trim p ++ ((p.dropWhile isBlank).reverse.takeWhile isBlank).reverse) := by
  have hend := List.takeWhile_append_dropWhile (p := isBlank) (l := (p.dropWhile isBlank).reverse)
  have hrev := congrArg List.reverse hend
  rw [List.reverse_append, List.reverse_reverse] at hrev
  rw [trim, trimStart, trimEnd, hrev, List.takeWhile_append_dropWhile]

/-- Trimming a text leaves a part of it. -/
theorem trim_infix (p : Text) : trim p <:+: p := by
  conv_rhs => rw [eq_blanks_trim p]
  exact (List.prefix_append _ _).isInfix.trans (List.suffix_append _ _).isInfix

/-- Trimming a span takes blanks off its ends and leaves the trimmed text. -/
theorem exists_trimSpan (t : Text) {s : Span} (hs : s.stop ≤ t.length) :
    ∃ before behind, t.slice s = before ++ (trim (t.slice s) ++ behind) ∧
      (∀ c ∈ before, isBlank c = true) ∧ (∀ c ∈ behind, isBlank c = true) ∧
      trimSpan t s = ⟨s.start + before.length,
        s.start + before.length + (trim (t.slice s)).length⟩ := by
  have hlen : (t.slice s).length = s.stop - s.start := Span.length_cut_of_le hs
  generalize hp : t.slice s = p at hlen
  have hblank : ∀ (l : Text), ∀ c ∈ l.takeWhile isBlank, isBlank c = true :=
    fun l c hc => List.mem_takeWhile_imp hc
  unfold trimSpan
  simp only [hp]
  split
  -- a span of blanks is left with nothing
  · next h =>
    have hall : isBlankText p = true := by
      rw [isBlankText, List.all_eq_true]
      exact List.takeWhile_eq_self_iff.1 ((List.takeWhile_prefix isBlank).eq_of_length h)
    refine ⟨[], p, ?_, by simp, List.all_eq_true.1 hall, ?_⟩
    · rw [trim_eq_nil hall, List.nil_append, List.nil_append]
    · rw [trim_eq_nil hall]
      rfl
  · next h =>
    -- otherwise blanks are cut off at both ends and something is kept between
    have hsplit := eq_blanks_trim p
    refine ⟨_, _, hsplit, hblank p, fun c hc => hblank _ c (List.mem_reverse.1 hc), ?_⟩
    -- the run of blanks at the end does not reach over the first other character
    have hend : p.reverse.takeWhile isBlank = (p.dropWhile isBlank).reverse.takeWhile isBlank := by
      obtain ⟨x, rest, hrest⟩ : ∃ x rest, p.dropWhile isBlank = x :: rest := by
        refine List.exists_cons_of_ne_nil fun hnil => h ?_
        have := List.takeWhile_append_dropWhile (p := isBlank) (l := p)
        rw [hnil, List.append_nil] at this
        rw [this]
      have hx : isBlank x = false := by
        have := List.head?_dropWhile_not isBlank p
        rw [hrest] at this
        simpa using this
      have hp : p.reverse = (x :: rest).reverse ++ (p.takeWhile isBlank).reverse := by
        rw [← hrest, ← List.reverse_append, List.takeWhile_append_dropWhile]
      rw [hp, hrest, List.reverse_cons, List.append_assoc]
      simp [List.takeWhile_append, hx]
    have hlength := congrArg List.length hsplit
    have hle := length_takeWhile_add_reverse_le h
    simp only [List.length_append, List.length_reverse] at hlength
    rw [hend]
    congr 1
    rw [hend] at hle
    omega
/-- What is left of a span is the trimmed text. -/
theorem slice_trimSpan {t : Text} {s : Span} (hs : s.stop ≤ t.length) :
    t.slice (trimSpan t s) = trim (t.slice s) := by
  obtain ⟨before, behind, hslice, -, -, htrim⟩ := exists_trimSpan t hs
  rw [htrim]
  exact Span.cut_mid hslice

/-- A span is left with nothing exactly where it holds but blanks. -/
theorem isEmpty_trimSpan {t : Text} {s : Span} (hs : s.stop ≤ t.length) :
    (trimSpan t s).isEmpty = isBlankText (t.slice s) := by
  obtain ⟨before, behind, hslice, hbefore, hbehind, htrim⟩ := exists_trimSpan t hs
  -- the trimmed span is empty exactly when trimming leaves nothing of its text
  have hempty : (trimSpan t s).isEmpty = true ↔ trim (t.slice s) = [] := by
    rw [htrim, Span.isEmpty, decide_eq_true_iff, ← List.length_eq_zero_iff]
    simp only
    omega
  rw [Bool.eq_iff_iff, hempty]
  constructor
  · intro h
    rw [h, List.nil_append] at hslice
    rw [hslice, isBlankText, List.all_eq_true]
    intro c hc
    rcases List.mem_append.1 hc with hc | hc
    · exact hbefore c hc
    · exact hbehind c hc
  · exact trim_eq_nil

/-- What trimming takes off a span are blanks. -/
theorem slice_eq_blanks {t : Text} {s : Span} (hs : s.stop ≤ t.length) :
    ∃ before behind, t.slice s = before ++ (t.slice (trimSpan t s) ++ behind) ∧
      (∀ c ∈ before, isBlank c = true) ∧ ∀ c ∈ behind, isBlank c = true := by
  obtain ⟨before, behind, hslice, hbefore, hbehind, -⟩ := exists_trimSpan t hs
  exact ⟨before, behind, by rwa [slice_trimSpan hs], hbefore, hbehind⟩

end Text

namespace Bracket

/-! ### Closing brackets -/

/-- The bracket that is found stands at or behind the place where the search begins, and is a
closing one. -/
theorem closingFrom_bounds {i depth k : Nat} {t : Text} (h : closingFrom i depth t = some k) :
    i ≤ k ∧ t[k - i]? = some ']' := by
  induction t generalizing i depth with
  | nil => cases h
  | cons c cs ih =>
    -- a step that does not stop here finds the bracket one position further on
    have step : ∀ {d}, closingFrom (i + 1) d cs = some k → i ≤ k ∧ (c :: cs)[k - i]? = some ']' := by
      intro d hd
      obtain ⟨hle, hget⟩ := ih hd
      have hk : k - i = k - (i + 1) + 1 := by omega
      exact ⟨by omega, by rwa [hk, List.getElem?_cons_succ]⟩
    unfold closingFrom at h
    split at h
    · exact step h
    · split at h
      · next hc =>
        split at h
        · obtain rfl : i = k := by simpa using h
          simp [hc]
        · exact step h
      · exact step h

/-- The same in the whole text. -/
theorem getElem?_of_closing? {t : Text} {i k : Nat} (h : closing? t i = some k) :
    i ≤ k ∧ t[k]? = some ']' := by
  obtain ⟨hle, hget⟩ := closingFrom_bounds h
  rw [List.getElem?_drop, Nat.add_sub_cancel' hle] at hget
  exact ⟨hle, hget⟩

/-- The bracket that closes an opening one stands behind it. -/
theorem lt_of_closing? {t : Text} {i k : Nat} (h : closing? t i = some k) (hi : t[i]? = some '[') :
    i < k := by
  obtain ⟨hle, hget⟩ := getElem?_of_closing? h
  rcases Nat.lt_or_eq_of_le hle with hlt | rfl
  · exact hlt
  · rw [hi] at hget
    cases hget

/-! ### Pieces and slots -/

/-- Cutting at semicolons gives, behind the pieces already cut, spans that stand one behind the
other. -/
theorem piecesFrom_inOrder (start i depth : Nat) (done : List Span) (t : Text) (h : start ≤ i) :
    ∃ spans, piecesFrom start i depth done t = done.reverse ++ spans ∧
      Span.InOrder start (i + t.length) spans := by
  induction t generalizing start i depth done with
  | nil => exact ⟨[⟨start, i⟩], by simp [piecesFrom], Nat.le_refl _, h, Nat.le_refl _⟩
  | cons c cs ih =>
    have hlen : i + (c :: cs).length = i + 1 + cs.length := by simp only [List.length_cons]; omega
    rw [hlen]
    unfold piecesFrom
    split
    · exact ih _ _ _ _ (by omega)
    · split
      · exact ih _ _ _ _ (by omega)
      · split
        -- a semicolon ends the piece, and the next one begins behind it
        · obtain ⟨spans, heq, horder⟩ := ih (i + 1) (i + 1) depth
            (⟨start, i⟩ :: done) (Nat.le_refl _)
          refine ⟨⟨start, i⟩ :: spans, ?_, Nat.le_refl _, h, horder.mono (by simp) (Nat.le_refl _)⟩
          rw [heq, List.reverse_cons, List.append_assoc, List.singleton_append]
        · exact ih _ _ _ _ (by omega)

/-- The pieces of a list stand in it one behind the other. -/
theorem pieces_inOrder {t : Text} {s : Span} (h : s.start ≤ s.stop) (hs : s.stop ≤ t.length) :
    Span.InOrder s.start s.stop (pieces t s) := by
  obtain ⟨spans, heq, horder⟩ := piecesFrom_inOrder s.start s.start 0 [] (t.slice s)
    (Nat.le_refl _)
  have hlen : (t.slice s).length = s.stop - s.start := Span.length_cut_of_le hs
  rw [hlen, Nat.add_sub_cancel' h] at horder
  rwa [pieces, heq, List.reverse_nil, List.nil_append]

/-- Dropping an empty last span only leaves spans out. -/
theorem dropEmptyLast_sublist (spans : List Span) : (dropEmptyLast spans).Sublist spans := by
  unfold dropEmptyLast
  split
  · split
    · exact List.dropLast_sublist spans
    · exact .refl spans
  · exact .refl spans

/-- The slots that are not empty stand one behind the other. -/
theorem slots_inOrder {t : Text} {s : Span} (h : s.start ≤ s.stop) (hs : s.stop ≤ t.length) :
    Span.InOrder s.start s.stop ((slots t s).filterMap id) := by
  have hpieces := pieces_inOrder h hs
  have htrim : Span.InOrder s.start s.stop ((pieces t s).map (Text.trimSpan t)) := by
    refine hpieces.map fun p hp => ?_
    obtain ⟨-, hle, hstop⟩ := hpieces.bounds hp
    exact Text.trimSpan_bounds t hle (Nat.le_trans hstop hs)
  -- the slots that are there are the trimmed pieces that are not empty
  have hsome : (slots t s).filterMap id =
      (dropEmptyLast ((pieces t s).map (Text.trimSpan t))).filter (!·.isEmpty) := by
    rw [slots, List.filterMap_map, ← List.filterMap_eq_filter]
    congr 1
    funext p
    by_cases hp : p.isEmpty = true <;> simp [Option.guard, hp]
  rw [hsome]
  exact htrim.sublist (List.filter_sublist.trans (dropEmptyLast_sublist _))

end Bracket

end Stencil
