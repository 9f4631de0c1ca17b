import Mathlib.Data.List.Infix
import Mathlib.Data.Nat.Find
import Stencil.Text.Split
/-!
# The first occurrence of a separator

A text is cut at a separator first where the separator stands first (`exists_first`,
`split_append`), and not at all where it does not stand (`split_eq_singleton`). What stands in a
text made of parts stands in the one with whose characters it is written (`infix_right`,
`infix_left`), or on one side of a character that it does not have (`infix_append_cons`).
-/

namespace Stencil

namespace Text

variable {sep s t a b : Text} {c : Char}

/-! ### The first occurrence of a separator -/

theorem contains_iff : contains sep t = true ↔ sep <:+: t := by
  rw [contains, Option.isSome_iff_exists]
  constructor
  · rintro ⟨n, hn⟩
    have hstands := (Search.first?_eq_some_iff.1 hn).2.1
    exact (List.isPrefixOf_iff_prefix.1 hstands).isInfix.trans (List.drop_suffix n t).isInfix
  · rintro ⟨before, behind, rfl⟩
    have hex : ∃ n, sep.isPrefixOf ((before ++ sep ++ behind).drop n) = true := by
      refine ⟨before.length, List.isPrefixOf_iff_prefix.2 ?_⟩
      rw [List.append_assoc, List.drop_left]
      exact List.prefix_append _ _
    refine ⟨Nat.find hex, Search.first?_eq_some_iff.2 ⟨?_, Nat.find_spec hex, fun m hm => ?_⟩⟩
    · refine (Nat.find_min' hex (m := before.length) ?_).trans (by simp)
      rw [List.append_assoc, List.drop_left]
      exact List.isPrefixOf_iff_prefix.2 (List.prefix_append _ _)
    · exact Bool.eq_false_iff.2 (Nat.find_min hex hm)

/-- What stands in a text stands there for the first time somewhere: it does not begin earlier, also
not so that it reaches over that place. -/
theorem exists_first (h : sep <:+: t) (hne : sep ≠ []) :
    ∃ a rest, t = a ++ (sep ++ rest) ∧ ¬ sep <:+: a ++ sep.dropLast := by
  induction t with
  | nil => exact absurd (List.infix_nil.1 h) hne
  | cons c t ih =>
    by_cases hstarts : sep <+: c :: t
    · obtain ⟨rest, hrest⟩ := hstarts
      refine ⟨[], rest, hrest.symm, fun hin => ?_⟩
      have hlen := hin.length_le
      have hpos := List.length_pos_of_ne_nil hne
      rw [List.nil_append, List.length_dropLast] at hlen
      omega
    · obtain ⟨a, rest, rfl, hfirst⟩ := ih ((List.infix_cons_iff.1 h).resolve_left hstarts)
      refine ⟨c :: a, rest, rfl, fun hin => ?_⟩
      rcases List.infix_cons_iff.1 hin with hhead | htail
      · refine hstarts (hhead.trans ?_)
        show c :: (a ++ sep.dropLast) <+: c :: (a ++ (sep ++ rest))
        rw [List.cons_prefix_cons, List.prefix_append_right_inj]
        exact ⟨rfl, (List.dropLast_prefix sep).trans (List.prefix_append _ _)⟩
      · exact hfirst htail

theorem splitLoop_skip (n : Nat) (piece : Text) (done : List Text) (t : Text) :
    splitLoop sep n piece done t = splitLoop sep 0 piece done (t.drop n) := by
  induction t generalizing n with
  | nil => cases n <;> rfl
  | cons c t ih =>
    cases n with
    | zero => rfl
    | succ n => rw [splitLoop, ih, List.drop_succ_cons]

theorem splitLoop_done (n : Nat) (piece : Text) (done : List Text) (t : Text) :
    splitLoop sep n piece done t = done.reverse ++ splitLoop sep n piece [] t := by
  induction t generalizing n piece done with
  | nil => simp [splitLoop]
  | cons c t ih =>
    cases n with
    | succ n => rw [splitLoop, splitLoop, ih]
    | zero =>
      rw [splitLoop, splitLoop]
      split
      · rw [ih, ih _ _ [piece.reverse]]
        simp
      · rw [ih]

/-- A piece reaches up to the first occurrence of the separator. -/
theorem splitLoop_append (hne : sep ≠ []) (h : ¬ sep <:+: a ++ sep.dropLast) (piece : Text)
    (done : List Text) (rest : Text) :
    splitLoop sep 0 piece done (a ++ (sep ++ rest)) =
      splitLoop sep 0 [] ((piece.reverse ++ a) :: done) rest := by
  induction a generalizing piece with
  | nil =>
    obtain ⟨c, cs, rfl⟩ := List.exists_cons_of_ne_nil hne
    have hstarts : (c :: cs).isPrefixOf (c :: (cs ++ rest)) = true :=
      List.isPrefixOf_iff_prefix.2 (List.prefix_append (c :: cs) rest)
    rw [List.nil_append, List.cons_append, splitLoop, if_pos hstarts, splitLoop_skip,
      List.length_cons, Nat.add_sub_cancel, List.drop_left, List.append_nil]
  | cons c a ih =>
    have hstarts : ¬ sep <+: c :: (a ++ (sep ++ rest)) := by
      intro hin
      refine h (List.IsPrefix.isInfix (List.prefix_of_prefix_length_le hin ?_ ?_))
      · rw [List.cons_append, List.cons_prefix_cons, List.prefix_append_right_inj]
        exact ⟨rfl, (List.dropLast_prefix sep).trans (List.prefix_append _ _)⟩
      · rw [List.length_append, List.length_cons, List.length_dropLast]
        omega
    rw [List.cons_append, splitLoop, if_neg (mt List.isPrefixOf_iff_prefix.1 hstarts),
      ih fun hin => h (hin.trans (List.infix_cons (List.infix_refl _)))]
    simp

/-- The first piece reaches up to the first occurrence of the separator. -/
theorem split_append (hne : sep ≠ []) (h : ¬ sep <:+: a ++ sep.dropLast) (rest : Text) :
    split sep (a ++ (sep ++ rest)) = a :: split sep rest := by
  have hloop : ∀ u, split sep u = splitLoop sep 0 [] [] u := fun u =>
    if_neg fun hempty => hne (List.isEmpty_iff.1 hempty)
  rw [hloop, hloop, splitLoop_append hne h, splitLoop_done]
  rfl

theorem split_eq_singleton (h : ¬ sep <:+: t) : split sep t = [t] := by
  have hloop : ∀ piece, splitLoop sep 0 piece [] t = [piece.reverse ++ t] := by
    induction t with
    | nil => simp [splitLoop]
    | cons c t ih =>
      intro piece
      have hstarts : ¬ sep.isPrefixOf (c :: t) = true := fun hin =>
        h (List.isPrefixOf_iff_prefix.1 hin).isInfix
      have hrest : ¬ sep <:+: t := fun hin => h (hin.trans (List.suffix_cons c t).isInfix)
      rw [splitLoop, if_neg hstarts, ih hrest]
      simp
  rw [split]
  split
  · rfl
  · exact hloop []

/-- The first piece begins the text. -/
theorem isPrefix_headD_split (sep t : Text) : (split sep t).headD [] <+: t := by
  by_cases hin : sep <:+: t
  · by_cases hne : sep = []
    · rw [split, hne]
      exact List.prefix_refl t
    obtain ⟨a, rest, rfl, hfirst⟩ := exists_first hin hne
    rw [split_append hne hfirst]
    exact List.prefix_append _ _
  · rw [split_eq_singleton hin]
    exact List.prefix_refl t

/-! ### What stands in one part of a text -/

/-- What has no character of a part stands in the other one. -/
theorem infix_right (h : s <:+: a ++ b) (ha : ∀ c ∈ s, c ∉ a) (hne : s ≠ []) : s <:+: b := by
  rcases List.infix_append_iff.1 h with hin | hin | ⟨l, r, rfl, hl, hr⟩
  · obtain ⟨c, hc⟩ := List.exists_mem_of_ne_nil s hne
    exact absurd (hin.subset hc) (ha c hc)
  · exact hin
  · obtain rfl : l = [] := by
      refine List.eq_nil_iff_forall_not_mem.2 fun c hc => ?_
      exact ha c (List.mem_append_left r hc) (hl.subset hc)
    exact hr.isInfix

theorem infix_left (h : s <:+: a ++ b) (hb : ∀ c ∈ s, c ∉ b) (hne : s ≠ []) : s <:+: a := by
  rw [← List.reverse_infix, List.reverse_append] at h
  rw [← List.reverse_infix]
  exact infix_right h (fun c hc hmem => hb c (List.mem_reverse.1 hc) (List.mem_reverse.1 hmem))
    (mt List.reverse_eq_nil_iff.1 hne)

/-- What does not have a character stands on one side of it. -/
theorem infix_append_cons (h : s <:+: a ++ c :: b) (hc : c ∉ s) : s <:+: a ∨ s <:+: b := by
  rcases List.infix_append_iff.1 h with hin | hin | ⟨l, r, rfl, hl, hr⟩
  · exact .inl hin
  · rcases List.infix_cons_iff.1 hin with hhead | htail
    · rcases List.prefix_cons_iff.1 hhead with rfl | ⟨r, rfl, -⟩
      · exact .inl (List.nil_infix)
      · exact absurd List.mem_cons_self hc
    · exact .inr htail
  · rcases List.prefix_cons_iff.1 hr with rfl | ⟨r, rfl, -⟩
    · rw [List.append_nil]
      exact .inl hl.isInfix
    · exact absurd (List.mem_append_right l List.mem_cons_self) hc

end Text

end Stencil
