import Stencil.Proofs.Balanced
import Stencil.Proofs.Called
/-!
# Texts that close what they open

Where a text closes every bracket that it opens (`Bracket.Closed`), what is closed in it is closed
in the same way whatever stands behind it (`Bracket.Closed.closing?_append`). A call is balanced
(`CallSite.Covers.balanced`), so a result without brackets can take its place
(`Bracket.Closed.replace`).
-/

namespace Stencil

namespace Bracket

variable {t u : Text}

/-! ### Brackets and what stands behind them -/

/-- Brackets are closed as far behind as the search begins. -/
theorem closingFrom_add (i n depth : Nat) (t : Text) :
    closingFrom (i + n) depth t = (closingFrom i depth t).map (· + n) := by
  induction t generalizing i depth with
  | nil => rfl
  | cons c t ih =>
    have hstep : ∀ depth, closingFrom (i + n + 1) depth t =
        (closingFrom (i + 1) depth t).map (· + n) := by
      intro depth
      rw [← ih, Nat.add_right_comm]
    simp only [closingFrom]
    split
    · exact hstep _
    · split
      · split
        · rfl
        · exact hstep _
      · exact hstep _

/-- A search inside of brackets ends in the text whatever stands behind it, or it goes on behind
the text, still inside of brackets. -/
theorem closingFrom_append_cases (i : Nat) {depth : Nat} (hdepth : 1 ≤ depth) (t : Text) :
    (∃ k, ∀ rest, closingFrom i depth (t ++ rest) = some k) ∨
      ∃ depth', 1 ≤ depth' ∧
        ∀ rest, closingFrom i depth (t ++ rest) = closingFrom (i + t.length) depth' rest := by
  induction t generalizing i depth with
  | nil => exact .inr ⟨depth, hdepth, fun _ => rfl⟩
  | cons c t ih =>
    have hlen : i + (c :: t).length = i + 1 + t.length := by
      rw [List.length_cons]
      omega
    simp only [List.cons_append, closingFrom, hlen]
    split
    -- an opening bracket is one more to be closed
    · exact ih (i + 1) (Nat.le_add_left 1 depth)
    · split
      · split
        · exact .inl ⟨i, fun _ => rfl⟩
        · exact ih (i + 1) (by omega)
      · exact ih (i + 1) hdepth

/-! ### Closed texts -/

/-- Every bracket that the text opens is closed in it. -/
def Closed (t : Text) : Prop := ∀ i, t[i]? = some '[' → (closing? t i).isSome = true

instance (t : Text) : Decidable (Closed t) :=
  decidable_of_iff (∀ i < t.length, t[i]? = some '[' → (closing? t i).isSome = true)
    ⟨fun h i hi => h i (List.getElem?_eq_some_iff.1 hi).1 hi, fun h i _ hi => h i hi⟩

/-- What is closed is closed in the same way whatever stands behind the text. -/
theorem Closed.closing?_append (h : Closed t) {i : Nat} (hi : t[i]? = some '[') (rest : Text) :
    ∃ k, closing? (t ++ rest) i = some k ∧ k < t.length := by
  obtain ⟨k, hk⟩ := Option.isSome_iff_exists.1 (h i hi)
  obtain ⟨inner, behind, hdrop, rfl, hinner⟩ := (closing?_eq_some_iff hi).1 hk
  have hlt := (List.getElem?_eq_some_iff.1 hi).1
  have hlen := congrArg List.length hdrop
  simp only [List.length_drop, List.length_cons, List.length_append] at hlen
  have hdrop' : (t ++ rest).drop i = '[' :: (inner ++ ']' :: (behind ++ rest)) := by
    rw [List.drop_append_of_le_length hlt.le, hdrop]
    simp
  exact ⟨i + 1 + inner.length, hinner.balanced.closing? hdrop', by omega⟩

/-- A balanced text can take the place of another one, if it opens no bracket. -/
theorem Closed.replace (old : Text) {before new behind : Text} (h : Closed (before ++ (old ++ behind)))
    (hold : Balanced old) (hnew : Balanced new) (hopen : '[' ∉ new) :
    Closed (before ++ (new ++ behind)) := by
  -- what is closed far from the position that one counts from is closed near it
  have hshift : ∀ {i j depth : Nat} {t : Text}, (closingFrom i depth t).isSome = true →
      (closingFrom j depth t).isSome = true := by
    intro i j depth t hsome
    rw [← Nat.zero_add i, closingFrom_add, Option.isSome_map] at hsome
    rw [← Nat.zero_add j, closingFrom_add, Option.isSome_map, hsome]
  intro i hi
  rcases Nat.lt_or_ge i before.length with hlt | hge
  · have hi' : (before ++ (old ++ behind))[i]? = some '[' := by
      rwa [List.getElem?_append_left hlt] at hi ⊢
    have hclosed := h i hi'
    rw [List.getElem?_append_left hlt] at hi
    obtain ⟨_, hget⟩ := List.getElem?_eq_some_iff.1 hi
    have hdrop : ∀ rest, (before ++ rest).drop i = '[' :: (before.drop (i + 1) ++ rest) := by
      intro rest
      rw [List.drop_append_of_le_length hlt.le, List.drop_eq_getElem_cons hlt, hget]
      rfl
    rw [closing?, hdrop, closingFrom, if_pos rfl] at hclosed ⊢
    rcases closingFrom_append_cases (i + 1) (Nat.le_add_left 1 0) (before.drop (i + 1)) with
      ⟨k, hk⟩ | ⟨depth, hdepth, hrest⟩
    · rw [hk]
      rfl
    · rw [hrest, hold _ _ _ hdepth] at hclosed
      rw [hrest, hnew _ _ _ hdepth]
      exact hshift hclosed
  · obtain ⟨n, rfl⟩ := Nat.exists_eq_add_of_le hge
    rw [List.getElem?_append_right hge, Nat.add_sub_cancel_left] at hi
    rcases Nat.lt_or_ge n new.length with hlt | hge'
    · rw [List.getElem?_append_left hlt] at hi
      exact absurd (List.mem_of_getElem? hi) hopen
    · obtain ⟨m, rfl⟩ := Nat.exists_eq_add_of_le hge'
      rw [List.getElem?_append_right hge', Nat.add_sub_cancel_left] at hi
      have hi' : (before ++ (old ++ behind))[before.length + (old.length + m)]? = some '[' := by
        rw [List.getElem?_append_right (by omega), Nat.add_sub_cancel_left,
          List.getElem?_append_right (by omega), Nat.add_sub_cancel_left, hi]
      have hclosed := h _ hi'
      have hdrop : ∀ mid : Text, (before ++ (mid ++ behind)).drop
          (before.length + (mid.length + m)) = behind.drop m := by
        intro mid
        rw [← List.drop_drop, List.drop_left, ← List.drop_drop, List.drop_left]
      rw [closing?, hdrop] at hclosed ⊢
      exact hshift hclosed

end Bracket

/-! ### Calls -/

namespace CallSite.Covers

variable {d : Document} {name : Text} {span : Span} {slots : List (Option Span)}

/-- The name of a call has no brackets. -/
theorem not_bracket (h : Covers d name span slots)
    (hletters : ∀ a ∈ name, a = '$' ∨ a.isAlpha = true) {m : Nat} {c : Char}
    (hlo : span.start ≤ m) (hhi : m < span.start + name.length) (hc : d.text[m]? = some c) :
    c ≠ '[' ∧ c ≠ ']' := by
  obtain ⟨n, rfl⟩ := Nat.exists_eq_add_of_le hlo
  have hn : n < name.length := by omega
  obtain ⟨c', hc', hlike⟩ := h.name_at.getElem? (List.getElem?_eq_getElem hn)
  obtain rfl : c = c' := Option.some.inj (hc.symm.trans hc')
  rcases hletters name[n] (List.getElem_mem hn) with hdollar | halpha
  · rw [hdollar] at hlike
    obtain rfl : c = '$' := (toLower_eq_iff rfl).1 (beq_iff_eq.1 hlike).symm
    exact ⟨by decide, by decide⟩
  · have hplain := Apart.isMarker_of_isAlpha
      (Content.isAlpha_of_toLower_eq halpha (beq_iff_eq.1 hlike))
    constructor <;> rintro rfl <;> cases hplain

/-- A call is balanced. -/
theorem balanced (h : Covers d name span slots)
    (hletters : ∀ a ∈ name, a = '$' ∨ a.isAlpha = true) :
    Bracket.Balanced (span.cut d.text) := by
  rcases h.shape with ⟨-, hstop, -⟩ | ⟨opening, hopening, hlt, hclosing, -⟩
  · refine .of_plain fun c hc => ?_
    obtain ⟨m, hlo, hhi, hget⟩ := Span.mem_cut_iff.1 hc
    exact h.not_bracket hletters hlo (hstop ▸ hhi) hget
  · obtain ⟨hle, hopen, hplain⟩ := listOpening?_eq_some_iff.1 hopening
    obtain ⟨inner, rest, hdrop, hstop, hinner⟩ :=
      (Bracket.closing?_eq_some_iff hopen).1 hclosing
    have hstart : span.start ≤ opening := by omega
    have hcut : span.cut d.text =
        (Span.mk span.start opening).cut d.text ++ (Span.mk opening span.stop).cut d.text :=
      (Span.cut_append hstart (by omega) d.text).symm
    have hlist : (Span.mk opening span.stop).cut d.text = '[' :: (inner ++ [']']) := by
      have hlen : span.stop - opening = ('[' :: (inner ++ [']'])).length := by
        simp only [List.length_cons, List.length_append, List.length_nil]
        omega
      have hshape : '[' :: (inner ++ ']' :: rest) = ('[' :: (inner ++ [']'])) ++ rest := by simp
      rw [Span.cut, hdrop, hlen, hshape, List.take_left]
    rw [hcut, hlist]
    refine .append (.of_plain fun c hc => ?_) hinner.balanced.brackets
    obtain ⟨m, hlo, hhi, hget⟩ := Span.mem_cut_iff.1 hc
    -- between the name and the bracket there is no marker
    rcases Nat.lt_or_ge m (span.start + name.length) with hname | hgap
    · exact h.not_bracket hletters hlo hname hget
    · have hmarker := hplain m c hgap hhi hget
      constructor <;> rintro rfl <;> cases hmarker

end CallSite.Covers

end Stencil
