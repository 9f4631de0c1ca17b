import Stencil.Text.Escape
/-!
# Escaped texts hold no markers

What stands in a document for the result of a function cannot structure it: every marker of the
result is written as a code, and no code has a marker in it.
-/

namespace Stencil.Text

/-- A code has no marker in it. -/
theorem isMarker_of_mem_code {r : Reserved} {c : Char} (h : c ∈ r.code) : isMarker c = false := by
  have hall : ∀ c ∈ r.code, isMarker c = false := by
    cases r <;> simp [Reserved.code, isMarker]
  exact hall c h

/-- A character without a code of its own is no marker. -/
theorem isMarker_of_ofChar?_eq_none {c : Char} (h : Reserved.ofChar? c = none) :
    isMarker c = false := by
  simp only [Reserved.ofChar?, Reserved.all, Reserved.char, List.find?_eq_none, List.mem_cons,
    List.not_mem_nil, or_false, forall_eq_or_imp, forall_eq, beq_iff_eq] at h
  obtain ⟨hdollar, hopening, hclosing, hsemicolon, -⟩ := h
  simp [isMarker, Ne.symm hdollar, Ne.symm hopening, Ne.symm hclosing, Ne.symm hsemicolon]

/-- An escaped text has no markers, because each of them is written as a code. -/
theorem isMarker_of_mem_escape {t : Text} {c : Char} (h : c ∈ escape t) : isMarker c = false := by
  obtain ⟨x, -, hx⟩ := List.mem_flatMap.1 h
  unfold escapeChar at hx
  split at hx
  · exact isMarker_of_mem_code hx
  · next hnone =>
    obtain rfl : c = x := by simpa using hx
    exact isMarker_of_ofChar?_eq_none hnone

/-- Whatever is counted in an escaped text, it is not a marker. -/
theorem countP_escape {p : Char → Bool} (hp : ∀ c, p c = true → isMarker c = true) (t : Text) :
    (escape t).countP p = 0 := by
  refine List.countP_eq_zero.2 fun c hc hpc => ?_
  have := isMarker_of_mem_escape hc
  rw [hp c hpc] at this
  cases this

end Stencil.Text
