import Mathlib.Data.List.Basic
import Mathlib.Data.Nat.Basic
import Mathlib.Order.Basic
import Stencil.Document.Basic
/-!
# Spans as cuts of lists

The text of a document, its cells and whatever else runs along with them are lists of one length,
and a span cuts the same part out of each. `cut`, `graft` and `gather` are what slicing, splicing
and gathering a document do to such a list.

`InOrder lo hi spans` says that spans follow one another between two positions. That is what keeps
the parts of a call or of a block apart: parts in order share no position (`InOrder.pairwise`), and
what they hold stands in the same order in the stretch they lie in (`InOrder.gather_sublist`).
-/

namespace Stencil.Span

variable {α β : Type}

/-- The elements of a list in a span. -/
def cut (s : Span) (l : List α) : List α := (l.drop s.start).take (s.stop - s.start)

/-- The list with the elements of a span replaced. -/
def graft (s : Span) (r l : List α) : List α := l.take s.start ++ r ++ l.drop s.stop

/-- The elements in several spans, one span after the other. -/
def gather (spans : List Span) (l : List α) : List α := spans.flatMap (·.cut l)

@[simp] theorem gather_nil (l : List α) : gather [] l = [] := rfl

@[simp] theorem gather_cons (s : Span) (spans : List Span) (l : List α) :
    gather (s :: spans) l = s.cut l ++ gather spans l := rfl

/-- Spans are gathered one behind the other. -/
theorem gather_append (spans more : List Span) (l : List α) :
    gather (spans ++ more) l = gather spans l ++ gather more l :=
  List.flatMap_append

/-- A gathering holds what each of its spans does. -/
theorem countP_cut_le_gather {s : Span} {spans : List Span} (hs : s ∈ spans) (p : α → Bool)
    (l : List α) : (s.cut l).countP p ≤ (gather spans l).countP p := by
  obtain ⟨before, behind, rfl⟩ := List.append_of_mem hs
  rw [gather_append, gather_cons, List.countP_append, List.countP_append]
  omega

theorem map_cut (f : α → β) (s : Span) (l : List α) : (s.cut l).map f = s.cut (l.map f) := by
  simp [cut, List.map_take, List.map_drop]

theorem map_graft (f : α → β) (s : Span) (r l : List α) :
    (s.graft r l).map f = s.graft (r.map f) (l.map f) := by
  simp [graft, List.map_take, List.map_drop]

theorem map_gather (f : α → β) (spans : List Span) (l : List α) :
    (gather spans l).map f = gather spans (l.map f) := by
  rw [gather, List.map_flatMap]
  exact List.flatMap_congr fun s _ => map_cut f s l

/-- What is cut out can be put back. -/
theorem graft_cut {s : Span} (hs : s.start ≤ s.stop) (l : List α) : s.graft (s.cut l) l = l := by
  have hrest := List.take_append_drop (s.stop - s.start) (l.drop s.start)
  rw [List.drop_drop, Nat.add_sub_cancel' hs] at hrest
  rw [graft, List.append_assoc, cut, hrest, List.take_append_drop]

/-- What comes in for a span may be less of what the span held, as far as some elements go. -/
theorem filter_graft_sublist {s : Span} (hs : s.start ≤ s.stop) {p : α → Bool} {r l : List α}
    (h : (r.filter p).Sublist ((s.cut l).filter p)) :
    ((s.graft r l).filter p).Sublist (l.filter p) := by
  have hgraft : ((s.graft r l).filter p).Sublist ((s.graft (s.cut l) l).filter p) := by
    simp only [graft, List.filter_append]
    exact ((List.Sublist.refl _).append h).append (List.Sublist.refl _)
  rwa [graft_cut hs] at hgraft

/-- What comes in for a span may be less of what the span held. -/
theorem graft_sublist {s : Span} (hs : s.start ≤ s.stop) {r l : List α} (h : r.Sublist (s.cut l)) :
    (s.graft r l).Sublist l := by
  have hgraft : (s.graft r l).Sublist (s.graft (s.cut l) l) :=
    ((List.Sublist.refl _).append h).append (List.Sublist.refl _)
  rwa [graft_cut hs] at hgraft

theorem length_cut (s : Span) (l : List α) :
    (s.cut l).length = min (s.stop - s.start) (l.length - s.start) := by
  simp [cut]

theorem length_cut_of_le {s : Span} {l : List α} (h : s.stop ≤ l.length) :
    (s.cut l).length = s.stop - s.start := by
  rw [length_cut]
  omega

/-- A position of a part is one of the whole, counted from where the part begins. -/
theorem getElem?_cut (s : Span) (l : List α) (i : Nat) :
    (s.cut l)[i]? = if i < s.stop - s.start then l[s.start + i]? else none := by
  rw [cut, List.getElem?_take, List.getElem?_drop]

/-- A part is an infix. -/
theorem cut_isInfix (s : Span) (l : List α) : s.cut l <:+: l :=
  (List.take_prefix _ _).isInfix.trans (List.drop_suffix _ _).isInfix

theorem mem_of_mem_cut {s : Span} {l : List α} {a : α} (h : a ∈ s.cut l) : a ∈ l :=
  (s.cut_isInfix l).subset h

/-- What a part holds is between its ends. -/
theorem mem_cut_iff {s : Span} {l : List α} {a : α} :
    a ∈ s.cut l ↔ ∃ i, s.start ≤ i ∧ i < s.stop ∧ l[i]? = some a := by
  rw [List.mem_iff_getElem?]
  constructor
  · rintro ⟨i, hi⟩
    rw [getElem?_cut] at hi
    split at hi
    · exact ⟨s.start + i, by omega, by omega, hi⟩
    · cases hi
  · rintro ⟨i, hstart, hstop, hi⟩
    refine ⟨i - s.start, ?_⟩
    rw [getElem?_cut, if_pos (by omega), Nat.add_sub_cancel' hstart]
    exact hi

/-- What stands before a span or behind it remains after a graft. -/
theorem mem_graft_of_outside {s : Span} {l : List α} {a : α} {i : Nat} (hi : l[i]? = some a)
    (hout : i < s.start ∨ s.stop ≤ i) (r : List α) : a ∈ s.graft r l := by
  rcases hout with hbefore | hbehind
  · have hget : (l.take s.start)[i]? = some a := by rw [List.getElem?_take, if_pos hbefore, hi]
    exact List.mem_append_left _ (List.mem_append_left _ (List.mem_of_getElem? hget))
  · obtain ⟨n, rfl⟩ := Nat.exists_eq_add_of_le hbehind
    exact List.mem_append_right _ (List.mem_of_getElem? (by rw [List.getElem?_drop, hi]))

/-- What remains after a graft stood before the span or behind it, or came in. -/
theorem mem_graft {s : Span} {r l : List α} {a : α} (h : a ∈ s.graft r l) :
    a ∈ r ∨ ∃ i, (i < s.start ∨ s.stop ≤ i) ∧ l[i]? = some a := by
  rcases List.mem_append.1 h with h | h
  -- in front of the span, in what was put in, or behind the span
  · rcases List.mem_append.1 h with h | h
    · obtain ⟨i, hi⟩ := List.mem_iff_getElem?.1 h
      rw [List.getElem?_take] at hi
      split at hi
      · next hlt => exact .inr ⟨i, .inl hlt, hi⟩
      · cases hi
    · exact .inl h
  · obtain ⟨i, hi⟩ := List.mem_iff_getElem?.1 h
    rw [List.getElem?_drop] at hi
    exact .inr ⟨s.stop + i, .inr (Nat.le_add_right _ _), hi⟩

/-- What remains after a graft stood at the same position before the span, or it stood behind the
span, where the same follows it. -/
theorem getElem?_graft_cases {s : Span} {r l : List α} {a : α} {k : Nat}
    (hk : (s.graft r l)[k]? = some a) (ha : a ∉ r) :
    (k < s.start ∧ l[k]? = some a) ∨
      ∃ j, s.stop ≤ j ∧ l[j]? = some a ∧ (s.graft r l).drop k = l.drop j := by
  rw [graft] at hk ⊢
  -- the position is in front of the span, in what was put in, or behind it
  by_cases hleft : k < (l.take s.start).length
  · rw [List.append_assoc, List.getElem?_append_left hleft, List.getElem?_take] at hk
    rw [List.length_take] at hleft
    have hlt : k < s.start := by omega
    rw [if_pos hlt] at hk
    exact .inl ⟨hlt, hk⟩
  by_cases hmid : k < (l.take s.start ++ r).length
  · rw [List.getElem?_append_left hmid, List.getElem?_append_right (Nat.le_of_not_lt hleft)] at hk
    exact absurd (List.mem_of_getElem? hk) ha
  · obtain ⟨m, rfl⟩ := Nat.exists_eq_add_of_le (Nat.le_of_not_lt hmid)
    rw [List.getElem?_append_right (Nat.le_add_right _ _), Nat.add_sub_cancel_left,
      List.getElem?_drop] at hk
    refine .inr ⟨s.stop + m, Nat.le_add_right _ _, hk, ?_⟩
    rw [← List.drop_drop, List.drop_left, List.drop_drop]

/-- A part of a beginning does not depend on what comes behind it. -/
theorem cut_append_left {s : Span} {l : List α} (hstart : s.start ≤ l.length)
    (hstop : s.stop ≤ l.length) (rest : List α) : s.cut (l ++ rest) = s.cut l := by
  rw [cut, cut, List.drop_append_of_le_length hstart, List.take_append_of_le_length]
  rw [List.length_drop]
  omega

/-- What stands behind is not touched. -/
theorem graft_append {s : Span} {l : List α} (hstart : s.start ≤ l.length) (hstop : s.stop ≤ l.length)
    (r rest : List α) : s.graft r (l ++ rest) = s.graft r l ++ rest := by
  rw [graft, graft, List.take_append_of_le_length hstart, List.drop_append_of_le_length hstop,
    List.append_assoc _ _ rest]

/-- What a span holds behind its first element, and what stands around it. -/
theorem exists_eq_append_cons {s : Span} {l : List α} {a : α} (ha : l[s.start]? = some a)
    (hlt : s.start < s.stop) (hle : s.stop ≤ l.length) :
    ∃ before mid behind, l = before ++ a :: (mid ++ behind) ∧ before.length = s.start ∧
      s.stop = s.start + 1 + mid.length ∧ s.cut l = a :: mid ∧
      ∀ r, s.graft r l = before ++ (r ++ behind) := by
  -- the first element of the span is taken off, and the rest of the span is counted from there
  obtain ⟨hin, hget⟩ := List.getElem?_eq_some_iff.1 ha
  have hdrop : l.drop s.start = a :: l.drop (s.start + 1) := by
    rw [← hget]
    exact List.drop_eq_getElem_cons hin
  obtain ⟨n, hn⟩ : ∃ n, s.stop = s.start + 1 + n := Nat.exists_eq_add_of_le hlt
  have hbehind : (l.drop (s.start + 1)).drop n = l.drop s.stop := by rw [List.drop_drop, hn]
  refine ⟨l.take s.start, (l.drop (s.start + 1)).take n, l.drop s.stop, ?_, ?_, ?_, ?_, fun r => ?_⟩
  · rw [← hbehind, List.take_append_drop, ← hdrop, List.take_append_drop]
  · rw [List.length_take]
    omega
  · rw [List.length_take, List.length_drop]
    omega
  · rw [cut, hdrop, hn, Nat.add_assoc, Nat.add_sub_cancel_left, Nat.add_comm 1 n,
      List.take_succ_cons]
  · rw [graft, List.append_assoc]

/-- Two spans that meet cut out what the span of both does. -/
theorem cut_append {lo mid hi : Nat} (h₁ : lo ≤ mid) (h₂ : mid ≤ hi) (l : List α) :
    (mk lo mid).cut l ++ (mk mid hi).cut l = (mk lo hi).cut l := by
  have hdrop : l.drop mid = (l.drop lo).drop (mid - lo) := by
    rw [List.drop_drop]
    congr 1
    omega
  have hlen : hi - lo = (mid - lo) + (hi - mid) := by omega
  simp only [cut]
  rw [hdrop, hlen, List.take_add]

/-- A part of what a span cuts out is cut out by a span of its own. -/
theorem cut_mid {s : Span} {l a b c : List α} (h : s.cut l = a ++ (b ++ c)) :
    (mk (s.start + a.length) (s.start + a.length + b.length)).cut l = b := by
  have hdrop : l.drop s.start = a ++ (b ++ (c ++ (l.drop s.start).drop (s.stop - s.start))) := by
    have hsplit := (List.take_append_drop (s.stop - s.start) (l.drop s.start)).symm
    rw [cut] at h
    rwa [h, List.append_assoc, List.append_assoc] at hsplit
  rw [cut, ← List.drop_drop, hdrop, List.drop_left, Nat.add_sub_cancel_left, List.take_left]

/-! ### Spans in order -/

/-- Spans that follow one another between two positions. -/
def InOrder : Nat → Nat → List Span → Prop
  | lo, hi, [] => lo ≤ hi
  | lo, hi, s :: spans => lo ≤ s.start ∧ s.start ≤ s.stop ∧ InOrder s.stop hi spans

namespace InOrder

variable {lo hi : Nat} {spans : List Span}

theorem le (h : InOrder lo hi spans) : lo ≤ hi := by
  induction spans generalizing lo with
  | nil => exact h
  | cons s spans ih =>
    obtain ⟨h₁, h₂, h₃⟩ := h
    have := ih h₃
    omega

/-- Wider bounds are bounds. -/
theorem mono {lo' hi' : Nat} (h : InOrder lo hi spans) (hlo : lo' ≤ lo) (hhi : hi ≤ hi') :
    InOrder lo' hi' spans := by
  induction spans generalizing lo lo' with
  | nil => exact hlo.trans (h.le.trans hhi)
  | cons s spans ih =>
    obtain ⟨h₁, h₂, h₃⟩ := h
    exact ⟨hlo.trans h₁, h₂, ih h₃ le_rfl⟩

/-- Spans that follow others are in order behind them. -/
theorem append {mid : Nat} {more : List Span} (h : InOrder lo mid spans)
    (h' : InOrder mid hi more) : InOrder lo hi (spans ++ more) := by
  induction spans generalizing lo with
  | nil => exact h'.mono h le_rfl
  | cons s spans ih =>
    obtain ⟨h₁, h₂, h₃⟩ := h
    exact ⟨h₁, h₂, ih h₃⟩

/-- Each of the spans is within the bounds. -/
theorem bounds (h : InOrder lo hi spans) {s : Span} (hs : s ∈ spans) :
    lo ≤ s.start ∧ s.start ≤ s.stop ∧ s.stop ≤ hi := by
  induction spans generalizing lo with
  | nil => cases hs
  | cons s' spans ih =>
    obtain ⟨h₁, h₂, h₃⟩ := h
    rcases List.mem_cons.1 hs with rfl | hs
    · exact ⟨h₁, h₂, h₃.le⟩
    · have := ih h₃ hs
      omega

/-- Leaving out spans keeps the others in order. -/
theorem sublist {fewer : List Span} (h : InOrder lo hi spans) (hsub : fewer.Sublist spans) :
    InOrder lo hi fewer := by
  induction hsub generalizing lo with
  | slnil => exact h
  | cons s _ ih =>
    obtain ⟨h₁, h₂, h₃⟩ := h
    exact (ih h₃).mono (h₁.trans h₂) le_rfl
  | cons_cons s _ ih =>
    obtain ⟨h₁, h₂, h₃⟩ := h
    exact ⟨h₁, h₂, ih h₃⟩

/-- Spans may shrink in place. -/
theorem map (h : InOrder lo hi spans) {f : Span → Span}
    (hf : ∀ s ∈ spans, s.start ≤ (f s).start ∧ (f s).start ≤ (f s).stop ∧ (f s).stop ≤ s.stop) :
    InOrder lo hi (spans.map f) := by
  induction spans generalizing lo with
  | nil => exact h
  | cons s spans ih =>
    obtain ⟨h₁, h₂, h₃⟩ := h
    obtain ⟨f₁, f₂, f₃⟩ := hf s List.mem_cons_self
    have hrest := ih h₃ fun t ht => hf t (List.mem_cons_of_mem s ht)
    exact ⟨h₁.trans f₁, f₂, hrest.mono f₃ le_rfl⟩

/-- An earlier span ends before a later one begins. -/
theorem pairwise (h : InOrder lo hi spans) : spans.Pairwise (·.stop ≤ ·.start) := by
  induction spans generalizing lo with
  | nil => exact .nil
  | cons s spans ih =>
    obtain ⟨-, -, h₃⟩ := h
    exact .cons (fun t ht => (h₃.bounds ht).1) (ih h₃)

/-- What spans in order hold stands in this order in the stretch that they lie in. -/
theorem gather_sublist (h : InOrder lo hi spans) (l : List α) :
    (gather spans l).Sublist ((mk lo hi).cut l) := by
  induction spans generalizing lo with
  | nil => exact List.nil_sublist _
  | cons s spans ih =>
    obtain ⟨start, stop⟩ := s
    obtain ⟨h₁, h₂, h₃⟩ : lo ≤ start ∧ start ≤ stop ∧ InOrder stop hi spans := h
    have hrest := ih h₃
    rw [gather_cons, ← cut_append (h₁.trans h₂) h₃.le l, ← cut_append h₁ h₂ l]
    exact (List.sublist_append_right _ _).append hrest

/-- It is counted once. -/
theorem countP_gather_le (h : InOrder lo hi spans) (p : α → Bool) (l : List α) :
    (gather spans l).countP p ≤ ((mk lo hi).cut l).countP p :=
  (h.gather_sublist l).countP_le

end InOrder

end Stencil.Span

namespace Stencil.Text

/-- A text stands where the span of its length cuts it out. -/
theorem slice_of_drop {t inner rest : Text} {n : Nat} (h : t.drop n = inner ++ rest) :
    t.slice ⟨n, n + inner.length⟩ = inner := by
  rw [slice, h, Nat.add_sub_cancel_left, List.take_left]

end Stencil.Text

/-! ### Documents

A slice, a splice and a gathering cut the cells and the text alike. -/

namespace Stencil.Document

theorem cells_slice_eq_cut (d : Document) (s : Span) : (d.slice s).cells = s.cut d.cells :=
  cells_slice d s

theorem text_slice_eq_cut (d : Document) (s : Span) : (d.slice s).text = s.cut d.text :=
  text_slice d s

theorem cells_splice_eq_graft (d : Document) (s : Span) (e : Document) :
    (d.splice s e).cells = s.graft e.cells d.cells :=
  cells_splice d s e

theorem text_splice_eq_graft (d : Document) (s : Span) (e : Document) :
    (d.splice s e).text = s.graft e.text d.text :=
  text_splice d s e

theorem cells_gather_eq (d : Document) (spans : List Span) :
    (d.gather spans).cells = Span.gather spans d.cells := by
  rw [cells_gather]
  exact List.flatMap_congr fun s _ => cells_slice d s

/-- A slice of source text is source text. -/
theorem slice_source (t : Text) (s : Span) : (source t).slice s = source (t.slice s) := by
  refine ext_cells ?_
  rw [cells_slice, cells_source, cells_source, ← List.map_drop, ← List.map_take]
  rfl

theorem text_gather_eq (d : Document) (spans : List Span) :
    (d.gather spans).text = Span.gather spans d.text := by
  rw [← map_fst_cells, cells_gather_eq, Span.map_gather, map_fst_cells]

end Stencil.Document
