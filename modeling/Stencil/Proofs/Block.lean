import Mathlib.Data.List.Perm.Subperm
import Stencil.Block
import Stencil.Proofs.Balanced
import Stencil.Proofs.Bracket
import Stencil.Proofs.Keyword
/-!
# Where the parts of a block are

The block that `findInnermost` describes begins at the last `$if[` of the text and ends with the
first `$endif` behind its condition. Its conditions lie one behind the other
(`Laid.conditions_inOrder`) and share no position with what is chosen (`Laid.countP_gather_le`).
Each body is *fenced*: it begins behind a bracket or a keyword, or with a marker of its own, and
ends where a marker stands (`Laid.choice_laid`).
-/

namespace Stencil

/-- The spans of an alternative, in the order of the text. -/
def Alternative.spans (a : Alternative) : List Span := [a.condition, a.body]

/-- The alternative is written from one position up to another: `$elseif[`, its condition, `]`, its
body, and the `$endelseif` that may end it. -/
structure Alternative.Stands (t : Text) (a : Alternative) (i j : Nat) : Prop where
  opener : Keyword.elseIfOpen.StandsAt t i
  condition_start : a.condition.start = i + 8
  condition_le : a.condition.start ≤ a.condition.stop
  nested : Bracket.Nested (t.slice a.condition)
  closing : t[a.condition.stop]? = some ']'
  body_start : a.body.start = a.condition.stop + 1
  body_le : a.body.start ≤ a.body.stop
  ending : Keyword.endElseIf.StandsAt t a.body.stop ∧ j = a.body.stop + 10 ∨ j = a.body.stop

/-- The parts of an alternative stand in their order. -/
theorem Alternative.Stands.le {t : Text} {a : Alternative} {i j : Nat} (h : a.Stands t i j) :
    i < a.condition.start ∧ a.condition.stop < a.body.start ∧ a.body.stop ≤ j := by
  have hstart := h.condition_start
  have hbody := h.body_start
  rcases h.ending with ⟨-, hend⟩ | hend <;> omega

namespace Block

variable {t : Text} {strict : Bool}

/-! ### Fences -/

/-- What precedes the position is a closing bracket or a keyword, or else a marker stands there. -/
def FencedAt (t : Text) (i : Nat) : Prop :=
  (∃ j, i = j + 1 ∧ t[j]? = some ']') ∨ (∃ k j, Keyword.StandsAt k t j ∧ i = j + k.size) ∨
    t[i]? = some '$'

/-- A span that begins at a fence and ends before a marker. -/
def Fenced (t : Text) (s : Span) : Prop := FencedAt t s.start ∧ t[s.stop]? = some '$'

/-- A part is that span, unless it is empty. -/
theorem mem_part {s s' : Span} : s' ∈ part s ↔ s' = s ∧ s.isEmpty = false := by
  unfold part
  split
  · next h => simp [h]
  · next h => simp [h]

/-- An empty span leaves no part. -/
theorem part_self (i : Nat) : part ⟨i, i⟩ = [] := by
  simp [part, Span.isEmpty]

/-- What is gathered from a part is the text of the span, since an empty one has none. -/
theorem gather_part (s : Span) (t : Text) : Span.gather (part s) t = t.slice s := by
  rw [part]
  split
  · next hempty =>
    have hle : s.stop ≤ s.start := decide_eq_true_eq.mp hempty
    rw [Text.slice, Nat.sub_eq_zero_of_le hle]
    rfl
  · rw [Span.gather_cons, Span.gather_nil, List.append_nil]
    rfl

/-- A part lies within its bounds. -/
theorem part_inOrder {lo hi : Nat} (h : lo ≤ hi) : Span.InOrder lo hi (part ⟨lo, hi⟩) := by
  unfold part
  split
  · exact h
  · exact ⟨le_rfl, h, le_rfl⟩

/-- A part of a span that is fenced is fenced. -/
theorem fenced_part {s : Span} (h : Fenced t s) : ∀ s' ∈ part s, Fenced t s' := by
  intro s' hs'
  obtain ⟨rfl, -⟩ := mem_part.1 hs'
  exact h

/-! ### The body behind `$else` -/

/-- The `$else` that is found is one of those listed, and lies within the span. -/
theorem firstElse?_eq_some {within e : Span} {es : List Span}
    (h : firstElse? t within es = some e) : e ∈ es ∧ within.start ≤ e.start ∧ e.stop ≤ within.stop := by
  induction es with
  | nil => cases h
  | cons e' es ih =>
    rw [firstElse?] at h
    split at h
    · cases h
    · next hstop =>
      split at h
      · obtain ⟨hmem, hbounds⟩ := ih h
        exact ⟨List.mem_cons_of_mem e' hmem, hbounds⟩
      · next hstart =>
        obtain rfl : e' = e := by simpa using h
        simp only [Bool.or_eq_true, decide_eq_true_eq, not_or, Nat.not_lt] at hstart hstop
        exact ⟨List.mem_cons_self, hstart.1, hstop⟩

/-- The `$else` of a span lies in it. -/
theorem findElse?_eq_some {within e : Span} (h : findElse? t within = some e) :
    ∃ i, e = Keyword.otherwise.spanAt i ∧ Keyword.otherwise.StandsAt t i ∧ within.start ≤ i ∧
      i + 5 ≤ within.stop := by
  obtain ⟨hmem, hstart, hstop⟩ := firstElse?_eq_some h
  obtain ⟨i, hi, rfl⟩ := Keyword.mem_findAll.1 hmem
  exact ⟨i, rfl, hi, hstart, hstop⟩

/-- The parts of a region, split at an `$else`, are still in order, and fenced if they were. -/
theorem splitAtElse_laid {lo hi : Nat} {parts : List Span} (horder : Span.InOrder lo hi parts)
    (hfence : ∀ s ∈ parts, Fenced t s) :
    Span.InOrder lo hi ((splitAtElse t parts).1 ++ (splitAtElse t parts).2) ∧
      ∀ s ∈ (splitAtElse t parts).1 ++ (splitAtElse t parts).2, Fenced t s := by
  induction parts generalizing lo with
  | nil => exact ⟨horder, by simp [splitAtElse]⟩
  | cons p parts ih =>
    obtain ⟨hlo, hle, hrest⟩ := horder
    have hp := hfence p List.mem_cons_self
    have hlater : ∀ s ∈ parts, Fenced t s := fun s hs => hfence s (List.mem_cons_of_mem p hs)
    rw [splitAtElse]
    split
    · next e he =>
      obtain ⟨i, rfl, hi, hstart, hstop⟩ := findElse?_eq_some he
      -- the part is cut in two around the `$else`, which fences both halves
      have hfront : Span.InOrder p.start i (part ⟨p.start, i⟩) := part_inOrder hstart
      have hback : Span.InOrder (i + 5) p.stop (part ⟨i + 5, p.stop⟩) := part_inOrder hstop
      refine ⟨?_, fun s hs => ?_⟩
      · rw [← List.append_assoc]
        exact ((hfront.mono hlo le_rfl).append (hback.mono (by omega) le_rfl)).append hrest
      · rcases List.mem_append.1 hs with hs | hs
        · exact fenced_part (s := ⟨p.start, i⟩) ⟨hp.1, hi.getElem?_start⟩ s hs
        · rcases List.mem_append.1 hs with hs | hs
          · have hbehind : FencedAt t (i + 5) := .inr (.inl ⟨.otherwise, i, hi, rfl⟩)
            exact fenced_part (s := ⟨i + 5, p.stop⟩) ⟨hbehind, hp.2⟩ s hs
          · exact hlater s hs
    · obtain ⟨horder', hfence'⟩ := ih hrest hlater
      refine ⟨⟨hlo, hle, horder'⟩, fun s hs => ?_⟩
      rcases List.mem_cons.1 hs with rfl | hs
      · exact hp
      · exact hfence' s hs

/-- A split loses no more than the keyword. -/
theorem countP_gather_splitAtElse_le {lo hi : Nat} {parts : List Span} {α : Type} (p : α → Bool)
    (l : List α) (horder : Span.InOrder lo hi parts) :
    (Span.gather (splitAtElse t parts).1 l).countP p +
      (Span.gather (splitAtElse t parts).2 l).countP p ≤ (Span.gather parts l).countP p := by
  induction parts generalizing lo with
  | nil => simp [splitAtElse]
  | cons s parts ih =>
    obtain ⟨-, -, hrest⟩ := horder
    rw [splitAtElse]
    split
    · next e he =>
      obtain ⟨i, rfl, -, hstart, hstop⟩ := findElse?_eq_some he
      -- both halves lie in the part, one behind the other
      have hparts : Span.InOrder s.start s.stop (part ⟨s.start, i⟩ ++ part ⟨i + 5, s.stop⟩) :=
        (part_inOrder hstart).append ((part_inOrder hstop).mono (by omega) le_rfl)
      have hle : _ ≤ (s.cut l).countP p := hparts.countP_gather_le p l
      rw [Span.gather_append, List.countP_append] at hle
      simp only [Span.gather_append, Span.gather_cons, List.countP_append, Keyword.spanAt_start,
        Keyword.spanAt_stop, Keyword.size_otherwise]
      omega
    · have := ih hrest
      simp only [Span.gather_cons, List.countP_append]
      omega

/-! ### Alternatives -/

/-- How alternatives are cut out of a region that ends at `stop`: from a position on, what they
leave, and the alternatives. -/
inductive Cut (t : Text) (stop : Nat) : Nat → List Span → List Alternative → Prop
  | rest {i : Nat} (le : i ≤ stop) (fence : FencedAt t i) : Cut t stop i (part ⟨i, stop⟩) []
  | alternative {i j k : Nat} {a : Alternative} {parts : List Span} {later : List Alternative}
      (fence : FencedAt t i) (le : i ≤ j) (opener : Keyword.elseIfOpen.StandsAt t j)
      (condition_start : a.condition.start = j + 8)
      (condition_le : a.condition.start ≤ a.condition.stop)
      (closing : t[a.condition.stop]? = some ']')
      (body_start : a.body.start = a.condition.stop + 1) (body_le : a.body.start ≤ a.body.stop)
      (body_end : t[a.body.stop]? = some '$') (next_le : a.body.stop ≤ k)
      (next : Cut t stop k parts later) : Cut t stop i (part ⟨i, j⟩ ++ parts) (a :: later)

namespace Cut

variable {stop i : Nat} {parts : List Span} {alternatives : List Alternative}

/-- A cut never goes beyond the end of the region. -/
theorem le (h : Cut t stop i parts alternatives) : i ≤ stop := by
  induction h with
  | rest le => exact le
  | alternative => omega

/-- What the alternatives leave is in order, the alternatives are, and so are both together. -/
theorem inOrder (h : Cut t stop i parts alternatives) :
    Span.InOrder i stop parts ∧ Span.InOrder i stop (alternatives.flatMap Alternative.spans) ∧
      ∃ spans, spans.Perm (alternatives.flatMap Alternative.spans ++ parts) ∧
        Span.InOrder i stop spans := by
  induction h with
  | rest le _ => exact ⟨part_inOrder le, le, _, .refl _, part_inOrder le⟩
  | @alternative i j k a parts later fence le opener cstart cle _ bstart ble _ nle next ih =>
    obtain ⟨hparts, hlater, spans, hperm, hspans⟩ := ih
    have hfront : Span.InOrder i j (part ⟨i, j⟩) := part_inOrder le
    have halt : Span.InOrder j k a.spans := ⟨by omega, cle, by omega, ble, nle⟩
    refine ⟨hfront.append (hparts.mono (by omega) le_rfl),
      (halt.append hlater).mono le le_rfl, part ⟨i, j⟩ ++ (a.spans ++ spans), ?_,
      hfront.append (halt.append hspans)⟩
    -- the part in front of the alternative moves behind all alternatives
    have hmove : (part ⟨i, j⟩ ++ (a.spans ++ later.flatMap Alternative.spans)).Perm
        ((a.spans ++ later.flatMap Alternative.spans) ++ part ⟨i, j⟩) := List.perm_append_comm
    have hfirst := (hperm.append_left a.spans).append_left (part ⟨i, j⟩)
    have hsecond := hmove.append_right parts
    simp only [List.flatMap_cons, List.append_assoc] at hfirst hsecond ⊢
    exact hfirst.trans hsecond

/-- The spans of alternatives hold what their conditions and their bodies do. -/
theorem countP_gather_spans {α : Type} (p : α → Bool) (l : List α)
    (alternatives : List Alternative) :
    (Span.gather (alternatives.flatMap Alternative.spans) l).countP p =
      (Span.gather (alternatives.map (·.condition)) l).countP p +
        (Span.gather (alternatives.map (·.body)) l).countP p := by
  induction alternatives with
  | nil => rfl
  | cons a alternatives ih =>
    simp only [List.flatMap_cons, List.map_cons, Span.gather_append, Span.gather_cons,
      List.countP_append, ih, Alternative.spans, Span.gather_nil, List.append_nil]
    omega

/-- Every part and every body is fenced, when a `$` stands behind the region. -/
theorem fenced (h : Cut t stop i parts alternatives) (hstop : t[stop]? = some '$') :
    (∀ s ∈ parts, Fenced t s) ∧ ∀ a ∈ alternatives, Fenced t a.body := by
  induction h with
  | rest _ fence => exact ⟨fenced_part ⟨fence, hstop⟩, by simp⟩
  | alternative fence _ opener _ _ closing bstart _ bend _ _ ih =>
    constructor
    · intro s hs
      rcases List.mem_append.1 hs with hs | hs
      · exact fenced_part ⟨fence, opener.getElem?_start⟩ s hs
      · exact ih.1 s hs
    · intro a' ha'
      rcases List.mem_cons.1 ha' with rfl | ha'
      · exact ⟨.inl ⟨_, bstart, closing⟩, bend⟩
      · exact ih.2 a' ha'

end Cut

/-- An alternative ends behind its `$endelseif`; without one it ends where the next alternative
begins, where `$else` does or with the region. -/
theorem alternativeAt_eq_ok {condition : Span} {next stop : Nat} {a : Alternative}
    (h : alternativeAt t strict condition next = .ok (a, stop)) (hle : condition.stop < next) :
    a.condition = condition ∧ a.body.start = condition.stop + 1 ∧ a.body.start ≤ a.body.stop ∧
      stop ≤ next ∧
      (Keyword.endElseIf.StandsAt t a.body.stop ∧ stop = a.body.stop + 10 ∨
        stop = a.body.stop ∧ (stop = next ∨ Keyword.otherwise.StandsAt t stop)) := by
  simp only [alternativeAt] at h
  split at h
  -- a body that ends with `$endelseif`
  · next e he =>
    obtain ⟨he, hend⟩ := Option.filter_eq_some_iff.1 he
    obtain ⟨i, rfl, hi, hat, -⟩ := Keyword.find?_eq_some_iff.1 he
    simp only [Except.ok.injEq, Prod.mk.injEq] at h
    obtain ⟨rfl, rfl⟩ := h
    exact ⟨rfl, rfl, hi, decide_eq_true_eq.mp hend, .inl ⟨hat, rfl⟩⟩
  · split at h
    · cases h
    -- without one the body ends with an `$else` or before what follows
    · simp only [Except.ok.injEq, Prod.mk.injEq] at h
      obtain ⟨rfl, rfl⟩ := h
      cases he : findElse? t ⟨condition.stop + 1, next⟩ with
      | none => exact ⟨rfl, rfl, hle, le_rfl, .inr ⟨rfl, .inl rfl⟩⟩
      | some e =>
        obtain ⟨i, rfl, hat, hstart, hstop⟩ := findElse?_eq_some he
        have hnext : i ≤ next := Nat.le_of_add_right_le hstop
        exact ⟨rfl, rfl, hstart, hnext, .inr ⟨rfl, .inr hat⟩⟩

/-- What holds of the rest of a region, and of an alternative with what stands in front of it where
it holds behind the alternative, holds of all that is cut out of a region. -/
theorem cutAlternatives_induction (Holds : Nat → List Span → List Alternative → Prop) {stop : Nat}
    (rest : ∀ i, i ≤ stop → FencedAt t i → Holds i (part ⟨i, stop⟩) [])
    (alternative : ∀ i j k a parts later, FencedAt t i → i ≤ j → a.Stands t j k →
      t[a.body.stop]? = some '$' → Holds k parts later →
      Holds i (part ⟨i, j⟩ ++ parts) (a :: later))
    {i : Nat} {openers parts : List Span} {alternatives : List Alternative}
    (h : cutAlternatives t strict stop i openers = .ok (parts, alternatives))
    (hopeners : ∀ o ∈ openers, ∃ j, o = Keyword.elseIfOpen.spanAt j ∧
      Keyword.elseIfOpen.StandsAt t j ∧ j < stop)
    (hle : i ≤ stop) (hfence : FencedAt t i) (hstop : t[stop]? = some '$') :
    Holds i parts alternatives := by
  induction openers generalizing i parts alternatives with
  | nil =>
    simp only [cutAlternatives, Except.ok.injEq, Prod.mk.injEq] at h
    obtain ⟨rfl, rfl⟩ := h
    exact rest i hle hfence
  | cons opener later ih =>
    have hlater : ∀ o ∈ later, ∃ j, o = Keyword.elseIfOpen.spanAt j ∧
        Keyword.elseIfOpen.StandsAt t j ∧ j < stop :=
      fun o ho => hopeners o (List.mem_cons_of_mem opener ho)
    obtain ⟨j, rfl, hat, hj⟩ := hopeners opener List.mem_cons_self
    rw [cutAlternatives] at h
    -- an opener inside of the alternative before is passed over
    by_cases hij : j < i
    · rw [Keyword.spanAt_start, if_pos hij] at h
      exact ih h hlater hle hfence
    · rw [Keyword.spanAt_start, if_neg hij] at h
      split at h
      · cases h
      · next closing hclosing =>
        obtain ⟨hclosing, hin⟩ := Option.filter_eq_some_iff.1 hclosing
        have hin : closing < stop := decide_eq_true_eq.mp hin
        have hopen : t[j + 7]? = some '[' := hat.getElem?_bracket rfl
        have hlt : j + 7 < closing := Bracket.lt_of_closing? hclosing hopen
        have hclose := (Bracket.getElem?_of_closing? hclosing).2
        -- the alternative ends before the next one or before the end of the region
        obtain ⟨next, hnext, hnextStop, hnextAt, hnextGet⟩ : ∃ next,
            ((later.find? (closing < ·.start)).map (·.start)).getD stop = next ∧
            next ≤ stop ∧ closing < next ∧ t[next]? = some '$' := by
          cases hfind : later.find? (closing < ·.start) with
          | none => exact ⟨stop, rfl, le_rfl, hin, hstop⟩
          | some o =>
            obtain ⟨m, rfl, hm, hmStop⟩ := hlater o (List.mem_of_find?_eq_some hfind)
            have hm' := List.find?_some hfind
            rw [Keyword.spanAt_start, decide_eq_true_eq] at hm'
            exact ⟨m, rfl, hmStop.le, hm', hm.getElem?_start⟩
        simp only [hnext] at h
        split at h
        · cases h
        · next a k ha =>
          -- the alternative is one that stands in the text, and the rest is cut behind it
          obtain ⟨hcond, hstart, hble, hknext, hending⟩ := alternativeAt_eq_ok ha hnextAt
          have hstands : a.Stands t j k := by
            refine ⟨hat, ?_, ?_, ?_, ?_, ?_, hble, hending.imp_right And.left⟩ <;> rw [hcond]
            · rfl
            · exact hlt
            · exact Bracket.nested_of_closing? hclosing hopen
            · exact hclose
            · exact hstart
          -- behind the body stands a keyword, and behind the alternative goes on what is fenced
          obtain ⟨hbodyEnd, hkfence⟩ : t[a.body.stop]? = some '$' ∧ FencedAt t k := by
            rcases hending with ⟨hend, rfl⟩ | ⟨rfl, rfl | helse⟩
            · exact ⟨hend.getElem?_start, .inr (.inl ⟨.endElseIf, _, hend, rfl⟩)⟩
            · exact ⟨hnextGet, .inr (.inr hnextGet)⟩
            · exact ⟨helse.getElem?_start, .inr (.inr helse.getElem?_start)⟩
          split at h
          · cases h
          · next parts' alternatives' hcut =>
            simp only [Except.ok.injEq, Prod.mk.injEq] at h
            obtain ⟨rfl, rfl⟩ := h
            have hrest := ih hcut hlater (hknext.trans hnextStop) hkfence
            exact alternative i j k a parts' alternatives' hfence (Nat.le_of_not_lt hij) hstands
              hbodyEnd hrest

/-- Cutting a region at its alternatives gives a cut. -/
theorem cut_of_cutAlternatives {stop i : Nat} {openers parts : List Span}
    {alternatives : List Alternative}
    (h : cutAlternatives t strict stop i openers = .ok (parts, alternatives))
    (hopeners : ∀ o ∈ openers, ∃ j, o = Keyword.elseIfOpen.spanAt j ∧
      Keyword.elseIfOpen.StandsAt t j ∧ j < stop)
    (hle : i ≤ stop) (hfence : FencedAt t i) (hstop : t[stop]? = some '$') :
    Cut t stop i parts alternatives := by
  refine cutAlternatives_induction (Cut t stop) (fun _ => .rest) ?_ h hopeners hle hfence hstop
  intro i j k a parts later hfence hle hstands hend hrest
  exact .alternative hfence hle hstands.opener hstands.condition_start hstands.condition_le
    hstands.closing hstands.body_start hstands.body_le hend hstands.le.2.2 hrest

/-! ### Whole blocks -/

/-- The conditions of a block in the order in which they are asked. -/
def conditions (b : Block) : List Span := b.condition :: b.alternatives.map (·.condition)

/-- What can be chosen of a block. -/
def choices (b : Block) : List (List Span) :=
  b.body :: b.otherwise :: b.alternatives.map fun a => [a.body]

/-- Where the `$endif` of a block stands. -/
def regionEnd (b : Block) : Nat := b.span.stop - 6

/-- Where the parts of a block are in the text that holds it. -/
structure Laid (t : Text) (b : Block) : Prop where
  opener : Keyword.ifOpen.StandsAt t b.span.start
  last : ∀ i, b.span.start < i → ¬ Keyword.ifOpen.StandsAt t i
  condition_start : b.condition.start = b.span.start + 4
  condition_le : b.condition.start ≤ b.condition.stop
  closing : Bracket.closing? t (b.span.start + 3) = some b.condition.stop
  span_stop : b.span.stop = b.regionEnd + 6
  region_le : b.condition.stop + 1 ≤ b.regionEnd
  endIf : Keyword.endIf.StandsAt t b.regionEnd
  first : ∀ i, b.condition.stop < i → i < b.regionEnd → ¬ Keyword.endIf.StandsAt t i
  cut : ∃ parts, Cut t b.regionEnd (b.condition.stop + 1) parts b.alternatives ∧
    splitAtElse t parts = (b.body, b.otherwise)

/-- All that is looked for when a block is found. -/
theorem findInnermost_eq_ok {b : Block} (h : findInnermost t strict = .ok b) :
    ∃ i closing stop parts alternatives,
      (Keyword.ifOpen.StandsAt t i ∧ ∀ m, i < m → ¬ Keyword.ifOpen.StandsAt t m) ∧
      Bracket.closing? t (i + 3) = some closing ∧
      (closing + 1 ≤ stop ∧ Keyword.endIf.StandsAt t stop ∧
        ∀ m, closing + 1 ≤ m → m < stop → ¬ Keyword.endIf.StandsAt t m) ∧
      cutAlternatives t strict stop (closing + 1)
        ((Keyword.elseIfOpen.findAll t).filter (·.start < stop)) = .ok (parts, alternatives) ∧
      b = ⟨⟨i, stop + 6⟩, ⟨i + 4, closing⟩, (splitAtElse t parts).1, alternatives,
        (splitAtElse t parts).2⟩ := by
  unfold findInnermost at h
  split at h
  · cases h
  · split at h
    · cases h
    · next opener hopener =>
      obtain ⟨i, rfl, hat, hlast⟩ := Keyword.findLast?_eq_some_iff.1 hopener
      split at h
      · cases h
      · next closing hclosing =>
        split at h
        · cases h
        · next e he =>
          obtain ⟨stop, rfl, hle, hend, hfirst⟩ := Keyword.find?_eq_some_iff.1 he
          simp only at h
          split at h
          · cases h
          · next parts alternatives hcut =>
            simp only [Except.ok.injEq] at h
            exact ⟨i, closing, stop, parts, alternatives, ⟨hat, hlast⟩, hclosing,
              ⟨hle, hend, hfirst⟩, hcut, h.symm⟩

/-- The openers that alternatives are cut out at stand before the end of the region. -/
theorem exists_of_mem_openers {stop : Nat} {o : Span}
    (ho : o ∈ (Keyword.elseIfOpen.findAll t).filter (·.start < stop)) :
    ∃ j, o = Keyword.elseIfOpen.spanAt j ∧ Keyword.elseIfOpen.StandsAt t j ∧ j < stop := by
  obtain ⟨ho, hbefore⟩ := List.mem_filter.1 ho
  obtain ⟨j, hj, rfl⟩ := Keyword.mem_findAll.1 ho
  exact ⟨j, rfl, hj, decide_eq_true_eq.mp hbefore⟩

/-- The block that is found is laid out in the text. -/
theorem laid_of_findInnermost {b : Block} (h : findInnermost t strict = .ok b) : Laid t b := by
  obtain ⟨i, closing, stop, parts, alternatives, ⟨hat, hlast⟩, hclosing, ⟨hle, hend, hfirst⟩, hcut,
    rfl⟩ := findInnermost_eq_ok h
  have hopen : t[i + 3]? = some '[' := hat.getElem?_bracket rfl
  have hlt : i + 3 < closing := Bracket.lt_of_closing? hclosing hopen
  have hclose := (Bracket.getElem?_of_closing? hclosing).2
  -- the region lies between two fences: the bracket of the condition and the `$endif`
  have hcut' := cut_of_cutAlternatives hcut (fun _ => exists_of_mem_openers) hle
    (.inl ⟨closing, rfl, hclose⟩) hend.getElem?_start
  exact ⟨hat, hlast, rfl, hlt, hclosing, rfl, hle, hend, hfirst, parts, hcut', rfl⟩

namespace Laid

variable {b : Block} {chosen : List Span}

/-- A block ends within the text. -/
theorem stop_le (h : Laid t b) : b.span.stop ≤ t.length := by
  rw [h.span_stop]
  exact h.endIf.add_size_le

/-- It has room for the `$if[` at least. -/
theorem start_le_stop (h : Laid t b) : b.span.start + 4 < b.span.stop := by
  have := h.condition_start
  have := h.condition_le
  have := h.region_le
  have := h.span_stop
  omega

/-- The conditions of a block lie one behind the other. -/
theorem conditions_inOrder (h : Laid t b) :
    Span.InOrder (b.span.start + 4) b.regionEnd b.conditions := by
  obtain ⟨parts, hcut, -⟩ := h.cut
  obtain ⟨-, halts, -⟩ := hcut.inOrder
  -- the conditions are some of the spans that the cut puts in order
  have hsublist : (b.alternatives.map (·.condition)).Sublist
      (b.alternatives.flatMap Alternative.spans) := by
    rw [List.map_eq_flatMap]
    induction b.alternatives with
    | nil => exact .slnil
    | cons a later ih =>
      exact (List.singleton_sublist.2 List.mem_cons_self : [a.condition].Sublist a.spans).append ih
  exact ⟨h.condition_start.ge, h.condition_le,
    (halts.sublist hsublist).mono (Nat.le_succ _) le_rfl⟩

/-- Whatever is chosen lies between the condition and the `$endif`, in order and fenced. -/
theorem choice_laid (h : Laid t b) (hchosen : chosen ∈ b.choices) :
    Span.InOrder (b.condition.stop + 1) b.regionEnd chosen ∧ ∀ s ∈ chosen, Fenced t s := by
  obtain ⟨parts, hcut, hsplit⟩ := h.cut
  obtain ⟨hparts, halts, -⟩ := hcut.inOrder
  obtain ⟨hfparts, hfalts⟩ := hcut.fenced h.endIf.getElem?_start
  -- the body and what is behind `$else` are the parts in front of the `$else` and behind it
  obtain ⟨horder, hfence⟩ := splitAtElse_laid hparts hfparts
  rw [hsplit] at horder hfence
  simp only [choices, List.mem_cons, List.mem_map] at hchosen
  rcases hchosen with rfl | rfl | ⟨a, ha, rfl⟩
  · exact ⟨horder.sublist (List.sublist_append_left _ _),
      fun s hs => hfence s (List.mem_append_left _ hs)⟩
  · exact ⟨horder.sublist (List.sublist_append_right _ _),
      fun s hs => hfence s (List.mem_append_right _ hs)⟩
  -- the body of an alternative is one of the spans in order
  · have hmem : [a.body].Sublist (b.alternatives.flatMap Alternative.spans) :=
      List.singleton_sublist.2 (List.mem_flatMap.2 ⟨a, ha, by simp [Alternative.spans]⟩)
    refine ⟨halts.sublist hmem, fun s hs => ?_⟩
    obtain rfl : s = a.body := by simpa using hs
    exact hfalts a ha

/-- What is chosen lies in the block, in order. -/
theorem choice_inOrder (h : Laid t b) (hchosen : chosen ∈ b.choices) :
    Span.InOrder b.span.start b.span.stop chosen := by
  have := h.condition_start
  have := h.condition_le
  have := h.span_stop
  exact (h.choice_laid hchosen).1.mono (by omega) (by omega)

/-- What the conditions of a block and a choice hold is counted once between its `$if[` and its
`$endif`. -/
theorem countP_gather_le (h : Laid t b) (hchosen : chosen ∈ b.choices) {α : Type} (p : α → Bool)
    (l : List α) :
    (Span.gather b.conditions l).countP p + (Span.gather chosen l).countP p ≤
      ((Span.mk (b.span.start + 4) b.regionEnd).cut l).countP p := by
  obtain ⟨parts, hcut, hsplit⟩ := h.cut
  obtain ⟨-, -, spans, hperm, hspans⟩ := hcut.inOrder
  -- the condition stands before the spans of the cut
  have hcond : Span.InOrder (b.span.start + 4) b.regionEnd (b.condition :: spans) :=
    ⟨h.condition_start.ge, h.condition_le, hspans.mono (by omega) le_rfl⟩
  have hall := hcond.countP_gather_le p l
  have hparts := countP_gather_splitAtElse_le (t := t) p l hcut.inOrder.1
  -- the spans in order are those of the alternatives and the parts that are left, in another order
  have hsum : (Span.gather spans l).countP p =
      (Span.gather (b.alternatives.flatMap Alternative.spans) l).countP p +
        (Span.gather parts l).countP p := by
    rw [← List.countP_append, ← Span.gather_append]
    exact (hperm.flatMap_right _).countP_eq p
  simp only [hsplit] at hparts
  rw [Span.gather_cons, List.countP_append] at hall
  have halts := Cut.countP_gather_spans p l b.alternatives
  simp only [choices, List.mem_cons, List.mem_map] at hchosen
  rw [conditions, Span.gather_cons, List.countP_append]
  -- what is chosen is the body, what is behind `$else` or the body of one alternative
  rcases hchosen with rfl | rfl | ⟨a, ha, rfl⟩
  · omega
  · omega
  · have hbody : ((a.body).cut l).countP p ≤
        (Span.gather (b.alternatives.map (·.body)) l).countP p :=
      Span.countP_cut_le_gather (List.mem_map_of_mem ha) p l
    rw [Span.gather_cons, Span.gather_nil, List.append_nil]
    omega

end Laid

end Block

end Stencil
