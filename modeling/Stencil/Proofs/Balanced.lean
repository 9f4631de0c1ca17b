import Mathlib.Data.List.Infix
import Stencil.Bracket
import Stencil.Proofs.Span
/-!
# Balanced brackets

A text is balanced when a search that begins inside of brackets passes over it. That is told by
counts. The search ends at the first `]` that closes more than was opened
(`closingFrom_eq_some_iff`), so a text is balanced if it has as many closing brackets as opening
ones, and no more closing ones in any part that begins it (`balanced_iff_nested`). What stands
between an opening bracket and the one that closes it is such a text (`closing?_eq_some_iff`).

If no semicolon of such a text stands outside of brackets (`Uncut`), it is one piece of an argument
list (`piecesFrom_of_uncut`).
-/

namespace Stencil.Bracket

variable {t u inner : Text} {i k depth : Nat}

/-! ### Balanced texts -/

/-- A text whose brackets balance: a search that begins inside of brackets passes over it. -/
def Balanced (t : Text) : Prop :=
  ∀ i depth rest, 1 ≤ depth →
    closingFrom i depth (t ++ rest) = closingFrom (i + t.length) depth rest

/-- The bracket that closes an opening one stands behind the balanced text between the two. -/
theorem Balanced.closing? {rest : Text} (h : Balanced inner)
    (ht : t.drop i = '[' :: (inner ++ ']' :: rest)) :
    Bracket.closing? t i = some (i + 1 + inner.length) := by
  rw [Bracket.closing?, ht, closingFrom, if_pos rfl, h _ _ _ (Nat.le_add_left 1 0), closingFrom,
    if_neg (by decide), if_pos rfl, if_pos (Nat.le_refl _)]

/-- Balanced texts are balanced one behind the other. -/
theorem Balanced.append (ht : Balanced t) (hu : Balanced u) : Balanced (t ++ u) := by
  intro i depth rest hdepth
  rw [List.append_assoc, ht i depth _ hdepth, hu _ depth _ hdepth, List.length_append,
    Nat.add_assoc]

/-- Text without brackets is balanced. -/
theorem Balanced.of_plain (h : ∀ c ∈ t, c ≠ '[' ∧ c ≠ ']') : Balanced t := by
  induction t with
  | nil => exact fun _ _ _ _ => rfl
  | cons c t ih =>
    intro i depth rest hdepth
    obtain ⟨hopen, hclose⟩ := h c List.mem_cons_self
    rw [List.cons_append, closingFrom, if_neg hopen, if_neg hclose,
      ih (fun c' hc' => h c' (List.mem_cons_of_mem c hc')) _ _ _ hdepth, List.length_cons]
    congr 1
    omega

/-- Brackets around a balanced text are balanced. -/
theorem Balanced.brackets (h : Balanced t) : Balanced ('[' :: (t ++ [']'])) := by
  intro i depth rest hdepth
  rw [List.cons_append, List.append_assoc, closingFrom, if_pos rfl,
    h _ _ _ (Nat.le_add_left 1 depth), List.singleton_append, closingFrom, if_neg (by decide),
    if_pos rfl, if_neg (by omega), Nat.add_sub_cancel]
  congr 1
  simp only [List.length_cons, List.length_append, List.length_nil]
  omega

/-! ### Nested brackets -/

/-- Every bracket is closed by one behind it, and closes one in front of it. -/
structure Nested (t : Text) : Prop where
  count_eq : t.count '[' = t.count ']'
  count_le : ∀ s, s <+: t → s.count ']' ≤ s.count '['

/-- That brackets are nested can be decided by going through all beginnings of the text. -/
theorem nested_iff_inits :
    Nested t ↔ t.count '[' = t.count ']' ∧ ∀ s ∈ t.inits, s.count ']' ≤ s.count '[' := by
  simp only [List.mem_inits]
  exact ⟨fun h => ⟨h.count_eq, h.count_le⟩, fun h => ⟨h.1, h.2⟩⟩

instance (t : Text) : Decidable (Nested t) := decidable_of_iff _ nested_iff_inits.symm

/-- From some depth the text is read without coming out of the brackets. -/
def Inside (depth : Nat) (t : Text) : Prop := ∀ s, s <+: t → s.count ']' < s.count '[' + depth

theorem inside_nil (hdepth : 1 ≤ depth) : Inside depth [] := by
  intro s hs
  obtain rfl := List.prefix_nil.1 hs
  rw [List.count_nil, List.count_nil, Nat.zero_add]
  exact hdepth

/-- A character is passed if the rest is, at the depth that the character leads to. -/
theorem inside_cons {c : Char} {depth' : Nat} (hdepth : 1 ≤ depth)
    (hnext : depth' + [c].count ']' = depth + [c].count '[') (h : Inside depth' t) :
    Inside depth (c :: t) := by
  intro s hs
  rcases List.prefix_cons_iff.1 hs with rfl | ⟨s, rfl, hrest⟩
  · rw [List.count_nil, List.count_nil, Nat.zero_add]
    exact hdepth
  · have hlt := h s hrest
    rw [← List.singleton_append, List.count_append, List.count_append]
    omega

/-- The same, read the other way. -/
theorem Inside.of_cons {c : Char} {depth' : Nat} (h : Inside depth (c :: t))
    (hnext : depth' + [c].count ']' = depth + [c].count '[') : Inside depth' t := by
  intro s hs
  have hlt := h (c :: s) ((List.prefix_cons_inj c).2 hs)
  rw [← List.singleton_append, List.count_append, List.count_append] at hlt
  omega

/-- Nested brackets do not close more than is open. -/
theorem Nested.inside (h : Nested t) (hdepth : 1 ≤ depth) : Inside depth t := by
  intro s hs
  have hle := h.count_le s hs
  omega

/-- Inside of brackets a search goes on behind the text, as deep as its brackets leave it. -/
theorem Inside.closingFrom_append (h : Inside depth t) (i : Nat) (rest : Text) :
    closingFrom i depth (t ++ rest) =
      closingFrom (i + t.length) (depth + t.count '[' - t.count ']') rest := by
  induction t generalizing i depth with
  | nil => rfl
  | cons c t ih =>
    have hstep : ∀ {depth'}, depth' + [c].count ']' = depth + [c].count '[' →
        closingFrom (i + 1) depth' (t ++ rest) =
          closingFrom (i + (c :: t).length)
            (depth + (c :: t).count '[' - (c :: t).count ']') rest := by
      intro depth' hnext
      rw [ih (h.of_cons hnext), ← List.singleton_append, List.length_append, List.count_append,
        List.count_append, ← Nat.add_assoc]
      congr 1
      omega
    -- an opening bracket, a closing one, and any other character change the depth in their own
    -- way
    rw [List.cons_append, closingFrom]
    split
    · next hopen =>
      subst hopen
      exact hstep rfl
    · next hopen =>
      split
      · next hclose =>
        subst hclose
        have hone := h [']'] ((List.prefix_cons_inj _).2 List.nil_prefix)
        have hdeep : 1 < depth := by simpa using hone
        rw [if_neg (Nat.not_le_of_lt hdeep)]
        exact hstep (Nat.sub_add_cancel hdeep.le)
      · next hclose =>
        exact hstep (by rw [List.count_singleton, List.count_singleton]; simp [hopen, hclose])

/-- A search inside of brackets ends at the first `]` that closes more than was opened. -/
theorem closingFrom_eq_some_iff (hdepth : 1 ≤ depth) :
    closingFrom i depth t = some k ↔
      ∃ inner behind, t = inner ++ ']' :: behind ∧ k = i + inner.length ∧ Inside depth inner ∧
        inner.count '[' + depth = inner.count ']' + 1 := by
  constructor
  · intro h
    induction t generalizing i depth with
    | nil => cases h
    | cons c t ih =>
      -- a character that does not end the search is one of the text in front of the bracket
      have hstep : ∀ {depth'}, 1 ≤ depth' → depth' + [c].count ']' = depth + [c].count '[' →
          closingFrom (i + 1) depth' t = some k →
          ∃ inner behind, c :: t = inner ++ ']' :: behind ∧ k = i + inner.length ∧
            Inside depth inner ∧ inner.count '[' + depth = inner.count ']' + 1 := by
        intro depth' hdepth' hnext hrest
        obtain ⟨inner, behind, rfl, rfl, hinside, hcount⟩ := ih hdepth' hrest
        refine ⟨c :: inner, behind, rfl, by rw [List.length_cons]; omega,
          inside_cons hdepth hnext hinside, ?_⟩
        rw [← List.singleton_append, List.count_append, List.count_append]
        omega
      rw [closingFrom] at h
      -- the same three cases; a closing bracket at the last depth ends the search
      split at h
      · next hopen =>
        subst hopen
        exact hstep (Nat.le_add_left 1 depth) rfl h
      · next hopen =>
        split at h
        · next hclose =>
          subst hclose
          split at h
          -- the bracket that closes what the search began in
          · next hle =>
            obtain rfl : depth = 1 := Nat.le_antisymm hle hdepth
            obtain rfl : i = k := Option.some.inj h
            exact ⟨[], t, rfl, rfl, inside_nil le_rfl, rfl⟩
          · next hdeep =>
            have hdeep : 1 < depth := Nat.lt_of_not_le hdeep
            exact hstep (Nat.le_sub_one_of_lt hdeep) (Nat.sub_add_cancel hdepth) h
        · next hclose =>
          refine hstep hdepth ?_ h
          rw [List.count_singleton, List.count_singleton]
          simp [hopen, hclose]
  · rintro ⟨inner, behind, rfl, rfl, hinside, hcount⟩
    -- at the end of the text one bracket is open, which the next character closes
    have hone : depth + inner.count '[' - inner.count ']' = 1 := by omega
    rw [hinside.closingFrom_append, hone]
    rfl

/-- Nested brackets balance. -/
theorem Nested.balanced (h : Nested t) : Balanced t := by
  intro i depth rest hdepth
  rw [(h.inside hdepth).closingFrom_append, h.count_eq, Nat.add_sub_cancel]

/-- A text that closes no more than it opens, and as much, is nested. -/
theorem nested_of_inside (h : Inside 1 t) (hcount : t.count '[' = t.count ']') : Nested t :=
  ⟨hcount, fun s hs => Nat.le_of_lt_succ (h s hs)⟩

/-- A search passes over the texts whose brackets are nested, and over no others. -/
theorem balanced_iff_nested : Balanced t ↔ Nested t := by
  constructor
  · intro h
    have hfound : closingFrom 0 1 (t ++ [']']) = some t.length := by
      rw [h 0 1 _ le_rfl, Nat.zero_add]
      rfl
    obtain ⟨inner, behind, heq, hlen, hinside, hcount⟩ := (closingFrom_eq_some_iff le_rfl).1 hfound
    have hinner : inner.length = t.length := by rw [hlen, Nat.zero_add]
    obtain rfl : t = inner := List.append_inj_left heq hinner.symm
    exact nested_of_inside hinside (Nat.add_right_cancel hcount)
  · exact Nested.balanced

/-- An opening bracket and the one that closes it stand around a text with nested brackets. -/
theorem closing?_eq_some_iff (hi : t[i]? = some '[') :
    closing? t i = some k ↔
      ∃ inner behind, t.drop i = '[' :: (inner ++ ']' :: behind) ∧ k = i + 1 + inner.length ∧
        Nested inner := by
  obtain ⟨hlt, hget⟩ := List.getElem?_eq_some_iff.1 hi
  have hdrop : t.drop i = '[' :: t.drop (i + 1) := by
    rw [← hget]
    exact List.drop_eq_getElem_cons hlt
  rw [closing?, hdrop, closingFrom, if_pos rfl, closingFrom_eq_some_iff (Nat.le_add_left 1 0)]
  constructor
  · rintro ⟨inner, behind, hrest, hk, hinside, hcount⟩
    exact ⟨inner, behind, by rw [hrest], hk, nested_of_inside hinside (Nat.add_right_cancel hcount)⟩
  · rintro ⟨inner, behind, hrest, hk, hnested⟩
    refine ⟨inner, behind, (List.cons.inj hrest).2, hk, hnested.inside le_rfl, ?_⟩
    rw [hnested.count_eq]

/-- Between a bracket and the one that closes it, brackets are nested. -/
theorem nested_of_closing? (h : closing? t i = some k) (hi : t[i]? = some '[') :
    Nested (t.slice ⟨i + 1, k⟩) := by
  obtain ⟨inner, behind, hdrop, rfl, hnested⟩ := (closing?_eq_some_iff hi).1 h
  have hinner : t.drop (i + 1) = inner ++ ']' :: behind := by
    rw [← List.drop_drop, hdrop]
    rfl
  rwa [Text.slice_of_drop hinner]

/-! ### Texts without a cut -/

/-- From some depth every semicolon of the text is read inside of brackets. -/
def Uncut (depth : Nat) (t : Text) : Prop :=
  ∀ s, s ++ [';'] <+: t → s.count ']' < s.count '[' + depth

/-- That nothing is cut can be decided by going through all beginnings. -/
theorem uncut_iff_inits :
    Uncut depth t ↔ ∀ s ∈ t.inits, s ++ [';'] <+: t → s.count ']' < s.count '[' + depth := by
  refine ⟨fun h s _ => h s, fun h s hs => h s ?_ hs⟩
  exact (List.mem_inits _ _).2 ((List.prefix_append s _).trans hs)

instance (depth : Nat) (t : Text) : Decidable (Uncut depth t) :=
  decidable_of_iff _ uncut_iff_inits.symm

/-- Behind a character, nothing is cut at the depth that it leads to. -/
theorem Uncut.of_cons {c : Char} {depth' : Nat} (h : Uncut depth (c :: t))
    (hnext : depth' + [c].count ']' = depth + [c].count '[') : Uncut depth' t := by
  intro s hs
  have hlt := h (c :: s) ((List.prefix_cons_inj c).2 hs)
  rw [← List.singleton_append, List.count_append, List.count_append] at hlt
  omega

/-- A text with its brackets closed and no semicolon outside of them belongs to the current piece. -/
theorem piecesFrom_append_of_uncut (hinside : Inside (depth + 1) t) (h : Uncut depth t)
    (start i : Nat) (done : List Span) (rest : Text) :
    piecesFrom start i depth done (t ++ rest) =
      piecesFrom start (i + t.length) (depth + t.count '[' - t.count ']') done rest := by
  induction t generalizing i depth with
  | nil => rfl
  | cons c t ih =>
    have hstep : ∀ {depth'}, depth' + [c].count ']' = depth + [c].count '[' →
        piecesFrom start (i + 1) depth' done (t ++ rest) =
          piecesFrom start (i + (c :: t).length)
            (depth + (c :: t).count '[' - (c :: t).count ']') done rest := by
      intro depth' hnext
      have hnext' : depth' + 1 + [c].count ']' = depth + 1 + [c].count '[' := by omega
      rw [ih (hinside.of_cons hnext') (h.of_cons hnext), ← List.singleton_append,
        List.length_append, List.count_append, List.count_append, ← Nat.add_assoc]
      congr 1
      omega
    rw [List.cons_append, piecesFrom]
    split
    · next hopen =>
      subst hopen
      exact hstep rfl
    · next hopen =>
      split
      · next hclose =>
        subst hclose
        -- the bracket closes one that is open
        have hone := hinside [']'] ((List.prefix_cons_inj _).2 List.nil_prefix)
        have hdeep : 0 < depth := by simpa using hone
        exact hstep (Nat.sub_add_cancel hdeep)
      · next hclose =>
        have hsame : depth + [c].count ']' = depth + [c].count '[' := by
          rw [List.count_singleton, List.count_singleton]
          simp [hopen, hclose]
        -- a semicolon at no depth would be a cut
        split
        · next hcut =>
          rw [Bool.and_eq_true, decide_eq_true_iff, beq_iff_eq] at hcut
          obtain ⟨rfl, rfl⟩ := hcut
          have hlt := h [] ((List.prefix_cons_inj _).2 List.nil_prefix)
          cases hlt
        · exact hstep hsame

/-- With nothing behind it, it is one piece. -/
theorem piecesFrom_of_uncut (hinside : Inside (depth + 1) t) (h : Uncut depth t) (start i : Nat)
    (done : List Span) :
    piecesFrom start i depth done t = (⟨start, i + t.length⟩ :: done).reverse := by
  have happend := piecesFrom_append_of_uncut hinside h start i done []
  rwa [List.append_nil] at happend

end Stencil.Bracket
