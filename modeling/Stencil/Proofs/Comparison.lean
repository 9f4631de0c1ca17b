import Stencil.Proofs.Reader
import Stencil.Proofs.Separator
import Stencil.Proofs.Unescape
/-!
# Comparing a returned text

A condition is read from flat text, so what a returned text brings is read with it. Escaping takes
the markers and the sign of codes from a text and leaves the signs of conditions (`isSign`) in it:
whatever signs write stands in the escaped text just where it stands in the returned one
(`Signs.infix_escape_iff`), and reading an operand adds no signs (`Signs.infix_of_infix_operand`).

So the condition `compared op v k` is read as the comparison of `v` and `k` just if `v` is `Inert`:
it has no connective and no bracket, and the operator that is found first is the one behind it
(`parse_compared_iff`).
-/

namespace Stencil.Condition

variable {s t v k : Text} {c : Char}

/-! ### Signs -/

/-- The characters that connectives, brackets and operators are written with. -/
def signs : List Char := ['(', ')', '&', '|', '=', '!', '<', '>']

def isSign (c : Char) : Bool := signs.contains c

/-- The text is written with signs alone. -/
def Signs (s : Text) : Prop := ∀ c ∈ s, isSign c = true

/-- What follows the first sign are signs. -/
theorem Signs.tail (h : Signs (c :: s)) : Signs s := fun c' hc' => h c' (List.mem_cons_of_mem c hc')

/-- A sign has no code, is in no code and is no blank. -/
theorem of_isSign (h : isSign c = true) :
    Reserved.ofChar? c = none ∧ (∀ r : Reserved, c ∉ r.code) ∧ isBlank c = false := by
  have hall : ∀ c ∈ signs, Reserved.ofChar? c = none ∧ (∀ r ∈ Reserved.all, c ∉ r.code) ∧
      isBlank c = false := by
    simp only [signs, List.forall_mem_cons, List.not_mem_nil, IsEmpty.forall_iff, implies_true]
    decide
  obtain ⟨hchar, hcode, hblank⟩ := hall c (List.contains_iff_mem.1 h)
  exact ⟨hchar, fun r => hcode r r.mem_all, hblank⟩

/-- No character that has a code is a sign. -/
theorem not_isSign_char (r : Reserved) : isSign r.char = false := by
  cases r <;> rfl

/-- Escaping leaves a sign as it is. -/
theorem escapeChar_of_isSign (h : isSign c = true) : Text.escapeChar c = [c] := by
  rw [Text.escapeChar, (of_isSign h).1]

/-- A text of signs is its own escaped text. -/
theorem Signs.escape (h : Signs s) : Text.escape s = s := by
  induction s with
  | nil => rfl
  | cons c s ih =>
    show Text.escapeChar c ++ Text.escape s = c :: s
    rw [escapeChar_of_isSign (h c List.mem_cons_self), ih h.tail]
    rfl

/-- What signs write begins an escaped text where it begins the text. -/
theorem Signs.prefix_escape_iff (h : Signs s) : s <+: Text.escape t ↔ s <+: t := by
  induction s generalizing t with
  | nil => simp
  | cons a s ih =>
    have ha := of_isSign (h a List.mem_cons_self)
    cases t with
    | nil => simp [Text.escape]
    | cons c t =>
      show a :: s <+: Text.escapeChar c ++ Text.escape t ↔ a :: s <+: c :: t
      rw [Text.escapeChar]
      cases hc : Reserved.ofChar? c with
      | none =>
        show a :: s <+: c :: Text.escape t ↔ a :: s <+: c :: t
        rw [List.cons_prefix_cons, List.cons_prefix_cons, ih h.tail]
      | some r =>
        -- a character with a code is no sign, and neither is the first one of the code
        obtain ⟨x, code, hcode⟩ := List.exists_cons_of_ne_nil r.code_ne_nil
        show a :: s <+: r.code ++ Text.escape t ↔ a :: s <+: c :: t
        rw [hcode, List.cons_append, List.cons_prefix_cons, List.cons_prefix_cons]
        refine iff_of_false (fun heq => ?_) (fun heq => ?_)
        · exact ha.2.1 r (hcode ▸ heq.1 ▸ List.mem_cons_self)
        · rw [← heq.1, ha.1] at hc
          cases hc

/-- What signs write stands in an escaped text where it stands in the text. -/
theorem Signs.infix_escape_iff (h : Signs s) (hne : s ≠ []) :
    s <:+: Text.escape t ↔ s <:+: t := by
  induction t with
  | nil => rfl
  | cons c t ih =>
    have hescape : Text.escape (c :: t) = Text.escapeChar c ++ Text.escape t := rfl
    cases hc : Reserved.ofChar? c with
    | none =>
      have hcons : Text.escape (c :: t) = c :: Text.escape t := by
        rw [hescape, Text.escapeChar, hc]
        rfl
      rw [List.infix_cons_iff, ← ih, ← h.prefix_escape_iff, hcons, List.infix_cons_iff]
    | some r =>
      have hcode : Text.escape (c :: t) = r.code ++ Text.escape t := by
        rw [hescape, Text.escapeChar, hc]
      rw [hcode]
      constructor
      · intro hin
        have hrest := Text.infix_right hin (fun x hx => (of_isSign (h x hx)).2.1 r) hne
        exact (ih.1 hrest).trans (List.infix_cons (List.infix_refl t))
      · intro hin
        have hrest : s <:+: t := Text.infix_right (a := [c]) hin (fun x hx hmem => by
          rw [← List.mem_singleton.1 hmem, (of_isSign (h x hx)).1] at hc
          cases hc) hne
        exact (ih.2 hrest).trans (List.suffix_append _ _).isInfix

/-- Trimming takes no signs. -/
theorem Signs.infix_trim (h : Signs s) (hne : s ≠ []) (hin : s <:+: t) : s <:+: Text.trim t := by
  have hblank : ∀ l : Text, ∀ c ∈ s, c ∉ l.takeWhile isBlank := by
    intro l c hc hmem
    have hmem := List.mem_takeWhile_imp hmem
    rw [(of_isSign (h c hc)).2.2] at hmem
    cases hmem
  rw [Text.eq_blanks_trim t] at hin
  refine Text.infix_left (Text.infix_right hin (hblank t) hne) (fun c hc hmem => ?_) hne
  exact hblank _ c hc (List.mem_reverse.1 hmem)

/-- Signs a text read from codes begins with are those the text itself begins with: a code stands
for no sign. -/
theorem Signs.prefix_of_prefix_unescape (h : Signs s) (hin : s <+: Text.unescape t) : s <+: t := by
  induction t using Text.induction_unescape generalizing s with
  | nil => exact hin
  | code r t _ =>
    rw [Text.unescape_code_append] at hin
    rcases List.prefix_cons_iff.1 hin with rfl | ⟨s, rfl, -⟩
    · exact List.nil_prefix
    -- a code stands for a reserved character, which is no sign
    · rw [Signs, List.forall_mem_cons, not_isSign_char] at h
      cases h.1
  | cons c t hcode ih =>
    rw [Text.unescape_cons hcode] at hin
    rcases List.prefix_cons_iff.1 hin with rfl | ⟨s, rfl, hrest⟩
    · exact List.nil_prefix
    · exact List.cons_prefix_cons.2 ⟨rfl, ih h.tail hrest⟩

/-- Reading codes adds no signs. -/
theorem Signs.infix_of_infix_unescape (h : Signs s) (hin : s <:+: Text.unescape t) : s <:+: t := by
  induction t using Text.induction_unescape with
  | nil => exact hin
  | code r t ih =>
    rw [Text.unescape_code_append] at hin
    rcases List.infix_cons_iff.1 hin with hin | hin
    · rcases List.prefix_cons_iff.1 hin with rfl | ⟨s, rfl, -⟩
      · exact List.nil_infix
      · rw [Signs, List.forall_mem_cons, not_isSign_char] at h
        cases h.1
    · exact (ih hin).trans (List.suffix_append _ _).isInfix
  | cons c t hcode ih =>
    rw [Text.unescape_cons hcode] at hin
    rcases List.infix_cons_iff.1 hin with hhead | hrest
    · rw [← Text.unescape_cons hcode] at hhead
      exact (h.prefix_of_prefix_unescape hhead).isInfix
    · exact (ih hrest).trans (List.infix_cons (List.infix_refl t))

/-- No character of the text is a sign. -/
def SignFree (t : Text) : Prop := ∀ c ∈ t, isSign c = false

instance (t : Text) : Decidable (SignFree t) := List.decidableBAll (isSign · = false) t

/-- A text without signs has none of the signs of another text. -/
theorem SignFree.not_mem (h : SignFree t) (hs : Signs s) : ∀ c ∈ s, c ∉ t := by
  intro c hc hmem
  have hfree := h c hmem
  rw [hs c hc] at hfree
  cases hfree

/-- No text of signs stands in a text without signs. -/
theorem SignFree.not_infix (h : SignFree t) (hs : Signs s) (hne : s ≠ []) : ¬ s <:+: t := by
  intro hin
  obtain ⟨c, hc⟩ := List.exists_mem_of_ne_nil s hne
  exact h.not_mem hs c hc (hin.subset hc)

/-- Escaping brings no signs into a text. -/
theorem SignFree.escape (h : SignFree t) : SignFree (Text.escape t) := by
  intro c hc
  obtain ⟨x, hx, hcx⟩ := List.mem_flatMap.1 hc
  unfold Text.escapeChar at hcx
  split at hcx
  -- no code has a sign in it
  · next r _ =>
    rw [Bool.eq_false_iff]
    intro hsign
    exact (of_isSign hsign).2.1 r hcx
  · rw [List.mem_singleton.1 hcx]
    exact h x hx

/-! ### A returned text and an operand -/

/-- The condition that compares a returned text with an operand, once the text is in its place. -/
def compared (op : Operator) (v k : Text) : Text := Text.escape v ++ (op.symbol ++ k)

/-- An operand that has no blanks around it, no signs and no characters with codes. -/
structure Operand (k : Text) : Prop where
  trimmed : Text.trim k = k
  plain : ∀ c ∈ k, isSign c = false ∧ Reserved.ofChar? c = none

instance (k : Text) : Decidable (Operand k) :=
  decidable_of_iff (Text.trim k = k ∧ k.all (fun c => !isSign c && (Reserved.ofChar? c).isNone))
    ⟨fun h => ⟨h.1, by simpa using h.2⟩, fun h => ⟨h.trimmed, by simpa using h.plain⟩⟩

/-- A text that does not change how a condition is read in which it is compared: it has no
connective and no bracket, no `==`, which is looked for first, and the operator behind the text is
the first one of its kind. -/
structure Inert (op : Operator) (v : Text) : Prop where
  plain : Plain v
  equal : ¬ Operator.equal.symbol <:+: v
  symbol : ¬ op.symbol <:+: v ++ op.symbol.dropLast

variable {op : Operator} {a : Text}

instance (op : Operator) (v : Text) : Decidable (Inert op v) :=
  decidable_of_iff (Plain v ∧ ¬ Operator.equal.symbol <:+: v ∧
      ¬ op.symbol <:+: v ++ op.symbol.dropLast)
    ⟨fun h => ⟨h.1, h.2.1, h.2.2⟩, fun h => ⟨h.plain, h.equal, h.symbol⟩⟩

/-- Operators are written with signs. -/
theorem signs_symbol (op : Operator) : Signs op.symbol := by
  cases op <;> exact List.all_eq_true.1 rfl

/-- No operator is written with nothing. -/
theorem symbol_ne_nil (op : Operator) : op.symbol ≠ [] := by
  cases op <;> exact List.cons_ne_nil _ _

/-- An escaped text is read as the operand that it was. -/
theorem operand_escape (v : Text) : Comparison.operand (Text.escape v) = Text.trim v := by
  rw [Comparison.operand, Text.unescape_trim, Text.unescape_escape]

/-- An operand that is plain is its own escaped text. -/
theorem Operand.escape (hk : Operand k) : Text.escape k = k := by
  obtain ⟨-, hplain⟩ := hk
  induction k with
  | nil => rfl
  | cons c k ih =>
    show Text.escapeChar c ++ Text.escape k = c :: k
    rw [Text.escapeChar, (hplain c List.mem_cons_self).2,
      ih fun c' hc' => hplain c' (List.mem_cons_of_mem c hc')]
    rfl

/-- So it is read as it is written. -/
theorem Operand.operand (hk : Operand k) : Comparison.operand k = k := by
  have hread := operand_escape k
  rwa [hk.escape, hk.trimmed] at hread

/-- No text of signs stands in an operand. -/
theorem Operand.holds_no_signs (hk : Operand k) (hs : Signs s) (hne : s ≠ []) : ¬ s <:+: k :=
  SignFree.not_infix (fun c hc => (hk.plain c hc).1) hs hne

/-- The signs of an operand as it is read stand in what is written. -/
theorem Signs.infix_of_infix_operand (h : Signs s) (hin : s <:+: Comparison.operand t) :
    s <:+: t :=
  (h.infix_of_infix_unescape hin).trans (Text.trim_infix t)

/-! ### The operator that is found -/

/-- The operator of a run. -/
def operator? (t : Text) : Option Operator :=
  Operator.all.find? fun op => Text.contains op.symbol t

/-- The comparison that is read has the operator that is found and, on its two sides, the first
two parts at that operator. -/
theorem parse?_eq_of_operator? (h : operator? t = some op) :
    Comparison.parse? t = some ⟨Comparison.operand ((Text.split op.symbol t).headD []), op,
      Comparison.operand ((Text.split op.symbol t).getD 1 [])⟩ := by
  unfold operator? at h
  rw [Comparison.parse?, h]
  rfl

/-- A comparison that is read has the operator that is found. -/
theorem operator?_of_parse? {c : Comparison} (h : Comparison.parse? t = some c) :
    operator? t = some c.op := by
  obtain ⟨op, hop, rfl⟩ := Option.map_eq_some_iff.1 h
  exact hop

/-- `==` is looked for first. -/
theorem operator?_of_equal (h : Operator.equal.symbol <:+: t) : operator? t = some .equal :=
  List.find?_cons_of_pos (Text.contains_iff.2 h)

/-- `!=` is found where no `==` stands. -/
theorem operator?_of_unequal (hequal : ¬ Operator.equal.symbol <:+: t)
    (h : Operator.unequal.symbol <:+: t) : operator? t = some .unequal := by
  have hskip : operator? t =
      List.find? (fun op => Text.contains op.symbol t) Operator.all.tail :=
    List.find?_cons_of_neg (mt Text.contains_iff.1 hequal)
  rw [hskip]
  exact List.find?_cons_of_pos (Text.contains_iff.2 h)

/-- The left operand reaches up to the first operator of the kind that is found. -/
theorem left_of_parse? {c : Comparison} {rest : Text} (h : Comparison.parse? t = some c)
    (ht : t = a ++ (c.op.symbol ++ rest)) (hfirst : ¬ c.op.symbol <:+: a ++ c.op.symbol.dropLast) :
    c.left = Comparison.operand a := by
  have hparse := parse?_eq_of_operator? (operator?_of_parse? h)
  rw [h, Option.some_inj, ht, Text.split_append (symbol_ne_nil _) hfirst] at hparse
  exact congrArg Comparison.left hparse

/-- The left operand is written at the head of the run. -/
theorem exists_left_of_parse? {c : Comparison} (h : Comparison.parse? t = some c) :
    ∃ a, a <+: t ∧ c.left = Comparison.operand a := by
  refine ⟨_, Text.isPrefix_headD_split c.op.symbol t, ?_⟩
  have hparse := parse?_eq_of_operator? (operator?_of_parse? h)
  rw [h] at hparse
  exact congrArg Comparison.left (Option.some.inj hparse)

/-! ### When a returned text is inert -/

/-- The operator reaches into an escaped text just as into the text. -/
theorem escape_append_dropLast (op : Operator) (v : Text) :
    Text.escape v ++ op.symbol.dropLast = Text.escape (v ++ op.symbol.dropLast) := by
  have hsigns : Signs op.symbol.dropLast := fun c hc =>
    signs_symbol op c (List.dropLast_subset _ hc)
  show _ = List.flatMap _ _
  rw [List.flatMap_append]
  exact congrArg (Text.escape v ++ ·) hsigns.escape.symm

/-- An operator that does not begin in a text, not even at its end, does not begin in the escaped
text. -/
theorem not_infix_escape (h : ¬ op.symbol <:+: v ++ op.symbol.dropLast) :
    ¬ op.symbol <:+: Text.escape v ++ op.symbol.dropLast := by
  rwa [escape_append_dropLast, (signs_symbol op).infix_escape_iff (symbol_ne_nil op)]

/-- Connectives are texts of signs, and none of them has a character of `==` or `!=`. -/
theorem of_mem_connectives (h : s ∈ connectives) :
    Signs s ∧ s ≠ [] ∧ '=' ∉ s ∧ '!' ∉ s := by
  have hall : ∀ s ∈ connectives, s.all isSign = true ∧ s ≠ [] ∧ '=' ∉ s ∧ '!' ∉ s := by decide
  obtain ⟨hsigns, hrest⟩ := hall s h
  exact ⟨List.all_eq_true.1 hsigns, hrest⟩

/-- A connective that stands in a comparison stands on one side of the operator. -/
theorem infix_compared (hop : op = .equal ∨ op = .unequal) (h : s ∈ connectives)
    (hin : s <:+: compared op v k) : s <:+: v ∨ s <:+: k := by
  obtain ⟨hsigns, hne, hequal, hbang⟩ := of_mem_connectives h
  obtain ⟨x, hx, hsymbol⟩ : ∃ x, x ∉ s ∧ op.symbol = [x, '='] := by
    rcases hop with rfl | rfl
    · exact ⟨'=', hequal, rfl⟩
    · exact ⟨'!', hbang, rfl⟩
  rw [compared, hsymbol] at hin
  rcases Text.infix_append_cons hin hx with hleft | hright
  · exact .inl ((hsigns.infix_escape_iff hne).1 hleft)
  · rcases Text.infix_append_cons (a := []) hright hequal with hnil | hright
    · exact absurd (List.infix_nil.1 hnil) hne
    · exact .inr hright

/-- A comparison of a plain text with an operand is a single run. -/
theorem plain_compared (hop : op = .equal ∨ op = .unequal) (hk : Operand k) (h : Plain v) :
    Plain (compared op v k) := by
  intro s hs hin
  obtain ⟨hsigns, hne, -⟩ := of_mem_connectives hs
  -- what a connective stands in is then the returned text or the operand
  rcases infix_compared hop hs hin with hv | hk'
  · exact h s hs hv
  · exact hk.holds_no_signs hsigns hne hk'

/-- A comparison is not blank, since its operator is not. -/
theorem isBlankText_compared (op : Operator) (v k : Text) :
    Text.isBlankText (compared op v k) = false := by
  rw [Text.isBlankText, List.all_eq_false]
  obtain ⟨c, rest, hc⟩ := List.exists_cons_of_ne_nil (symbol_ne_nil op)
  refine ⟨c, ?_, ?_⟩
  · rw [compared, hc]
    simp
  · rw [(of_isSign (signs_symbol op c (hc ▸ List.mem_cons_self))).2.2]
    exact Bool.false_ne_true

/-- `==` stands in a comparison by `!=` only if the returned text brings it. -/
theorem not_infix_equal (hk : Operand k) (h : ¬ Operator.equal.symbol <:+: v) :
    ¬ Operator.equal.symbol <:+: compared .unequal v k := by
  intro hin
  have hsigns := signs_symbol .equal
  rcases Text.infix_append_cons (b := '=' :: k) hin (by decide) with hleft | hright
  · exact h ((hsigns.infix_escape_iff (symbol_ne_nil _)).1 hleft)
  rcases List.infix_cons_iff.1 hright with hhead | htail
  · have hk' : ['='] <+: k := (List.cons_prefix_cons.1 hhead).2
    exact hk.holds_no_signs (s := ['=']) hsigns.tail (List.cons_ne_nil _ _) hk'.isInfix
  · exact hk.holds_no_signs hsigns (symbol_ne_nil _) htail

/-- The operator that stands behind an inert text is the one that is found. -/
theorem parse?_compared (hop : op = .equal ∨ op = .unequal) (hk : Operand k) (h : Inert op v) :
    Comparison.parse? (compared op v k) = some ⟨Text.trim v, op, k⟩ := by
  -- the operator stands between the two texts, and none is tried before it
  have hstands : op.symbol <:+: compared op v k := ⟨Text.escape v, k, List.append_assoc _ _ _⟩
  have hfound : operator? (compared op v k) = some op := by
    rcases hop with rfl | rfl
    · exact operator?_of_equal hstands
    · exact operator?_of_unequal (not_infix_equal hk h.equal) hstands
  have hrest := hk.holds_no_signs (signs_symbol op) (symbol_ne_nil op)
  have hsplit : Text.split op.symbol (compared op v k) = [Text.escape v, k] := by
    rw [compared, Text.split_append (symbol_ne_nil op) (not_infix_escape h.symbol),
      Text.split_eq_singleton hrest]
  rw [parse?_eq_of_operator? hfound, hsplit]
  show some (Comparison.mk (Comparison.operand (Text.escape v)) op (Comparison.operand k)) = _
  rw [operand_escape, hk.operand]

/-- With a character that is no blank behind it, a text is trimmed to something longer. -/
theorem trim_append_cons_ne {c : Char} (hc : isBlank c = false) (a b : Text) :
    Text.trim (a ++ c :: b) ≠ Text.trim a := by
  -- trimming keeps the number of characters that are no blanks
  have hcount : ∀ t : Text, (Text.trim t).countP (!isBlank ·) = t.countP (!isBlank ·) := by
    intro t
    have hblanks : ∀ l : Text, (l.takeWhile isBlank).countP (!isBlank ·) = 0 := fun l =>
      List.countP_eq_zero.2 fun c hc => by simp [List.mem_takeWhile_imp hc]
    conv_rhs => rw [Text.eq_blanks_trim t]
    rw [List.countP_append, List.countP_append, List.countP_reverse, hblanks, hblanks, Nat.zero_add,
      Nat.add_zero]
  intro heq
  have hsame := congrArg (List.countP (!isBlank ·)) heq
  rw [hcount, hcount, List.countP_append, List.countP_cons_of_pos (by simp [hc])] at hsame
  omega

/-- A text into which the operator reaches is not the left operand. -/
theorem left_ne_trim {c : Comparison} (h : Comparison.parse? (compared c.op v k) = some c)
    (hin : c.op.symbol <:+: v ++ c.op.symbol.dropLast) : c.left ≠ Text.trim v := by
  have hsigns := signs_symbol c.op
  have hne := symbol_ne_nil c.op
  -- the operator is not cut off, being longer than what is kept of it
  have hlonger : ∀ l r, c.op.symbol.dropLast ≠ l ++ (c.op.symbol ++ r) := by
    intro l r heq
    have hlen := congrArg List.length heq
    have hpos := List.length_pos_of_ne_nil hne
    simp only [List.length_dropLast, List.length_append] at hlen
    omega
  obtain ⟨a, rest, heq, hfirst⟩ := Text.exists_first hin hne
  -- the operator that stands there first begins in the text, with a sign
  obtain ⟨x, y, rfl, hy⟩ : ∃ x y, v = a ++ x :: y ∧
      c.op.symbol ++ rest = x :: y ++ c.op.symbol.dropLast := by
    rcases List.append_eq_append_iff.1 heq with ⟨more, rfl, hmore⟩ | ⟨more, rfl, hmore⟩
    · exact absurd hmore (hlonger more rest)
    · cases more with
      | nil => exact absurd hmore.symm (hlonger [] rest)
      | cons x y => exact ⟨x, y, rfl, hmore⟩
  have hx : isSign x = true := by
    obtain ⟨x', symbol, hsymbol⟩ := List.exists_cons_of_ne_nil hne
    rw [hsymbol] at hy hsigns
    rw [← (List.cons.inj hy).1]
    exact hsigns x' List.mem_cons_self
  -- so what stands before it is the left operand
  obtain ⟨rest', hrest'⟩ : c.op.symbol <+: Text.escape (x :: y) ++ (c.op.symbol ++ k) := by
    have hprefix : c.op.symbol <+: Text.escape (x :: y) ++ c.op.symbol.dropLast := by
      rw [escape_append_dropLast, hsigns.prefix_escape_iff]
      exact ⟨rest, hy⟩
    refine hprefix.trans (List.prefix_append_right_inj _ |>.2 ?_)
    exact (List.dropLast_prefix _).trans (List.prefix_append _ _)
  have hcompared : compared c.op (a ++ x :: y) k = Text.escape a ++ (c.op.symbol ++ rest') := by
    rw [hrest', ← List.append_assoc]
    exact congrArg (· ++ _) List.flatMap_append
  have hleft := left_of_parse? h hcompared (not_infix_escape hfirst)
  rw [hleft, operand_escape]
  exact (trim_append_cons_ne (of_isSign hx).2.2 a y).symm

/-- A returned text leaves the comparison in which it stands as it is written just if it is inert. -/
theorem parse_compared_iff (hop : op = .equal ∨ op = .unequal) (hk : Operand k) :
    parse (compared op v k) = .ok (.test ⟨Text.trim v, op, k⟩) ↔ Inert op v := by
  constructor
  · intro h
    -- what the left operand has stands in one run, so it has no connective
    have hplain : Plain v := by
      intro s hs hin
      obtain ⟨hsigns, hne, -⟩ := of_mem_connectives hs
      obtain ⟨r, hr, hparse⟩ := exists_run_of_parse h
      obtain ⟨a, ha, hleft⟩ := exists_left_of_parse? hparse
      have hoperand : s <:+: Comparison.operand a := hleft ▸ hsigns.infix_trim hne hin
      exact Token.plain_of_mem_ofText hr s hs
        ((hsigns.infix_of_infix_operand hoperand).trans ha.isInfix)
    -- so the whole condition is one run
    have hparse : Comparison.parse? (compared op v k) = some ⟨Text.trim v, op, k⟩ := by
      rw [parse_of_plain (plain_compared hop hk hplain) (isBlankText_compared op v k)] at h
      exact ofRun_eq_test.1 (Except.ok.inj h)
    -- then the operator does not begin in the text, since the left operand would be shorter
    have hsymbol : ¬ op.symbol <:+: v ++ op.symbol.dropLast := fun hin =>
      left_ne_trim (c := ⟨Text.trim v, op, k⟩) hparse hin rfl
    refine ⟨hplain, fun hin => ?_, hsymbol⟩
    -- and an equal sign in the text is found first, so it is the operator and begins in the text
    have hequal : operator? (compared op v k) = some .equal := by
      refine operator?_of_equal (List.IsInfix.trans ?_ (List.prefix_append _ _).isInfix)
      exact ((signs_symbol .equal).infix_escape_iff (symbol_ne_nil _)).2 hin
    rw [operator?_of_parse? hparse, Option.some_inj] at hequal
    obtain rfl : op = .equal := hequal
    exact hsymbol (hin.trans (List.prefix_append _ _).isInfix)
  · intro h
    rw [parse_of_plain (plain_compared hop hk h.plain) (isBlankText_compared op v k), ofRun,
      parse?_compared hop hk h]

/-- A `=` at the end of the text makes a `==` with the one behind it, but not with a `!=`. -/
example : ¬ Inert .equal "a=".toList ∧ Inert .unequal "a=".toList := by decide

/-- So a condition on an inert text compares that text, trimmed, with the operand. -/
theorem evaluate_compared (hop : op = .equal ∨ op = .unequal) (hk : Operand k) (h : Inert op v) :
    evaluate (compared op v k) = (Comparison.mk (Text.trim v) op k).holds := by
  rw [evaluate, (parse_compared_iff hop hk).2 h]
  rfl

end Stencil.Condition
