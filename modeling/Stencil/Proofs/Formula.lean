import Mathlib.Data.List.Chain
import Stencil.Proofs.Comparison
import Stencil.Proofs.Derivation
/-!
# Conditions as they are written

A `Formula` says how a condition is written: comparisons and words, and chains of two or more terms
with brackets only where they are needed, around a chain in a conjunction and around a disjunction
in a disjunction. Its text is that of its tokens.

Reading undoes writing. The tokens of a formula are derived (`Formula.Fits.derives`), and they are
cut out of its text again, because no run has a sign of a connective or a bracket and no two runs
meet (`Token.ofText_flatMap_text`). Closing brackets that are missing at the end are supplied, so
the condition is read from what is left without them, too.
-/

namespace Stencil.Condition

/-! ### Tokens are cut out of their text -/

namespace Token

/-- A run that is read back: it is not blank, and nothing in it ends a run. -/
structure WholeRun (t : Text) : Prop where
  not_blank : Text.isBlankText t = false
  no_sign : ∀ c ∈ t, c ≠ '(' ∧ c ≠ ')' ∧ c ≠ '&' ∧ c ≠ '|'

/-- One of two neighbours is no run. -/
def Separated (a b : Token) : Prop := a.isRun = false ∨ b.isRun = false

/-- Tokens that are read back. -/
structure ReadBack (ts : List Token) : Prop where
  runs : ∀ t, .run t ∈ ts → WholeRun t
  separated : ts.IsChain Separated

variable {ts us : List Token} {t : Text}

/-- A text without signs of conditions is taken into the run whole. -/
theorem scan_append_of_no_sign (h : ∀ c ∈ t, c ≠ '(' ∧ c ≠ ')' ∧ c ≠ '&' ∧ c ≠ '|') (run : Text)
    (done : List Token) (rest : Text) :
    scan run done (t ++ rest) = scan (t.reverse ++ run) done rest := by
  induction t generalizing run with
  | nil => rfl
  | cons c t ih =>
    obtain ⟨hopen, hclose, hand, hor⟩ := h c List.mem_cons_self
    -- each connective begins with one of these signs
    have hstarts : ∀ s ∈ connectives, ¬ s <+: c :: (t ++ rest) := by
      intro s hs hin
      simp only [connectives, List.mem_cons, List.not_mem_nil, or_false] at hs
      rcases hs with rfl | rfl | rfl | rfl
      · exact hopen (List.cons_prefix_cons.1 hin).1.symm
      · exact hclose (List.cons_prefix_cons.1 hin).1.symm
      · exact hand (List.cons_prefix_cons.1 hin).1.symm
      · exact hor (List.cons_prefix_cons.1 hin).1.symm
    rw [List.cons_append, scan_cons hstarts, ih (fun c' hc' => h c' (List.mem_cons_of_mem c hc')),
      List.reverse_cons, List.append_assoc]
    rfl

/-- Tokens are cut out of the rest of a text; the run in front of it is not their own. -/
theorem scan_flatMap_text (h : ReadBack ts) (run : Text) (done : List Token)
    (hrun : run = [] ∨ ∀ tok ∈ ts.head?, tok.isRun = false) :
    scan run done (ts.flatMap text) = (pushRun run done).reverse ++ ts := by
  induction ts generalizing run done with
  | nil => rw [List.append_nil]; rfl
  | cons tok ts ih =>
    obtain ⟨hnext, hchain⟩ := List.isChain_cons.1 h.separated
    have hrest : ReadBack ts := ⟨fun t ht => h.runs t (List.mem_cons_of_mem tok ht), hchain⟩
    -- a connective or a bracket ends the run in front of it
    have hconnective : ∀ tok : Token, scan [] (tok :: pushRun run done) (ts.flatMap text) =
        (pushRun run done).reverse ++ tok :: ts := by
      intro tok
      rw [ih hrest [] _ (.inl rfl)]
      show (tok :: pushRun run done).reverse ++ ts = _
      rw [List.reverse_cons, List.append_assoc]
      rfl
    cases tok with
    | and => exact hconnective .and
    | or => exact hconnective .or
    | opening => exact hconnective .opening
    | closing => exact hconnective .closing
    | run t =>
      have ht := h.runs t List.mem_cons_self
      obtain rfl : run = [] := hrun.resolve_right fun hhead => by cases hhead (.run t) rfl
      have hnot : Text.isBlankText t.reverse = false := by
        rw [Text.isBlankText, List.all_reverse]
        exact ht.not_blank
      have hhead : ∀ tok ∈ ts.head?, tok.isRun = false := fun tok htok =>
        (hnext tok htok).resolve_left Bool.noConfusion
      rw [List.flatMap_cons, text, scan_append_of_no_sign ht.no_sign, List.append_nil,
        ih hrest _ _ (.inr hhead), pushRun, hnot, if_neg Bool.false_ne_true, List.reverse_reverse,
        List.reverse_cons, List.append_assoc]
      rfl

/-- The tokens of a text that tokens write are these tokens. -/
theorem ofText_flatMap_text (h : ReadBack ts) : ofText (ts.flatMap text) = ts :=
  scan_flatMap_text h [] [] (.inl rfl)

/-- What stands before in tokens that are read back is read back. -/
theorem ReadBack.left (h : ReadBack (ts ++ us)) : ReadBack ts :=
  ⟨fun t ht => h.runs t (List.mem_append_left us ht), (List.isChain_append.1 h.separated).1⟩

/-- Closing brackets at the end of the text are tokens of their own. -/
theorem exists_of_flatMap_text (h : ReadBack ts) {s : Text} {n : Nat}
    (hs : ts.flatMap text = s ++ List.replicate n ')') :
    ∃ us, ts = us ++ List.replicate n .closing ∧ s = us.flatMap text := by
  -- by induction on the number of brackets, the last one first
  induction n generalizing s with
  | zero => exact ⟨ts, (List.append_nil ts).symm, by rw [hs]; exact (List.append_nil s).symm⟩
  | succ n ih =>
    have hsplit : ts.flatMap text = (s ++ [')']) ++ List.replicate n ')' := by
      rw [hs, List.replicate_succ, List.append_assoc]
      rfl
    obtain ⟨us, rfl, hus⟩ := ih hsplit
    rcases List.eq_nil_or_concat us with rfl | ⟨us, tok, rfl⟩
    · simp at hus
    rw [List.concat_eq_append, List.flatMap_append, List.flatMap_singleton] at hus
    -- the last character is that of the last token, which is no run
    have hlast : tok.text.getLast? = some ')' := by
      have hne : tok.text ≠ [] := by
        cases tok with
        | run t =>
          rintro rfl
          have := (h.left.runs [] (by simp)).not_blank
          cases this
        | and | or | opening | closing => exact List.cons_ne_nil _ _
      have hend := congrArg List.getLast? hus
      rw [List.getLast?_concat, List.getLast?_append_of_ne_nil _ hne] at hend
      exact hend.symm
    obtain rfl : tok = .closing := by
      cases tok with
      | run t =>
        have ht := h.left.runs t (by simp)
        exact absurd rfl (ht.no_sign ')' (List.mem_of_getLast? hlast)).2.1
      | closing => rfl
      | and | or | opening => cases hlast
    refine ⟨us, ?_, (List.append_inj_left' hus rfl)⟩
    rw [List.replicate_succ, List.concat_eq_append, List.append_assoc]
    rfl

/-- Tokens that are read back, with a run among them, that close what they open. -/
structure Complete (ts : List Token) : Prop where
  readBack : ReadBack ts
  balanced : ts.count .opening = ts.count .closing
  has_run : ∃ t, .run t ∈ ts

namespace Complete

/-- A run alone is complete. -/
theorem run (h : WholeRun t) : Complete [.run t] where
  readBack := ⟨fun t' ht' => by cases List.mem_singleton.1 ht'; exact h, .singleton _⟩
  balanced := rfl
  has_run := ⟨t, List.mem_singleton_self _⟩

/-- Brackets around complete tokens give complete tokens. -/
theorem group (h : Complete ts) : Complete (.opening :: (ts ++ [.closing])) := by
  obtain ⟨⟨hruns, hseparated⟩, hbalanced, t, ht⟩ := h
  refine ⟨⟨fun t' ht' => hruns t' (by simpa using ht'), ?_⟩, ?_, t, by simp [ht]⟩
  · refine List.isChain_cons.2 ⟨fun _ _ => .inl rfl, ?_⟩
    refine List.isChain_append.2 ⟨hseparated, .singleton _, ?_⟩
    intro x _ y hy
    obtain rfl : Token.closing = y := Option.some.inj hy
    exact .inr rfl
  · simp [hbalanced]

/-- A connective between complete tokens gives complete tokens. -/
theorem join {tok : Token} (htok : tok = .and ∨ tok = .or) (ht : Complete ts) (hu : Complete us) :
    Complete (ts ++ tok :: us) := by
  have hrun : tok.isRun = false := by rcases htok with rfl | rfl <;> rfl
  have hbracket : tok ≠ .opening ∧ tok ≠ .closing := by
    rcases htok with rfl | rfl <;> exact ⟨nofun, nofun⟩
  obtain ⟨⟨hruns, hseparated⟩, hbalanced, t, ht⟩ := ht
  obtain ⟨⟨hruns', hseparated'⟩, hbalanced', -⟩ := hu
  -- the connective is no run, so it separates what stands on its sides
  refine ⟨⟨fun t' ht' => ?_, ?_⟩, ?_, t, List.mem_append_left _ ht⟩
  · rcases List.mem_append.1 ht' with hleft | hright
    · exact hruns t' hleft
    · rcases List.mem_cons.1 hright with rfl | hright
      · cases hrun
      · exact hruns' t' hright
  · refine List.isChain_append.2 ⟨hseparated, List.isChain_cons.2 ⟨fun _ _ => .inl hrun, hseparated'⟩, ?_⟩
    intro x _ y hy
    obtain rfl : tok = y := Option.some.inj hy
    exact .inr hrun
  · rw [List.count_append, List.count_append, List.count_cons_of_ne hbracket.1,
      List.count_cons_of_ne hbracket.2, hbalanced, hbalanced']

/-- From what is left of the text without closing brackets at its end all tokens are read. -/
theorem closed_ofText (h : Complete ts) {s : Text} {n : Nat}
    (hs : ts.flatMap text = s ++ List.replicate n ')') :
    Text.isBlankText s = false ∧ closed (ofText s) = ts := by
  obtain ⟨us, rfl, rfl⟩ := exists_of_flatMap_text h.readBack hs
  constructor
  · obtain ⟨t, ht⟩ := h.has_run
    have htus : .run t ∈ us := by
      rcases List.mem_append.1 ht with hmem | hmem
      · exact hmem
      · cases (List.mem_replicate.1 hmem).2
    -- some character of a run is no blank
    obtain ⟨c, hc, hblank⟩ := List.all_eq_false.1 (h.readBack.runs t ht).not_blank
    exact List.all_eq_false.2 ⟨c, List.mem_flatMap.2 ⟨_, htus, hc⟩, hblank⟩
  · have hbalanced := h.balanced
    rw [List.count_append, List.count_append, List.count_replicate_self,
      List.count_replicate, if_neg (by decide)] at hbalanced
    -- the brackets that are missing are those that were cut off
    have hmissing : us.count .opening - us.count .closing = n := by omega
    rw [ofText_flatMap_text h.readBack.left, closed, hmissing]

end Complete

end Token

/-! ### Runs as they are written -/

variable {t : Text}

/-- A run without signs never holds: it has no operator. -/
theorem ofRun_of_signFree (h : SignFree t) : ofRun t = .never := by
  have hnone : Comparison.parse? t = none := by
    rw [Comparison.parse?, Option.map_eq_none_iff, List.find?_eq_none]
    intro op _ hcontains
    exact h.not_infix (signs_symbol op) (symbol_ne_nil op) (Text.contains_iff.1 hcontains)
  rw [ofRun, hnone]

section Between

variable {a b : Text} {op : Operator} (ha : SignFree a) (hb : SignFree b)

include ha hb

/-- Signs that stand in an operator between two texts without signs stand in the operator. -/
theorem infix_between_iff {s : Text} (hs : Signs s) (hne : s ≠ []) :
    s <:+: a ++ (op.symbol ++ b) ↔ s <:+: op.symbol := by
  constructor
  · intro hin
    exact Text.infix_left (Text.infix_right hin (ha.not_mem hs) hne) (hb.not_mem hs) hne
  · intro hin
    exact (hin.trans (List.prefix_append _ _).isInfix).trans (List.suffix_append _ _).isInfix

/-- The operator between two texts without signs is the one that is found. -/
theorem operator?_between : operator? (a ++ (op.symbol ++ b)) = some op := by
  have hcontains : ∀ op', Text.contains (Operator.symbol op') (a ++ (op.symbol ++ b)) =
      Text.contains op'.symbol op.symbol := by
    intro op'
    rw [Bool.eq_iff_iff, Text.contains_iff, Text.contains_iff]
    exact infix_between_iff ha hb (signs_symbol op') (symbol_ne_nil op')
  unfold operator?
  simp only [hcontains]
  cases op <;> rfl

/-- An operator between two texts without signs is the one that is read, with these texts on its
sides. -/
theorem parse?_between :
    Comparison.parse? (a ++ (op.symbol ++ b)) =
      some ⟨Comparison.operand a, op, Comparison.operand b⟩ := by
  have hsigns := signs_symbol op
  have hne := symbol_ne_nil op
  -- the operator does not begin in the text before it
  have hfirst : ¬ op.symbol <:+: a ++ op.symbol.dropLast := by
    intro hin
    have hlen := (Text.infix_right hin (ha.not_mem hsigns) hne).length_le
    have hpos := List.length_pos_of_ne_nil hne
    rw [List.length_dropLast] at hlen
    omega
  rw [parse?_eq_of_operator? (operator?_between ha hb), Text.split_append hne hfirst,
    Text.split_eq_singleton (hb.not_infix hsigns hne)]
  rfl

end Between

/-- In particular such a text has no brackets and no characters of connectives. -/
theorem SignFree.no_sign (h : SignFree t) : ∀ c ∈ t, c ≠ '(' ∧ c ≠ ')' ∧ c ≠ '&' ∧ c ≠ '|' := by
  intro c hc
  have hplain := h c hc
  refine ⟨?_, ?_, ?_, ?_⟩ <;> rintro rfl <;> cases hplain

/-- Neither have the operators. -/
theorem no_sign_symbol (op : Operator) :
    ∀ c ∈ op.symbol, c ≠ '(' ∧ c ≠ ')' ∧ c ≠ '&' ∧ c ≠ '|' := by
  cases op <;> simp [Operator.symbol]

/-- A comparison as it is written stays one run. -/
theorem wholeRun_test {left right : Text} (op : Operator) (hl : SignFree left)
    (hr : SignFree right) :
    Token.WholeRun (Text.escape left ++ (op.symbol ++ Text.escape right)) where
  not_blank := isBlankText_compared op left (Text.escape right)
  no_sign c hc := by
    rcases List.mem_append.1 hc with hc | hc
    · exact hl.escape.no_sign c hc
    rcases List.mem_append.1 hc with hc | hc
    · exact no_sign_symbol op c hc
    · exact hr.escape.no_sign c hc

/-- It is read as that comparison. -/
theorem ofRun_test {left right : Text} (op : Operator) (hl : Text.trim left = left)
    (hl' : SignFree left) (hr : Text.trim right = right) (hr' : SignFree right) :
    ofRun (Text.escape left ++ (op.symbol ++ Text.escape right)) = .test ⟨left, op, right⟩ := by
  rw [ofRun, parse?_between hl'.escape hr'.escape, operand_escape, operand_escape, hl, hr]

/-! ### Formulas -/

/-- A condition as it is written. -/
inductive Formula where
  /-- A run without an operator. -/
  | word (text : Text)
  | test (left : Text) (op : Operator) (right : Text)
  | all (terms : List Formula)
  | any (terms : List Formula)

namespace Formula

mutual

/-- The condition that a formula writes. -/
def condition : Formula → Condition
  | word _ => .never
  | test left op right => .test ⟨left, op, right⟩
  | all terms => .all (conditions terms)
  | any terms => .any (conditions terms)

def conditions : List Formula → List Condition
  | [] => []
  | f :: fs => f.condition :: conditions fs

end

/-- Whether a term stands in brackets: a chain in a conjunction, a disjunction in a disjunction. -/
def grouped : Token → Formula → Bool
  | .and, all _ => true
  | _, any _ => true
  | _, _ => false

mutual

/-- The tokens of a formula; connectives stand between the terms. -/
def tokens : Formula → List Token
  | word t => [.run t]
  | test left op right => [.run (Text.escape left ++ (op.symbol ++ Text.escape right))]
  | all terms => [Token.and].intercalate (operands .and terms)
  | any terms => [Token.or].intercalate (operands .or terms)

/-- The tokens of the terms under a connective. -/
def operands (connective : Token) : List Formula → List (List Token)
  | [] => []
  | f :: fs =>
    (if f.grouped connective then .opening :: (f.tokens ++ [.closing]) else f.tokens) ::
      operands connective fs

end

/-- The formula as a text. -/
def text (f : Formula) : Text := f.tokens.flatMap Token.text

mutual

/-- How deep groups nest. -/
def nesting : Formula → Nat
  | word _ => 0
  | test _ _ _ => 0
  | all terms => deepest .and terms
  | any terms => deepest .or terms

/-- How deep groups nest in terms under a connective. -/
def deepest (connective : Token) : List Formula → Nat
  | [] => 0
  | f :: fs =>
    max (if f.grouped connective then f.nesting + 1 else f.nesting) (deepest connective fs)

end

example : (any [all [test ['a'] .equal ['['], any [word ['b'], word ['c']]], word ['d']]).text =
    "a==#LEFT#&&(b||c)||d".toList := rfl

/-- What a formula is read back from: words that are not blank and operands without blanks around
them, both without signs, and chains of two or more terms. -/
inductive Fits : Formula → Prop
  | word {t : Text} (not_blank : Text.isBlankText t = false) (sign_free : SignFree t) :
      Fits (.word t)
  | test {left right : Text} {op : Operator} (left_trimmed : Text.trim left = left)
      (left_free : SignFree left) (right_trimmed : Text.trim right = right)
      (right_free : SignFree right) : Fits (.test left op right)
  | all {terms : List Formula} (two : 2 ≤ terms.length) (each : ∀ f ∈ terms, Fits f) :
      Fits (.all terms)
  | any {terms : List Formula} (two : 2 ≤ terms.length) (each : ∀ f ∈ terms, Fits f) :
      Fits (.any terms)

/-! ### Formulas are derived -/

variable {f : Formula} {terms : List Formula} {depth : Nat}

/-- The tokens of a term under a connective. -/
def operand (connective : Token) (f : Formula) : List Token :=
  if f.grouped connective then .opening :: (f.tokens ++ [.closing]) else f.tokens

/-- The terms of a chain are derived where each of them is. -/
theorem chain_operands {connective : Token} {Term : List Token → Condition → Prop}
    (hne : terms ≠ []) (h : ∀ f ∈ terms, Term (f.operand connective) f.condition) :
    Chain connective Term ([connective].intercalate (operands connective terms))
      (conditions terms) := by
  induction terms with
  | nil => exact absurd rfl hne
  | cons f terms ih =>
    have hfirst := h f List.mem_cons_self
    cases terms with
    | nil =>
      show Chain connective Term ([connective].intercalate [f.operand connective]) [f.condition]
      rw [List.intercalate_singleton]
      exact .one hfirst
    | cons g terms =>
      have hrest := ih (List.cons_ne_nil g terms) fun f' hf' => h f' (List.mem_cons_of_mem f hf')
      have hne : operands connective (g :: terms) ≠ [] := by
        rw [operands]
        exact List.cons_ne_nil _ _
      show Chain connective Term ([connective].intercalate
        (f.operand connective :: operands connective (g :: terms))) (f.condition :: _)
      rw [List.intercalate_cons_of_ne_nil hne, List.append_assoc]
      exact .more hfirst hrest

/-- There is one condition for each term. -/
theorem length_conditions (terms : List Formula) : (conditions terms).length = terms.length := by
  induction terms with
  | nil => rfl
  | cons f terms ih => rw [conditions, List.length_cons, List.length_cons, ih]

/-- No term nests deeper than the deepest. -/
theorem nesting_le_deepest (connective : Token) (hf : f ∈ terms) :
    (if f.grouped connective then f.nesting + 1 else f.nesting) ≤ deepest connective terms := by
  induction terms with
  | nil => cases hf
  | cons g terms ih =>
    rw [deepest]
    rcases List.mem_cons.1 hf with rfl | hf
    · exact Nat.le_max_left _ _
    · exact (ih hf).trans (Nat.le_max_right _ _)

/-- A term under a connective is derived where brackets around it are and, if it has none, where it
is derived itself. -/
theorem term_operand {connective : Token} {Term : List Token → Condition → Prop}
    (hle : (if f.grouped connective then f.nesting + 1 else f.nesting) ≤ depth)
    (hprimary : ∀ {ts c}, Primary (InGroup depth) ts c → Term ts c)
    (hgroup : ∀ {depth}, f.nesting ≤ depth → Derives depth f.tokens f.condition)
    (hplain : f.nesting ≤ depth → f.grouped connective = false → Term f.tokens f.condition) :
    Term (f.operand connective) f.condition := by
  unfold operand
  split at hle
  -- a term in brackets is a group, and groups admit one level less
  · next hgrouped =>
    obtain ⟨depth, rfl⟩ : ∃ d, depth = d + 1 := ⟨depth - 1, by omega⟩
    rw [if_pos hgrouped]
    exact hprimary (.group (hgroup (Nat.le_of_succ_le_succ hle)))
  · next hgrouped =>
    rw [if_neg hgrouped]
    exact hplain hle (Bool.eq_false_iff.2 hgrouped)

/-! ### Formulas are read back -/

namespace Fits

/-- The tokens of a formula are those of its condition: a run or a conjunction stands wherever it
needs no brackets, and a formula as a whole is a disjunction. -/
theorem derives (h : f.Fits) (hnest : f.nesting ≤ depth) :
    (f.grouped .and = false → Primary (InGroup depth) f.tokens f.condition) ∧
      (f.grouped .or = false → Conjunction (Primary (InGroup depth)) f.tokens f.condition) ∧
      Derives depth f.tokens f.condition := by
  induction h generalizing depth with
  | @word t _ sign_free =>
    -- a word is a run that never holds
    have hprimary : Primary (InGroup depth) (Formula.word t).tokens .never := by
      rw [← ofRun_of_signFree sign_free]
      exact .run t
    exact ⟨fun _ => hprimary, fun _ => .single hprimary, .single (.single hprimary)⟩
  | @test left right op hl hl' hr hr' =>
    have hprimary : Primary (InGroup depth) (Formula.test left op right).tokens
        (.test ⟨left, op, right⟩) := by
      rw [← ofRun_test op hl hl' hr hr']
      exact .run _
    exact ⟨fun _ => hprimary, fun _ => .single hprimary, .single (.single hprimary)⟩
  | @all terms two _ ih =>
    -- each term of a conjunction is a primary, in brackets if it has to be
    have hterm : ∀ f ∈ terms, Primary (InGroup depth) (f.operand .and) f.condition := by
      intro f hf
      exact term_operand ((nesting_le_deepest .and hf).trans hnest) id
        (fun hle => (ih f hf hle).2.2) fun hle => (ih f hf hle).1
    have hne : terms ≠ [] := by rintro rfl; cases two
    have hconjunction : Conjunction (Primary (InGroup depth)) (Formula.all terms).tokens
        (Formula.all terms).condition := by
      refine ⟨conditions terms, chain_operands hne hterm, (chained_of_two_le ?_).symm⟩
      rwa [length_conditions]
    exact ⟨nofun, fun _ => hconjunction, .single hconjunction⟩
  | @any terms two _ ih =>
    -- each term of a disjunction is a conjunction, which is a primary alone
    have hterm : ∀ f ∈ terms,
        Conjunction (Primary (InGroup depth)) (f.operand .or) f.condition := by
      intro f hf
      exact term_operand ((nesting_le_deepest .or hf).trans hnest) .single
        (fun hle => (ih f hf hle).2.2) fun hle => (ih f hf hle).2.1
    have hne : terms ≠ [] := by rintro rfl; cases two
    refine ⟨nofun, nofun, conditions terms, chain_operands hne hterm, (chained_of_two_le ?_).symm⟩
    rwa [length_conditions]

/-- The tokens of a formula are read back from its text. -/
theorem complete (h : f.Fits) : Token.Complete f.tokens := by
  -- brackets around a term change nothing, and connectives join terms
  have hchain : ∀ {connective : Token} {terms : List Formula},
      connective = .and ∨ connective = .or → 2 ≤ terms.length →
      (∀ f ∈ terms, Token.Complete f.tokens) →
      Token.Complete ([connective].intercalate (operands connective terms)) := by
    intro connective terms hconnective two hterms
    have hne : terms ≠ [] := by rintro rfl; cases two
    have hoperands : Chain connective (fun ts _ => Token.Complete ts)
        ([connective].intercalate (operands connective terms)) (conditions terms) := by
      -- the term stands as it is or in brackets
      refine chain_operands hne fun f hf => ?_
      rw [operand]
      split
      · exact (hterms f hf).group
      · exact hterms f hf
    exact hoperands.forall_tokens (fun _ _ hts => hts) fun _ _ => .join hconnective
  induction h with
  | word not_blank sign_free => exact .run ⟨not_blank, sign_free.no_sign⟩
  | test _ hl _ hr => exact .run (wholeRun_test _ hl hr)
  | all two _ ih => exact hchain (.inl rfl) two ih
  | any two _ ih => exact hchain (.inr rfl) two ih

end Fits

/-- A formula is read as its condition, and so is what is left of it without any number of the
closing brackets at its end. -/
theorem parse_text (h : f.Fits) (hnest : f.nesting ≤ maxNesting) :
    parse f.text = .ok f.condition ∧
      ∀ (s : Text) (n : Nat), f.text = s ++ List.replicate n ')' → parse s = .ok f.condition := by
  have hread : ∀ (s : Text) (n : Nat), f.text = s ++ List.replicate n ')' →
      parse s = .ok f.condition := by
    intro s n hs
    obtain ⟨hblank, hclosed⟩ := h.complete.closed_ofText hs
    refine parse_eq_ok_iff.2 ⟨hblank, ?_⟩
    have hderives : Derives maxNesting (Token.closed (Token.ofText s)) f.condition := by
      rw [hclosed]
      exact (h.derives hnest).2.2
    exact hderives
  exact ⟨hread f.text 0 (List.append_nil _).symm, hread⟩

/-- A formula with a group in a group at its end. -/
def nested : Formula :=
  .all [.test ['a'] .equal ['['],
    .any [.word ['w'], .all [.test ['1'] .below ['2'], .any [.word ['x'], .word ['y']]]]]

/-- It is written as formulas are. -/
theorem fits_nested : nested.Fits := by
  have hx : Fits (.word ['x']) := .word (by decide) (by decide)
  have hy : Fits (.word ['y']) := .word (by decide) (by decide)
  have hw : Fits (.word ['w']) := .word (by decide) (by decide)
  have hbelow : Fits (.test ['1'] .below ['2']) :=
    .test (by decide) (by decide) (by decide) (by decide)
  have hequal : Fits (.test ['a'] .equal ['[']) :=
    .test (by decide) (by decide) (by decide) (by decide)
  have hlast : Fits (.any [.word ['x'], .word ['y']]) := .any (by decide) (by simp [hx, hy])
  have hinner : Fits (.all [.test ['1'] .below ['2'], .any [.word ['x'], .word ['y']]]) :=
    .all (by decide) (by simp [hbelow, hlast])
  have houter : Fits (.any [.word ['w'],
      .all [.test ['1'] .below ['2'], .any [.word ['x'], .word ['y']]]]) :=
    .any (by decide) (by simp [hw, hinner])
  exact .all (by decide) (by simp [hequal, houter])

/-- The formula is read back from its text without the two brackets at its end. -/
theorem parse_text_nested :
    nested.Fits ∧ nested.nesting ≤ maxNesting ∧
      nested.text = "a==#LEFT#&&(w||1<2&&(x||y))".toList ∧
      parse "a==#LEFT#&&(w||1<2&&(x||y".toList =
        .ok (.all [.test ⟨['a'], .equal, ['[']⟩,
          .any [.never, .all [.test ⟨['1'], .below, ['2']⟩, .any [.never, .never]]]]) :=
  ⟨fits_nested, by decide, rfl, (parse_text fits_nested (by decide)).2 _ 2 rfl⟩

end Formula

end Stencil.Condition
