import Stencil.Proofs.Derivation
/-!
# What conditions are read from

A condition is cut into runs and what stands between them, which is a connective or a bracket. A text
without any is a single run (`parse_of_plain`); of any other text the tokens are the run up to the
first connective, the connective and the tokens of the rest (`Token.ofText_append`). So what is said
of tokens is shown from one connective to the next (`Token.induction_connective`), such as that no
run has a connective in it (`Token.plain_of_mem_ofText`).

What holds of every run, and passes to conjunctions and disjunctions, holds of the condition that is
read (`parse_induction`), because it holds of all that is derived.
-/

namespace Stencil.Condition

variable {s t : Text} {c : Char}

/-! ### Runs -/

/-- What ends a run. -/
def connectives : List Text := [['('], [')'], ['&', '&'], ['|', '|']]

/-- The text has no connective and no bracket. -/
def Plain (t : Text) : Prop := ∀ s ∈ connectives, ¬ s <:+: t

instance (t : Text) : Decidable (Plain t) :=
  inferInstanceAs (Decidable (∀ s ∈ connectives, ¬ s <:+: t))

/-- No connective is written with nothing. -/
theorem ne_nil_of_mem_connectives (h : s ∈ connectives) : s ≠ [] := by
  rintro rfl
  revert h
  decide

/-- A connective has at most two characters. -/
theorem length_le_of_mem_connectives (h : s ∈ connectives) : s.length ≤ 2 := by
  have hall : ∀ s ∈ connectives, s.length ≤ 2 := by decide
  exact hall s h

/-- No connective stands in the empty text. -/
theorem plain_nil : Plain [] := fun _ hs hin => ne_nil_of_mem_connectives hs (List.infix_nil.1 hin)

/-- A part of a plain text is plain. -/
theorem Plain.part (h : Plain t) (hin : s <:+: t) : Plain s :=
  fun x hx hx' => h x hx (hx'.trans hin)

namespace Token

def text : Token → Text
  | run t => t
  | and => ['&', '&']
  | or => ['|', '|']
  | opening => ['(']
  | closing => [')']

def isRun : Token → Bool
  | run _ => true
  | _ => false

variable {tok : Token} {a rest : Text}

/-- A token that is no run is written as a connective. -/
theorem text_mem_connectives (h : tok.isRun = false) : tok.text ∈ connectives := by
  cases tok with
  | run t => cases h
  | and | or | opening | closing => decide

/-- Every connective is the text of such a token. -/
theorem exists_of_mem_connectives (h : s ∈ connectives) :
    ∃ tok : Token, tok.isRun = false ∧ tok.text = s := by
  simp only [connectives, List.mem_cons, List.not_mem_nil, or_false] at h
  rcases h with rfl | rfl | rfl | rfl
  · exact ⟨.opening, rfl, rfl⟩
  · exact ⟨.closing, rfl, rfl⟩
  · exact ⟨.and, rfl, rfl⟩
  · exact ⟨.or, rfl, rfl⟩

/-- The tokens of a run: blanks alone are none. -/
def runOf (t : Text) : List Token := if Text.isBlankText t then [] else [.run t]

/-- Ending a run puts it before the tokens that are done, unless it is blank. -/
theorem pushRun_reverse (t : Text) (done : List Token) :
    pushRun t.reverse done = runOf t ++ done := by
  rw [pushRun, runOf, Text.isBlankText, List.all_reverse, List.reverse_reverse]
  show (if Text.isBlankText t then _ else _) = _
  split <;> rfl

/-- Such a run is one token at most, so its order does not matter. -/
theorem reverse_runOf (t : Text) : (runOf t).reverse = runOf t := by
  unfold runOf
  split <;> rfl

/-- What is finished stays in front. -/
theorem scan_append_done (run : Text) (done before : List Token) (t : Text) :
    scan run (done ++ before) t = before.reverse ++ scan run done t := by
  have hpush : ∀ (run : Text) (done : List Token),
      pushRun run (done ++ before) = pushRun run done ++ before := by
    intro run done
    unfold pushRun
    split <;> rfl
  fun_induction scan run done t with
  | case1 run done cs ih => rw [scan, hpush]; exact ih
  | case2 run done cs ih => rw [scan, hpush]; exact ih
  | case3 run done cs ih => rw [scan, hpush]; exact ih
  | case4 run done cs ih => rw [scan, hpush]; exact ih
  | case5 run done c cs hand hor hopening hclosing ih =>
    rw [scan, ih] <;> assumption
  | case6 run done => rw [scan, hpush, List.reverse_append]

/-- A run goes on where no connective begins. -/
theorem scan_cons {c : Char} (h : ∀ s ∈ connectives, ¬ s <+: c :: t) (run : Text)
    (done : List Token) : scan run done (c :: t) = scan (c :: run) done t := by
  rw [scan]
  · rintro cs rfl rfl
    exact h ['&', '&'] (by decide) (List.prefix_append ['&', '&'] cs)
  · rintro cs rfl rfl
    exact h ['|', '|'] (by decide) (List.prefix_append ['|', '|'] cs)
  · rintro rfl
    exact h ['('] (by decide) (List.prefix_append ['('] t)
  · rintro rfl
    exact h [')'] (by decide) (List.prefix_append [')'] t)

/-- A text without connectives and brackets is a single run. -/
theorem ofText_of_plain (h : Plain t) : ofText t = runOf t := by
  have hscan : ∀ run, scan run [] t = (pushRun (t.reverse ++ run) []).reverse := by
    induction t with
    | nil => exact fun _ => rfl
    | cons c t ih =>
      intro run
      have hstarts : ∀ s ∈ connectives, ¬ s <+: c :: t := fun s hs hin => h s hs hin.isInfix
      rw [scan_cons hstarts, ih (h.part (List.infix_cons (List.infix_refl t))), List.reverse_cons,
        List.append_assoc]
      rfl
  rw [ofText, hscan, List.append_nil, pushRun_reverse, List.append_nil, reverse_runOf]

/-! ### The first connective -/

/-- A connective that ends in another one is the same. -/
theorem prefix_dropLast_of_mem_connectives {c : Char} (h : c :: s ∈ connectives)
    (ht : t ∈ connectives) (hs : s <+: t) : s <+: t.dropLast := by
  have hall : ∀ s ∈ connectives, ∀ t ∈ connectives, s.tail <+: t → s.tail <+: t.dropLast := by
    decide
  exact hall (c :: s) h t ht hs

theorem isPrefix_append_dropLast (a s rest : Text) : a ++ s.dropLast <+: a ++ (s ++ rest) :=
  (List.prefix_append_right_inj a).2 ((List.dropLast_prefix s).trans (List.prefix_append s rest))

/-- A run reaches up to the first connective. -/
theorem scan_append (htok : tok.isRun = false) (h : Plain (a ++ tok.text.dropLast)) (run : Text)
    (done : List Token) (rest : Text) :
    scan run done (a ++ (tok.text ++ rest)) =
      scan [] (tok :: pushRun (a.reverse ++ run) done) rest := by
  induction a generalizing run with
  | nil =>
    cases tok with
    | run t => cases htok
    | and | or | opening | closing => rfl
  | cons c a ih =>
    have hstarts : ∀ s ∈ connectives, ¬ s <+: c :: (a ++ (tok.text ++ rest)) := by
      intro s hs hin
      rcases List.prefix_cons_iff.1 hin with rfl | ⟨s, rfl, htail⟩
      · exact ne_nil_of_mem_connectives hs rfl
      refine h (c :: s) hs (List.IsPrefix.isInfix ?_)
      rw [List.cons_append, List.cons_prefix_cons]
      refine ⟨rfl, ?_⟩
      -- a longer connective reaches one character behind the text at most
      have hshort : s.length ≤ 1 := Nat.le_of_succ_le_succ (length_le_of_mem_connectives hs)
      cases a with
      | nil =>
        have htext : s <+: tok.text := by
          refine List.prefix_of_prefix_length_le htail (List.prefix_append _ _) (Nat.le_trans hshort ?_)
          exact List.length_pos_iff.2 (ne_nil_of_mem_connectives (text_mem_connectives htok))
        exact prefix_dropLast_of_mem_connectives hs (text_mem_connectives htok) htext
      | cons d a =>
        refine List.prefix_of_prefix_length_le htail (isPrefix_append_dropLast _ _ rest) ?_
        exact Nat.le_trans hshort (Nat.le_add_left 1 _)
    rw [List.cons_append, scan_cons hstarts, ih (h.part (List.infix_cons (List.infix_refl _))),
      List.reverse_cons, List.append_assoc]
    rfl

/-- The tokens of a text are the run up to the first connective, the connective and the tokens of
the rest. -/
theorem ofText_append (htok : tok.isRun = false) (h : Plain (a ++ tok.text.dropLast))
    (rest : Text) : ofText (a ++ (tok.text ++ rest)) = runOf a ++ tok :: ofText rest := by
  have hdone := scan_append_done [] [] (tok :: runOf a) rest
  rw [List.nil_append] at hdone
  rw [ofText, scan_append htok h, List.append_nil, pushRun_reverse, List.append_nil, hdone,
    List.reverse_cons, reverse_runOf, List.append_assoc]
  rfl

/-- A text that is no single run has a first connective. -/
theorem exists_first_connective (h : ¬ Plain t) : ∃ (a : Text) (tok : Token) (rest : Text),
    tok.isRun = false ∧ t = a ++ (tok.text ++ rest) ∧ Plain (a ++ tok.text.dropLast) := by
  induction t with
  | nil => exact absurd plain_nil h
  | cons c t ih =>
    -- the first connective begins here, or in what follows
    by_cases hstarts : ∃ s ∈ connectives, s <+: c :: t
    · obtain ⟨s, hs, rest, hrest⟩ := hstarts
      obtain ⟨tok, htok, rfl⟩ := exists_of_mem_connectives hs
      refine ⟨[], tok, rest, htok, hrest.symm, ?_⟩
      cases tok with
      | run t => cases htok
      | and | or | opening | closing => decide
    · have hrest : ¬ Plain t := fun hplain => h fun s hs hin =>
        (List.infix_cons_iff.1 hin).elim (fun hhead => hstarts ⟨s, hs, hhead⟩) (hplain s hs)
      obtain ⟨a, tok, rest, htok, rfl, hplain⟩ := ih hrest
      refine ⟨c :: a, tok, rest, htok, rfl, fun s hs hin => ?_⟩
      rcases List.infix_cons_iff.1 hin with hhead | htail
      · exact hstarts ⟨s, hs, hhead.trans (isPrefix_append_dropLast (c :: a) tok.text rest)⟩
      · exact hplain s hs htail

/-- A text is a single run, or has a first connective and tokens behind it. -/
theorem induction_connective {motive : Text → Prop} (plain : ∀ t, Plain t → motive t)
    (connective : ∀ (a : Text) (tok : Token) (rest : Text), tok.isRun = false →
      Plain (a ++ tok.text.dropLast) → motive rest → motive (a ++ (tok.text ++ rest)))
    (t : Text) : motive t := by
  generalize hn : t.length = n
  induction n using Nat.strongRecOn generalizing t with
  | _ n ih =>
    subst hn
    by_cases hplain : Plain t
    · exact plain t hplain
    -- what follows the connective is shorter than the text
    · obtain ⟨a, tok, rest, htok, rfl, hfirst⟩ := exists_first_connective hplain
      refine connective a tok rest htok hfirst (ih _ ?_ rest rfl)
      have := List.length_pos_iff.2 (ne_nil_of_mem_connectives (text_mem_connectives htok))
      rw [List.length_append, List.length_append]
      omega

/-- No run has a connective or a bracket in it. -/
theorem plain_of_mem_ofText {r : Text} (h : .run r ∈ ofText t) : Plain r := by
  have hrun : ∀ {t}, Plain t → .run r ∈ runOf t → Plain r := by
    intro t ht hr
    unfold runOf at hr
    split at hr
    · cases hr
    · cases List.mem_singleton.1 hr
      exact ht
  induction t using induction_connective with
  | plain t ht =>
    -- a plain text is its only run
    rw [ofText_of_plain ht] at h
    exact hrun ht h
  | connective a tok rest htok hfirst ih =>
    rw [ofText_append htok hfirst] at h
    rcases List.mem_append.1 h with hmem | hmem
    · exact hrun (hfirst.part (List.prefix_append _ _).isInfix) hmem
    · rcases List.mem_cons.1 hmem with rfl | hmem
      -- the connective itself is no run
      · cases htok
      · exact ih hmem

end Token

/-- A single run is the condition that it writes. -/
theorem parse_of_plain (h : Plain t) (hblank : Text.isBlankText t = false) :
    parse t = .ok (ofRun t) := by
  rw [parse, hblank, if_neg Bool.false_ne_true, Token.ofText_of_plain h, Token.runOf, hblank]
  rfl

/-! ### What holds of every run -/

section Inherits

variable {Q : Condition → Prop} {Term : List Token → Condition → Prop} {connective : Token}
  {ts : List Token} {cs : List Condition}

/-- What is derived has the property if the runs among its tokens do. -/
def Inherits (Q : Condition → Prop) (Term : List Token → Condition → Prop) : Prop :=
  ∀ ts c, Term ts c → (∀ t, .run t ∈ ts → Q (ofRun t)) → Q c

/-- What the runs of a chain have, its terms have. -/
theorem Inherits.chain (hterm : Inherits Q Term) (h : Chain connective Term ts cs)
    (hrun : ∀ t, .run t ∈ ts → Q (ofRun t)) : ∀ x ∈ cs, Q x := by
  induction h with
  | one term => exact List.forall_mem_singleton.2 (hterm _ _ term hrun)
  | more term _ ih =>
    have hfirst := hterm _ _ term fun t ht => hrun t (List.mem_append_left _ ht)
    have hrest := ih fun t ht => hrun t (List.mem_append_right _ (List.mem_cons_of_mem _ ht))
    exact List.forall_mem_cons.2 ⟨hfirst, hrest⟩

/-- What connectives keep holds of a chain of terms. -/
theorem chained_of_forall {connective : List Condition → Condition}
    (hconnective : ∀ terms, (∀ x ∈ terms, Q x) → Q (connective terms)) {terms : List Condition}
    (h : ∀ x ∈ terms, Q x) : Q (chained connective terms) := by
  unfold chained
  split
  · next term => exact h term List.mem_cons_self
  · exact hconnective terms h

variable (hall : ∀ terms, (∀ x ∈ terms, Q x) → Q (all terms))
  (hany : ∀ terms, (∀ x ∈ terms, Q x) → Q (any terms))

include hall hany

/-- So what connectives keep is inherited by a disjunction of conjunctions from the terms. -/
theorem Inherits.disjunction (hterm : Inherits Q Term) :
    Inherits Q (Disjunction (Conjunction Term)) := by
  rintro ts c ⟨terms, hors, rfl⟩ hrun
  have hconjunction : Inherits Q (Conjunction Term) := by
    rintro ts c ⟨terms, hands, rfl⟩ hrun
    exact chained_of_forall hall (hterm.chain hands hrun)
  exact chained_of_forall hany (hconjunction.chain hors hrun)

/-- By induction on how deep groups may nest. -/
theorem inherits_primary (depth : Nat) : Inherits Q (Primary (InGroup depth)) := by
  induction depth with
  | zero =>
    intro ts c h hrun
    cases h with
    | run t => exact hrun t List.mem_cons_self
    -- no group is admitted at the last level
    | group inner => exact inner.elim
  | succ depth ih =>
    intro ts c h hrun
    cases h with
    | run t => exact hrun t List.mem_cons_self
    | group inner =>
      refine ih.disjunction hall hany _ _ inner fun t ht => hrun t ?_
      exact List.mem_cons_of_mem _ (List.mem_append_left _ ht)

/-- What holds of the runs of a text, and passes to conjunctions and disjunctions, holds of the
condition that the text writes. -/
theorem parse_induction (hrun : ∀ r, .run r ∈ Token.ofText t → Q (ofRun r)) {x : Condition}
    (h : parse t = .ok x) : Q x := by
  obtain ⟨-, hderives⟩ := parse_eq_ok_iff.1 h
  refine (inherits_primary hall hany maxNesting).disjunction hall hany _ _ hderives fun r hr => ?_
  -- the brackets that are supplied are no runs
  rcases List.mem_append.1 hr with hmem | hmem
  · exact hrun r hmem
  · cases (List.mem_replicate.1 hmem).2

end Inherits

/-- A run is a test exactly when a comparison is read from it. -/
theorem ofRun_eq_test {c : Comparison} : ofRun t = .test c ↔ Comparison.parse? t = some c := by
  unfold ofRun
  cases Comparison.parse? t with
  | none => exact ⟨nofun, nofun⟩
  | some c' => rw [Condition.test.injEq, Option.some_inj]

/-- A condition that is a single comparison is read from one run. -/
theorem exists_run_of_parse {c : Comparison} (h : parse t = .ok (.test c)) :
    ∃ r, .run r ∈ Token.ofText t ∧ Comparison.parse? r = some c := by
  refine parse_induction (Q := fun x => ∀ c, x = .test c →
    ∃ r, .run r ∈ Token.ofText t ∧ Comparison.parse? r = some c) nofun nofun
    (fun r hr c hc => ⟨r, hr, ofRun_eq_test.1 hc⟩) h c rfl

end Stencil.Condition
