import Mathlib.Data.List.DropRight
import Mathlib.Data.List.Forall2
import Stencil.Proofs.Formula
/-!
# Conditions that are read alike

Two texts are `Alike` if they are the same as operands: without the blanks around them and with
their codes read. No sign has a code, so such texts have the same signs, and what stands between two
signs is read alike again (`Alike.cut`). A condition is cut at signs alone, into tokens
(`Token.ofText_append`) and into operands (`Alike.split`), so the same is read from texts that are
alike (`Alike.parse_iff`): codes in it can be read and written again, and it can be trimmed.
-/

namespace Stencil.Condition

variable {s t u a a' b x y : Text} {op : Operator}

/-! ### Signs in the text and in its reading -/

/-- Signs are no blanks. -/
theorem Signs.isBlank (h : Signs s) : ∀ c ∈ s, isBlank c = false := fun c hc =>
  (of_isSign (h c hc)).2.2

/-- Signs end every code. -/
theorem Signs.unescape_append (h : Signs s) (hne : s ≠ []) (a b : Text) :
    Text.unescape (a ++ (s ++ b)) = Text.unescape a ++ (s ++ Text.unescape b) := by
  induction s generalizing a with
  | nil => exact absurd rfl hne
  | cons c s ih =>
    have hcut := Text.unescape_append_cons (of_isSign (h c List.mem_cons_self)).2.1
    rw [List.cons_append, hcut]
    cases s with
    | nil => rfl
    | cons d s =>
      have hrest := ih h.tail (List.cons_ne_nil d s) []
      rw [List.nil_append] at hrest
      rw [hrest]
      rfl

/-- What signs cut the reading of a text into is the reading of what they cut the text into. -/
theorem Signs.exists_of_unescape (h : Signs s) (hne : s ≠ [])
    (ht : Text.unescape t = x ++ (s ++ y)) :
    ∃ a b, t = a ++ (s ++ b) ∧ Text.unescape a = x ∧ Text.unescape b = y := by
  -- where the signs begin the reading they begin the text
  have hstart : ∀ {t : Text}, Text.unescape t = s ++ y → ∃ b, t = s ++ b ∧ Text.unescape b = y := by
    intro t ht
    obtain ⟨b, rfl⟩ := h.prefix_of_prefix_unescape ⟨y, ht.symm⟩
    have hread := h.unescape_append hne [] b
    rw [List.nil_append, ht] at hread
    exact ⟨b, rfl, (List.append_cancel_left hread).symm⟩
  induction t using Text.induction_unescape generalizing x with
  | nil =>
    obtain ⟨-, hnil⟩ := List.append_eq_nil_iff.1 ht.symm
    exact absurd (List.append_eq_nil_iff.1 hnil).1 hne
  -- a code is read as one character, which is no sign
  | code r t ih =>
    cases x with
    | nil =>
      obtain ⟨b, hb, hread⟩ := hstart ht
      exact ⟨[], b, hb, rfl, hread⟩
    | cons c x =>
      rw [Text.unescape_code_append, List.cons_append, List.cons.injEq] at ht
      obtain ⟨rfl, ht⟩ := ht
      obtain ⟨a, b, rfl, rfl, hb⟩ := ih ht
      exact ⟨r.code ++ a, b, (List.append_assoc _ _ _).symm, Text.unescape_code_append r a, hb⟩
  | cons d t hcode ih =>
    cases x with
    | nil =>
      obtain ⟨b, hb, hread⟩ := hstart ht
      exact ⟨[], b, hb, rfl, hread⟩
    | cons c x =>
      rw [Text.unescape_cons hcode, List.cons_append, List.cons.injEq] at ht
      obtain ⟨rfl, ht⟩ := ht
      obtain ⟨a, b, rfl, rfl, hb⟩ := ih ht
      -- the character begins no code in the shorter text either
      have hnone : Reserved.ofCode? (d :: a) = none := by
        rw [Reserved.ofCode?_eq_none_iff] at hcode ⊢
        exact fun r hr => hcode r (hr.trans (List.prefix_append (d :: a) _))
      exact ⟨d :: a, b, rfl, Text.unescape_cons hnone, hb⟩

/-! ### Texts that are read alike -/

/-- Without the blanks around them and with their codes read, the texts are the same. -/
def Alike (t u : Text) : Prop := Comparison.operand t = Comparison.operand u

theorem operand_eq_trim (t : Text) : Comparison.operand t = Text.trim (Text.unescape t) :=
  Text.unescape_trim t

/-- The text with its codes read and written again is read like the text. -/
theorem alike_escape_unescape (t : Text) : Alike (Text.escape (Text.unescape t)) t := by
  rw [Alike, operand_escape, operand_eq_trim]

/-- Blanks around a text do not matter. -/
theorem alike_trim (t : Text) : Alike (Text.trim t) t :=
  congrArg Text.unescape (Text.trimmed_trim t).trim_eq

/-- Signs can follow texts that are read alike up to their ends. -/
theorem alike_append (h : Text.trimStart (Text.unescape a) = Text.trimStart (Text.unescape a'))
    (hs : Signs s) : Alike (a ++ s) (a' ++ s) := by
  have hread : ∀ a : Text, Comparison.operand (a ++ s) =
      Text.trimEnd (Text.trimStart (Text.unescape a) ++ s) := by
    intro a
    rw [operand_eq_trim]
    cases s with
    | nil =>
      rw [List.append_nil, List.append_nil]
      rfl
    | cons c s =>
      have hcut := hs.unescape_append (List.cons_ne_nil c s) a []
      rw [List.append_nil, Text.unescape_nil, List.append_nil] at hcut
      have hhead : ∀ d ∈ (c :: s).head?, isBlank d = false := fun d hd =>
        hs.isBlank d (List.mem_of_mem_head? hd)
      rw [hcut, Text.trim, Text.trimStart_append hhead]
  rw [Alike, hread, hread, h]

/-- Signs cut texts that are read alike into parts that are. -/
theorem Alike.cut (h : Alike t u) (hs : Signs s) (hne : s ≠ []) (ht : t = a ++ (s ++ b)) :
    ∃ a' b', u = a' ++ (s ++ b') ∧
      Text.trimStart (Text.unescape a) = Text.trimStart (Text.unescape a') ∧ Alike b b' := by
  have htrim : Text.trim (Text.unescape u) =
      Text.trimStart (Text.unescape a) ++ (s ++ Text.trimEnd (Text.unescape b)) := by
    rw [← operand_eq_trim, ← h, operand_eq_trim, ht, hs.unescape_append hne,
      Text.trim_append hne hs.isBlank]
  -- the reading of the other text has blanks of its own around
  have hread := Text.eq_blanks_trim (Text.unescape u)
  rw [htrim, List.append_assoc, List.append_assoc, ← List.append_assoc] at hread
  obtain ⟨a', b', rfl, ha, hb⟩ := hs.exists_of_unescape hne hread
  refine ⟨a', b', rfl, ?_, ?_⟩
  · have hlead : ∀ c ∈ (Text.unescape (a' ++ (s ++ b'))).takeWhile isBlank, isBlank c = true :=
      fun c hc => List.mem_takeWhile_imp hc
    rw [ha, Text.trimStart, Text.trimStart, List.dropWhile_append_of_pos hlead,
      List.dropWhile_idempotent]
  · rw [Alike, operand_eq_trim, operand_eq_trim, hb]
    refine (Text.trim_trimEnd_append _ fun c hc => ?_).symm
    exact List.mem_takeWhile_imp (List.mem_reverse.1 hc)

/-- Texts that begin alike are alike. -/
theorem Alike.left (h : Text.trimStart (Text.unescape a) = Text.trimStart (Text.unescape a')) :
    Alike a a' := by
  have hnil := alike_append h (s := []) nofun
  rwa [List.append_nil, List.append_nil] at hnil

/-- Signs in a text are in every text that is read alike. -/
theorem Alike.occurs (h : Alike t u) (hs : Signs s) (hne : s ≠ []) (hin : s <:+: t) : s <:+: u := by
  obtain ⟨a, b, ht⟩ := hin
  obtain ⟨a', b', rfl, -⟩ := h.cut hs hne (by rw [← ht, List.append_assoc])
  exact ⟨a', b', List.append_assoc _ _ _⟩

/-- So the same signs are in both. -/
theorem Alike.infix_iff (h : Alike t u) (hs : Signs s) (hne : s ≠ []) : s <:+: t ↔ s <:+: u :=
  ⟨h.occurs hs hne, Alike.occurs h.symm hs hne⟩

/-- Blanks alone are the empty operand. -/
theorem Alike.isBlankText (h : Alike t u) : Text.isBlankText t = Text.isBlankText u := by
  -- a text is blank exactly when it is read as the empty one
  have hempty : ∀ t : Text, Text.isBlankText t = true ↔ Comparison.operand t = [] := by
    intro t
    constructor
    · intro hblank
      rw [Comparison.operand, Text.trim_eq_nil hblank]
      rfl
    · intro hread
      have htrim : Text.trim t = [] := by
        by_contra hne
        exact Text.unescape_ne_nil hne hread
      have hblanks := Text.eq_blanks_trim t
      rw [htrim, List.nil_append] at hblanks
      refine List.all_eq_true.2 fun c hc => ?_
      rw [hblanks] at hc
      rcases List.mem_append.1 hc with hc | hc
      · exact List.mem_takeWhile_imp hc
      · exact List.mem_takeWhile_imp (List.mem_reverse.1 hc)
  rw [Bool.eq_iff_iff, hempty, hempty, h]

/-! ### Operands -/

/-- The pieces between the occurrences of signs are read alike. -/
theorem Alike.split (h : Alike t u) (hs : Signs s) (hne : s ≠ []) :
    (Text.split s t).map Comparison.operand = (Text.split s u).map Comparison.operand := by
  -- by induction on the length: an occurrence leaves less
  generalize hn : t.length = n
  induction n using Nat.strong_induction_on generalizing t u with
  | _ n ih =>
    subst hn
    by_cases hin : s <:+: t
    · obtain ⟨a, rest, rfl, hfirst⟩ := Text.exists_first hin hne
      obtain ⟨a', rest', rfl, hstart, hrest⟩ := h.cut hs hne rfl
      have hdrop : Signs s.dropLast := fun c hc => hs c (List.dropLast_subset s hc)
      -- the first occurrence in the one text is the first in the other
      have hfirst' : ¬ s <:+: a' ++ s.dropLast := by
        rwa [← (alike_append hstart hdrop).infix_iff hs hne]
      have hshort : rest.length < (a ++ (s ++ rest)).length := by
        have := List.length_pos_of_ne_nil hne
        rw [List.length_append, List.length_append]
        omega
      have hleft : Comparison.operand a = Comparison.operand a' := Alike.left hstart
      rw [Text.split_append hne hfirst, Text.split_append hne hfirst', List.map_cons, List.map_cons,
        ih _ hshort hrest rfl, hleft]
    · rw [Text.split_eq_singleton hin,
        Text.split_eq_singleton (mt (h.infix_iff hs hne).2 hin), List.map_singleton,
        List.map_singleton, h]

/-- The operator that is found is the same. -/
theorem Alike.operator? (h : Alike t u) : operator? t = operator? u := by
  have hcontains : ∀ op : Operator, Text.contains op.symbol t = Text.contains op.symbol u := by
    intro op
    rw [Bool.eq_iff_iff, Text.contains_iff, Text.contains_iff,
      h.infix_iff (signs_symbol op) (symbol_ne_nil op)]
  unfold Condition.operator?
  simp only [hcontains]

/-- A comparison is made of the first two operands. -/
theorem parse?_eq_map (t : Text) : Comparison.parse? t = (operator? t).map fun op =>
    ⟨((Text.split op.symbol t).map Comparison.operand).headD [], op,
      ((Text.split op.symbol t).map Comparison.operand).getD 1 []⟩ := by
  have hpieces : ∀ pieces : List Text,
      (pieces.map Comparison.operand).headD [] = Comparison.operand (pieces.headD []) ∧
      (pieces.map Comparison.operand).getD 1 [] = Comparison.operand (pieces.getD 1 []) := by
    rintro (_ | ⟨a, _ | ⟨b, rest⟩⟩) <;> exact ⟨rfl, rfl⟩
  unfold Comparison.parse? operator?
  simp only [hpieces]

/-- So runs that are alike are the same condition. -/
theorem Alike.ofRun (h : Alike t u) : ofRun t = ofRun u := by
  have hparse : Comparison.parse? t = Comparison.parse? u := by
    rw [parse?_eq_map, parse?_eq_map, h.operator?]
    refine congrArg (Option.map · (Condition.operator? u)) (funext fun op => ?_)
    rw [h.split (signs_symbol op) (symbol_ne_nil op)]
  rw [Condition.ofRun, Condition.ofRun, hparse]

/-- A text that is alike a plain one is plain. -/
theorem Alike.plain (h : Alike t u) (hplain : Plain t) : Plain u := fun s hs hin =>
  hplain s hs ((h.infix_iff (of_mem_connectives hs).1 (of_mem_connectives hs).2.1).2 hin)

/-! ### Tokens -/

namespace Token

variable {tok tok' : Token} {ts us : List Token} {done : List Token} {rest : Text}

/-- The tokens are the same, or runs that are read alike. -/
inductive Alike : Token → Token → Prop
  | run {t u : Text} (h : Condition.Alike t u) : Alike (.run t) (.run u)
  | same (tok : Token) : Alike tok tok

/-- Texts that are read alike are cut into tokens that are. -/
theorem forall₂_ofText (h : Condition.Alike t u) :
    List.Forall₂ Alike (ofText t) (ofText u) := by
  have hrun : ∀ {t u}, Condition.Alike t u → List.Forall₂ Alike (runOf t) (runOf u) := by
    intro t u h
    rw [runOf, runOf, h.isBlankText]
    split
    · exact .nil
    · exact .cons (.run h) .nil
  induction t using induction_connective generalizing u with
  | plain t hplain =>
    rw [ofText_of_plain hplain, ofText_of_plain (h.plain hplain)]
    exact hrun h
  | connective a tok rest htok hfirst ih =>
    obtain ⟨hsigns, hne, -⟩ := of_mem_connectives (text_mem_connectives htok)
    -- the connective that comes first cuts both texts, into parts that are alike
    obtain ⟨a', rest', rfl, hstart, hrest⟩ := h.cut hsigns hne rfl
    have hdrop : Signs tok.text.dropLast := fun c hc => hsigns c (List.dropLast_subset _ hc)
    rw [ofText_append htok hfirst, ofText_append htok ((alike_append hstart hdrop).plain hfirst)]
    exact List.rel_append (hrun (.left hstart)) (.cons (.same tok) (ih hrest))

/-- Tokens that are no runs occur as often in the one list as in the other. -/
theorem count_of_forall₂ (h : List.Forall₂ Alike ts us) (htok : tok.isRun = false) :
    ts.count tok = us.count tok := by
  induction h with
  | nil => rfl
  | cons hhead _ ih =>
    cases hhead with
    | same => rw [List.count_cons, List.count_cons, ih]
    | run =>
      rw [List.count_cons_of_ne (by rintro rfl; cases htok),
        List.count_cons_of_ne (by rintro rfl; cases htok), ih]

/-- So as many brackets are missing in both. -/
theorem forall₂_closed (h : List.Forall₂ Alike ts us) :
    List.Forall₂ Alike (closed ts) (closed us) := by
  rw [closed, closed, count_of_forall₂ h rfl, count_of_forall₂ h rfl]
  exact List.rel_append h (List.forall₂_same.2 fun tok _ => .same tok)

end Token

/-! ### What is read -/

/-- Tokens that are alike take the reader to the same state, or are both refused. -/
theorem Reader.step_alike {tok tok' : Token} (h : Token.Alike tok tok') (r : Reader) :
    (r.step tok).toOption = (r.step tok').toOption := by
  cases h with
  | same => rfl
  | run h =>
    cases r with
    | needsOperand g outer => rw [step, step, h.ofRun]
    | hasTerm g term outer => cases outer <;> rfl

/-- What two steps in a row give, if they give anything. -/
theorem toOption_bind {ε α β : Type} (x : Except ε α) (f : α → Except ε β) :
    (x >>= f).toOption = x.toOption.bind fun a => (f a).toOption := by
  cases x <;> rfl

/-- Reading tokens that are alike leaves the reader in the same state, or fails in both. -/
theorem Reader.foldlM_alike {ts us : List Token} (h : List.Forall₂ Token.Alike ts us) (r : Reader) :
    (ts.foldlM Reader.step r).toOption = (us.foldlM Reader.step r).toOption := by
  induction h generalizing r with
  | nil => rfl
  | cons hhead _ ih =>
    rw [List.foldlM_cons, List.foldlM_cons, toOption_bind, toOption_bind, step_alike hhead]
    simp only [ih]

/-- So the condition that is read is the same. -/
theorem ofTokens_alike {ts us : List Token} (h : List.Forall₂ Token.Alike ts us) :
    (ofTokens ts).toOption = (ofTokens us).toOption := by
  show (ts.foldlM Reader.step .start >>= Reader.finish).toOption =
    (us.foldlM Reader.step .start >>= Reader.finish).toOption
  rw [toOption_bind, toOption_bind, Reader.foldlM_alike h]

/-- Texts that are read alike write the same condition, or both write none. -/
theorem Alike.parse (h : Alike t u) : (parse t).toOption = (parse u).toOption := by
  rw [Condition.parse, Condition.parse, h.isBlankText]
  split
  · rfl
  · exact ofTokens_alike (Token.forall₂_closed (Token.forall₂_ofText h))

/-- A condition is read from the one text exactly when it is from the other. -/
theorem Alike.parse_iff (h : Alike t u) {c : Condition} :
    Condition.parse t = .ok c ↔ Condition.parse u = .ok c := by
  have hok : ∀ x : Except ParseError Condition, x = .ok c ↔ x.toOption = some c := by
    intro x
    cases x with
    | error e => exact ⟨nofun, nofun⟩
    | ok c' => exact ⟨congrArg Except.toOption, fun heq => congrArg _ (Option.some.inj heq)⟩
  rw [hok, hok, h.parse]

/-- So the two are evaluated alike. -/
theorem Alike.evaluate (h : Alike t u) : evaluate t = evaluate u := by
  have htrue : ∀ t, Condition.evaluate t = (Condition.parse t).toOption.any holds := by
    intro t
    rw [Condition.evaluate]
    cases Condition.parse t <;> rfl
  rw [htrue, htrue, h.parse]

end Stencil.Condition
