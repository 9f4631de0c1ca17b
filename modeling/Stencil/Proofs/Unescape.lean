import Stencil.Proofs.Bracket
import Stencil.Proofs.Escape
/-!
# Reading codes part by part

`unescape` reads a text from left to right, so what it makes of a text is what it makes of its parts,
unless a code runs over the end of a part (`unescape_append_of_runsOver`). None does where the part
does not end within a code (`endsInCode`), whatever follows it (`unescape_append`). A character that
is in no code ends every code (`unescape_append_cons`). Blanks are such characters, so codes can be
read before a text is trimmed or afterwards (`unescape_trim`). An escaped text is read back as it
was, whatever follows it (`unescape_escape_append`), so escaped texts in a row are read one by one
(`unescape_flatMap_escape_append`) and no two texts are escaped alike (`escape_injective`).
-/

namespace Stencil

namespace Reserved

/-- A code that is read stands at the beginning of the text. -/
theorem exists_of_ofCode? {t : Text} {r : Reserved} (h : ofCode? t = some r) :
    ∃ rest, t = r.code ++ rest := by
  have hprefix := List.find?_some h
  obtain ⟨rest, hrest⟩ := List.isPrefixOf_iff_prefix.1 hprefix
  exact ⟨rest, hrest.symm⟩

theorem mem_all (r : Reserved) : r ∈ all := by
  cases r <;> simp [all]

/-- No code is read where none stands. -/
theorem ofCode?_eq_none_iff {t : Text} : ofCode? t = none ↔ ∀ r : Reserved, ¬ r.code <+: t := by
  rw [ofCode?, List.find?_eq_none]
  simp only [List.isPrefixOf_iff_prefix]
  exact ⟨fun h r => h r r.mem_all, fun h r _ => h r⟩

/-- No code has a blank in it, so trimming keeps codes. -/
theorem isBlank_of_mem_code {r : Reserved} {c : Char} (h : c ∈ r.code) : isBlank c = false := by
  have hall : (r.code.all fun c => !isBlank c) = true := by
    cases r <;> rfl
  simpa using List.all_eq_true.1 hall c h

theorem isBlank_char (r : Reserved) : isBlank r.char = false := by
  cases r <;> decide

/-- A character has the code of the reserved character that it is. -/
theorem char_of_ofChar? {c : Char} {r : Reserved} (h : ofChar? c = some r) : r.char = c := by
  rw [ofChar?] at h
  simpa using List.find?_some h

end Reserved

namespace Text

/-- A text is read code by code and character by character. -/
theorem induction_unescape {motive : Text → Prop} (nil : motive [])
    (code : ∀ (r : Reserved) (t : Text), motive t → motive (r.code ++ t))
    (cons : ∀ (c : Char) (t : Text), Reserved.ofCode? (c :: t) = none → motive t → motive (c :: t))
    (t : Text) : motive t := by
  generalize hn : t.length = n
  induction n using Nat.strong_induction_on generalizing t with
  | _ n ih =>
    subst hn
    -- either no code begins here, and the first character is read by itself, or one does, which
    -- is not empty
    cases t with
    | nil => exact nil
    | cons c t =>
      cases hcode : Reserved.ofCode? (c :: t) with
      | none => exact cons c t hcode (ih _ (Nat.lt_succ_self _) t rfl)
      | some r =>
        obtain ⟨rest, heq⟩ := Reserved.exists_of_ofCode? hcode
        rw [heq]
        refine code r rest (ih _ ?_ rest rfl)
        have := List.length_pos_of_ne_nil r.code_ne_nil
        rw [heq, List.length_append]
        omega

/-! ### Escaped text -/

/-- An escaped text is read back, and what follows it is read by itself. -/
theorem unescape_escape_append (r t : Text) : unescape (escape r ++ t) = r ++ unescape t := by
  induction r with
  | nil => rfl
  | cons c r ih =>
    have hescape : escape (c :: r) = escapeChar c ++ escape r := rfl
    rw [hescape, List.append_assoc, escapeChar]
    -- each character is read back by itself, from its code or as it is
    cases hc : Reserved.ofChar? c with
    | some k =>
      rw [unescape_code_append, ih, Reserved.char_of_ofChar? hc]
      rfl
    | none =>
      have hne : c ≠ '#' := by
        rintro rfl
        cases hc
      rw [List.singleton_append, unescape_cons (ofCode?_cons_of_ne _ hne), ih]
      rfl

/-- What has been escaped is read back. -/
theorem unescape_escape (a : Text) : unescape (escape a) = a := by
  have hread := unescape_escape_append a []
  rwa [List.append_nil, unescape_nil, List.append_nil] at hread

/-- Escaped texts in a row are read one by one. -/
theorem unescape_flatMap_escape_append (parts : List Text) (t : Text) :
    unescape (parts.flatMap escape ++ t) = parts.flatten ++ unescape t := by
  induction parts with
  | nil => rfl
  | cons a parts ih =>
    rw [List.flatMap_cons, List.append_assoc, unescape_escape_append, ih, List.flatten_cons,
      List.append_assoc]

/-- Escaping loses nothing. -/
theorem escape_injective : Function.Injective escape :=
  Function.LeftInverse.injective unescape_escape

/-- There is no marker in an escaped text. -/
theorem not_mem_escape {c : Char} (hc : isMarker c = true) (a : Text) : c ∉ escape a := by
  intro hmem
  rw [isMarker_of_mem_escape hmem] at hc
  cases hc

/-- Reading an escaped text stays within it: the text comes back as it was whatever follows, and
what follows is read as if it stood alone. An escaped text holds no marker, so it does not structure
a document either. -/
theorem escaped_is_read_apart :
    (∀ a t, unescape (escape a ++ t) = a ++ unescape t) ∧
      (∀ a, '$' ∉ escape a ∧ '[' ∉ escape a ∧ ']' ∉ escape a ∧ ';' ∉ escape a) ∧
      (∀ a, unescape (escape a) = a) ∧
      (∀ (parts : List Text) (t : Text),
        unescape (parts.flatMap escape ++ t) = parts.flatten ++ unescape t) ∧
      Function.Injective escape := by
  refine ⟨unescape_escape_append, fun a => ?_, unescape_escape, unescape_flatMap_escape_append,
    escape_injective⟩
  exact ⟨not_mem_escape rfl a, not_mem_escape rfl a, not_mem_escape rfl a, not_mem_escape rfl a⟩

/-! ### Where codes end -/

/-- Whether a text ends within a code that it does not complete; so many characters belong to a code
that was read. -/
def endsInCodeFrom : Nat → Text → Bool
  | _, [] => false
  | skip + 1, _ :: t => endsInCodeFrom skip t
  | 0, c :: t =>
    match Reserved.ofCode? (c :: t) with
    | some r => endsInCodeFrom (r.code.length - 1) t
    | none => Reserved.all.any ((c :: t).isPrefixOf ·.code) || endsInCodeFrom 0 t

/-- Whether a text ends within a code that it does not complete. -/
def endsInCode (t : Text) : Bool := endsInCodeFrom 0 t

/-- Characters that are skipped belong to a code that has begun. -/
theorem endsInCodeFrom_eq (skip : Nat) (t : Text) :
    endsInCodeFrom skip t = endsInCode (t.drop skip) := by
  induction t generalizing skip with
  | nil => cases skip <;> simp [endsInCode, endsInCodeFrom]
  | cons c t ih =>
    cases skip with
    | zero => rfl
    | succ skip => rw [endsInCodeFrom, ih, List.drop_succ_cons]

/-- A whole code in front has ended. -/
theorem endsInCode_code_append (r : Reserved) (t : Text) :
    endsInCode (r.code ++ t) = endsInCode t := by
  obtain ⟨c, cs, hc⟩ := List.exists_cons_of_ne_nil r.code_ne_nil
  have hcode := r.ofCode?_code_append t
  rw [hc, List.cons_append] at hcode
  rw [endsInCode, hc, List.cons_append, endsInCodeFrom]
  simp only [hcode]
  rw [endsInCodeFrom_eq, hc, List.length_cons, Nat.add_sub_cancel, List.drop_left]

/-- A character that begins no code in the text may begin one that the text cuts off. -/
theorem endsInCode_cons {c : Char} {t : Text} (h : Reserved.ofCode? (c :: t) = none) :
    endsInCode (c :: t) =
      (Reserved.all.any ((c :: t).isPrefixOf ·.code) || endsInCode t) := by
  rw [endsInCode, endsInCodeFrom]
  simp only [h]
  rfl

/-- Whether a code that is read begins in a text and ends in what follows it; so many characters
belong to a code that was read. -/
def runsOverFrom (rest : Text) : Nat → Text → Bool
  | skip, [] => 0 < skip
  | skip + 1, _ :: t => runsOverFrom rest skip t
  | 0, c :: t =>
    match Reserved.ofCode? (c :: (t ++ rest)) with
    | some r => runsOverFrom rest (r.code.length - 1) t
    | none => runsOverFrom rest 0 t

/-- Whether a code that is read begins in a text and ends in what follows it. -/
def runsOver (t rest : Text) : Bool := runsOverFrom rest 0 t

/-- Characters that are to be skipped may be more than are left. -/
theorem runsOverFrom_eq (rest : Text) (skip : Nat) (t : Text) :
    runsOverFrom rest skip t = (decide (t.length < skip) || runsOver (t.drop skip) rest) := by
  induction t generalizing skip with
  | nil => cases skip <;> simp [runsOver, runsOverFrom]
  | cons c t ih =>
    cases skip with
    | zero => simp [runsOver]
    | succ skip => simp [runsOverFrom, ih]

/-- A whole code in front does not run over. -/
theorem runsOver_code_append (r : Reserved) (t rest : Text) :
    runsOver (r.code ++ t) rest = runsOver t rest := by
  obtain ⟨c, cs, hc⟩ := List.exists_cons_of_ne_nil r.code_ne_nil
  have hcode := r.ofCode?_code_append (t ++ rest)
  rw [hc, List.cons_append, ← List.append_assoc] at hcode
  have hskip : ¬ (cs ++ t).length < cs.length := by
    rw [List.length_append]
    exact Nat.not_lt.2 (Nat.le_add_right _ _)
  rw [runsOver, hc, List.cons_append, runsOverFrom]
  simp only [hcode]
  rw [runsOverFrom_eq, hc, List.length_cons, Nat.add_sub_cancel, List.drop_left,
    decide_eq_false hskip, Bool.false_or]

/-- A code that begins with the text and is not in it runs over. -/
theorem runsOver_cons {c : Char} {t : Text} (h : Reserved.ofCode? (c :: t) = none) (rest : Text) :
    runsOver (c :: t) rest =
      ((Reserved.ofCode? (c :: (t ++ rest))).isSome || runsOver t rest) := by
  rw [runsOver, runsOverFrom]
  -- a code that begins here and has not been read before reads characters of the rest
  cases hcode : Reserved.ofCode? (c :: (t ++ rest)) with
  | none => rfl
  | some r =>
    -- the code is longer than the text
    have hlonger : (c :: t).length < r.code.length := by
      obtain ⟨behind, hbehind⟩ := Reserved.exists_of_ofCode? hcode
      refine Nat.lt_of_not_le fun hle => Reserved.ofCode?_eq_none_iff.1 h r ?_
      refine List.prefix_of_prefix_length_le ⟨behind, hbehind.symm⟩ ⟨rest, ?_⟩ hle
      exact List.cons_append
    have hskip : t.length < r.code.length - 1 := Nat.lt_sub_of_add_lt hlonger
    simp [runsOverFrom_eq, hskip]

/-- If no code runs over its end, a text is read apart from what follows it. -/
theorem unescape_append_of_runsOver {t rest : Text} (h : runsOver t rest = false) :
    unescape (t ++ rest) = unescape t ++ unescape rest := by
  induction t using induction_unescape with
  | nil => rfl
  -- the codes that are read in front are the same
  | code r t ih =>
    rw [runsOver_code_append] at h
    rw [List.append_assoc, unescape_code_append, unescape_code_append, ih h]
    rfl
  -- no code begins here in either text
  | cons c t hcode ih =>
    rw [runsOver_cons hcode, Bool.or_eq_false_iff, Option.isSome_eq_false_iff,
      Option.isNone_iff_eq_none] at h
    rw [List.cons_append, unescape_cons h.1, unescape_cons hcode, ih h.2]
    rfl

/-- Where a text does not end within a code, none runs over its end. -/
theorem runsOver_eq_false {t : Text} (h : endsInCode t = false) (rest : Text) :
    runsOver t rest = false := by
  induction t using induction_unescape with
  | nil => rfl
  | code r t ih =>
    rw [endsInCode_code_append] at h
    rw [runsOver_code_append, ih h]
  | cons c t hcode ih =>
    rw [endsInCode_cons hcode, Bool.or_eq_false_iff, List.any_eq_false] at h
    -- a code that begins here would end here or go on behind the text
    have hnone : Reserved.ofCode? (c :: t ++ rest) = none := by
      rw [Reserved.ofCode?_eq_none_iff] at hcode ⊢
      intro r hr
      rcases List.prefix_or_prefix_of_prefix hr (List.prefix_append _ _) with hr | hr
      · exact hcode r hr
      · exact h.1 r r.mem_all (List.isPrefixOf_iff_prefix.2 hr)
    rw [List.cons_append] at hnone
    rw [runsOver_cons hcode, hnone, ih h.2]
    rfl

/-- A text that does not end within a code is read apart from what follows it. -/
theorem unescape_append {t : Text} (h : endsInCode t = false) (rest : Text) :
    unescape (t ++ rest) = unescape t ++ unescape rest :=
  unescape_append_of_runsOver (runsOver_eq_false h rest)

/-! ### Blanks -/

/-- Blanks are no part of a code, so they are left as they are. -/
theorem unescape_blanks_append {blanks : Text} (h : ∀ c ∈ blanks, isBlank c = true) (t : Text) :
    unescape (blanks ++ t) = blanks ++ unescape t := by
  induction blanks with
  | nil => rfl
  | cons c blanks ih =>
    have hne : c ≠ '#' := by
      rintro rfl
      cases h '#' List.mem_cons_self
    rw [List.cons_append, unescape_cons (ofCode?_cons_of_ne _ hne),
      ih fun c' hc' => h c' (List.mem_cons_of_mem c hc')]
    rfl

/-- A character that is in no code ends every code. -/
theorem unescape_append_cons {c : Char} (hc : ∀ r : Reserved, c ∉ r.code) (t rest : Text) :
    unescape (t ++ c :: rest) = unescape t ++ c :: unescape rest := by
  induction t using induction_unescape with
  | nil =>
    have hne : c ≠ '#' := by
      rintro rfl
      exact hc .hash List.mem_cons_self
    rw [List.nil_append, unescape_cons (ofCode?_cons_of_ne _ hne)]
    rfl
  | code r t ih =>
    rw [List.append_assoc, unescape_code_append, unescape_code_append, ih]
    rfl
  | cons d t hcode ih =>
    -- a code that begins in front of the character would have it in it
    have hnone : Reserved.ofCode? (d :: t ++ c :: rest) = none := by
      rw [Reserved.ofCode?_eq_none_iff] at hcode ⊢
      intro r hr
      rcases List.prefix_or_prefix_of_prefix hr (List.prefix_append _ _) with hshort | hlong
      · exact hcode r hshort
      -- the rest of the code would begin with the character
      · obtain ⟨more, hmore⟩ := hlong
        cases more with
        | nil => exact hcode r ⟨[], by rw [← hmore, List.append_nil, List.append_nil]⟩
        | cons b more =>
          rw [← hmore, List.prefix_append_right_inj, List.cons_prefix_cons] at hr
          exact hc r (hmore ▸ hr.1 ▸ by simp)
    rw [List.cons_append] at hnone
    rw [List.cons_append, unescape_cons hnone, unescape_cons hcode, ih]
    rfl

/-- Blanks end every code. -/
theorem unescape_append_blanks {blanks : Text} (h : ∀ c ∈ blanks, isBlank c = true) (t : Text) :
    unescape (t ++ blanks) = unescape t ++ blanks := by
  -- the first of the blanks ends every code
  cases blanks with
  | nil => rw [List.append_nil, List.append_nil]
  | cons b blanks =>
    have hcode : ∀ r : Reserved, b ∉ r.code := by
      intro r hmem
      have hblank := h b List.mem_cons_self
      rw [Reserved.isBlank_of_mem_code hmem] at hblank
      cases hblank
    have hself := unescape_blanks_append (fun c hc => h c (List.mem_cons_of_mem b hc)) []
    rw [List.append_nil, unescape_nil, List.append_nil] at hself
    rw [unescape_append_cons hcode, hself]

/-! ### Trimming -/

/-- Blanks around a text do not survive trimming. -/
theorem trim_blanks {before t behind : Text} (hbefore : ∀ c ∈ before, isBlank c = true)
    (hbehind : ∀ c ∈ behind, isBlank c = true) : trim (before ++ (t ++ behind)) = trim t := by
  have hstart : trimStart (before ++ (t ++ behind)) = trimStart (t ++ behind) :=
    List.dropWhile_append_of_pos hbefore
  rw [trim, hstart, trim]
  by_cases ht : ∀ c ∈ t, isBlank c = true
  -- nothing is left of blanks
  · have hleft : trimStart (t ++ behind) = [] := by
      rw [trimStart, List.dropWhile_eq_nil_iff]
      intro c hc
      exact (List.mem_append.1 hc).elim (ht c) (hbehind c)
    have hright : trimStart t = [] := by rwa [trimStart, List.dropWhile_eq_nil_iff]
    rw [hleft, hright]
  · have hleft : trimStart (t ++ behind) = trimStart t ++ behind := by
      rw [trimStart, trimStart, List.dropWhile_append, if_neg]
      rwa [List.isEmpty_iff, List.dropWhile_eq_nil_iff]
    rw [hleft, trimEnd, trimEnd, List.reverse_append, List.dropWhile_append_of_pos]
    exact fun c hc => hbehind c (List.mem_reverse.1 hc)

/-- A text without blanks at its ends. -/
structure Trimmed (t : Text) : Prop where
  head : ∀ c ∈ t.head?, isBlank c = false
  last : ∀ c ∈ t.getLast?, isBlank c = false

/-- What is left after dropping blanks does not begin with one. -/
theorem head?_dropWhile_isBlank (t : Text) :
    ∀ c ∈ (t.dropWhile isBlank).head?, isBlank c = false := by
  intro c hc
  have hhead := List.head?_dropWhile_not isBlank t
  rw [Option.mem_def.1 hc] at hhead
  simpa using hhead

/-- A trimmed text is trimmed. -/
theorem trimmed_trim (t : Text) : Trimmed (trim t) where
  head c hc := by
    -- trimming the end keeps the first character
    refine head?_dropWhile_isBlank t c ?_
    obtain ⟨rest, hrest⟩ : trim t <+: trimStart t := by
      rw [trim, trimEnd, ← List.reverse_suffix, List.reverse_reverse]
      exact List.dropWhile_suffix _
    obtain ⟨u, hu⟩ := List.head?_eq_some_iff.1 hc
    rw [hu] at hrest
    rw [trimStart] at hrest
    rw [← hrest]
    exact rfl
  last c hc := by
    rw [trim, trimEnd, List.getLast?_reverse] at hc
    exact head?_dropWhile_isBlank _ c hc

/-- A text that does not begin with a blank is not trimmed at its start. -/
theorem trimStart_eq_self {t : Text} (h : ∀ c ∈ t.head?, isBlank c = false) : trimStart t = t := by
  cases t with
  | nil => rfl
  | cons c t => exact List.dropWhile_cons_of_neg (by rw [h c rfl]; exact Bool.false_ne_true)

/-- A text that does not end with a blank is not trimmed at its end. -/
theorem trimEnd_eq_self {t : Text} (h : ∀ c ∈ t.getLast?, isBlank c = false) : trimEnd t = t := by
  have hreverse : trimStart t.reverse = t.reverse :=
    trimStart_eq_self (by rwa [List.head?_reverse])
  rw [trimStart] at hreverse
  rw [trimEnd, hreverse, List.reverse_reverse]

/-- A trimmed text stays as it is. -/
theorem Trimmed.trim_eq {t : Text} (h : Trimmed t) : trim t = t := by
  rw [trim, trimStart_eq_self h.head, trimEnd_eq_self h.last]

/-- Trimming the start stops where there is no blank. -/
theorem trimStart_append {t : Text} (h : ∀ c ∈ t.head?, isBlank c = false) (before : Text) :
    trimStart (before ++ t) = trimStart before ++ t := by
  have hself : t.dropWhile isBlank = t := trimStart_eq_self h
  rw [trimStart, List.dropWhile_append, hself, trimStart]
  split
  · next hempty => rw [List.isEmpty_iff.1 hempty, List.nil_append]
  · rfl

/-- In front of blanks that are trimmed, a text without a blank at its end stays. -/
theorem trimEnd_append {t : Text} (h : ∀ c ∈ t.getLast?, isBlank c = false) (behind : Text) :
    trimEnd (t ++ behind) = t ++ trimEnd behind := by
  have hreverse := trimStart_append (t := t.reverse) (by rwa [List.head?_reverse]) behind.reverse
  rw [trimStart, trimStart] at hreverse
  rw [trimEnd, trimEnd, List.reverse_append, hreverse, List.reverse_append, List.reverse_reverse]

/-- Only blanks at the ends are trimmed. -/
theorem trim_append {t : Text} (hne : t ≠ []) (h : ∀ c ∈ t, isBlank c = false)
    (before behind : Text) :
    trim (before ++ (t ++ behind)) = trimStart before ++ (t ++ trimEnd behind) := by
  -- neither end of the text in the middle is a blank
  have hhead : ∀ c ∈ (t ++ behind).head?, isBlank c = false := by
    intro c hc
    rw [List.head?_append_of_ne_nil _ hne] at hc
    exact h c (List.mem_of_mem_head? hc)
  have hlast : ∀ c ∈ (trimStart before ++ t).getLast?, isBlank c = false := by
    intro c hc
    rw [List.getLast?_append_of_ne_nil _ hne] at hc
    exact h c (List.mem_of_getLast? hc)
  rw [trim, trimStart_append hhead, ← List.append_assoc, trimEnd_append hlast, List.append_assoc]

/-- Blanks at the end can be trimmed before others. -/
theorem trim_trimEnd_append (t : Text) {behind : Text} (h : ∀ c ∈ behind, isBlank c = true) :
    trim (trimEnd t ++ behind) = trim t := by
  have hblanks : ∀ c ∈ (t.reverse.takeWhile isBlank).reverse, isBlank c = true := fun c hc =>
    List.mem_takeWhile_imp (List.mem_reverse.1 hc)
  have ht : t = trimEnd t ++ (t.reverse.takeWhile isBlank).reverse := by
    rw [trimEnd, ← List.reverse_append, List.takeWhile_append_dropWhile, List.reverse_reverse]
  have hcut : ∀ {behind : Text}, (∀ c ∈ behind, isBlank c = true) →
      trim (trimEnd t ++ behind) = trim (trimEnd t) := by
    intro behind h
    exact trim_blanks (List.forall_mem_nil _) h
  rw [hcut h, ← hcut hblanks, ← ht]

/-- Codes have no blanks, and no blank has a code. -/
theorem isBlankText_escape (t : Text) : isBlankText (escape t) = isBlankText t := by
  -- a character is blank if what is written for it is
  have hchar : ∀ c, (escapeChar c).all isBlank = isBlank c := by
    intro c
    unfold escapeChar
    cases hc : Reserved.ofChar? c with
    | none => simp
    | some r =>
      rw [← Reserved.char_of_ofChar? hc, r.isBlank_char]
      cases r <;> rfl
  induction t with
  | nil => rfl
  | cons c t ih =>
    show (escapeChar c ++ escape t).all isBlank = (isBlank c && t.all isBlank)
    rw [List.all_append, hchar]
    exact congrArg (isBlank c && ·) ih

/-- Something is read of every text that is not empty. -/
theorem unescape_ne_nil {t : Text} (h : t ≠ []) : unescape t ≠ [] := by
  induction t using induction_unescape with
  | nil => exact absurd rfl h
  | code r t _ =>
    rw [unescape_code_append]
    exact List.cons_ne_nil _ _
  | cons c t hcode _ =>
    rw [unescape_cons hcode]
    exact List.cons_ne_nil _ _

/-- Reading codes leaves a trimmed text trimmed, since no reserved character is a blank. -/
theorem Trimmed.unescape {t : Text} (h : Trimmed t) : Trimmed (unescape t) where
  head c hc := by
    cases t using induction_unescape with
    | nil => cases hc
    | code r t _ =>
      rw [unescape_code_append] at hc
      obtain rfl : r.char = c := Option.some.inj hc
      exact r.isBlank_char
    | cons c' t hcode _ =>
      rw [unescape_cons hcode] at hc
      exact h.head c hc
  last := by
    have hlast := h.last
    clear h
    induction t using induction_unescape with
    | nil => exact nofun
    | code r t ih =>
      intro c hc
      rw [unescape_code_append, List.getLast?_cons] at hc
      -- the last character is that of a code, or it is read in the rest
      cases hrest : (Text.unescape t).getLast? with
      | none =>
        obtain rfl : r.char = c := by simpa [hrest] using hc
        exact r.isBlank_char
      | some c' =>
        refine ih (fun a ha => hlast a ?_) c (by simpa [hrest] using hc)
        rw [List.getLast?_append, Option.mem_def.1 ha]
        rfl
    | cons c' t hcode ih =>
      intro c hc
      rw [unescape_cons hcode, List.getLast?_cons] at hc
      cases t with
      | nil =>
        obtain rfl : c' = c := by simpa using hc
        exact hlast c' rfl
      | cons d t =>
        -- something of the rest is left
        obtain ⟨a, ha⟩ := Option.ne_none_iff_exists'.1
          (mt List.getLast?_eq_none_iff.1 (unescape_ne_nil (List.cons_ne_nil d t)))
        refine ih (fun a ha => hlast a ?_) c (by simpa [ha] using hc)
        rw [List.getLast?_cons_cons]
        exact ha

/-- Codes can be read before a text is trimmed or afterwards. -/
theorem unescape_trim (t : Text) : unescape (trim t) = trim (unescape t) := by
  have hblank : ∀ (l : Text), ∀ c ∈ l.takeWhile isBlank, isBlank c = true :=
    fun l c hc => List.mem_takeWhile_imp hc
  have hbehind : ∀ c ∈ ((t.dropWhile isBlank).reverse.takeWhile isBlank).reverse,
      isBlank c = true := fun c hc => hblank _ c (List.mem_reverse.1 hc)
  conv_rhs => rw [eq_blanks_trim t, unescape_blanks_append (hblank t),
    unescape_append_blanks hbehind, trim_blanks (hblank t) hbehind]
  exact (trimmed_trim t).unescape.trim_eq.symm

end Text

end Stencil
