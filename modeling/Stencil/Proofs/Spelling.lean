import Stencil.Proofs.Block
/-!
# Blocks as they are written

A `Spelling` says how a block is written: its condition and its body, its alternatives, each with or
without the `$endelseif` that ends it, and what stands behind `$else`. It `Fits` where brackets
balance in the conditions and no keyword stands in any of these texts. Then the only keywords are
those that the spelling writes, and they stand where it writes them.
-/

namespace Stencil

namespace Keyword

variable {k : Keyword} {t rest : Text} {n : Nat}

/-- No keyword stands in the text. -/
def NoneIn (t : Text) : Prop := ∀ (k : Keyword) (i : Nat), ¬ k.StandsAt t i

theorem noneIn_nil : NoneIn [] := by
  intro k i hi
  have := hi.add_size_le
  cases k <;> simp at this

/-- A keyword that stands nowhere in a text is not found there. -/
theorem NoneIn.findAllFrom (h : NoneIn t) (k : Keyword) (n : Nat) : k.findAllFrom n t = [] :=
  findAllFrom_eq_nil_iff.2 (h k)

theorem noneIn_iff_findAll :
    NoneIn t ↔ ∀ k ∈ [ifOpen, elseIfOpen, otherwise, endIf, endElseIf], k.findAll t = [] := by
  constructor
  · exact fun h k _ => h.findAllFrom k 0
  · intro h k
    have hall : k.findAll t = [] := h k (by cases k <;> decide)
    exact findAllFrom_eq_nil_iff.1 hall

instance (t : Text) : Decidable (NoneIn t) := decidable_of_iff _ noneIn_iff_findAll.symm

/-- In front of a break, a text without keywords is passed over. -/
theorem NoneIn.findAllFrom_append (h : NoneIn t) (hbreak : Breaks rest) (k : Keyword) (n : Nat) :
    k.findAllFrom n (t ++ rest) = k.findAllFrom (n + t.length) rest := by
  rw [Keyword.findAllFrom_append hbreak, h.findAllFrom, List.nil_append]

/-- A closing bracket is passed over. -/
theorem findAllFrom_closing (k : Keyword) (n : Nat) (rest : Text) :
    k.findAllFrom n (']' :: rest) = k.findAllFrom (n + 1) rest :=
  findAllFrom_of_not_mem (t := [']']) (by decide) n rest

/-- What begins as the end of `$elseif[` begins with `if`. -/
theorem goesOnWithIf_of_startsBy
    (h : Search.startsBy (fun a c => a == foldLetter c) ['i', 'f', '['] t = true) :
    Block.goesOnWithIf t = true := by
  -- neither letter is the `s` for which the long one stands
  have hlower : ∀ {a c : Char}, a ≠ 's' → (a == foldLetter c) = true → c.toLower = a := by
    intro a c ha hc
    have hfold : foldLetter c = a := (beq_iff_eq.1 hc).symm
    unfold foldLetter at hfold
    split at hfold
    · exact absurd hfold.symm ha
    · exact hfold
  cases t with
  | nil => cases h
  -- the second letter may be missing, but then the bracket is missing too
  | cons c t =>
    simp only [Search.startsBy, Bool.and_eq_true] at h
    cases t with
    | nil => cases h.2
    | cons c' t =>
      simp only [Search.startsBy, Bool.and_eq_true] at h
      have hi : c.toLower = 'i' := hlower (by decide) h.1
      have hf : c'.toLower = 'f' := hlower (by decide) h.2.1
      simp [Block.goesOnWithIf, Text.lowerAscii, hi, hf]

/-- Which keywords stand where one is written: that one, and `$else` where `$elseif[` is. -/
theorem startsIn_text_append (k written : Keyword)
    (h : written = .otherwise → Block.goesOnWithIf t = false) :
    k.startsIn (written.text ++ t) =
      decide (k = written ∨ k = .otherwise ∧ written = .elseIfOpen) := by
  cases written with
  | otherwise =>
    cases k with
    | elseIfOpen =>
      refine Bool.eq_false_iff.2 fun hstarts => ?_
      have hif := goesOnWithIf_of_startsBy (t := t) hstarts
      rw [h rfl] at hif
      cases hif
    | ifOpen | otherwise | endIf | endElseIf => rfl
  | ifOpen | elseIfOpen | endIf | endElseIf => cases k <;> rfl

/-- A `$if[` stands where it is written. -/
theorem standsAt_ifOpen {i : Nat} {rest : Text} (h : t.drop i = ifOpen.text ++ rest) :
    ifOpen.StandsAt t i := by
  rw [StandsAt, h]
  exact startsIn_text_append ifOpen ifOpen (absurd · (by decide))

/-- A written keyword is found where it stands, and the search goes on behind it. An opening of an
alternative is an `$else` as well. -/
theorem findAllFrom_text_append (k written : Keyword) (n : Nat)
    (h : written = .otherwise → Block.goesOnWithIf t = false) :
    k.findAllFrom n (written.text ++ t) =
      (if k = written ∨ k = .otherwise ∧ written = .elseIfOpen then [k.spanAt n] else []) ++
        k.findAllFrom (n + written.size) t := by
  -- inside of the written keyword no other begins
  have hletters : '$' ∉ written.letters := by
    cases written <;> decide
  have hsize : n + 1 + written.letters.length = n + written.size := by
    have : written.size = written.letters.length + 1 := rfl
    omega
  have hstarts := startsIn_text_append k written h
  rw [text, List.cons_append] at hstarts ⊢
  rw [findAllFrom, hstarts, findAllFrom_of_not_mem hletters, hsize]
  simp only [decide_eq_true_eq]
  split <;> rfl

end Keyword

namespace Block

/-! ### Spellings -/

/-- An alternative as it is written. -/
structure Branch where
  condition : Text
  body : Text
  /-- Whether `$endelseif` ends it. -/
  closed : Bool

def Branch.ending (b : Branch) : Text := if b.closed then Keyword.endElseIf.text else []

def Branch.text (b : Branch) : Text :=
  Keyword.elseIfOpen.text ++ (b.condition ++ ']' :: (b.body ++ b.ending))

/-- A block as it is written. -/
structure Spelling where
  condition : Text
  body : Text
  branches : List Branch
  /-- What stands behind `$else`, if that is there. -/
  otherwise : Option Text

/-- `$else` and what stands behind it. -/
def elseText : Option Text → Text
  | none => []
  | some other => Keyword.otherwise.text ++ other

namespace Spelling

/-- What stands behind the body. -/
def tail (b : Spelling) : Text :=
  b.branches.flatMap Branch.text ++ (elseText b.otherwise ++ Keyword.endIf.text)

def text (b : Spelling) : Text :=
  Keyword.ifOpen.text ++ (b.condition ++ ']' :: (b.body ++ b.tail))

end Spelling

/-- What an alternative is read back from: its brackets balance, and it has no keyword but its
own. -/
structure Branch.Fits (b : Branch) : Prop where
  balanced : Bracket.Balanced b.condition
  condition : Keyword.NoneIn b.condition
  body : Keyword.NoneIn b.body

/-- What a block is read back from. -/
structure Spelling.Fits (b : Spelling) : Prop where
  balanced : Bracket.Balanced b.condition
  condition : Keyword.NoneIn b.condition
  body : Keyword.NoneIn b.body
  branches : ∀ a ∈ b.branches, a.Fits
  otherwise : ∀ other ∈ b.otherwise, Keyword.NoneIn other ∧ goesOnWithIf other = false

/-- The occurrences of `$elseif[` in alternatives that are written from a position on. -/
def openersAt (n : Nat) : List Branch → List Span
  | [] => []
  | b :: later => Keyword.elseIfOpen.spanAt n :: openersAt (n + b.text.length) later

/-- The spans of an alternative that is written from a position on. -/
def Branch.laid (n : Nat) (b : Branch) : Alternative :=
  ⟨⟨n + 8, n + 8 + b.condition.length⟩,
    ⟨n + 8 + b.condition.length + 1, n + 8 + b.condition.length + 1 + b.body.length⟩⟩

def alternativesAt (n : Nat) : List Branch → List Alternative
  | [] => []
  | b :: later => b.laid n :: alternativesAt (n + b.text.length) later

/-! ### Where keywords stand in a spelling -/

variable {k : Keyword} {t lead rest suffix : Text} {n p : Nat} {strict : Bool} {a : Branch}
  {branches : List Branch} {otherwise : Option Text}

/-- The length of an alternative, part by part. -/
theorem Branch.length_text (b : Branch) :
    b.text.length = 8 + b.condition.length + 1 + b.body.length + b.ending.length := by
  have hopen : Keyword.elseIfOpen.text.length = 8 := rfl
  simp only [Branch.text, List.length_append, List.length_cons, hopen]
  omega

theorem length_elseText (other : Text) : (elseText (some other)).length = 5 + other.length := by
  rw [elseText, List.length_append]
  rfl

/-- The end of an alternative begins with a keyword, or there is none and the text behind it
breaks. -/
theorem breaks_ending (a : Branch) (h : Keyword.Breaks rest) :
    Keyword.Breaks (a.ending ++ rest) := by
  rw [Branch.ending]
  split
  · exact Keyword.breaks_text_append _ _
  · exact h

/-- So do alternatives. -/
theorem breaks_branches (branches : List Branch) (h : Keyword.Breaks rest) :
    Keyword.Breaks (branches.flatMap Branch.text ++ rest) := by
  cases branches with
  | nil => exact h
  | cons a later =>
    rw [List.flatMap_cons, Branch.text, List.append_assoc, List.append_assoc]
    exact Keyword.breaks_text_append _ _

/-- Behind the alternatives there is a break in any case: `$else` or `$endif`. -/
theorem breaks_otherwise (otherwise : Option Text) (suffix : Text) :
    Keyword.Breaks (elseText otherwise ++ (Keyword.endIf.text ++ suffix)) := by
  cases otherwise with
  | none => exact Keyword.breaks_text_append _ _
  | some other =>
    rw [elseText, List.append_assoc]
    exact Keyword.breaks_text_append _ _

/-- Text behind `$else` that does not begin with `if` does not begin so with a keyword behind it,
even if it is shorter than two letters. -/
theorem goesOnWithIf_append (other : Text) (k : Keyword) (suffix : Text)
    (h : goesOnWithIf other = false) : goesOnWithIf (other ++ (k.text ++ suffix)) = false := by
  rcases other with _ | ⟨c, _ | ⟨c', other⟩⟩
  · rfl
  · simp [goesOnWithIf, Text.lowerAscii, Keyword.text]
  · exact h

/-- An alternative has one `$elseif[` and neither `$if[` nor `$endif`. -/
theorem Branch.Fits.findAllFrom (h : a.Fits) (hbreak : Keyword.Breaks rest)
    (hk : k ≠ .otherwise ∧ k ≠ .endElseIf) (n : Nat) :
    k.findAllFrom n (a.text ++ rest) =
      (if k = .elseIfOpen then [k.spanAt n] else []) ++
        k.findAllFrom (n + a.text.length) rest := by
  -- a `$endelseif` is not looked for here
  have hending : ∀ m, k.findAllFrom m (a.ending ++ rest) =
      k.findAllFrom (m + a.ending.length) rest := by
    intro m
    rw [Branch.ending]
    split
    · rw [Keyword.findAllFrom_text_append k .endElseIf m nofun, if_neg (by simp [hk])]
      rfl
    · rfl
  have hbody := breaks_ending a hbreak
  have hlen : n + 8 + a.condition.length + 1 + a.body.length + a.ending.length =
      n + a.text.length := by
    rw [a.length_text]
    omega
  -- opener, condition, bracket, body and end, in the order in which they are written
  rw [Branch.text, List.append_assoc, Keyword.findAllFrom_text_append k .elseIfOpen n nofun,
    Keyword.size_elseIfOpen, List.append_assoc, List.cons_append, List.append_assoc,
    h.condition.findAllFrom_append (Keyword.breaks_closing _), Keyword.findAllFrom_closing,
    h.body.findAllFrom_append hbody, hending, hlen, ← Branch.text]
  simp [hk]

/-- The openers of the alternatives are found where they are laid, by induction on the
alternatives. -/
theorem findAllFrom_branches (h : ∀ a ∈ branches, a.Fits) (hbreak : Keyword.Breaks rest)
    (hk : k ≠ .otherwise ∧ k ≠ .endElseIf) (n : Nat) :
    k.findAllFrom n (branches.flatMap Branch.text ++ rest) =
      (if k = .elseIfOpen then openersAt n branches else []) ++
        k.findAllFrom (n + (branches.flatMap Branch.text).length) rest := by
  induction branches generalizing n with
  | nil => simp [openersAt]
  | cons a later ih =>
    have hlater := breaks_branches later hbreak
    rw [List.flatMap_cons, List.append_assoc,
      (h a List.mem_cons_self).findAllFrom hlater hk,
      ih fun b hb => h b (List.mem_cons_of_mem a hb), List.length_append, ← Nat.add_assoc,
      ← List.append_assoc]
    congr 1
    split
    · next hopen =>
      rw [hopen]
      rfl
    · rfl

/-- Behind the alternatives there is one `$endif`, and a `$else` if there is one. -/
theorem findAllFrom_otherwise
    (h : ∀ other ∈ otherwise, Keyword.NoneIn other ∧ goesOnWithIf other = false) (k : Keyword)
    (n : Nat) :
    k.findAllFrom n (elseText otherwise ++ (Keyword.endIf.text ++ suffix)) =
      (if k = .otherwise ∧ otherwise.isSome then [k.spanAt n] else []) ++
        (if k = .endIf then [k.spanAt (n + (elseText otherwise).length)] else []) ++
          k.findAllFrom (n + (elseText otherwise).length + 6) suffix := by
  -- the `$endif` is there in any case
  have hend : ∀ m, k.findAllFrom m (Keyword.endIf.text ++ suffix) =
      (if k = .endIf then [k.spanAt m] else []) ++ k.findAllFrom (m + 6) suffix := by
    intro m
    rw [Keyword.findAllFrom_text_append k .endIf m nofun, Keyword.size_endIf]
    simp
  cases otherwise with
  | none => simpa [elseText] using hend n
  | some other =>
    -- `$else` is found, its text is passed over, and the `$endif` comes behind it
    obtain ⟨hfree, hif⟩ := h other rfl
    have hlen : n + 5 + other.length = n + (elseText (some other)).length := by
      rw [length_elseText, Nat.add_assoc]
    rw [elseText, List.append_assoc, Keyword.findAllFrom_text_append k .otherwise n
      fun _ => goesOnWithIf_append other .endIf suffix hif, Keyword.size_otherwise,
      hfree.findAllFrom_append (Keyword.breaks_text_append _ _), hend, hlen, ← elseText,
      ← List.append_assoc]
    simp

end Block

end Stencil
