import Stencil.Condition.Parse
import Stencil.Proofs.Extraction
import Stencil.Proofs.Grammar
/-!
# Blocks as trees

A draft is a document as a tree: text without markers and blocks, whose bodies are drafts again. It
is `written` as a text, and `chosen` is what it comes to, by recursion on the tree: a block stands
for the body of the first condition that is true.

Evaluation does not follow the tree. It takes the last `$if[` of the text, whose block has no block
inside, and puts the chosen text in its place. `Draft.exists_settles` says that this is a step from
the text of one draft to that of another one: the draft in which the last block is replaced by text,
which has one block less and the same meaning.
-/

namespace Stencil

/-- A text without markers. -/
structure PlainText where
  text : Text
  unmarked : ∀ c ∈ text, isMarker c = false

theorem PlainText.not_mem (t : PlainText) : '$' ∉ t.text := fun h => by
  cases t.unmarked _ h

/-- The text that the body behind `$else` begins with: the keyword does not go on in it. -/
structure ElseLead extends PlainText where
  apart : ∃ c ∈ text.head?, c ≠ 'i' ∧ c ≠ 'I'

namespace Draft

/-- What is derived: a body, or what stands between the first body of a block and its `$endif`. -/
inductive Part where
  | body
  | branches
deriving DecidableEq

end Draft

/-- A document, or a part of a block, as a tree. -/
inductive Draft : Draft.Part → Type
  | empty : Draft .body
  | text (t : PlainText) (rest : Draft .body) : Draft .body
  | block (condition : PlainText) (body : Draft .body) (branches : Draft .branches)
      (rest : Draft .body) : Draft .body
  | done : Draft .branches
  /-- `$else` with nothing behind it. -/
  | emptyElse : Draft .branches
  | otherwise (lead : ElseLead) (rest : Draft .body) : Draft .branches
  /-- An alternative, with or without its `$endelseif`. -/
  | alternative (condition : PlainText) (body : Draft .body) (closed : Bool)
      (later : Draft .branches) : Draft .branches

namespace Draft

open Block

variable {p : Part} {t u : Text}

def written : {part : Part} → Draft part → Text
  | _, .empty => []
  | _, .text t rest => t.text ++ written rest
  | _, .block condition body branches rest =>
    Keyword.ifOpen.text ++ (condition.text ++ ']' ::
      (written body ++ (written branches ++ (Keyword.endIf.text ++ written rest))))
  | _, .done => []
  | _, .emptyElse => Keyword.otherwise.text
  | _, .otherwise lead rest => Keyword.otherwise.text ++ (lead.text ++ written rest)
  | _, .alternative condition body closed later =>
    Keyword.elseIfOpen.text ++ (condition.text ++ ']' ::
      (written body ++ ((if closed then Keyword.endElseIf.text else []) ++ written later)))

/-- The text that a draft comes to. -/
def chosen : {part : Part} → Draft part → Text
  | _, .empty => []
  | _, .text t rest => t.text ++ chosen rest
  | _, .block condition body branches rest =>
    (if Condition.evaluate condition.text then chosen body else chosen branches) ++ chosen rest
  | _, .done => []
  | _, .emptyElse => []
  | _, .otherwise lead rest => lead.text ++ chosen rest
  | _, .alternative condition body _ later =>
    if Condition.evaluate condition.text then chosen body else chosen later

/-- The number of blocks. -/
def blocks : {part : Part} → Draft part → Nat
  | _, .empty => 0
  | _, .text _ rest => blocks rest
  | _, .block _ body branches rest => blocks body + blocks branches + blocks rest + 1
  | _, .done => 0
  | _, .emptyElse => 0
  | _, .otherwise _ rest => blocks rest
  | _, .alternative _ body _ later => blocks body + blocks later

/-! ### Texts without a `$if[` -/

/-- No `$if[` stands in the text. -/
def Unopened (t : Text) : Prop := ∀ i, ¬ Keyword.ifOpen.StandsAt t i

/-- There is nothing in an empty text. -/
theorem unopened_nil : Unopened [] := fun _ h => by
  have := h.add_size_le
  simp at this

/-- A character in front opens no block unless it begins one. -/
theorem Unopened.cons (h : Unopened t) {c : Char} (hc : Keyword.ifOpen.startsIn (c :: t) = false) :
    Unopened (c :: t) := by
  intro i hi
  cases i with
  | zero => exact Bool.eq_false_iff.1 hc hi
  | succ i => exact h i hi

/-- Text without a `$` can be put in front. -/
theorem Unopened.append (h : Unopened t) (hu : '$' ∉ u) : Unopened (u ++ t) := by
  induction u with
  | nil => exact h
  | cons c u ih =>
    obtain ⟨hc, hu⟩ := not_or.1 (mt List.mem_cons.2 hu)
    refine (ih hu).cons (Bool.eq_false_iff.2 fun hstarts => ?_)
    exact hc (Keyword.eq_dollar_of_startsIn hstarts).symm

/-- So can any other keyword, whose only `$` is its first character. -/
theorem Unopened.keyword (h : Unopened t) {k : Keyword} (hk : k ≠ .ifOpen) :
    Unopened (k.text ++ t) := by
  -- the letters hold no `$`, so only the first position could open a block
  have hletters : '$' ∉ k.letters := by
    cases k <;> decide
  have hstarts : Keyword.ifOpen.startsIn (k.text ++ t) = false := by
    cases k with
    | ifOpen => exact absurd rfl hk
    | elseIfOpen | otherwise | endIf | endElseIf => rfl
  exact (h.append hletters).cons hstarts

/-- The end of an alternative, if it is written, opens no block either. -/
theorem unopened_ending (closed : Bool) (h : Unopened t) :
    Unopened ((if closed then Keyword.endElseIf.text else []) ++ t) := by
  split
  · exact h.keyword nofun
  · exact h

/-- Without a block there is no `$if[`. -/
theorem unopened_written (d : Draft p) (hd : d.blocks = 0) (h : Unopened t) :
    Unopened (d.written ++ t) := by
  induction d generalizing t with
  | empty | done => exact h
  | text s rest ih =>
    rw [written, List.append_assoc]
    exact (ih hd h).append s.not_mem
  | block => simp [blocks] at hd
  | emptyElse => exact h.keyword nofun
  | otherwise lead rest ih =>
    rw [written, List.append_assoc, List.append_assoc]
    exact ((ih hd h).append lead.not_mem).keyword nofun
  -- read from behind: what follows, the end, the body, the condition and the opener
  | alternative condition body closed later ihBody ihLater =>
    obtain ⟨hbody, hlater⟩ := Nat.add_eq_zero_iff.1 hd
    have hending := unopened_ending closed (ihLater hlater h)
    have hbehind := (ihBody hbody hending).append (u := [']']) (by decide)
    have hopener := (hbehind.append condition.not_mem).keyword (k := .elseIfOpen) nofun
    simpa [written] using hopener

/-! ### Bodies without a block -/

/-- What a draft comes to has no markers, because its texts have none. -/
theorem isMarker_of_mem_chosen (d : Draft p) : ∀ c ∈ d.chosen, isMarker c = false := by
  -- texts are put one behind the other
  have happend : ∀ {t u : Text}, (∀ c ∈ t, isMarker c = false) → (∀ c ∈ u, isMarker c = false) →
      ∀ c ∈ t ++ u, isMarker c = false :=
    fun ht hu => List.forall_mem_append.2 ⟨ht, hu⟩
  induction d with
  | empty | done | emptyElse => exact nofun
  | text t rest ih => exact happend t.unmarked ih
  | otherwise lead rest ih => exact happend lead.unmarked ih
  | block condition body branches rest ihBody ihBranches ihRest =>
    rw [chosen]
    refine happend ?_ ihRest
    split
    · exact ihBody
    · exact ihBranches
  | alternative condition body closed later ihBody ihLater =>
    rw [chosen]
    split
    · exact ihBody
    · exact ihLater

theorem not_mem_chosen (d : Draft p) : '$' ∉ d.chosen := fun h => by
  cases isMarker_of_mem_chosen d _ h

/-- A body without a block is text. -/
theorem written_eq_chosen : ∀ d : Draft .body, d.blocks = 0 → d.written = d.chosen
  | .empty, _ => rfl
  | .text t rest, h => by rw [written, chosen, written_eq_chosen rest h]
  | .block .., h => by simp [blocks] at h

/-- A keyword begins with a `$`. -/
theorem noneIn_of_not_mem (h : '$' ∉ t) : Keyword.NoneIn t :=
  fun _ _ hi => h (List.mem_of_getElem? hi.getElem?_start)

/-- A body without blocks holds no keywords. -/
theorem noneIn_written {d : Draft .body} (h : d.blocks = 0) : Keyword.NoneIn d.written := by
  rw [written_eq_chosen d h]
  exact noneIn_of_not_mem d.not_mem_chosen

end Draft

/-! ### A block as it is spelled -/

/-- Text without markers holds no brackets. -/
theorem PlainText.balanced (t : PlainText) : Bracket.Balanced t.text := by
  refine .of_plain fun c hc => ?_
  have hmark := t.unmarked c hc
  constructor <;> rintro rfl <;> cases hmark

/-- `$else` is read as itself if the text behind it begins with neither case of the letter i. -/
theorem goesOnWithIf_cons {c : Char} (h : c ≠ 'i' ∧ c ≠ 'I') (t : Text) :
    Block.goesOnWithIf (c :: t) = false := by
  -- the first character is no `i` after lowering either
  have hlower : c.toLower ≠ 'i' := by
    unfold Char.toLower
    split
    -- of the upper case letters only `I` has the code that is meant
    · next hupper =>
      intro heq
      refine h.2 (Char.ext (UInt32.toNat_inj.1 ?_))
      have hhi : c.val.toNat ≤ 90 := UInt32.le_iff_toNat_le.1 hupper.2
      have hval : (c.val + 32).toNat = 105 := congrArg (·.val.toNat) heq
      rw [UInt32.toNat_add] at hval
      have : (32 : UInt32).toNat = 32 := rfl
      have : ('I' : Char).val.toNat = 73 := rfl
      omega
    · exact h.1
  simp [Block.goesOnWithIf, Text.lowerAscii, hlower]

/-- The text that a block comes to: the body of the first condition that is true. -/
def Block.Spelling.chosen (b : Block.Spelling) : Text :=
  if Condition.evaluate b.condition then b.body
  else
    ((b.branches.find? fun a => Condition.evaluate a.condition).map (·.body)).getD
      (b.otherwise.getD [])

namespace Draft

open Block

def spelledBranches : {part : Part} → Draft part → List Branch
  | _, .alternative condition body closed later =>
    ⟨condition.text, body.written, closed⟩ :: spelledBranches later
  | _, _ => []

def spelledElse : {part : Part} → Draft part → Option Text
  | _, .emptyElse => some []
  | _, .otherwise lead rest => some (lead.text ++ rest.written)
  | _, .alternative _ _ _ later => spelledElse later
  | _, _ => none

def spelling (condition : PlainText) (body : Draft .body) (branches : Draft .branches) : Spelling :=
  ⟨condition.text, body.written, branches.spelledBranches, branches.spelledElse⟩

/-- The branches of a draft are written as those of its spelling. -/
theorem written_branches : ∀ branches : Draft .branches,
    branches.written =
      branches.spelledBranches.flatMap Branch.text ++ elseText branches.spelledElse
  | .done => rfl
  | .emptyElse => rfl
  | .otherwise .. => rfl
  | .alternative condition body closed later => by
    rw [written, written_branches later]
    simp [spelledBranches, spelledElse, Branch.text, Branch.ending]

/-- A block is written as its spelling, with the rest behind it. -/
theorem text_spelling (condition : PlainText) (body : Draft .body) (branches : Draft .branches)
    (rest : Draft .body) :
    (block condition body branches rest).written =
      (spelling condition body branches).text ++ rest.written := by
  rw [Spelling.text_append, written, written_branches, List.append_assoc]
  rfl

/-- The alternatives of branches without blocks fit, and their conditions hold no `$`. -/
theorem fits_of_mem_spelledBranches {a : Branch} : ∀ branches : Draft .branches,
    branches.blocks = 0 → a ∈ branches.spelledBranches → a.Fits ∧ '$' ∉ a.condition
  | .alternative condition body closed later, h, ha => by
    obtain ⟨hbody, hlater⟩ := Nat.add_eq_zero_iff.1 h
    rcases List.mem_cons.1 ha with rfl | ha
    · exact ⟨⟨condition.balanced, noneIn_of_not_mem condition.not_mem, noneIn_written hbody⟩,
        condition.not_mem⟩
    · exact fits_of_mem_spelledBranches later hlater ha

/-- Behind `$else` no keyword stands, and nothing that makes it a `$elseif[`. -/
theorem noneIn_of_mem_spelledElse {other : Text} : ∀ branches : Draft .branches,
    branches.blocks = 0 → other ∈ branches.spelledElse →
      Keyword.NoneIn other ∧ goesOnWithIf other = false
  | .done, _, h => nomatch h
  | .emptyElse, _, h => by
    obtain rfl : [] = other := Option.some.inj h
    exact ⟨Keyword.noneIn_nil, rfl⟩
  | .otherwise lead rest, hrest, h => by
    obtain rfl : lead.text ++ rest.written = other := Option.some.inj h
    have hfree : '$' ∉ lead.text ++ rest.written := by
      rw [written_eq_chosen rest hrest]
      exact fun hmem => (List.mem_append.1 hmem).elim lead.not_mem rest.not_mem_chosen
    refine ⟨noneIn_of_not_mem hfree, ?_⟩
    -- the lead is not empty, and its first character is neither case of `i`
    obtain ⟨c, hc, hapart⟩ := lead.apart
    obtain ⟨t, ht⟩ := List.head?_eq_some_iff.1 hc
    rw [ht]
    exact goesOnWithIf_cons hapart _
  | .alternative _ _ _ later, h, hother =>
    noneIn_of_mem_spelledElse later (Nat.add_eq_zero_iff.1 h).2 hother

/-- A block whose parts hold no blocks fits as it is spelled. -/
theorem fits_spelling (condition : PlainText) {body : Draft .body} {branches : Draft .branches}
    (hbody : body.blocks = 0) (hbranches : branches.blocks = 0) :
    (spelling condition body branches).Fits where
  balanced := condition.balanced
  condition := noneIn_of_not_mem condition.not_mem
  body := noneIn_written hbody
  branches _ ha := (fits_of_mem_spelledBranches branches hbranches ha).1
  otherwise _ hother := noneIn_of_mem_spelledElse branches hbranches hother

/-- What the branches come to is the first body whose condition is true, or what stands behind
`$else`. -/
theorem chosen_branches : ∀ branches : Draft .branches, branches.blocks = 0 →
    ((branches.spelledBranches.find? fun a => Condition.evaluate a.condition).map (·.body)).getD
      (branches.spelledElse.getD []) = branches.chosen
  | .done, _ => rfl
  | .emptyElse, _ => rfl
  | .otherwise lead rest, h => by
    rw [chosen, ← written_eq_chosen rest h]
    rfl
  | .alternative condition body closed later, h => by
    obtain ⟨hbody, hlater⟩ := Nat.add_eq_zero_iff.1 h
    rw [chosen, spelledBranches, spelledElse, List.find?_cons]
    cases Condition.evaluate condition.text with
    | true => exact written_eq_chosen body hbody
    | false => exact chosen_branches later hlater

/-- The spelling of a block comes to what the tree does. -/
theorem chosen_spelling (condition : PlainText) {body : Draft .body} {branches : Draft .branches}
    (hbody : body.blocks = 0) (hbranches : branches.blocks = 0) (rest : Draft .body) :
    (spelling condition body branches).chosen ++ rest.chosen =
      (block condition body branches rest).chosen := by
  rw [Spelling.chosen, chosen]
  congr 2
  · exact written_eq_chosen body hbody
  · exact chosen_branches branches hbranches

/-- What is chosen has no markers. -/
theorem isMarker_of_mem_chosen_spelling (condition : PlainText) {body : Draft .body}
    {branches : Draft .branches} (hbody : body.blocks = 0) (hbranches : branches.blocks = 0) :
    ∀ c ∈ (spelling condition body branches).chosen, isMarker c = false := by
  have hplain := isMarker_of_mem_chosen (.block condition body branches .empty)
  rwa [← chosen_spelling condition hbody hbranches, chosen, List.append_nil] at hplain

/-! ### The last block is replaced -/

/-- The last block of a draft, what is written around it, and the draft in which the text that the
block comes to takes its place. -/
structure Flattening (d : Draft p) where
  lead : Text
  block : Spelling
  suffix : Text
  result : Draft p
  fits : block.Fits
  condition : '$' ∉ block.condition
  conditions : ∀ a ∈ block.branches, '$' ∉ a.condition
  written_eq : d.written = lead ++ (block.text ++ suffix)
  /-- No block begins behind it. -/
  last : ∀ {t : Text}, Unopened t → Unopened (suffix ++ t)
  written_result : result.written = lead ++ (block.chosen ++ suffix)
  chosen_result : result.chosen = d.chosen
  blocks_eq : d.blocks = result.blocks + 1

/-- A block is the last one of the whole where it is the last one of a part and no block stands
behind the part. -/
def Flattening.lift {d : Draft p} (f : Flattening d) {p' : Part} {e : Draft p'} (result : Draft p')
    (front back : Text) (written_eq : e.written = front ++ (d.written ++ back))
    (written_result : result.written = front ++ (f.result.written ++ back))
    (last : ∀ {t : Text}, Unopened t → Unopened (back ++ t))
    (chosen_result : result.chosen = e.chosen) (blocks_eq : e.blocks = result.blocks + 1) :
    Flattening e where
  lead := front ++ f.lead
  block := f.block
  suffix := f.suffix ++ back
  result := result
  fits := f.fits
  condition := f.condition
  conditions := f.conditions
  written_eq := by rw [written_eq, f.written_eq]; simp
  last ht := by rw [List.append_assoc]; exact f.last (last ht)
  written_result := by rw [written_result, f.written_result]; simp
  chosen_result := chosen_result
  blocks_eq := blocks_eq

/-- A block with no block inside and none behind it is replaced by text. -/
def flattenBlock (condition : PlainText) {body : Draft .body} {branches : Draft .branches}
    {rest : Draft .body} (hbody : body.blocks = 0) (hbranches : branches.blocks = 0)
    (hrest : rest.blocks = 0) : Flattening (.block condition body branches rest) where
  lead := []
  block := spelling condition body branches
  suffix := rest.written
  result := .text ⟨_, isMarker_of_mem_chosen_spelling condition hbody hbranches⟩ rest
  fits := fits_spelling condition hbody hbranches
  condition := condition.not_mem
  conditions _ ha := (fits_of_mem_spelledBranches branches hbranches ha).2
  written_eq := text_spelling condition body branches rest
  last := unopened_written rest hrest
  written_result := rfl
  chosen_result := chosen_spelling condition hbody hbranches rest
  blocks_eq := by simp only [blocks]; omega

/-- A draft with a block has a last one. -/
theorem nonempty_flattening (d : Draft p) (h : d.blocks ≠ 0) : Nonempty (Flattening d) := by
  induction d with
  | empty | done | emptyElse => exact absurd rfl h
  | text t rest ih =>
    obtain ⟨f⟩ := ih h
    exact ⟨f.lift (.text t f.result) t.text [] (by simp [written]) (by simp [written]) id
      (by rw [chosen, chosen, f.chosen_result]) f.blocks_eq⟩
  | otherwise lead rest ih =>
    obtain ⟨f⟩ := ih h
    exact ⟨f.lift (.otherwise lead f.result) (Keyword.otherwise.text ++ lead.text) []
      (by simp [written]) (by simp [written]) id
      (by rw [chosen, chosen, f.chosen_result]) f.blocks_eq⟩
  | block condition body branches rest ihBody ihBranches ihRest =>
    -- the last block is behind this one, in what stands behind its body, in its body, or this one
    by_cases hrest : rest.blocks = 0
    · have hbehind : ∀ {t : Text}, Unopened t →
          Unopened (Keyword.endIf.text ++ rest.written ++ t) := fun ht => by
        rw [List.append_assoc]
        exact (unopened_written rest hrest ht).keyword nofun
      by_cases hbranches : branches.blocks = 0
      · by_cases hbody : body.blocks = 0
        · exact ⟨flattenBlock condition hbody hbranches hrest⟩
        · obtain ⟨f⟩ := ihBody hbody
          exact ⟨f.lift (.block condition f.result branches rest)
            (Keyword.ifOpen.text ++ (condition.text ++ [']']))
            (branches.written ++ (Keyword.endIf.text ++ rest.written))
            (by simp [written]) (by simp [written])
            (fun ht => by
              rw [List.append_assoc]
              exact unopened_written branches hbranches (hbehind ht))
            (by rw [chosen, chosen, f.chosen_result])
            (by simp only [blocks, f.blocks_eq]; omega)⟩
      · obtain ⟨f⟩ := ihBranches hbranches
        exact ⟨f.lift (.block condition body f.result rest)
          (Keyword.ifOpen.text ++ (condition.text ++ ']' :: body.written))
          (Keyword.endIf.text ++ rest.written) (by simp [written]) (by simp [written]) hbehind
          (by rw [chosen, chosen, f.chosen_result]) (by simp only [blocks, f.blocks_eq]; omega)⟩
    · obtain ⟨f⟩ := ihRest hrest
      exact ⟨f.lift (.block condition body branches f.result)
        (Keyword.ifOpen.text ++ (condition.text ++ ']' ::
          (body.written ++ (branches.written ++ Keyword.endIf.text)))) []
        (by simp [written]) (by simp [written]) id
        (by rw [chosen, chosen, f.chosen_result]) (by simp only [blocks, f.blocks_eq]; omega)⟩
  | alternative condition body closed later ihBody ihLater =>
    -- it is in an alternative that comes later, or in this one
    by_cases hlater : later.blocks = 0
    · have hbody : body.blocks ≠ 0 := fun hbody => h (by rw [blocks, hbody, hlater])
      obtain ⟨f⟩ := ihBody hbody
      exact ⟨f.lift (.alternative condition f.result closed later)
        (Keyword.elseIfOpen.text ++ (condition.text ++ [']']))
        ((if closed then Keyword.endElseIf.text else []) ++ later.written)
        (by simp [written]) (by simp [written])
        (fun ht => by
          rw [List.append_assoc]
          exact unopened_ending closed (unopened_written later hlater ht))
        (by rw [chosen, chosen, f.chosen_result]) (by simp only [blocks, f.blocks_eq]; omega)⟩
    · obtain ⟨f⟩ := ihLater hlater
      exact ⟨f.lift (.alternative condition body closed f.result)
        (Keyword.elseIfOpen.text ++ (condition.text ++ ']' ::
          (body.written ++ (if closed then Keyword.endElseIf.text else [])))) []
        (by simp [written]) (by simp [written]) id
        (by rw [chosen, chosen, f.chosen_result]) (by simp only [blocks, f.blocks_eq]; omega)⟩

/-- A `$if[` that stands in what is written begins the block or stands in front of it. -/
theorem Flattening.le_of_standsAt {d : Draft p} (f : Flattening d) {i : Nat}
    (hi : Keyword.ifOpen.StandsAt d.written i) : i ≤ f.lead.length := by
  have hsuffix : Unopened f.suffix := by
    simpa using f.last unopened_nil
  rw [f.written_eq] at hi
  exact f.fits.le_of_ifOpen hsuffix hi

end Draft

end Stencil
