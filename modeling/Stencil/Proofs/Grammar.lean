import Mathlib.Data.List.Induction
import Stencil.Proofs.Escape
import Stencil.Proofs.Spelling
import Stencil.Text.Fold
/-!
# A grammar of documents

`Written names nests blocks form text` derives texts: documents made of text without markers, of
calls `$name[...;...]` and of blocks, the slots of a call, and what stands behind the body of a
block. `blocks` says whether blocks may stand in the text, `nests` whether they may stand in the
arguments of calls.

In derived texts brackets balance (`Written.passes`), documents put together are documents
(`Written.append`), and so are the trimmed slots of a call (`Written.slice_of_mem_slots`).
-/

namespace Stencil

/-- The keyword without the bracket that opens a condition. -/
def Keyword.word (k : Keyword) : Text := k.text.filter (· ≠ '[')

/-- A name of ASCII letters that neither begins nor goes on like the word of a keyword. -/
structure Apart (name : Text) : Prop where
  letters : ∃ stem, name = '$' :: stem ∧ ∀ c ∈ stem, c.isAlpha = true
  not_begins : ∀ k : Keyword, Text.startsFolded name k.word = false
  not_extends : ∀ k : Keyword, Text.startsFolded k.word name = false

namespace Grammar

/-- What a text is derived as. -/
inductive Form where
  | document
  /-- The slots of a call, with the semicolons between them. -/
  | slots
  /-- What stands behind the body of a block. -/
  | tail
deriving DecidableEq, Repr

/-- The texts of the grammar. -/
inductive Written (names : List Text) (nests : Bool) : Bool → Form → Text → Prop
  | empty {blocks : Bool} : Written names nests blocks .document []
  | char {blocks : Bool} {c : Char} {rest : Text} (plain : isMarker c = false)
      (more : Written names nests blocks .document rest) :
      Written names nests blocks .document (c :: rest)
  | call {blocks : Bool} {name inner rest : Text} (registered : name ∈ names)
      (slots : Written names nests (blocks && nests) .slots inner)
      (more : Written names nests blocks .document rest) :
      Written names nests blocks .document (name ++ '[' :: (inner ++ ']' :: rest))
  | block {condition body tail rest : Text} (asks : Written names nests true .document condition)
      (holds : Written names nests true .document body) (fails : Written names nests true .tail tail)
      (more : Written names nests true .document rest) :
      Written names nests true .document
        (Keyword.ifOpen.text ++ (condition ++ ']' :: (body ++ (tail ++ rest))))
  | last {blocks : Bool} {slot : Text} (slot_written : Written names nests blocks .document slot) :
      Written names nests blocks .slots slot
  | next {blocks : Bool} {slot more : Text}
      (slot_written : Written names nests blocks .document slot)
      (more_written : Written names nests blocks .slots more) :
      Written names nests blocks .slots (slot ++ ';' :: more)
  | done : Written names nests true .tail Keyword.endIf.text
  | otherwise {other : Text} (other_written : Written names nests true .document other) :
      Written names nests true .tail
        (Keyword.otherwise.text ++ ' ' :: (other ++ Keyword.endIf.text))
  | alternative {condition body tail : Text}
      (asks : Written names nests true .document condition)
      (holds : Written names nests true .document body)
      (fails : Written names nests true .tail tail) :
      Written names nests true .tail
        (Keyword.elseIfOpen.text ++ (condition ++ ']' :: (body ++ (Keyword.endElseIf.text ++ tail))))

end Grammar

/-! ### Names and keywords

Whatever stands behind a name that is apart, no keyword begins where the name does, and where a
keyword stands the name does not. -/

namespace Search

variable {α β : Type} {alike : α → β → Bool}

/-- A text that begins with a word begins with the beginning of the word. -/
theorem startsBy_of_append {p q : List α} {t : List β} (h : startsBy alike (p ++ q) t = true) :
    startsBy alike p t = true := by
  induction p generalizing t with
  | nil => rw [startsBy]
  | cons a p ih =>
    cases t with
    | nil => cases h
    | cons b t =>
      simp only [List.cons_append, startsBy, Bool.and_eq_true] at h ⊢
      exact ⟨h.1, ih h.2⟩

/-- The pattern ends in the first part of the text, or the first part ends in the pattern. -/
theorem startsBy_append_or {p : List α} {t rest : List β}
    (h : startsBy alike p (t ++ rest) = true) :
    startsBy alike p t = true ∨ startsBy (fun b a => alike a b) t p = true := by
  induction p generalizing t with
  | nil => exact .inl (by rw [startsBy])
  | cons a p ih =>
    cases t with
    | nil => exact .inr (by rw [startsBy])
    | cons b t =>
      simp only [List.cons_append, startsBy, Bool.and_eq_true] at h ⊢
      rcases ih h.2 with hp | ht
      · exact .inl ⟨h.1, hp⟩
      · exact .inr ⟨h.1, ht⟩

/-- What begins in one way begins in every way that relates at least as many characters. -/
theorem startsBy_mono {alike' : α → β → Bool} {p : List α} {t : List β}
    (h : startsBy alike p t = true)
    (hmono : ∀ a ∈ p, ∀ b ∈ t, alike a b = true → alike' a b = true) :
    startsBy alike' p t = true := by
  induction p generalizing t with
  | nil => rw [startsBy]
  | cons a p ih =>
    cases t with
    | nil => cases h
    | cons b t =>
      simp only [startsBy, Bool.and_eq_true] at h ⊢
      exact ⟨hmono a List.mem_cons_self b List.mem_cons_self h.1, ih h.2 fun a' ha' b' hb' =>
        hmono a' (List.mem_cons_of_mem a ha') b' (List.mem_cons_of_mem b hb')⟩

end Search

/-- A keyword begins with a `$`. -/
theorem Keyword.head?_word (k : Keyword) : k.word.head? = some '$' := by
  cases k <;> rfl

/-- Its text is its word, with a bracket behind it if it has a list. -/
theorem Keyword.text_eq_word_append (k : Keyword) : ∃ bracket, k.text = k.word ++ bracket := by
  cases k with
  | ifOpen | elseIfOpen => exact ⟨['['], rfl⟩
  | otherwise | endIf | endElseIf => exact ⟨[], rfl⟩

/-- Being the same letter does not depend on the order. -/
theorem sameLetter_comm (a b : Char) : sameLetter a b = sameLetter b a := by
  rw [sameLetter, sameLetter, Bool.beq_comm]

namespace Apart

variable {name : Text} {c : Char}

/-- No letter is a marker. -/
theorem isMarker_of_isAlpha (h : c.isAlpha = true) : isMarker c = false := by
  rw [Bool.eq_false_iff]
  intro hmark
  rcases isMarker_iff.1 hmark with rfl | rfl | rfl | rfl <;> cases h

/-- Names begin with a `$`. -/
theorem head? (h : Apart name) : name.head? = some '$' := by
  obtain ⟨stem, rfl, -⟩ := h.letters
  rfl

/-- So they are not empty. -/
theorem ne_nil (h : Apart name) : name ≠ [] := by
  rintro rfl
  cases h.head?

/-- Only the first character of a name is a marker. -/
theorem eq_or_isMarker (h : Apart name) (hc : c ∈ name) : c = '$' ∨ isMarker c = false := by
  obtain ⟨stem, rfl, hstem⟩ := h.letters
  rcases List.mem_cons.1 hc with rfl | hc
  · exact .inl rfl
  · exact .inr (isMarker_of_isAlpha (hstem c hc))

/-- A letter of the name stands for a letter of a keyword only if the two are alike. -/
theorem sameLetter_of_foldLetter (h : Apart name) (hc : c ∈ name) {a : Char} {k : Keyword}
    (ha : a ∈ k.word) (hfold : (a == Keyword.foldLetter c) = true) : sameLetter a c = true := by
  -- the one character that keywords fold and names do not is no ASCII letter
  have hlong : c ≠ 'ſ' := by
    obtain ⟨stem, rfl, hstem⟩ := h.letters
    rintro rfl
    rcases List.mem_cons.1 hc with heq | hmem
    · cases heq
    · cases hstem _ hmem
  have hlower : ∀ a ∈ k.word, a.toLower = a := by
    cases k <;> simp [Keyword.word, Keyword.text, Keyword.letters]
  rw [Keyword.foldLetter, if_neg hlong] at hfold
  rw [sameLetter, hlower a ha]
  exact hfold

/-- No keyword stands where the name does. -/
theorem startsIn_append (h : Apart name) (k : Keyword) (rest : Text) :
    k.startsIn (name ++ rest) = false := by
  obtain ⟨bracket, htext⟩ := k.text_eq_word_append
  rw [Bool.eq_false_iff, Keyword.startsIn_eq, htext]
  intro hstarts
  -- the keyword would begin with the name or the name with the keyword
  rcases Search.startsBy_append_or (Search.startsBy_of_append hstarts) with hword | hname
  · have := h.not_extends k
    rw [Text.startsFolded, Search.startsBy_mono hword fun a ha c hc =>
      h.sameLetter_of_foldLetter hc ha] at this
    cases this
  · have := h.not_begins k
    rw [Text.startsFolded, Search.startsBy_mono hname fun c hc a ha hfold =>
      sameLetter_comm a c ▸ h.sameLetter_of_foldLetter hc ha hfold] at this
    cases this

/-- The name does not stand where a keyword does. -/
theorem startsFolded_text (h : Apart name) (k : Keyword) (rest : Text) :
    Text.startsFolded name (k.text ++ rest) = false := by
  obtain ⟨bracket, htext⟩ := k.text_eq_word_append
  rw [Bool.eq_false_iff, htext, List.append_assoc]
  intro hstarts
  rcases Search.startsBy_append_or hstarts with hname | hword
  · exact Bool.eq_false_iff.1 (h.not_begins k) hname
  · exact Bool.eq_false_iff.1 (h.not_extends k)
      (Search.startsBy_mono hword fun a _ c _ halike => sameLetter_comm c a ▸ halike)

/-- The word of a keyword does not stand where the name does. -/
theorem startsFolded_word (h : Apart name) (k : Keyword) (rest : Text) :
    Text.startsFolded k.word (name ++ rest) = false := by
  rw [Bool.eq_false_iff]
  intro hstarts
  rcases Search.startsBy_append_or hstarts with hword | hname
  · exact Bool.eq_false_iff.1 (h.not_extends k) hword
  · exact Bool.eq_false_iff.1 (h.not_begins k)
      (Search.startsBy_mono hname fun c _ a _ halike => sameLetter_comm a c ▸ halike)

end Apart

/-! ### Brackets of derived texts -/

/-- Reading the text changes no depth that it begins at, and it is not cut there. -/
structure Bracket.Passes (depth : Nat) (t : Text) : Prop where
  closing : 1 ≤ depth → ∀ i rest,
    closingFrom i depth (t ++ rest) = closingFrom (i + t.length) depth rest
  pieces : ∀ start i done rest,
    piecesFrom start i depth done (t ++ rest) = piecesFrom start (i + t.length) depth done rest

namespace Bracket.Passes

variable {depth : Nat} {t u : Text}

/-- A text is passed when its parts are. -/
theorem append (ht : Passes depth t) (hu : Passes depth u) : Passes depth (t ++ u) where
  closing h i rest := by
    rw [List.append_assoc, ht.closing h, hu.closing h, List.length_append, Nat.add_assoc]
  pieces start i done rest := by
    rw [List.append_assoc, ht.pieces, hu.pieces, List.length_append, Nat.add_assoc]

/-- Text without brackets passes; it may have semicolons inside of brackets. -/
theorem of_plain (h : ∀ c ∈ t, c ≠ '[' ∧ c ≠ ']' ∧ (depth = 0 → c ≠ ';')) : Passes depth t := by
  induction t with
  | nil => exact ⟨fun _ _ _ => rfl, fun _ _ _ _ => rfl⟩
  | cons c t ih =>
    obtain ⟨hopen, hclose, hsemi⟩ := h c List.mem_cons_self
    have hrest := ih fun c' hc' => h c' (List.mem_cons_of_mem c hc')
    -- the position is that behind the first character
    have hlen : ∀ i, i + (c :: t).length = i + 1 + t.length := by
      intro i
      rw [List.length_cons]
      omega
    -- a semicolon in the text stands inside of brackets, where nothing is cut
    have hcut : (c = ';' && depth == 0) = false := by
      rw [Bool.and_eq_false_iff, decide_eq_false_iff_not, beq_eq_false_iff_ne]
      by_cases hzero : depth = 0
      · exact .inl (hsemi hzero)
      · exact .inr hzero
    constructor
    · intro hdepth i rest
      rw [List.cons_append, closingFrom, if_neg hopen, if_neg hclose, hrest.closing hdepth, hlen]
    · intro start i done rest
      rw [List.cons_append, piecesFrom, if_neg hopen, if_neg hclose, hcut,
        if_neg Bool.false_ne_true, hrest.pieces, hlen]

/-- What passes one level deeper passes in brackets. -/
theorem brackets (h : Passes (depth + 1) t) (hu : Passes depth u) :
    Passes depth ('[' :: (t ++ ']' :: u)) := by
  -- the two brackets count as one character each
  have hlen : ∀ i, i + ('[' :: (t ++ ']' :: u)).length = i + 1 + t.length + 1 + u.length := by
    intro i
    simp only [List.length_cons, List.length_append]
    omega
  constructor
  · intro hdepth i rest
    have hinner : ¬ depth + 1 ≤ 1 := by omega
    rw [List.cons_append, List.append_assoc, List.cons_append, closingFrom, if_pos rfl,
      h.closing (Nat.le_add_left 1 depth), closingFrom, if_neg (by decide), if_pos rfl,
      if_neg hinner, Nat.add_sub_cancel, hu.closing hdepth, hlen]
  · intro start i done rest
    rw [List.cons_append, List.append_assoc, List.cons_append, piecesFrom, if_pos rfl, h.pieces,
      piecesFrom, if_neg (by decide), if_pos rfl, Nat.add_sub_cancel, hu.pieces, hlen]

end Bracket.Passes

/-- Names have no brackets and no semicolons. -/
theorem Apart.passes {name : Text} (h : Apart name) (depth : Nat) : Bracket.Passes depth name := by
  refine .of_plain fun c hc => ?_
  rcases h.eq_or_isMarker hc with rfl | hplain
  · exact ⟨by decide, by decide, fun _ => by decide⟩
  · refine ⟨?_, ?_, fun _ => ?_⟩ <;> rintro rfl <;> cases hplain

/-- Neither have the words of keywords. -/
theorem Keyword.passes_word (k : Keyword) (depth : Nat) : Bracket.Passes depth k.word := by
  refine .of_plain ?_
  have hplain : ∀ c ∈ k.word, c ≠ '[' ∧ c ≠ ']' ∧ c ≠ ';' := by
    cases k <;> simp [Keyword.word, Keyword.text, Keyword.letters]
  intro c hc
  exact ⟨(hplain c hc).1, (hplain c hc).2.1, fun _ => (hplain c hc).2.2⟩

namespace Grammar.Written

variable {names : List Text} {nests blocks : Bool} {form : Form} {t u : Text}

/-- Brackets balance in what is derived, and no document is cut at a semicolon of its own. -/
theorem passes (hnames : ∀ name ∈ names, Apart name) (h : Written names nests blocks form t)
    {depth : Nat} (hdepth : form = .slots → 1 ≤ depth) : Bracket.Passes depth t := by
  induction h generalizing depth with
  | empty => exact .of_plain (by simp)
  | @char _ c rest plain more ih =>
    refine .append (t := [c]) (.of_plain fun c' hc' => ?_) (ih nofun)
    obtain rfl : c' = c := by simpa using hc'
    refine ⟨?_, ?_, fun _ => ?_⟩ <;> rintro rfl <;> cases plain
  -- the slots of a call stand one level deeper
  | call registered slots more ihSlots ihMore =>
    exact ((hnames _ registered).passes depth).append
      ((ihSlots fun _ => Nat.le_add_left 1 depth).brackets (ihMore nofun))
  | block asks holds fails more ihAsks ihHolds ihFails ihMore =>
    exact (Keyword.ifOpen.passes_word depth).append
      ((ihAsks nofun).brackets ((ihHolds nofun).append ((ihFails nofun).append (ihMore nofun))))
  | last slot_written ih => exact ih nofun
  -- between two slots a semicolon is passed only in brackets
  | @next _ slot more slot_written more_written ihSlot ihMore =>
    refine (ihSlot nofun).append (.append (t := [';']) (.of_plain fun c hc => ?_) (ihMore hdepth))
    obtain rfl : c = ';' := by simpa using hc
    exact ⟨by decide, by decide, fun hzero => absurd (hdepth rfl) (by omega)⟩
  | done => exact Keyword.endIf.passes_word depth
  | otherwise other_written ih =>
    exact (Keyword.otherwise.passes_word depth).append (.append (t := [' ']) (.of_plain (by simp))
      ((ih nofun).append (Keyword.endIf.passes_word depth)))
  | alternative asks holds fails ihAsks ihHolds ihFails =>
    exact (Keyword.elseIfOpen.passes_word depth).append ((ihAsks nofun).brackets
      ((ihHolds nofun).append ((Keyword.endElseIf.passes_word depth).append (ihFails nofun))))

/-- So brackets are balanced in every derived text. -/
theorem balanced (hnames : ∀ name ∈ names, Apart name) (h : Written names nests blocks form t) :
    Bracket.Balanced t :=
  fun i _ rest hdepth => (h.passes hnames fun _ => hdepth).closing hdepth i rest

/-! ### Documents put together and taken apart -/

/-- Two documents in a row are a document. -/
theorem append (h : Written names nests blocks form t) (hform : form = .document)
    (hu : Written names nests blocks .document u) :
    Written names nests blocks .document (t ++ u) := by
  induction h with
  | empty => exact hu
  | char plain more ih => exact .char plain (ih rfl hu)
  | call registered slots more ihSlots ihMore =>
    have hmore := Written.call registered slots (ihMore rfl hu)
    simpa using hmore
  | block asks holds fails more ihAsks ihHolds ihFails ihMore =>
    have hmore := Written.block asks holds fails (ihMore rfl hu)
    simpa using hmore
  | last | next | done | otherwise | alternative => cases hform

/-- A text without markers is a document. -/
theorem of_plain (h : ∀ c ∈ t, isMarker c = false) : Written names nests blocks .document t := by
  induction t with
  | nil => exact .empty
  | cons c t ih =>
    exact .char (h c List.mem_cons_self) (ih fun c' hc' => h c' (List.mem_cons_of_mem c hc'))

/-- Without its first character a document is one, unless a name or a block begins with it. -/
theorem of_cons (hnames : ∀ name ∈ names, Apart name) {c : Char}
    (h : Written names nests blocks .document (c :: t)) (hc : isMarker c = false) :
    Written names nests blocks .document t := by
  generalize hu : c :: t = u at h
  cases h with
  | empty => cases hu
  | char plain more =>
    cases hu
    exact more
  | call registered slots more =>
    obtain ⟨stem, rfl, -⟩ := (hnames _ registered).letters
    cases hu
    cases hc
  | block asks holds fails more =>
    cases hu
    cases hc

/-- What stands behind the body of a block ends with the last letter of a keyword. -/
theorem exists_of_tail (h : Written names nests blocks form t) (hform : form = .tail) :
    ∃ lead, t = lead ++ ['f'] := by
  induction h with
  | empty | char | call | block | last | next => cases hform
  | done => exact ⟨['$', 'e', 'n', 'd', 'i'], rfl⟩
  | @otherwise other other_written ih =>
    refine ⟨Keyword.otherwise.text ++ ' ' :: (other ++ ['$', 'e', 'n', 'd', 'i']), ?_⟩
    simp [Keyword.text, Keyword.letters]
  | @alternative condition body tail asks holds fails ihAsks ihHolds ihFails =>
    obtain ⟨lead, rfl⟩ := ihFails rfl
    refine ⟨Keyword.elseIfOpen.text ++
      (condition ++ ']' :: (body ++ (Keyword.endElseIf.text ++ lead))), ?_⟩
    simp

/-- Texts with one more character behind them are the same only if both parts are. -/
theorem append_singleton_inj {c c' : Char} (h : t ++ [c] = u ++ [c']) : t = u ∧ c = c' := by
  obtain ⟨hinit, hlast⟩ := List.append_inj' h rfl
  exact ⟨hinit, by simpa using hlast⟩

/-- A blank at the end of a document belongs to its text. -/
theorem of_concat (h : Written names nests blocks form u) (hform : form = .document) {c : Char}
    (hu : u = t ++ [c]) (hc : isBlank c = true) : Written names nests blocks .document t := by
  induction h generalizing t with
  | empty => simp at hu
  | @char _ c' rest plain more ih =>
    rcases List.eq_nil_or_concat' rest with rfl | ⟨rest, c'', rfl⟩
    · obtain ⟨rfl, -⟩ := append_singleton_inj (t := []) hu
      exact .empty
    · obtain ⟨rfl, rfl⟩ := append_singleton_inj (t := c' :: rest) hu
      exact .char plain (ih rfl rfl)
  | @call _ name inner rest registered slots more ihSlots ihMore =>
    -- the blank ends what stands behind the call, for the call itself ends with a bracket
    rcases List.eq_nil_or_concat' rest with rfl | ⟨rest, c'', rfl⟩
    · obtain ⟨-, rfl⟩ := append_singleton_inj (t := name ++ '[' :: inner) (by simpa using hu)
      cases hc
    · obtain ⟨rfl, rfl⟩ := append_singleton_inj (t := name ++ '[' :: (inner ++ ']' :: rest))
        (by simpa using hu)
      exact .call registered slots (ihMore rfl rfl)
  | @block condition body tail rest asks holds fails more ihAsks ihHolds ihFails ihMore =>
    rcases List.eq_nil_or_concat' rest with rfl | ⟨rest, c'', rfl⟩
    -- a block ends with the `f` of its `$endif`
    · obtain ⟨lead, rfl⟩ := fails.exists_of_tail rfl
      obtain ⟨-, rfl⟩ := append_singleton_inj (t := Keyword.ifOpen.text ++
        (condition ++ ']' :: (body ++ lead))) (by simpa using hu)
      cases hc
    · obtain ⟨rfl, rfl⟩ := append_singleton_inj (t := Keyword.ifOpen.text ++
        (condition ++ ']' :: (body ++ (tail ++ rest)))) (by simpa using hu)
      exact .block asks holds fails (ihMore rfl rfl)
  | last | next | done | otherwise | alternative => cases hform

/-- No blank is a marker. -/
theorem isMarker_of_isBlank {c : Char} (h : isBlank c = true) : isMarker c = false := by
  rw [Bool.eq_false_iff]
  intro hmark
  rcases isMarker_iff.1 hmark with rfl | rfl | rfl | rfl <;> cases h

/-- A document without the blanks at its ends is a document. -/
theorem of_blanks (hnames : ∀ name ∈ names, Apart name) {before behind : Text}
    (h : Written names nests blocks .document (before ++ (t ++ behind)))
    (hbefore : ∀ c ∈ before, isBlank c = true) (hbehind : ∀ c ∈ behind, isBlank c = true) :
    Written names nests blocks .document t := by
  -- the blanks in front go one by one, and so do those behind
  have hstart : Written names nests blocks .document (t ++ behind) := by
    induction before with
    | nil => exact h
    | cons c before ih =>
      exact ih (h.of_cons hnames (isMarker_of_isBlank (hbefore c List.mem_cons_self)))
        fun c' hc' => hbefore c' (List.mem_cons_of_mem c hc')
  clear h
  induction behind using List.reverseRecOn with
  | nil => rwa [List.append_nil] at hstart
  | append_singleton behind c ih =>
    refine ih (fun c' hc' => hbehind c' (List.mem_append_left [c] hc')) ?_
    exact hstart.of_concat rfl (List.append_assoc t behind [c]).symm
      (hbehind c (List.mem_append_right behind List.mem_cons_self))

/-! ### Slots -/

/-- The pieces of an argument list are the documents that it is derived from. -/
theorem slice_of_mem_piecesFrom (hnames : ∀ name ∈ names, Apart name)
    (h : Written names nests blocks form u) (hform : form = .slots) {rest : Text} {i : Nat}
    {done : List Span} (ht : t.drop i = u ++ rest) {p : Span}
    (hp : p ∈ Bracket.piecesFrom i i 0 done u) :
    p ∈ done ∨ Written names nests blocks .document (t.slice p) := by
  induction h generalizing i done with
  | empty | char | call | block | done | otherwise | alternative => cases hform
  | @last _ slot slot_written =>
    -- the slot is passed over without a cut, and the list ends behind it
    have hpasses : Bracket.Passes 0 slot := slot_written.passes hnames nofun
    have hpieces := hpasses.pieces i i done []
    rw [List.append_nil] at hpieces
    rw [hpieces, Bracket.piecesFrom, List.mem_reverse] at hp
    rcases List.mem_cons.1 hp with rfl | hp
    · rw [Text.slice_of_drop ht]
      exact .inr slot_written
    · exact .inl hp
  | @next _ slot more slot_written more_written _ ih =>
    rw [List.append_assoc] at ht
    have hmore : t.drop (i + slot.length + 1) = more ++ rest := by
      rw [← List.drop_drop, ← List.drop_drop, ht, List.drop_left]
      rfl
    have hpasses : Bracket.Passes 0 slot := slot_written.passes hnames nofun
    rw [hpasses.pieces, Bracket.piecesFrom,
      if_neg (by decide), if_neg (by decide), if_pos (by decide)] at hp
    -- the semicolon ends the slot, and the pieces behind it are those of the other slots
    rcases ih rfl hmore hp with hp | hp
    · rcases List.mem_cons.1 hp with rfl | hp
      · rw [Text.slice_of_drop ht]
        exact .inr slot_written
      · exact .inl hp
    · exact .inr hp

/-- The arguments of a call are documents. -/
theorem slice_of_mem_slots (hnames : ∀ name ∈ names, Apart name)
    (h : Written names nests blocks .slots u) {rest : Text} {i : Nat}
    (ht : t.drop i = u ++ ']' :: rest) {s : Span} (hs : some s ∈ Bracket.slots t ⟨i, i + u.length⟩) :
    Written names nests blocks .document (t.slice s) := by
  obtain ⟨p, hp, hpart⟩ : ∃ p ∈ Bracket.pieces t ⟨i, i + u.length⟩, s = Text.trimSpan t p := by
    obtain ⟨x, hx, hsome⟩ := List.mem_map.1 hs
    obtain ⟨p, hp, rfl⟩ := List.mem_map.1 ((Bracket.dropEmptyLast_sublist _).subset hx)
    refine ⟨p, hp, ?_⟩
    split at hsome
    · cases hsome
    · exact (Option.some.inj hsome).symm
  -- the list lies in the text, so its pieces do
  have hlen : i + u.length ≤ t.length := by
    have := congrArg List.length ht
    rw [List.length_drop, List.length_append, List.length_cons] at this
    omega
  have hbounds := (Bracket.pieces_inOrder (t := t) (s := ⟨i, i + u.length⟩) (Nat.le_add_right _ _)
    hlen).bounds hp
  -- a slot is a piece without the blanks at its ends
  have hwritten : Written names nests blocks .document (t.slice p) := by
    rw [Bracket.pieces, Text.slice_of_drop ht] at hp
    rcases h.slice_of_mem_piecesFrom hnames rfl ht hp with hp | hp
    · cases hp
    · exact hp
  obtain ⟨before, behind, hslice, hbefore, hbehind⟩ :=
    Text.slice_eq_blanks (hbounds.2.2.trans hlen)
  rw [hslice] at hwritten
  rw [hpart]
  exact hwritten.of_blanks hnames hbefore hbehind

end Grammar.Written

end Stencil
