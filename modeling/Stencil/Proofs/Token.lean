import Stencil.Proofs.Grammar
/-!
# What begins at a marker

Every `$` of a derived text begins a call, a block or another keyword (`Written.at_dollar`), and
what begins there can be exchanged: a call for text without markers, a block for a document. So a
text stays derived when a call or a block is resolved.

Where no `$if[` stands in a document there is no keyword at all (`Written.noneIn`). So the block of
the last `$if[` is one that fits (`Written.innermost`).
-/

namespace Stencil.Grammar

/-- What begins at a position of a derived text, and what can stand there instead. -/
inductive Token (names : List Text) (nests blocks : Bool) (form : Form) (t : Text) (i : Nat) : Prop
  | call {name inner rest : Text} {within : Bool} (registered : name ∈ names)
      (text_eq : t.drop i = name ++ '[' :: (inner ++ ']' :: rest))
      (slots : Written names nests (within && nests) .slots inner)
      (exchange : ∀ x, (∀ c ∈ x, isMarker c = false) →
        Written names nests blocks form (t.take i ++ (x ++ rest)))
  | block {condition body tail rest : Text} (allowed : blocks = true)
      (text_eq : t.drop i =
        Keyword.ifOpen.text ++ (condition ++ ']' :: (body ++ (tail ++ rest))))
      (asks : Written names nests true .document condition)
      (holds : Written names nests true .document body)
      (fails : Written names nests true .tail tail)
      (exchange : ∀ x, Written names nests true .document x →
        Written names nests blocks form (t.take i ++ (x ++ rest)))
  | keyword {k : Keyword} {rest : Text} (allowed : blocks = true) (other : k ≠ .ifOpen)
      (text_eq : t.drop i = k.text ++ rest)
      (inside : form = .tail ∨ ∃ j, Keyword.ifOpen.StandsAt t j)

variable {names : List Text} {nests blocks blocks' : Bool} {form form' : Form} {t u : Text}
  {i : Nat}

/-- What begins in a part of a text begins in the whole. -/
theorem Token.lift (h : Token names nests blocks form t i) (hi : t[i]? = some '$')
    (before behind : Text) (hu : u = before ++ (t ++ behind))
    (hblocks : blocks = true → blocks' = true)
    (exchange : ∀ x, Written names nests blocks form x →
      Written names nests blocks' form' (before ++ (x ++ behind)))
    (htail : form = .tail → form' = .tail ∨ ∃ m, Keyword.ifOpen.StandsAt u m) :
    Token names nests blocks' form' u (before.length + i) := by
  subst hu
  have hi : i ≤ t.length := (List.getElem?_eq_some_iff.1 hi).1.le
  have hdrop : (before ++ (t ++ behind)).drop (before.length + i) = t.drop i ++ behind := by
    rw [List.drop_length_add_append, List.drop_append_of_le_length hi]
  -- what stands before the position in the whole is `before` and what stands before it in the part
  have htake : ∀ x : Text, (before ++ (t ++ behind)).take (before.length + i) ++ (x ++ behind) =
      before ++ (t.take i ++ x ++ behind) := by
    intro x
    rw [List.take_length_add_append, List.take_append_of_le_length hi]
    simp
  cases h with
  | @call name inner rest within registered text_eq slots closed =>
    have hcall : (before ++ (t ++ behind)).drop (before.length + i) =
        name ++ '[' :: (inner ++ ']' :: (rest ++ behind)) := by
      rw [hdrop, text_eq]
      simp
    refine .call registered hcall slots fun x hx => ?_
    rw [← List.append_assoc x, htake]
    exact exchange _ (closed x hx)
  | @block condition body tail rest allowed text_eq asks holds fails closed =>
    have hblock : (before ++ (t ++ behind)).drop (before.length + i) = Keyword.ifOpen.text ++
        (condition ++ ']' :: (body ++ (tail ++ (rest ++ behind)))) := by
      rw [hdrop, text_eq]
      simp
    refine .block (hblocks allowed) hblock asks holds fails fun x hx => ?_
    rw [← List.append_assoc x, htake]
    exact exchange _ (closed x hx)
  | @keyword k rest allowed other text_eq inside =>
    have hkeyword : (before ++ (t ++ behind)).drop (before.length + i) =
        k.text ++ (rest ++ behind) := by
      rw [hdrop, text_eq, List.append_assoc]
    refine .keyword (hblocks allowed) other hkeyword ?_
    rcases inside with hform | ⟨m, hm⟩
    · exact htail hform
    · exact .inr ⟨before.length + m, Keyword.standsAt_append_right.2 (hm.append behind)⟩

/-! ### Every `$` begins something

The parts of a text are gone through one behind the other, as a production of the grammar puts them
together. -/

/-- Every `$` of a part that stands behind another one begins something in the whole text. -/
def Tokens (names : List Text) (nests blocks : Bool) (form : Form) (u before part : Text) : Prop :=
  ∀ i, part[i]? = some '$' → Token names nests blocks form u (before.length + i)

namespace Tokens

variable {before a b : Text}

/-- Two parts, one behind the other, begin something at each of their markers if each part
does. -/
theorem append (ha : Tokens names nests blocks form u before a)
    (hb : Tokens names nests blocks form u (before ++ a) b) :
    Tokens names nests blocks form u before (a ++ b) := by
  intro i hi
  by_cases hin : i < a.length
  · rw [List.getElem?_append_left hin] at hi
    exact ha i hi
  · rw [List.getElem?_append_right (Nat.le_of_not_lt hin)] at hi
    have hbehind := hb _ hi
    rwa [List.length_append, Nat.add_assoc, Nat.add_sub_cancel' (Nat.le_of_not_lt hin)] at hbehind

/-- A character that is no `$` begins nothing. -/
theorem cons {c : Char} (hc : c ≠ '$') (hb : Tokens names nests blocks form u (before ++ [c]) b) :
    Tokens names nests blocks form u before (c :: b) := by
  refine append (a := [c]) (fun i hi => ?_) hb
  obtain rfl : '$' = c := by simpa using List.mem_of_getElem? hi
  exact absurd rfl hc

/-- Of a name only its first character is a `$`. -/
theorem name {name : Text} (hname : Apart name)
    (h : Token names nests blocks form u before.length) :
    Tokens names nests blocks form u before name := by
  obtain ⟨stem, rfl, hstem⟩ := hname.letters
  intro i hi
  cases i with
  | zero => exact h
  | succ i => cases hstem _ (List.mem_of_getElem? hi)

/-- Of a keyword only its first character is a `$`. -/
theorem keyword (k : Keyword) (h : Token names nests blocks form u before.length) :
    Tokens names nests blocks form u before k.text := by
  have hletters : '$' ∉ k.letters := by
    cases k <;> decide
  intro i hi
  cases i with
  | zero => exact h
  | succ i =>
    rw [Keyword.text, List.getElem?_cons_succ] at hi
    exact absurd (List.mem_of_getElem? hi) hletters

/-- A keyword of the tail of a block. -/
theorem ofTail (k : Keyword) (rest : Text) (hk : k ≠ .ifOpen)
    (hu : u = before ++ (k.text ++ rest)) : Tokens names nests true .tail u before k.text := by
  have htext : u.drop before.length = k.text ++ rest := by rw [hu, List.drop_left]
  exact keyword k (.keyword rfl hk htext (.inl rfl))

/-- A part that is derived itself. -/
theorem part (h : Tokens names nests blocks form t [] t) (behind : Text)
    (hu : u = before ++ (t ++ behind)) (hblocks : blocks = true → blocks' = true)
    (exchange : ∀ x, Written names nests blocks form x →
      Written names nests blocks' form' (before ++ (x ++ behind)))
    (htail : form = .tail → form' = .tail ∨ ∃ m, Keyword.ifOpen.StandsAt u m) :
    Tokens names nests blocks' form' u before t := by
  intro i hi
  have hpart := h i hi
  rw [List.length_nil, Nat.zero_add] at hpart
  exact hpart.lift hi before behind hu hblocks exchange htail

end Tokens

/-- Every `$` of a derived text begins something that can be exchanged, by induction on the
derivation: it stands in one of the parts that the rule puts together, and what can be exchanged
within a part can be exchanged in the whole. -/
theorem Written.tokens (hnames : ∀ name ∈ names, Apart name)
    (h : Written names nests blocks form t) : Tokens names nests blocks form t [] t := by
  -- for each rule, the parts are gone through in their order; `exchange` writes the rule again
  -- with the new part
  induction h with
  | empty =>
    intro i hi
    cases hi
  | @char blocks c rest plain more ih =>
    have hc : c ≠ '$' := by
      rintro rfl
      cases plain
    refine .cons hc ?_
    exact ih.part [] (by simp) id (fun x hx => by simpa using Written.char plain hx) nofun
  -- the name is the call itself; behind it come the argument list, the bracket and the rest
  | @call blocks name inner rest registered slots more ihSlots ihMore =>
    refine .append (.name (hnames name registered) ?_)
      (.cons (by decide) (.append ?_ (.cons (by decide) ?_)))
    · exact .call registered rfl slots fun x hx => (of_plain hx).append rfl more
    · exact ihSlots.part (']' :: rest) (by simp) (fun hboth => (Bool.and_eq_true_iff.1 hboth).1)
        (fun x hx => by simpa using Written.call registered hx more) nofun
    · exact ihMore.part [] (by simp) id
        (fun x hx => by simpa using Written.call registered slots hx) nofun
  -- `$if[` is the block itself; behind it come condition, body, tail and rest
  | @block condition body tail rest asks holds fails more ihAsks ihHolds ihFails ihMore =>
    refine .append (.keyword .ifOpen ?_)
      (.append ?_ (.cons (by decide) (.append ?_ (.append ?_ ?_))))
    · exact .block rfl rfl asks holds fails fun x hx => hx.append rfl more
    · exact ihAsks.part (']' :: (body ++ (tail ++ rest))) (by simp) id
        (fun x hx => by simpa using Written.block hx holds fails more) nofun
    · exact ihHolds.part (tail ++ rest) (by simp) id
        (fun x hx => by simpa using Written.block asks hx fails more) nofun
    · -- the keywords of the tail have the `$if[` of this block before them
      have hopens : ∃ m, Keyword.ifOpen.StandsAt
          (Keyword.ifOpen.text ++ (condition ++ ']' :: (body ++ (tail ++ rest)))) m :=
        ⟨0, Keyword.standsAt_ifOpen rfl⟩
      exact ihFails.part rest (by simp) id
        (fun x hx => by simpa using Written.block asks holds hx more) fun _ => .inr hopens
    · exact ihMore.part [] (by simp) id
        (fun x hx => by simpa using Written.block asks holds fails hx) nofun
  | @last blocks slot slot_written ih =>
    exact ih.part [] (by simp) id (fun x hx => by simpa using .last hx) nofun
  -- the slots of a list, of which only the last has no semicolon behind it
  | @next blocks slot more slot_written more_written ihSlot ihMore =>
    refine .append ?_ (.cons (by decide) ?_)
    · exact ihSlot.part (';' :: more) rfl id (fun x hx => by simpa using .next hx more_written) nofun
    · exact ihMore.part [] (by simp) id
        (fun x hx => by simpa using Written.next slot_written hx) nofun
  -- in a tail, each keyword is covered by the form alone
  | done => exact .ofTail .endIf [] (by decide) (List.append_nil _).symm
  | @otherwise other other_written ih =>
    refine .append ?_ (.cons (by decide) (.append ?_ ?_))
    · exact .ofTail .otherwise _ (by decide) rfl
    · exact ih.part Keyword.endIf.text (by simp) id
        (fun x hx => by simpa using Written.otherwise hx) nofun
    · exact .ofTail .endIf [] (by decide) (by simp)
  -- what follows an alternative is a tail again
  | @alternative condition body tail asks holds fails ihAsks ihHolds ihFails =>
    refine .append ?_ (.append ?_ (.cons (by decide) (.append ?_ (.append ?_ ?_))))
    · exact .ofTail .elseIfOpen _ (by decide) rfl
    · exact ihAsks.part (']' :: (body ++ (Keyword.endElseIf.text ++ tail))) (by simp) id
        (fun x hx => by simpa using Written.alternative hx holds fails) nofun
    · exact ihHolds.part (Keyword.endElseIf.text ++ tail) (by simp) id
        (fun x hx => by simpa using Written.alternative asks hx fails) nofun
    · exact .ofTail .endElseIf tail (by decide) (by simp)
    · exact ihFails.part [] (by simp) id
        (fun x hx => by simpa using Written.alternative asks holds hx) fun _ => .inl rfl

/-- Every `$` of a derived text begins a call, a block or another keyword. -/
theorem Written.at_dollar (hnames : ∀ name ∈ names, Apart name)
    (h : Written names nests blocks form t) (hi : t[i]? = some '$') :
    Token names nests blocks form t i := by
  have htoken := h.tokens hnames i hi
  rwa [List.length_nil, Nat.zero_add] at htoken

/-! ### Texts without blocks -/

/-- What begins where a keyword stands is no call. -/
theorem not_standsAt_call (hnames : ∀ name ∈ names, Apart name) {name rest : Text}
    (registered : name ∈ names) (ht : t.drop i = name ++ rest) (k : Keyword) :
    ¬ k.StandsAt t i := by
  rw [Keyword.StandsAt, ht, (hnames name registered).startsIn_append]
  exact Bool.false_ne_true

/-- A document without a `$if[` has no keyword. -/
theorem Written.noneIn (hnames : ∀ name ∈ names, Apart name)
    (h : Written names nests blocks .document t) (hif : ∀ i, ¬ Keyword.ifOpen.StandsAt t i) :
    -- a `$` of such a text begins a call, a block or a keyword, and each of these is excluded
    Keyword.NoneIn t := by
  intro k i hk
  cases h.at_dollar hnames hk.getElem?_start with
  | call registered text_eq _ _ => exact not_standsAt_call hnames registered text_eq k hk
  | @block condition body tail rest _ text_eq _ _ _ _ =>
    exact hif i (Keyword.standsAt_ifOpen text_eq)
  | keyword _ _ _ inside =>
    rcases inside with hform | ⟨j, hj⟩
    · cases hform
    · exact hif j hj

/-- Where no blocks are allowed there is no keyword. -/
theorem Written.noneIn_of_false (hnames : ∀ name ∈ names, Apart name)
    (h : Written names nests false form t) : Keyword.NoneIn t := by
  intro k i hk
  cases h.at_dollar hnames hk.getElem?_start with
  | call registered text_eq _ _ => exact not_standsAt_call hnames registered text_eq k hk
  | block allowed => cases allowed
  | keyword allowed => cases allowed

/-- Where no `$if[` stands in a text, none stands in either part of it. -/
theorem not_standsAt_of_append {a b : Text} (h : ∀ i, ¬ Keyword.ifOpen.StandsAt (a ++ b) i) :
    (∀ i, ¬ Keyword.ifOpen.StandsAt a i) ∧ ∀ i, ¬ Keyword.ifOpen.StandsAt b i :=
  ⟨fun i hi => h i (hi.append b), fun i hi => h (a.length + i) (Keyword.standsAt_append_right.2 hi)⟩

/-- The same for a character in front, which is no part of a keyword behind it. -/
theorem not_standsAt_of_cons {c : Char} {b : Text}
    (h : ∀ i, ¬ Keyword.ifOpen.StandsAt (c :: b) i) : ∀ i, ¬ Keyword.ifOpen.StandsAt b i :=
  (not_standsAt_of_append (a := [c]) h).2

/-! ### The innermost block -/

/-- A block that fits, every alternative of which is ended, and whose texts are documents. -/
structure Derived (names : List Text) (nests : Bool) (b : Block.Spelling) : Prop where
  fits : b.Fits
  closed : ∀ a ∈ b.branches, a.closed = true
  condition : Written names nests true .document b.condition
  body : Written names nests true .document b.body
  branches : ∀ a ∈ b.branches, Written names nests true .document a.condition ∧
    Written names nests true .document a.body
  otherwise : ∀ other ∈ b.otherwise, Written names nests true .document other

/-- What is derived behind the body of a block, without a `$if[` in it, spells the rest of a
block. -/
theorem Written.exists_tail (hnames : ∀ name ∈ names, Apart name)
    (h : Written names nests blocks form t) (hform : form = .tail)
    (hif : ∀ i, ¬ Keyword.ifOpen.StandsAt t i) {condition body : Text}
    (asks : Written names nests true .document condition)
    (hasks : ∀ i, ¬ Keyword.ifOpen.StandsAt condition i)
    (holds : Written names nests true .document body)
    (hholds : ∀ i, ¬ Keyword.ifOpen.StandsAt body i) :
    ∃ b : Block.Spelling, b.condition = condition ∧ b.body = body ∧ b.tail = t ∧
      Derived names nests b := by
  have hbalanced := asks.balanced hnames
  have hcondition := asks.noneIn hnames hasks
  have hbody := holds.noneIn hnames hholds
  -- induction on the tail: an alternative goes in front of those of the tail behind it
  induction h with
  | empty | char | call | block | last | next => cases hform
  | done =>
    refine ⟨⟨condition, body, [], none⟩, rfl, rfl, rfl, ⟨hbalanced, hcondition, hbody, ?_, ?_⟩, ?_,
      asks, holds, ?_, ?_⟩ <;> simp
  -- the text of `$else` is a document with a blank in front
  | @otherwise other other_written ih =>
    have hother : Written names nests true .document (' ' :: other) := .char rfl other_written
    have hfree : ∀ i, ¬ Keyword.ifOpen.StandsAt (' ' :: other) i := by
      have hsplit := not_standsAt_of_append (a := Keyword.otherwise.text)
        (b := ' ' :: other ++ Keyword.endIf.text) hif
      exact (not_standsAt_of_append hsplit.2).1
    refine ⟨⟨condition, body, [], some (' ' :: other)⟩, rfl, rfl, by simp [Block.Spelling.tail,
      Block.elseText], ⟨hbalanced, hcondition, hbody, by simp, ?_⟩, by simp, asks, holds, by simp, ?_⟩
    · intro o ho
      obtain rfl : ' ' :: other = o := by simpa using ho
      -- the blank behind `$else` keeps it from being read as `$elseif[`
      refine ⟨hother.noneIn hnames hfree, ?_⟩
      cases other <;> rfl
    · intro o ho
      obtain rfl : ' ' :: other = o := by simpa using ho
      exact hother
  -- none of the four parts of the alternative holds a `$if[`
  | @alternative asked chosen tail asks' holds' fails' ihAsks ihHolds ihFails =>
    have hsplit := not_standsAt_of_append (a := Keyword.elseIfOpen.text) hif
    have hasked := not_standsAt_of_append hsplit.2
    have hchosen := not_standsAt_of_append (not_standsAt_of_cons hasked.2)
    have hrest := not_standsAt_of_append (a := Keyword.endElseIf.text) hchosen.2
    obtain ⟨b, rfl, rfl, rfl, hb⟩ := ihFails rfl hrest.2
    refine ⟨{ b with branches := ⟨asked, chosen, true⟩ :: b.branches }, rfl, rfl, ?_, ?_⟩
    · simp [Block.Spelling.tail, Block.Branch.text, Block.Branch.ending]
    have hfits : Block.Branch.Fits ⟨asked, chosen, true⟩ := ⟨asks'.balanced hnames,
      asks'.noneIn hnames hasked.1, holds'.noneIn hnames hchosen.1⟩
    exact ⟨⟨hbalanced, hcondition, hbody, List.forall_mem_cons.2 ⟨hfits, hb.fits.branches⟩,
      hb.fits.otherwise⟩, List.forall_mem_cons.2 ⟨rfl, hb.closed⟩, asks, holds,
      List.forall_mem_cons.2 ⟨⟨asks', holds'⟩, hb.branches⟩, hb.otherwise⟩

/-- The last `$if[` of a document begins a block that fits, and a document can stand for it. -/
theorem Written.innermost (hnames : ∀ name ∈ names, Apart name)
    (h : Written names nests blocks .document t) (hif : Keyword.ifOpen.StandsAt t i)
    (hlast : ∀ j, i < j → ¬ Keyword.ifOpen.StandsAt t j) :
    ∃ b rest, t.drop i = Block.Spelling.text b ++ rest ∧ Derived names nests b ∧ blocks = true ∧
      ∀ x, Written names nests true .document x →
        Written names nests blocks .document (t.take i ++ (x ++ rest)) := by
  cases h.at_dollar hnames hif.getElem?_start with
  -- a call does not begin as a `$if[` does
  | call registered text_eq _ _ => exact absurd hif (not_standsAt_call hnames registered text_eq _)
  -- neither does any other keyword
  | @keyword k rest _ other text_eq _ =>
    rw [Keyword.StandsAt, text_eq] at hif
    cases k with
    | ifOpen => exact absurd rfl other
    | elseIfOpen | otherwise | endIf | endElseIf => cases hif
  | @block condition body tail rest allowed text_eq asks holds fails exchange =>
    -- the `$if[` is the last one, so there is none in what stands behind it
    have hbehind : ∀ j, ¬ Keyword.ifOpen.StandsAt
        (Keyword.ifOpen.letters ++ (condition ++ ']' :: (body ++ (tail ++ rest)))) j := by
      intro j hj
      have hdrop : t.drop (i + 1) =
          Keyword.ifOpen.letters ++ (condition ++ ']' :: (body ++ (tail ++ rest))) := by
        rw [← List.drop_drop, text_eq]
        rfl
      rw [← hdrop, Keyword.standsAt_drop] at hj
      exact hlast _ (by omega) hj
    -- so neither the condition nor the body nor the tail holds a block
    have hcondition := not_standsAt_of_append (not_standsAt_of_append hbehind).2
    have hbody := not_standsAt_of_append (not_standsAt_of_cons hcondition.2)
    have htail := not_standsAt_of_append hbody.2
    obtain ⟨b, rfl, rfl, rfl, hb⟩ := fails.exists_tail hnames rfl htail.1 asks hcondition.1 holds
      hbody.1
    refine ⟨b, rest, ?_, hb, allowed, exchange⟩
    rw [text_eq, Block.Spelling.text]
    simp

end Stencil.Grammar
