import Stencil.Proofs.Block
import Stencil.Proofs.ByteCalls
/-!
# Blocks by byte offsets

The parts of a block are ranges of bytes, found from keyword to keyword. What stands behind a
`$else`, and what stands in front of a position of which it is asked whether it lies inside a block,
is read in slices. There is an answer if these are there; they always are, and the answer is the one
that is found by positions (`findInnermostByte?_eq`, `isInsideByte?_byteOffset`). A keyword can have
more bytes than characters, since the long s has two, so that its end is read off the text.
-/

namespace Stencil

open Text (bytes byteLength byteOffset inBytes cut?)

/-! ### Keywords -/

namespace Keyword

variable {t : Text} {k : Keyword} {i : Nat} {s : Span}

/-- The leftmost occurrence of a keyword at or behind an offset. -/
def findByte? (k : Keyword) (t : Text) (b : Nat) : Option Span :=
  (k.find? t (Text.positionAtOrAfter t b)).map (inBytes t)

def findAllBytes (k : Keyword) (t : Text) : List Span := (k.findAll t).map (inBytes t)

/-- A keyword is found by offsets where it is by positions. -/
theorem findByte?_byteOffset (hi : i ≤ t.length) :
    k.findByte? t (byteOffset t i) = (k.find? t i).map (inBytes t) := by
  rw [findByte?, Text.positionAtOrAfter_byteOffset hi]

/-- A keyword that is found lies within the text. -/
theorem stop_le_of_find? (h : k.find? t i = some s) : s.start ≤ s.stop ∧ s.stop ≤ t.length := by
  obtain ⟨j, rfl, -, hat, -⟩ := find?_eq_some_iff.1 h
  exact ⟨Nat.le_add_right _ _, hat.add_size_le⟩

/-- So does one that is listed. -/
theorem stop_le_of_mem_findAll (h : s ∈ k.findAll t) : s.start ≤ s.stop ∧ s.stop ≤ t.length := by
  obtain ⟨j, hat, rfl⟩ := mem_findAll.1 h
  exact ⟨Nat.le_add_right _ _, hat.add_size_le⟩

end Keyword

namespace Block

/-! ### The reading by offsets -/

/-- `firstElse?` by offsets, if what stands behind the occurrences can be sliced. -/
def firstElseByte? (t : Text) (within : Span) : List Span → Option (Option Span)
  | [] => some none
  | e :: es =>
    if within.stop < e.stop then some none
    else if e.start < within.start then firstElseByte? t within es
    else do
      let rest ← cut? t ⟨e.stop, byteLength t⟩
      if goesOnWithIf rest then firstElseByte? t within es else some (some e)

def findElseByte? (t : Text) (within : Span) : Option (Option Span) :=
  firstElseByte? t within (Keyword.otherwise.findAllBytes t)

def alternativeAtByte? (t : Text) (strict : Bool) (condition : Span) (next : Nat) :
    Option (Except BlockError (Alternative × Nat)) :=
  let start := condition.stop + 1
  match (Keyword.endElseIf.findByte? t start).filter (·.stop ≤ next) with
  | some e => some (.ok (⟨condition, ⟨start, e.start⟩⟩, e.stop))
  | none =>
    if strict then some (.error .missingEndElseIf)
    else do
      let found ← findElseByte? t ⟨start, next⟩
      let stop := (found.map (·.start)).getD next
      some (.ok (⟨condition, ⟨start, stop⟩⟩, stop))

def cutAlternativesByte? (t : Text) (strict : Bool) (regionEnd : Nat) (position : Nat) :
    List Span → Option (Except BlockError (List Span × List Alternative))
  | [] => some (.ok (part ⟨position, regionEnd⟩, []))
  | opener :: later =>
    if opener.start < position then cutAlternativesByte? t strict regionEnd position later
    else
      match (Bracket.closingByte? t (opener.stop - 1)).filter (· < regionEnd) with
      | none => some (.error .unclosedElseIfCondition)
      | some closing => do
        let next := ((later.find? (closing < ·.start)).map (·.start)).getD regionEnd
        match ← alternativeAtByte? t strict ⟨opener.stop, closing⟩ next with
        | .error e => some (.error e)
        | .ok (alternative, position') =>
          match ← cutAlternativesByte? t strict regionEnd position' later with
          | .error e => some (.error e)
          | .ok (parts, alternatives) =>
            some (.ok (part ⟨position, opener.start⟩ ++ parts, alternative :: alternatives))

def splitAtElseByte? (t : Text) : List Span → Option (List Span × List Span)
  | [] => some ([], [])
  | p :: ps => do
    match ← findElseByte? t p with
    | some e => some (part ⟨p.start, e.start⟩, part ⟨e.stop, p.stop⟩ ++ ps)
    | none =>
      let (body, otherwise) ← splitAtElseByte? t ps
      some (p :: body, otherwise)

/-- The block that the last `$if[` of a text opens, in byte offsets, if all that is read for it can
be sliced. -/
def findInnermostByte? (t : Text) (strict : Bool) : Option (Except BlockError Block) :=
  if !Keyword.endIf.isPresent t then some (.error .missingEndIf)
  else
    match (Keyword.ifOpen.findAllBytes t).getLast? with
    | none => some (.error .missingIf)
    | some opener =>
      match Bracket.closingByte? t (opener.stop - 1) with
      | none => some (.error .unclosedCondition)
      | some closing =>
        match Keyword.endIf.findByte? t (closing + 1) with
        | none => some (.error .missingEndIf)
        | some endIf => do
          let openers := (Keyword.elseIfOpen.findAllBytes t).filter (·.start < endIf.start)
          match ← cutAlternativesByte? t strict endIf.start (closing + 1) openers with
          | .error e => some (.error e)
          | .ok (parts, alternatives) =>
            let (body, otherwise) ← splitAtElseByte? t parts
            some (.ok
              ⟨⟨opener.start, endIf.stop⟩, ⟨opener.stop, closing⟩, body, alternatives, otherwise⟩)

/-- Whether an offset lies inside a block, if what stands in front of it can be sliced. -/
def isInsideByte? (t : Text) (b : Nat) : Option Bool := do
  let before ← cut? t ⟨0, b⟩
  return 0 < (marks before).foldl openAfter 0

end Block

/-- The alternative in byte offsets. -/
def Alternative.inBytes (t : Text) (a : Alternative) : Alternative :=
  ⟨Text.inBytes t a.condition, Text.inBytes t a.body⟩

/-- The block in byte offsets. -/
def Block.inBytes (t : Text) (b : Block) : Block :=
  ⟨Text.inBytes t b.span, Text.inBytes t b.condition, b.body.map (Text.inBytes t),
    b.alternatives.map (·.inBytes t), b.otherwise.map (Text.inBytes t)⟩

namespace Block

variable {t : Text} {strict : Bool} {within : Span} {stop position : Nat}

/-! ### It is the reading by positions -/

/-- A part by offsets is the part by positions. -/
theorem part_inBytes {s : Span} (hstart : s.start ≤ t.length) (hstop : s.stop ≤ t.length) :
    part (Text.inBytes t s) = (part s).map (Text.inBytes t) := by
  rw [part, part, Text.isEmpty_inBytes hstart hstop]
  split <;> rfl

theorem firstElseByte?_inBytes {es : List Span} (hes : ∀ e ∈ es, e.start ≤ e.stop ∧
    e.stop ≤ t.length) (hstart : within.start ≤ t.length) (hstop : within.stop ≤ t.length) :
    firstElseByte? t (Text.inBytes t within) (es.map (Text.inBytes t)) =
      some ((firstElse? t within es).map (Text.inBytes t)) := by
  induction es with
  | nil => rfl
  | cons e es ih =>
    obtain ⟨hle, hend⟩ := hes e List.mem_cons_self
    have hlater := ih fun e' he' => hes e' (List.mem_cons_of_mem e he')
    rw [List.map_cons, firstElseByte?, firstElse?, hlater]
    simp only [Text.inBytes, Text.byteOffset_lt_iff hstop hend,
      Text.byteOffset_lt_iff (hle.trans hend) hstart, Text.cut?_drop hend, Option.bind_eq_bind,
      Option.bind_some]
    split
    · rfl
    -- the keyword stands in the span, or in front of it, where it is passed over
    · by_cases hbefore : e.start < within.start
      · simp [hbefore]
      · by_cases hif : goesOnWithIf (t.drop e.stop) = true
        · simp [hbefore, hif]
        · simp [hbefore, hif, Text.inBytes]

/-- The `$else` by offsets is the one by positions. -/
theorem findElseByte?_inBytes (within : Span) (hstart : within.start ≤ t.length)
    (hstop : within.stop ≤ t.length) :
    findElseByte? t (Text.inBytes t within) = some ((findElse? t within).map (Text.inBytes t)) :=
  firstElseByte?_inBytes (fun _ => Keyword.stop_le_of_mem_findAll) hstart hstop

theorem alternativeAtByte?_inBytes (strict : Bool) (condition : Span) {next : Nat}
    (hclosing : t[condition.stop]? = some ']') (hnext : next ≤ t.length) :
    alternativeAtByte? t strict (Text.inBytes t condition) (byteOffset t next) =
      some ((alternativeAt t strict condition next).map fun found =>
        (found.1.inBytes t, byteOffset t found.2)) := by
  obtain ⟨hlt, -⟩ := List.getElem?_eq_some_iff.1 hclosing
  have hstart : (Text.inBytes t condition).stop + 1 = byteOffset t (condition.stop + 1) :=
    (Text.byteOffset_succ hclosing (by decide)).symm
  -- a `$endelseif` ends in the region by offsets where it does by positions
  have hending : (Keyword.endElseIf.findByte? t (byteOffset t (condition.stop + 1))).filter
      (·.stop ≤ byteOffset t next) =
      ((Keyword.endElseIf.find? t (condition.stop + 1)).filter (·.stop ≤ next)).map
        (Text.inBytes t) := by
    rw [Keyword.findByte?_byteOffset hlt]
    cases hfind : Keyword.endElseIf.find? t (condition.stop + 1) with
    | none => rfl
    | some e =>
      have hle := Text.byteOffset_le_iff (Keyword.stop_le_of_find? hfind).2 hnext
      by_cases he : e.stop ≤ next <;> simp [Text.inBytes, Option.filter_some, hle, he]
  unfold alternativeAtByte? alternativeAt
  simp only [hstart, hending]
  cases (Keyword.endElseIf.find? t (condition.stop + 1)).filter (·.stop ≤ next) with
  | some e => rfl
  | none =>
    cases strict with
    | true => rfl
    | false =>
      have helse := findElseByte?_inBytes ⟨condition.stop + 1, next⟩ hlt hnext
      rw [Text.inBytes] at helse
      simp only [Option.map_none, Bool.false_eq_true, if_false, helse, Option.bind_eq_bind,
        Option.bind_some]
      cases findElse? t ⟨condition.stop + 1, next⟩ <;> rfl

/-- An alternative is over within the text. -/
theorem stop_le_of_alternativeAt {condition : Span} {next stop : Nat} {a : Alternative}
    (hnext : next ≤ t.length) (h : alternativeAt t strict condition next = .ok (a, stop)) :
    stop ≤ t.length := by
  unfold alternativeAt at h
  simp only at h
  split at h
  -- it is over with its `$endelseif`, before an `$else` or before what is next
  · next e he =>
    cases h
    exact (Keyword.stop_le_of_find? (Option.filter_eq_some_iff.1 he).1).2
  · split at h
    · cases h
    · cases h
      cases helse : findElse? t ⟨condition.stop + 1, next⟩ with
      | none => exact hnext
      | some e =>
        obtain ⟨j, rfl, hat, -⟩ := findElse?_eq_some helse
        exact (Nat.le_add_right _ _).trans hat.add_size_le

/-- What is looked for next is found by offsets where it is found by positions. -/
theorem find?_start_inBytes {later : List Span} {closing : Nat} (stop : Nat)
    (hclosing : closing ≤ t.length) (hlater : ∀ o ∈ later, o.start ≤ t.length) :
    (((later.map (Text.inBytes t)).find? (byteOffset t closing < ·.start)).map (·.start)).getD
        (byteOffset t stop) =
      byteOffset t (((later.find? (closing < ·.start)).map (·.start)).getD stop) := by
  induction later with
  | nil => rfl
  | cons o later ih =>
    have hrest := ih fun o' ho' => hlater o' (List.mem_cons_of_mem o ho')
    have hiff : byteOffset t closing < (Text.inBytes t o).start ↔ closing < o.start :=
      Text.byteOffset_lt_iff hclosing (hlater o List.mem_cons_self)
    rw [List.map_cons, List.find?_cons, List.find?_cons]
    simp only [hiff]
    split
    · rfl
    · exact hrest

/-- The bracket of an opener, the last byte of it, is closed at the offset where it is closed. -/
theorem closingByte?_opener {k : Keyword} {i : Nat} (hk : k.StandsAt t i)
    (hopens : k.text[k.size - 1]? = some '[') :
    Bracket.closingByte? t ((Text.inBytes t (k.spanAt i)).stop - 1) =
      (Bracket.closing? t ((k.spanAt i).stop - 1)).map (byteOffset t) := by
  have hsize : k.size = k.size - 1 + 1 := rfl
  have hbracket := hk.getElem?_bracket hopens
  have hlast : (k.spanAt i).stop - 1 = i + (k.size - 1) := by
    rw [Keyword.spanAt_stop, hsize]
    rfl
  have hnext : (Text.inBytes t (k.spanAt i)).stop - 1 = byteOffset t (i + (k.size - 1)) :=
    Nat.sub_eq_of_eq_add (Text.byteOffset_succ hbracket (by decide))
  obtain ⟨hlt, -⟩ := List.getElem?_eq_some_iff.1 hbracket
  rw [hnext, hlast, Bracket.closingByte?_byteOffset hlt.le]

/-- A bracket is closed in front of an offset where it is closed in front of the position. -/
theorem filter_closing?_byteOffset {opening stop : Nat} (hstop : stop ≤ t.length) :
    ((Bracket.closing? t opening).map (byteOffset t)).filter (· < byteOffset t stop) =
      ((Bracket.closing? t opening).filter (· < stop)).map (byteOffset t) := by
  cases hclose : Bracket.closing? t opening with
  | none => rfl
  | some closing =>
    obtain ⟨-, hget⟩ := Bracket.getElem?_of_closing? hclose
    obtain ⟨hlt, -⟩ := List.getElem?_eq_some_iff.1 hget
    have hiff := Text.byteOffset_lt_iff hlt.le hstop
    by_cases hin : closing < stop <;> simp [Option.filter_some, hiff, hin]

/-- A region is cut by offsets as it is by positions. -/
theorem cutAlternativesByte?_inBytes (strict : Bool) {openers : List Span}
    (hopeners : ∀ o ∈ openers, ∃ j, o = Keyword.elseIfOpen.spanAt j ∧
      Keyword.elseIfOpen.StandsAt t j) (hposition : position ≤ t.length)
    (hstop : stop ≤ t.length) :
    cutAlternativesByte? t strict (byteOffset t stop) (byteOffset t position)
        (openers.map (Text.inBytes t)) =
      some ((cutAlternatives t strict stop position openers).map fun found =>
        (found.1.map (Text.inBytes t), found.2.map (·.inBytes t))) := by
  induction openers generalizing position with
  | nil =>
    have hpart := part_inBytes (t := t) (s := ⟨position, stop⟩) hposition hstop
    rw [List.map_nil, cutAlternativesByte?, cutAlternatives]
    exact congrArg (fun parts => some (Except.ok (parts, []))) hpart
  | cons opener later ih =>
    have hlater := fun position (h : position ≤ t.length) =>
      @ih position (fun o ho => hopeners o (List.mem_cons_of_mem opener ho)) h
    obtain ⟨j, rfl, hat⟩ := hopeners opener List.mem_cons_self
    have hj : j ≤ t.length := (Nat.le_add_right j _).trans hat.add_size_le
    have hbefore : (Text.inBytes t (Keyword.elseIfOpen.spanAt j)).start < byteOffset t position ↔
        j < position := Text.byteOffset_lt_iff hj hposition
    rw [List.map_cons, cutAlternativesByte?, cutAlternatives, closingByte?_opener hat rfl,
      filter_closing?_byteOffset hstop, Keyword.spanAt_start]
    simp only [hbefore]
    -- an opener in an alternative already cut out is passed over by both
    split
    · exact hlater position hposition
    cases hfound : (Bracket.closing? t ((Keyword.elseIfOpen.spanAt j).stop - 1)).filter
        (· < stop) with
    | none => rfl
    | some closing =>
      obtain ⟨hclose, -⟩ := Option.filter_eq_some_iff.1 hfound
      obtain ⟨-, hget⟩ := Bracket.getElem?_of_closing? hclose
      obtain ⟨hlt, -⟩ := List.getElem?_eq_some_iff.1 hget
      -- the alternatives that follow begin within the text
      have hstarts : ∀ o ∈ later, o.start ≤ t.length := by
        intro o ho
        obtain ⟨m, rfl, hm⟩ := hopeners o (List.mem_cons_of_mem _ ho)
        exact (Nat.le_add_right m _).trans hm.add_size_le
      have hnext := find?_start_inBytes stop hlt.le hstarts
      obtain ⟨next, hnextEq, hnextLe⟩ : ∃ next,
          ((later.find? (closing < ·.start)).map (·.start)).getD stop = next ∧ next ≤ t.length := by
        refine ⟨_, rfl, ?_⟩
        cases hfind : later.find? (closing < ·.start) with
        | none => exact hstop
        | some o => exact hstarts o (List.mem_of_find?_eq_some hfind)
      have halternative := alternativeAtByte?_inBytes strict
        ⟨(Keyword.elseIfOpen.spanAt j).stop, closing⟩ hget hnextLe
      rw [Text.inBytes] at halternative
      simp only [Option.map_some, Text.inBytes, hnext, hnextEq, halternative, Option.bind_eq_bind,
        Option.bind_some]
      cases hat' : alternativeAt t strict ⟨(Keyword.elseIfOpen.spanAt j).stop, closing⟩ next with
      | error e => rfl
      | ok found =>
        -- what is cut off behind the alternative begins where it is over
        obtain ⟨a, position'⟩ := found
        have hrest := hlater position' (stop_le_of_alternativeAt hnextLe hat')
        have hpart := part_inBytes (t := t) (s := ⟨position, j⟩) hposition hj
        rw [Text.inBytes] at hpart
        simp only [Except.map, hrest, Option.bind_some]
        cases cutAlternatives t strict stop position' later with
        | error e => rfl
        | ok rest =>
          simp [hpart]

/-- The openers in front of the end of a region are those in front of its offset. -/
theorem openers_inBytes (hstop : stop ≤ t.length) :
    (Keyword.elseIfOpen.findAllBytes t).filter (·.start < byteOffset t stop) =
      ((Keyword.elseIfOpen.findAll t).filter (·.start < stop)).map (Text.inBytes t) := by
  rw [Keyword.findAllBytes, List.filter_map]
  congr 1
  refine List.filter_congr fun o ho => ?_
  obtain ⟨hle, hend⟩ := Keyword.stop_le_of_mem_findAll ho
  exact decide_eq_decide.2 (Text.byteOffset_lt_iff (hle.trans hend) hstop)

/-- Parts are split at the `$else` by offsets as they are by positions. -/
theorem splitAtElseByte?_inBytes {parts : List Span}
    (hparts : ∀ p ∈ parts, p.start ≤ t.length ∧ p.stop ≤ t.length) :
    splitAtElseByte? t (parts.map (Text.inBytes t)) =
      some ((splitAtElse t parts).1.map (Text.inBytes t),
        (splitAtElse t parts).2.map (Text.inBytes t)) := by
  induction parts with
  | nil => rfl
  | cons p parts ih =>
    obtain ⟨hstart, hstop⟩ := hparts p List.mem_cons_self
    have hlater := ih fun q hq => hparts q (List.mem_cons_of_mem p hq)
    rw [List.map_cons, splitAtElseByte?, splitAtElse, findElseByte?_inBytes p hstart hstop]
    cases helse : findElse? t p with
    | none => simp [hlater]
    | some e =>
      -- the `$else` is cut out of the part, so both halves lie in the text
      obtain ⟨j, rfl, hat, hbefore, hbehind⟩ := findElse?_eq_some helse
      have hin := hat.add_size_le
      have hfront := part_inBytes (t := t) (s := ⟨p.start, j⟩) hstart
        ((Nat.le_add_right j _).trans hin)
      have hback := part_inBytes (t := t) (s := ⟨j + 5, p.stop⟩) hin hstop
      rw [Text.inBytes] at hfront hback
      simp [Text.inBytes, hfront, hback]

/-- Whatever text it is, the block can be read out of it, and it is the one found by positions. -/
theorem findInnermostByte?_eq (t : Text) (strict : Bool) :
    findInnermostByte? t strict = some ((findInnermost t strict).map (inBytes t)) := by
  unfold findInnermostByte? findInnermost
  split
  · rfl
  rw [Keyword.findAllBytes, List.getLast?_map, ← Keyword.findLast?]
  cases hopener : Keyword.ifOpen.findLast? t with
  | none => rfl
  | some opener =>
    obtain ⟨i, rfl, hat, -⟩ := Keyword.findLast?_eq_some_iff.1 hopener
    simp only [Option.map_some, closingByte?_opener hat rfl]
    cases hclose : Bracket.closing? t ((Keyword.ifOpen.spanAt i).stop - 1) with
    | none => rfl
    | some closing =>
      -- the bracket is one byte, so the region begins one offset further on
      obtain ⟨-, hget⟩ := Bracket.getElem?_of_closing? hclose
      obtain ⟨hlt, -⟩ := List.getElem?_eq_some_iff.1 hget
      simp only [Option.map_some, ← Text.byteOffset_succ hget (by decide),
        Keyword.findByte?_byteOffset (t := t) (i := closing + 1) hlt]
      cases hend : Keyword.endIf.find? t (closing + 1) with
      | none => rfl
      | some endIf =>
        obtain ⟨hle, hends⟩ : closing + 1 ≤ endIf.start ∧ Keyword.endIf.StandsAt t endIf.start := by
          obtain ⟨j, rfl, hle, hends, -⟩ := Keyword.find?_eq_some_iff.1 hend
          exact ⟨hle, hends⟩
        have hstop : endIf.start ≤ t.length := (Nat.le_add_right _ _).trans hends.add_size_le
        have hopeners : ∀ o ∈ (Keyword.elseIfOpen.findAll t).filter (·.start < endIf.start),
            ∃ j, o = Keyword.elseIfOpen.spanAt j ∧ Keyword.elseIfOpen.StandsAt t j :=
          fun o ho => (exists_of_mem_openers ho).imp fun j h => ⟨h.1, h.2.1⟩
        have hcut := cutAlternativesByte?_inBytes strict hopeners (Nat.succ_le_of_lt hlt) hstop
        simp only [Option.map_some, Text.inBytes, openers_inBytes hstop, hcut, Option.bind_eq_bind,
          Option.bind_some]
        cases hparts : cutAlternatives t strict endIf.start (closing + 1)
            ((Keyword.elseIfOpen.findAll t).filter (·.start < endIf.start)) with
        | error e => rfl
        | ok found =>
          obtain ⟨parts, alternatives⟩ := found
          obtain ⟨horder, -⟩ := (cut_of_cutAlternatives hparts (fun _ => exists_of_mem_openers) hle
            (.inl ⟨closing, rfl, hget⟩) hends.getElem?_start).inOrder
          -- every part of the cut lies within the text, so it can be split
          have hin : ∀ p ∈ parts, p.start ≤ t.length ∧ p.stop ≤ t.length := fun p hp => by
            obtain ⟨-, hp, hp'⟩ := horder.bounds hp
            exact ⟨hp.trans (hp'.trans hstop), hp'.trans hstop⟩
          simp only [Except.map, splitAtElseByte?_inBytes hin, Option.bind_some]
          rfl

/-- It can be asked of every position of a text whether it lies inside a block. -/
theorem isInsideByte?_byteOffset {i : Nat} (hi : i ≤ t.length) :
    isInsideByte? t (byteOffset t i) = some (isInside t i) := by
  rw [isInsideByte?, Text.cut?_take hi, isInside]
  rfl

end Block

end Stencil
