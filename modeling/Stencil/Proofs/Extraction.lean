import Stencil.Proofs.Spelling
/-!
# Extraction undoes writing

Looking for the innermost block gives back what a block that fits was written from:
`Fits.findInnermost_eq` tells the spans of all its parts, whatever stands before the block, if no
`$if[` stands behind it, and what a strict reader says. The alternatives are cut out one by one
(`cutAlternatives_cons`), what they leave is split at `$else` (`splitAtElse_otherwise`), and the
spans read as the texts that were written (`slice_of_mem_conditions`, `gather_of_mem_choices`).
-/

namespace Stencil.Block

variable {k : Keyword} {t lead rest suffix : Text} {n p : Nat} {strict : Bool} {a : Branch}
  {branches : List Branch} {otherwise : Option Text}

/-! ### Where a region is split -/

/-- In a list in order the first `$else` that stands in the span is the first one from its start
on that is no `$elseif`. -/
theorem firstElse?_eq_find? {within : Span} {es : List Span}
    (hsorted : es.Pairwise (·.start < ·.start)) (hsize : ∀ e ∈ es, e.stop = e.start + 5) :
    firstElse? t within es = (es.filter (within.start ≤ ·.start)).find? fun e =>
      e.stop ≤ within.stop && !goesOnWithIf (t.drop e.stop) := by
  induction es with
  | nil => rfl
  | cons e es ih =>
    obtain ⟨hfirst, hsorted⟩ := List.pairwise_cons.1 hsorted
    have hrest := ih hsorted fun e' he' => hsize e' (List.mem_cons_of_mem e he')
    rw [firstElse?]
    split
    · next hover =>
      -- behind an occurrence that ends too late every other one ends later still
      symm
      rw [List.find?_eq_none]
      intro e' he'
      have hlate : within.stop < e'.stop := by
        rcases List.mem_cons.1 (List.mem_filter.1 he').1 with rfl | hmem
        · exact hover
        · have h₁ := hfirst e' hmem
          have h₂ := hsize e' (List.mem_cons_of_mem e hmem)
          have h₃ := hsize e List.mem_cons_self
          omega
      rw [decide_eq_false (Nat.not_le_of_lt hlate), Bool.false_and]
      exact Bool.false_ne_true
    · next hin =>
      rw [List.filter_cons]
      by_cases hbefore : e.start < within.start
      · rw [decide_eq_false (Nat.not_le_of_lt hbefore)]
        simp [hbefore, hrest]
      · have hstart : within.start ≤ e.start := Nat.le_of_not_lt hbefore
        have hstop : e.stop ≤ within.stop := Nat.le_of_not_lt hin
        by_cases hif : goesOnWithIf (t.drop e.stop) = true
        · simp [hbefore, hif, hstart, hrest]
        · simp [hbefore, hif, hstart, hstop]

/-- The same read off the text from the start of the span on. -/
theorem findElse?_eq_find? (t : Text) (within : Span) :
    findElse? t within =
      (Keyword.otherwise.findAllFrom within.start (t.drop within.start)).find? fun e =>
        e.stop ≤ within.stop && !goesOnWithIf (t.drop e.stop) := by
  have hsize : ∀ e ∈ Keyword.otherwise.findAll t, e.stop = e.start + 5 := by
    intro e he
    obtain ⟨i, -, rfl⟩ := Keyword.mem_findAll.1 he
    rfl
  rw [findElse?, firstElse?_eq_find? Keyword.findAll_pairwise hsize, Keyword.findAll,
    Keyword.filter_findAllFrom (Nat.zero_le _), Nat.sub_zero]

/-- A text without keywords is not split. -/
theorem findElse?_eq_none {start stop : Nat} (ht : t.drop start = lead ++ rest)
    (hlead : Keyword.NoneIn lead) (hbreak : Keyword.Breaks rest)
    (hstop : stop ≤ start + lead.length) : findElse? t ⟨start, stop⟩ = none := by
  rw [findElse?_eq_find?, List.find?_eq_none]
  intro e he
  simp only [ht, hlead.findAllFrom_append hbreak] at he
  obtain ⟨i, -, rfl⟩ := Keyword.mem_findAllFrom.1 he
  have hlate : ¬ start + lead.length + i + 5 ≤ stop := by omega
  simp [hlate]

/-- An `$else` that is written is the one that is found, when no keyword stands in front of it. -/
theorem findElse?_eq_spanAt {start stop : Nat} {other : Text}
    (ht : t.drop start =
      lead ++ (elseText (some other) ++ (Keyword.endIf.text ++ suffix)))
    (hlead : Keyword.NoneIn lead) (hother : Keyword.NoneIn other ∧ goesOnWithIf other = false)
    (hstop : stop = start + lead.length + (elseText (some other)).length) :
    findElse? t ⟨start, stop⟩ = some (Keyword.otherwise.spanAt (start + lead.length)) := by
  have hotherwise : ∀ o ∈ some other, Keyword.NoneIn o ∧ goesOnWithIf o = false := by
    intro o ho
    obtain rfl : other = o := by simpa using ho
    exact hother
  have hbehind : t.drop (start + lead.length + 5) = other ++ (Keyword.endIf.text ++ suffix) := by
    rw [Nat.add_assoc, ← List.drop_drop, ht, List.drop_length_add_append]
    rfl
  have hlen := length_elseText other
  rw [findElse?_eq_find?, ht, hlead.findAllFrom_append (breaks_otherwise _ _),
    findAllFrom_otherwise hotherwise]
  have hif := goesOnWithIf_append other .endIf suffix hother.2
  have hin : start + lead.length + 5 ≤ stop := by omega
  simp [hbehind, hif, hin]

/-! ### Alternatives are cut out -/

/-- The condition of an alternative stands behind its opener. -/
theorem Branch.drop_condition (ht : t.drop n = a.text ++ rest) :
    t.drop (a.laid n).condition.start = a.condition ++ ']' :: (a.body ++ (a.ending ++ rest)) := by
  have hpos : (a.laid n).condition.start = n + Keyword.elseIfOpen.text.length := rfl
  rw [hpos, ← List.drop_drop, ht, Branch.text, List.append_assoc, List.drop_left]
  simp

/-- Its body stands behind the bracket. -/
theorem Branch.drop_body (ht : t.drop n = a.text ++ rest) :
    t.drop (a.laid n).body.start = a.body ++ (a.ending ++ rest) := by
  have hpos : (a.laid n).body.start = (a.laid n).condition.start + (a.condition ++ [']']).length := by
    rw [List.length_append]
    rfl
  have hsplit : a.condition ++ ']' :: (a.body ++ (a.ending ++ rest)) =
      (a.condition ++ [']']) ++ (a.body ++ (a.ending ++ rest)) := by
    simp
  rw [hpos, ← List.drop_drop, drop_condition ht, hsplit, List.drop_left]

/-- An alternative that is closed ends with `$endelseif`. -/
theorem Branch.ending_of_closed (h : a.closed = true) : a.ending = Keyword.endElseIf.text := by
  rw [ending, h, if_pos rfl]

/-- One that is not has no ending. -/
theorem Branch.ending_of_not_closed (h : a.closed = false) : a.ending = [] := by
  rw [ending, h, if_neg Bool.false_ne_true]

/-- Behind its body an alternative has its ending. -/
theorem Branch.stop_add_ending (a : Branch) (n : Nat) :
    (a.laid n).body.stop + a.ending.length = n + a.text.length := by
  rw [a.length_text]
  simp only [laid]
  omega

/-- The first `$endelseif` behind the condition of an alternative is its own, if others are far. -/
theorem find?_endElseIf {next : Nat} (h : a.Fits) (ht : t.drop n = a.text ++ rest)
    (hbreak : Keyword.Breaks rest) (hnext : n + a.text.length ≤ next)
    (hfar : ∀ e ∈ Keyword.endElseIf.findAllFrom (n + a.text.length) rest, next < e.stop) :
    (Keyword.endElseIf.find? t (a.laid n).body.start).filter (·.stop ≤ next) =
      if a.closed then some (Keyword.endElseIf.spanAt (a.laid n).body.stop) else none := by
  have hstop := a.stop_add_ending n
  have hfind : Keyword.endElseIf.find? t (a.laid n).body.start =
      (Keyword.endElseIf.findAllFrom (a.laid n).body.stop (a.ending ++ rest)).head? := by
    rw [Keyword.find?_eq_head?, Branch.drop_body ht,
      h.body.findAllFrom_append (breaks_ending a hbreak)]
    rfl
  cases hclosed : a.closed with
  | true =>
    have hending := Branch.ending_of_closed hclosed
    rw [hending, Keyword.findAllFrom_text_append .endElseIf .endElseIf _ (absurd · (by decide)),
      if_pos (.inl rfl)] at hfind
    rw [hfind, if_pos rfl, Option.filter_eq_some_iff]
    refine ⟨rfl, decide_eq_true ?_⟩
    rw [hending] at hstop
    exact hstop.le.trans hnext
  | false =>
    rw [Branch.ending_of_not_closed hclosed, List.length_nil, Nat.add_zero] at hstop
    rw [Branch.ending_of_not_closed hclosed, List.nil_append, hstop] at hfind
    -- a later `$endelseif` ends too far away
    rw [hfind, if_neg Bool.false_ne_true, Option.filter_eq_none_iff]
    intro e he
    have hlate := hfar e (List.mem_of_mem_head? he)
    rw [decide_eq_true_eq]
    exact Nat.not_le_of_lt hlate

/-- An alternative ends where it is written to end, if no later `$endelseif` ends it and, where it
has none of its own, what is looked for next begins there. A strict reader wants one. -/
theorem alternativeAt_branch {next : Nat} (h : a.Fits) (ht : t.drop n = a.text ++ rest)
    (hbreak : Keyword.Breaks rest) (hnext : n + a.text.length ≤ next)
    (hfar : ∀ e ∈ Keyword.endElseIf.findAllFrom (n + a.text.length) rest, next < e.stop)
    (helse : a.closed = false →
      ((findElse? t ⟨(a.laid n).body.start, next⟩).map (·.start)).getD next = n + a.text.length) :
    alternativeAt t strict (a.laid n).condition next =
      if strict && !a.closed then .error .missingEndElseIf
      else .ok (a.laid n, n + a.text.length) := by
  have hstop := a.stop_add_ending n
  have hfind : (Keyword.endElseIf.find? t ((a.laid n).condition.stop + 1)).filter (·.stop ≤ next) =
      if a.closed then some (Keyword.endElseIf.spanAt (a.laid n).body.stop) else none :=
    find?_endElseIf h ht hbreak hnext hfar
  rw [alternativeAt, hfind]
  -- a closed alternative is over with its `$endelseif`, another one where what is next begins
  cases hclosed : a.closed with
  | true =>
    rw [Branch.ending_of_closed hclosed] at hstop
    rw [Bool.not_true, Bool.and_false, ← hstop]
    rfl
  | false =>
    rw [Branch.ending_of_not_closed hclosed, List.length_nil, Nat.add_zero] at hstop
    cases strict with
    | true => rfl
    | false =>
      have hend : ((findElse? t ⟨(a.laid n).condition.stop + 1, next⟩).map (·.start)).getD next =
          (a.laid n).body.stop := (helse hclosed).trans hstop.symm
      rw [← hstop]
      simp only [Bool.false_eq_true, if_false, Bool.not_false, Bool.and_true, hend]
      rfl

/-- Where an alternative is followed by others or by the rest of the region, it ends there. -/
theorem alternativeAt_opener {later : List Branch} {stop : Nat} (h : a.Fits)
    (hotherwise : ∀ other ∈ otherwise, Keyword.NoneIn other ∧ goesOnWithIf other = false)
    (ht : t.drop n = a.text ++ (later.flatMap Branch.text ++
      (elseText otherwise ++ (Keyword.endIf.text ++ suffix))))
    (hstop : stop = n + a.text.length + (later.flatMap Branch.text).length +
      (elseText otherwise).length) :
    alternativeAt t strict (a.laid n).condition
      ((((openersAt (n + a.text.length) later).find?
        ((a.laid n).condition.stop < ·.start)).map (·.start)).getD stop) =
      if strict && !a.closed then .error .missingEndElseIf
      else .ok (a.laid n, n + a.text.length) := by
  have hlen := a.length_text
  have hbreak := breaks_branches later (breaks_otherwise otherwise suffix)
  have hbody := Branch.drop_body ht
  have hstart : (a.laid n).body.start = n + 8 + a.condition.length + 1 := rfl
  have hcondition : (a.laid n).condition.stop = n + 8 + a.condition.length := rfl
  cases later with
  | nil =>
    -- the last alternative: what is looked for next is the end of the region
    simp only [List.flatMap_nil, List.length_nil, List.nil_append] at ht hstop hbreak hbody
    simp only [openersAt, List.find?_nil, Option.map_none, Option.getD_none]
    refine alternativeAt_branch h ht hbreak (by omega) ?_ fun hclosed => ?_
    · intro e he
      rw [findAllFrom_otherwise hotherwise] at he
      obtain ⟨i, -, rfl⟩ := Keyword.mem_findAllFrom.1 (by simpa using he)
      rw [Keyword.spanAt_stop, Keyword.size_endElseIf]
      omega
    · have hending := Branch.ending_of_not_closed hclosed
      rw [hending, List.length_nil] at hlen
      rw [hending, List.nil_append] at hbody
      cases otherwise with
      | none =>
        have hnone : (elseText none).length = 0 := rfl
        have hend : t.drop (a.laid n).body.start = a.body ++ (Keyword.endIf.text ++ suffix) := hbody
        -- without `$else` it ends with the region
        rw [findElse?_eq_none hend h.body (Keyword.breaks_text_append _ _) (by omega),
          Option.map_none, Option.getD_none]
        omega
      | some other =>
        -- it ends where `$else` begins
        rw [findElse?_eq_spanAt hbody h.body (hotherwise other rfl) (by omega), Option.map_some,
          Option.getD_some, Keyword.spanAt_start]
        omega
  | cons b more =>
    -- the next `$elseif[` begins right behind this alternative
    have hfirst : ((openersAt (n + a.text.length) (b :: more)).find?
        ((a.laid n).condition.stop < ·.start)).map (·.start) = some (n + a.text.length) := by
      have hbehind : (a.laid n).condition.stop < n + a.text.length := by omega
      rw [openersAt, List.find?_cons, Keyword.spanAt_start, decide_eq_true hbehind]
      rfl
    rw [hfirst, Option.getD_some]
    refine alternativeAt_branch h ht hbreak le_rfl ?_ fun hclosed => ?_
    · intro e he
      obtain ⟨i, -, rfl⟩ := Keyword.mem_findAllFrom.1 he
      rw [Keyword.spanAt_stop, Keyword.size_endElseIf]
      omega
    · have hending := Branch.ending_of_not_closed hclosed
      rw [hending, List.length_nil] at hlen
      rw [hending, List.nil_append] at hbody
      rw [findElse?_eq_none hbody h.body hbreak (by omega)]
      rfl

/-- One alternative is cut out, and what stands before it is left. -/
theorem cutAlternatives_cons {later : List Branch} {stop : Nat} (h : a.Fits)
    (hotherwise : ∀ other ∈ otherwise, Keyword.NoneIn other ∧ goesOnWithIf other = false)
    (ht : t.drop n = a.text ++ (later.flatMap Branch.text ++
      (elseText otherwise ++ (Keyword.endIf.text ++ suffix))))
    (hstop : stop = n + a.text.length + (later.flatMap Branch.text).length +
      (elseText otherwise).length) (hp : p ≤ n) :
    cutAlternatives t strict stop p (openersAt n (a :: later)) =
      if strict && !a.closed then .error .missingEndElseIf
      else (cutAlternatives t strict stop (n + a.text.length)
        (openersAt (n + a.text.length) later)).map fun (parts, alternatives) =>
          (part ⟨p, n⟩ ++ parts, a.laid n :: alternatives) := by
  have hlen := a.length_text
  have hbefore : ¬ n < p := Nat.not_lt_of_le hp
  -- the condition ends at its bracket, which is in the region
  have hfound : (Bracket.closing? t (n + 8 - 1)).filter (· < stop) =
      some (n + 8 + a.condition.length) := by
    have hopen : t.drop (n + 7) = '[' :: (a.condition ++ ']' :: (a.body ++ (a.ending ++
        (later.flatMap Branch.text ++ (elseText otherwise ++ (Keyword.endIf.text ++ suffix)))))) := by
      rw [← List.drop_drop, ht, Branch.text]
      simp [Keyword.text, Keyword.letters]
    rw [show n + 8 - 1 = n + 7 from rfl, h.balanced.closing? hopen, Option.filter_eq_some_iff]
    exact ⟨rfl, decide_eq_true (by omega)⟩
  have halternative : alternativeAt t strict ⟨n + 8, n + 8 + a.condition.length⟩
      ((((openersAt (n + a.text.length) later).find?
        (n + 8 + a.condition.length < ·.start)).map (·.start)).getD stop) =
      if strict && !a.closed then .error .missingEndElseIf
      else .ok (a.laid n, n + a.text.length) := alternativeAt_opener h hotherwise ht hstop
  rw [openersAt, cutAlternatives, Keyword.spanAt_start, if_neg hbefore, Keyword.spanAt_stop,
    Keyword.size_elseIfOpen, hfound]
  simp only [halternative]
  cases hmissing : (strict && !a.closed) with
  | true => rfl
  | false =>
    simp only [Bool.false_eq_true, if_false]
    cases cutAlternatives t strict stop (n + a.text.length)
      (openersAt (n + a.text.length) later) with
    | error => rfl
    | ok => rfl

/-- Whether a strict reader misses the `$endelseif` of an alternative. -/
def missesEnding (strict : Bool) (branches : List Branch) : Bool :=
  strict && branches.any (!·.closed)

/-- Without alternatives no ending is missing. -/
theorem missesEnding_nil (strict : Bool) : missesEnding strict [] = false := Bool.and_false strict

/-- An ending is missing in the first alternative or in a later one. -/
theorem missesEnding_cons (strict : Bool) (a : Branch) (later : List Branch) :
    missesEnding strict (a :: later) = (strict && !a.closed || missesEnding strict later) := by
  rw [missesEnding, List.any_cons, Bool.and_or_distrib_left]
  rfl

/-- Two readings that fail alike, one after the other. -/
theorem ite_error_map {ε α β : Type} (p q : Bool) (e : ε) (x : α) (f : α → β) :
    (if p then .error e else (if q then .error e else .ok x : Except ε α).map f) =
      if p || q then .error e else .ok (f x) := by
  cases p <;> cases q <;> rfl

/-- All alternatives are cut out, and what stands behind them is left. -/
theorem cutAlternatives_branches {stop : Nat} (h : ∀ a ∈ branches, a.Fits)
    (hotherwise : ∀ other ∈ otherwise, Keyword.NoneIn other ∧ goesOnWithIf other = false)
    (ht : t.drop n = branches.flatMap Branch.text ++
      (elseText otherwise ++ (Keyword.endIf.text ++ suffix)))
    (hstop : stop = n + (branches.flatMap Branch.text).length + (elseText otherwise).length) :
    cutAlternatives t strict stop n (openersAt n branches) =
      if missesEnding strict branches then .error .missingEndElseIf
      else .ok (part ⟨n + (branches.flatMap Branch.text).length, stop⟩,
        alternativesAt n branches) := by
  induction branches generalizing n with
  | nil =>
    rw [missesEnding_nil]
    rfl
  | cons a later ih =>
    rw [List.flatMap_cons, List.length_append] at hstop
    rw [List.flatMap_cons, List.append_assoc] at ht
    -- what stands behind the first alternative is the text of the others
    have hrest : t.drop (n + a.text.length) = later.flatMap Branch.text ++
        (elseText otherwise ++ (Keyword.endIf.text ++ suffix)) := by
      rw [← List.drop_drop, ht, List.drop_left]
    rw [cutAlternatives_cons (h a List.mem_cons_self) hotherwise ht (by omega) le_rfl,
      ih (fun b hb => h b (List.mem_cons_of_mem a hb)) hrest (by omega), missesEnding_cons,
      ite_error_map, part_self, List.flatMap_cons, List.length_append, ← Nat.add_assoc]
    rfl

/-- Openers in front of the position change nothing. -/
theorem cutAlternatives_filter {stop : Nat} {openers : List Span}
    (hsorted : openers.Pairwise (·.start < ·.start)) :
    cutAlternatives t strict stop p (openers.filter (p ≤ ·.start)) =
      cutAlternatives t strict stop p openers := by
  induction openers with
  | nil => rfl
  | cons o later ih =>
    obtain ⟨hfirst, hsorted⟩ := List.pairwise_cons.1 hsorted
    by_cases hbefore : o.start < p
    · rw [List.filter_cons, decide_eq_false (Nat.not_le_of_lt hbefore), if_neg Bool.false_ne_true,
        ih hsorted, cutAlternatives, if_pos hbefore]
    -- every later opener stands behind the position as well
    · have hall : (o :: later).filter (p ≤ ·.start) = o :: later := by
        refine List.filter_eq_self.2 fun o' ho' => decide_eq_true ?_
        rcases List.mem_cons.1 ho' with rfl | hmem
        · exact Nat.le_of_not_lt hbefore
        · have := hfirst o' hmem
          omega
      rw [hall]

/-- Every opener stands in the text of the alternatives. -/
theorem mem_openersAt {o : Span} (h : o ∈ openersAt n branches) :
    o.start < n + (branches.flatMap Branch.text).length := by
  induction branches generalizing n with
  | nil => cases h
  | cons a later ih =>
    have hlen := a.length_text
    rw [List.flatMap_cons, List.length_append]
    rcases List.mem_cons.1 h with rfl | h
    · rw [Keyword.spanAt_start]
      omega
    · have := ih h
      omega

/-! ### What remains is split -/

/-- A part without `$else` stays in front. -/
theorem splitAtElse_part_of_none {s : Span} (h : findElse? t s = none) (more : List Span) :
    splitAtElse t (part s ++ more) =
      (part s ++ (splitAtElse t more).1, (splitAtElse t more).2) := by
  rw [part]
  split
  · rfl
  · rw [List.singleton_append, splitAtElse, h]
    rfl

/-- A part is cut around its `$else`. -/
theorem splitAtElse_part_of_some {s e : Span} (h : findElse? t s = some e) :
    splitAtElse t (part s) = (part ⟨s.start, e.start⟩, part ⟨e.stop, s.stop⟩) := by
  obtain ⟨i, rfl, -, hstart, hstop⟩ := findElse?_eq_some h
  have hne : s.isEmpty = false := decide_eq_false (by omega)
  rw [part, hne, if_neg Bool.false_ne_true, splitAtElse, h]
  simp

/-- A text without keywords, and `$else` with what is behind it. -/
theorem splitAtElse_otherwise {stop : Nat}
    (hotherwise : ∀ other ∈ otherwise, Keyword.NoneIn other ∧ goesOnWithIf other = false)
    (hlead : Keyword.NoneIn lead)
    (ht : t.drop p = lead ++ (elseText otherwise ++ (Keyword.endIf.text ++ suffix)))
    (hn : n = p + lead.length) (hstop : stop = n + (elseText otherwise).length) :
    splitAtElse t (part ⟨p, stop⟩) =
      (part ⟨p, n⟩, if otherwise.isSome then part ⟨n + 5, stop⟩ else []) := by
  cases otherwise with
  | none =>
    have hnone : (elseText none).length = 0 := rfl
    have hfind : findElse? t ⟨p, stop⟩ = none :=
      findElse?_eq_none ht hlead (Keyword.breaks_text_append _ _) (by omega)
    obtain rfl : stop = n := by omega
    have hsplit := splitAtElse_part_of_none hfind []
    simpa [splitAtElse] using hsplit
  | some other =>
    -- the text is split at the `$else` right behind `lead`
    have hstop' : stop = p + lead.length + (elseText (some other)).length := by rw [hstop, hn]
    have hfind := findElse?_eq_spanAt ht hlead (hotherwise other rfl) hstop'
    rw [splitAtElse_part_of_some hfind, ← hn]
    rfl

/-- The alternatives are cut out of a region that a text without keywords begins, and what remains
is split into that text and what is behind `$else`. -/
theorem cutAlternatives_region {last stop : Nat} (h : ∀ a ∈ branches, a.Fits)
    (hotherwise : ∀ other ∈ otherwise, Keyword.NoneIn other ∧ goesOnWithIf other = false)
    (hlead : Keyword.NoneIn lead)
    (ht : t.drop p = lead ++ (branches.flatMap Branch.text ++
      (elseText otherwise ++ (Keyword.endIf.text ++ suffix))))
    (hn : n = p + lead.length) (hlast : last = n + (branches.flatMap Branch.text).length)
    (hstop : stop = last + (elseText otherwise).length) :
    ∃ parts, cutAlternatives t strict stop p (openersAt n branches) =
        (if missesEnding strict branches then .error .missingEndElseIf
          else .ok (parts, alternativesAt n branches)) ∧
      splitAtElse t parts =
        (part ⟨p, n⟩, if otherwise.isSome then part ⟨last + 5, stop⟩ else []) := by
  cases branches with
  | nil =>
    obtain rfl : last = n := hlast
    refine ⟨_, ?_, splitAtElse_otherwise hotherwise hlead ht hn hstop⟩
    rw [missesEnding_nil]
    rfl
  | cons a later =>
    have hbreak := breaks_otherwise otherwise suffix
    have hbranches : t.drop n = (a :: later).flatMap Branch.text ++
        (elseText otherwise ++ (Keyword.endIf.text ++ suffix)) := by
      rw [hn, ← List.drop_drop, ht, List.drop_left]
    have hrest : t.drop last = elseText otherwise ++ (Keyword.endIf.text ++ suffix) := by
      rw [hlast, ← List.drop_drop, hbranches, List.drop_left]
    -- no `$else` stands in front of the first alternative, so what is before it stays whole
    have hlead' : findElse? t ⟨p, n⟩ = none :=
      findElse?_eq_none ht hlead (breaks_branches _ hbreak) hn.le
    rw [List.flatMap_cons, List.append_assoc] at hbranches
    rw [List.flatMap_cons, List.length_append] at hlast
    have hlater : t.drop (n + a.text.length) = later.flatMap Branch.text ++
        (elseText otherwise ++ (Keyword.endIf.text ++ suffix)) := by
      rw [← List.drop_drop, hbranches, List.drop_left]
    have hstop' : stop = n + a.text.length + (later.flatMap Branch.text).length +
        (elseText otherwise).length := by omega
    refine ⟨part ⟨p, n⟩ ++ part ⟨n + a.text.length + (later.flatMap Branch.text).length, stop⟩,
      ?_, ?_⟩
    · rw [cutAlternatives_cons (h a List.mem_cons_self) hotherwise hbranches hstop' (by omega),
        cutAlternatives_branches (fun b hb => h b (List.mem_cons_of_mem a hb)) hotherwise hlater
          hstop', missesEnding_cons, ite_error_map]
      rfl
    · -- behind the last alternative nothing is left before `$else`
      have hrest' : t.drop last = [] ++ (elseText otherwise ++ (Keyword.endIf.text ++ suffix)) :=
        hrest
      have hsplit := splitAtElse_otherwise hotherwise Keyword.noneIn_nil hrest' rfl hstop
      have hsum : n + a.text.length + (later.flatMap Branch.text).length = last := by omega
      rw [splitAtElse_part_of_none hlead', hsum, hsplit, List.length_nil, Nat.add_zero, part_self,
        List.append_nil]

namespace Spelling

/-- The spans of a block that is written from a position on. -/
def laid (n : Nat) (b : Spelling) : Block :=
  let body := n + 4 + b.condition.length + 1
  let first := body + b.body.length
  let last := first + (b.branches.flatMap Branch.text).length
  let stop := last + (elseText b.otherwise).length
  ⟨⟨n, stop + 6⟩, ⟨n + 4, n + 4 + b.condition.length⟩, part ⟨body, first⟩,
    alternativesAt first b.branches, if b.otherwise.isSome then part ⟨last + 5, stop⟩ else []⟩

variable {b : Spelling}

/-- The text of a block in a row, with what stands behind. -/
theorem text_append (b : Spelling) (suffix : Text) :
    b.text ++ suffix =
      Keyword.ifOpen.text ++ (b.condition ++ ']' :: (b.body ++
        (b.branches.flatMap Branch.text ++
          (elseText b.otherwise ++ (Keyword.endIf.text ++ suffix))))) := by
  simp [text, tail]

/-- Behind its condition a block has one `$endif` and the `$elseif[` of its alternatives. -/
theorem Fits.findAllFrom_body (h : b.Fits) (hk : k ≠ .otherwise ∧ k ≠ .endElseIf) (n : Nat)
    (suffix : Text) :
    k.findAllFrom (n + 4 + b.condition.length + 1) (b.body ++
        (b.branches.flatMap Branch.text ++
          (elseText b.otherwise ++ (Keyword.endIf.text ++ suffix)))) =
      (if k = .elseIfOpen then
        openersAt (n + 4 + b.condition.length + 1 + b.body.length) b.branches else []) ++
        ((if k = .endIf then [k.spanAt ((b.laid n).span.stop - 6)] else []) ++
          k.findAllFrom (b.laid n).span.stop suffix) := by
  have hrest := breaks_otherwise b.otherwise suffix
  have hno : ¬ (k = .otherwise ∧ b.otherwise.isSome = true) := fun hboth => hk.1 hboth.1
  rw [h.body.findAllFrom_append (breaks_branches _ hrest),
    findAllFrom_branches h.branches hrest hk, findAllFrom_otherwise h.otherwise, if_neg hno]
  rfl

/-- Behind the condition stand the body and the rest. -/
theorem drop_body (h : t.drop n = b.text ++ suffix) :
    t.drop (n + 4 + b.condition.length + 1) = b.body ++
      (b.branches.flatMap Branch.text ++
        (elseText b.otherwise ++ (Keyword.endIf.text ++ suffix))) := by
  have hopen : Keyword.ifOpen.text.length = 4 := rfl
  have hpos : n + 4 + b.condition.length + 1 =
      n + (Keyword.ifOpen.text ++ (b.condition ++ [']'])).length := by
    simp only [List.length_append, List.length_singleton, hopen]
    omega
  have hsplit : ∀ more : Text, Keyword.ifOpen.text ++ (b.condition ++ ']' :: more) =
      (Keyword.ifOpen.text ++ (b.condition ++ [']'])) ++ more := by
    intro more
    simp
  rw [hpos, ← List.drop_drop, h, b.text_append, hsplit (b.body ++ _), List.drop_left]

/-- What remains of the region is the body, and what stands behind `$else`. -/
theorem Fits.cut (h : b.Fits) (strict : Bool) (ht : t.drop n = b.text ++ suffix) :
    ∃ parts, cutAlternatives t strict ((b.laid n).span.stop - 6) (n + 4 + b.condition.length + 1)
        (openersAt (n + 4 + b.condition.length + 1 + b.body.length) b.branches) =
        (if missesEnding strict b.branches then .error .missingEndElseIf
          else .ok (parts, (b.laid n).alternatives)) ∧
      splitAtElse t parts = ((b.laid n).body, (b.laid n).otherwise) :=
  cutAlternatives_region h.branches h.otherwise h.body (drop_body ht) rfl rfl rfl

/-- A block that is written behind the last `$if[` is the innermost one. A strict reader finds
fault with it where an alternative is not ended. -/
theorem Fits.findInnermost_eq (h : b.Fits) (ht : t.drop n = b.text ++ suffix)
    (hlast : ∀ i, n < i → ¬ Keyword.ifOpen.StandsAt t i) :
    Block.findInnermost t strict =
      if missesEnding strict b.branches then .error .missingEndElseIf else .ok (b.laid n) := by
  have hbody := drop_body ht
  have hopener : Keyword.ifOpen.StandsAt t n :=
    Keyword.standsAt_ifOpen (ht.trans (b.text_append suffix))
  have hfindLast : Keyword.ifOpen.findLast? t = some (Keyword.ifOpen.spanAt n) :=
    Keyword.findLast?_eq_some_iff.2 ⟨n, rfl, hopener, hlast⟩
  -- brackets balance in the condition, so the `]` behind it closes its `[`
  have hclosing : Bracket.closing? t (n + 3) = some (n + 4 + b.condition.length) := by
    have hopen : t.drop (n + 3) = '[' :: (b.condition ++ ']' :: (b.body ++
        (b.branches.flatMap Branch.text ++
          (elseText b.otherwise ++ (Keyword.endIf.text ++ suffix))))) := by
      rw [← List.drop_drop, ht, b.text_append]
      simp [Keyword.text, Keyword.letters]
    exact h.balanced.closing? hopen
  -- no keyword of the body or of an alternative is a `$endif`, so the first one is that of the block
  have hend : Keyword.endIf.find? t (n + 4 + b.condition.length + 1) =
      some (Keyword.endIf.spanAt ((b.laid n).span.stop - 6)) := by
    rw [Keyword.find?_eq_head?, hbody, h.findAllFrom_body (by decide)]
    rfl
  have hpresent : Keyword.endIf.isPresent t = true := by
    obtain ⟨i, -, -, hi, -⟩ := Keyword.find?_eq_some_iff.1 hend
    exact Keyword.isPresent_iff.2 ⟨i, hi⟩
  -- the occurrences of `$elseif[` in front of the region are passed over
  have hopeners : ((Keyword.elseIfOpen.findAll t).filter
      (·.start < (b.laid n).span.stop - 6)).filter (n + 4 + b.condition.length + 1 ≤ ·.start) =
      openersAt (n + 4 + b.condition.length + 1 + b.body.length) b.branches := by
    rw [List.filter_comm, Keyword.findAll, Keyword.filter_findAllFrom (Nat.zero_le _),
      Nat.sub_zero, hbody, h.findAllFrom_body (by decide), if_pos rfl, List.filter_append,
      List.filter_eq_self.2, List.filter_eq_nil_iff.2, List.append_nil]
    · intro o ho
      obtain ⟨i, -, rfl⟩ := Keyword.mem_findAllFrom.1 (by simpa using ho)
      rw [Keyword.spanAt_start, decide_eq_true_eq]
      omega
    · intro o ho
      have hin := mem_openersAt ho
      exact decide_eq_true (hin.trans_le (Nat.le_add_right _ _))
  obtain ⟨parts, hcut, hsplit⟩ := h.cut strict ht
  rw [← hopeners, cutAlternatives_filter
    (Keyword.findAll_pairwise.sublist List.filter_sublist)] at hcut
  -- the region ends where the `$endif` begins
  have hcut' : cutAlternatives t strict (Keyword.endIf.spanAt ((b.laid n).span.stop - 6)).start
      (n + 4 + b.condition.length + 1) ((Keyword.elseIfOpen.findAll t).filter
        (·.start < (Keyword.endIf.spanAt ((b.laid n).span.stop - 6)).start)) =
      if missesEnding strict b.branches then .error .missingEndElseIf
      else .ok (parts, (b.laid n).alternatives) := hcut
  have hclosing' : Bracket.closing? t ((Keyword.ifOpen.spanAt n).stop - 1) =
      some (n + 4 + b.condition.length) := hclosing
  unfold Block.findInnermost
  simp only [hpresent, hfindLast, hclosing', hend, hcut', Bool.not_true, Bool.false_eq_true,
    if_false]
  cases missesEnding strict b.branches with
  | true => rfl
  | false =>
    simp only [Bool.false_eq_true, if_false, hsplit]
    rfl

/-- So the block is found, when no ending is missing where one is needed. -/
theorem Fits.findInnermost (h : b.Fits)
    (hstrict : strict = true → ∀ a ∈ b.branches, a.closed = true)
    (ht : t.drop n = b.text ++ suffix) (hlast : ∀ i, n < i → ¬ Keyword.ifOpen.StandsAt t i) :
    findInnermost t strict = .ok (b.laid n) := by
  have hended : missesEnding strict b.branches = false := by
    cases strict with
    | false => rfl
    | true => simpa [missesEnding] using hstrict rfl
  rw [h.findInnermost_eq ht hlast, hended, if_neg Bool.false_ne_true]

/-- A `$if[` begins the block or stands in front of it, if there is none behind it. -/
theorem Fits.le_of_ifOpen (h : b.Fits) (hsuffix : ∀ i, ¬ Keyword.ifOpen.StandsAt suffix i) {i : Nat}
    (hi : Keyword.ifOpen.StandsAt (lead ++ (b.text ++ suffix)) i) : i ≤ lead.length := by
  by_contra hbehind
  obtain ⟨m, rfl⟩ : ∃ m, i = lead.length + (m + 1) := ⟨i - lead.length - 1, by omega⟩
  -- all that is found in the block and behind it is the `$if[` that begins it
  have hnone : ∀ n, Keyword.ifOpen.findAllFrom n suffix = [] :=
    fun _ => Keyword.findAllFrom_eq_nil_iff.2 hsuffix
  have hall : Keyword.ifOpen.findAllFrom 0 (b.text ++ suffix) = [Keyword.ifOpen.spanAt 0] := by
    rw [b.text_append, Keyword.findAllFrom_text_append .ifOpen .ifOpen 0 nofun,
      Keyword.size_ifOpen, h.condition.findAllFrom_append (Keyword.breaks_closing _),
      Keyword.findAllFrom_closing, h.findAllFrom_body (by decide), hnone]
    rfl
  rw [Keyword.standsAt_append_right] at hi
  have hmem : Keyword.ifOpen.spanAt (0 + (m + 1)) ∈
      Keyword.ifOpen.findAllFrom 0 (b.text ++ suffix) :=
    Keyword.mem_findAllFrom.2 ⟨m + 1, hi, rfl⟩
  rw [hall, List.mem_singleton] at hmem
  have hstart : 0 + (m + 1) = 0 := congrArg Span.start hmem
  omega

/-! ### The texts are read back -/

/-- The alternatives read as they are written. -/
theorem map_slice_alternativesAt (ht : t.drop n = branches.flatMap Branch.text ++ rest) :
    (alternativesAt n branches).map (fun x => (t.slice x.condition, t.slice x.body)) =
      branches.map fun a => (a.condition, a.body) := by
  induction branches generalizing n with
  | nil => rfl
  | cons a later ih =>
    rw [List.flatMap_cons, List.append_assoc] at ht
    have hlater := ih (n := n + a.text.length) (by rw [← List.drop_drop, ht, List.drop_left])
    have hcondition : t.slice (a.laid n).condition = a.condition :=
      Text.slice_of_drop (Branch.drop_condition ht)
    have hbody : t.slice (a.laid n).body = a.body := Text.slice_of_drop (Branch.drop_body ht)
    rw [alternativesAt, List.map_cons, List.map_cons, hlater, hcondition, hbody]

/-- An alternative of the laid block reads as one that was written. -/
theorem mem_alternativesAt {x : Alternative} (hx : x ∈ alternativesAt n branches)
    (ht : t.drop n = branches.flatMap Branch.text ++ rest) :
    ∃ a ∈ branches, t.slice x.condition = a.condition ∧ t.slice x.body = a.body := by
  have hslices := List.mem_map_of_mem (f := fun x => (t.slice x.condition, t.slice x.body)) hx
  rw [map_slice_alternativesAt ht] at hslices
  obtain ⟨a, ha, heq⟩ := List.mem_map.1 hslices
  exact ⟨a, ha, (congrArg Prod.fst heq).symm, (congrArg Prod.snd heq).symm⟩

/-- Behind the body stand the alternatives and the rest. -/
theorem drop_branches (ht : t.drop n = b.text ++ suffix) :
    t.drop (n + 4 + b.condition.length + 1 + b.body.length) =
      b.branches.flatMap Branch.text ++
        (elseText b.otherwise ++ (Keyword.endIf.text ++ suffix)) := by
  rw [← List.drop_drop, drop_body ht, List.drop_left]

/-- Behind the block stands what was written there. -/
theorem drop_stop (ht : t.drop n = b.text ++ suffix) : t.drop (b.laid n).span.stop = suffix := by
  have hstop : (b.laid n).span.stop = n + 4 + b.condition.length + 1 + b.body.length +
      (b.branches.flatMap Branch.text).length + (elseText b.otherwise).length +
        Keyword.endIf.text.length := rfl
  rw [hstop, ← List.drop_drop, ← List.drop_drop, ← List.drop_drop, drop_branches ht, List.drop_left,
    List.drop_left, List.drop_left]

/-- The condition of the block reads as it is written. -/
theorem slice_condition (ht : t.drop n = b.text ++ suffix) :
    t.slice (b.laid n).condition = b.condition := by
  have hopen : n + 4 = n + Keyword.ifOpen.text.length := rfl
  have hcondition : t.drop (n + 4) = b.condition ++ ']' :: (b.body ++
      (b.branches.flatMap Branch.text ++
        (elseText b.otherwise ++ (Keyword.endIf.text ++ suffix)))) := by
    rw [hopen, ← List.drop_drop, ht, b.text_append, List.drop_left]
  exact Text.slice_of_drop hcondition

/-- The conditions of the block read as they are written. -/
theorem slice_of_mem_conditions {s : Span} (hs : s ∈ (b.laid n).conditions)
    (ht : t.drop n = b.text ++ suffix) :
    t.slice s = b.condition ∨ ∃ a ∈ b.branches, t.slice s = a.condition := by
  rcases List.mem_cons.1 hs with rfl | hs
  · exact .inl (slice_condition ht)
  · obtain ⟨x, hx, rfl⟩ := List.mem_map.1 hs
    obtain ⟨a, ha, hcondition, -⟩ := mem_alternativesAt hx (drop_branches ht)
    exact .inr ⟨a, ha, hcondition⟩

/-- The body of the block reads as it is written. -/
theorem gather_body (ht : t.drop n = b.text ++ suffix) :
    Span.gather (b.laid n).body t = b.body :=
  gather_part ⟨_, _⟩ t ▸ Text.slice_of_drop (drop_body ht)

/-- What stands behind `$else` reads as it is written; without `$else` there is nothing. -/
theorem gather_otherwise (ht : t.drop n = b.text ++ suffix) :
    Span.gather (b.laid n).otherwise t = b.otherwise.getD [] := by
  have hbranches := drop_branches ht
  obtain ⟨condition, body, branches, otherwise⟩ := b
  cases otherwise with
  | none => rfl
  | some other =>
    have hother : t.drop (n + 4 + condition.length + 1 + body.length +
        (branches.flatMap Branch.text).length + 5) = other ++ (Keyword.endIf.text ++ suffix) := by
      have helse : Keyword.otherwise.text.length = 5 := rfl
      rw [← helse, ← List.drop_drop, ← List.drop_drop, hbranches, List.drop_left, elseText,
        List.append_assoc, List.drop_left]
    -- what is read are the characters between `$else` and `$endif`
    have hslice := Text.slice_of_drop hother
    have hstop : n + 4 + condition.length + 1 + body.length +
        (branches.flatMap Branch.text).length + (elseText (some other)).length =
        n + 4 + condition.length + 1 + body.length +
          (branches.flatMap Branch.text).length + 5 + other.length := by
      rw [length_elseText]
      omega
    have hotherwise := gather_part ⟨_, _⟩ t ▸ hslice
    rw [← hstop] at hotherwise
    exact hotherwise

/-- Whatever is chosen of the block is a body as it is written, or nothing. -/
theorem gather_of_mem_choices {chosen : List Span} (hchosen : chosen ∈ (b.laid n).choices)
    (ht : t.drop n = b.text ++ suffix) :
    Span.gather chosen t = b.body ∨ Span.gather chosen t = b.otherwise.getD [] ∨
      ∃ a ∈ b.branches, Span.gather chosen t = a.body := by
  simp only [choices, List.mem_cons, List.mem_map] at hchosen
  rcases hchosen with rfl | rfl | ⟨x, hx, rfl⟩
  · exact .inl (gather_body ht)
  · exact .inr (.inl (gather_otherwise ht))
  · obtain ⟨a, ha, -, hbody⟩ := mem_alternativesAt hx (drop_branches ht)
    refine .inr (.inr ⟨a, ha, ?_⟩)
    rw [Span.gather_cons, Span.gather_nil, List.append_nil]
    exact hbody

end Spelling

end Stencil.Block
