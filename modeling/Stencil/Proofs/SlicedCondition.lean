import Stencil.Condition.Parse
import Stencil.Proofs.Slices
import Stencil.Proofs.Unescape
/-!
# Conditions by slices

A condition is read with operations that are not defined on every operand: slices at byte offsets, a
difference of counts, and a choice among relations with a case that is taken for granted never to
occur. Here each of them has no result where it is not defined, and a loop whose rounds do not suffice
has none either. There always is a result, and it is the one that is found by positions
(`slicedEvaluate_eq`): codes and tokens are cut where characters end, closing brackets are counted
only where there are fewer of them, and equality is decided before the relations.
-/

namespace Stencil

/-! ### Codes -/

namespace Text

/-- The reading of codes from `#` to `#`, in no more rounds than are given. -/
def slicedUnescapeIn : Nat → Text → Option Text
  | 0, _ => none
  | rounds + 1, t =>
    match (t.findIdx? (· = '#')).map (byteOffset t) with
    | none => some t
    | some b => do
      let before ← cut? t ⟨0, b⟩
      let tail ← cut? t ⟨b, byteLength t⟩
      match Reserved.ofCode? tail with
      | some r =>
        let rest ← cut? tail ⟨byteLength r.code, byteLength tail⟩
        let read ← slicedUnescapeIn rounds rest
        return before ++ r.char :: read
      | none =>
        let rest ← cut? tail ⟨1, byteLength tail⟩
        let read ← slicedUnescapeIn rounds rest
        return before ++ '#' :: read

/-- `unescape`, if the slices are there. -/
def slicedUnescape (t : Text) : Option Text := slicedUnescapeIn (t.length + 1) t

/-- What stands behind a part of a text can be cut out. -/
theorem cut?_append (t u : Text) : cut? (t ++ u) ⟨byteLength t, byteLength (t ++ u)⟩ = some u := by
  have hcut := cut?_drop (t := t ++ u) (i := t.length) (by simp)
  rwa [byteOffset_append_length, List.drop_left] at hcut

/-- Text without a `#` has no codes, so it is left as it is. -/
theorem unescape_append_of_not_mem {t : Text} (h : '#' ∉ t) (u : Text) :
    unescape (t ++ u) = t ++ unescape u := by
  induction t with
  | nil => rfl
  | cons c t ih =>
    rw [List.mem_cons, not_or] at h
    rw [List.cons_append, unescape_cons (ofCode?_cons_of_ne _ (Ne.symm h.1)), ih h.2,
      List.cons_append]

/-- The first `#` of a text splits it. -/
theorem exists_of_findIdx?_hash {t : Text} {i : Nat} (h : t.findIdx? (· = '#') = some i) :
    ∃ before rest, t = before ++ '#' :: rest ∧ before.length = i ∧ '#' ∉ before := by
  obtain ⟨hlt, hget, hbefore⟩ := List.findIdx?_eq_some_iff_getElem.1 h
  refine ⟨t.take i, t.drop (i + 1), ?_, List.length_take_of_le hlt.le, ?_⟩
  · have hhash : t[i] = '#' := by simpa using hget
    rw [← hhash, ← List.drop_eq_getElem_cons hlt, List.take_append_drop]
  · intro hmem
    obtain ⟨j, hj, hchar⟩ := List.mem_take_iff_getElem.1 hmem
    have hnot := hbefore j (by omega)
    rw [hchar] at hnot
    exact hnot (by decide)

/-- With more rounds than characters no round is missing, and what is sliced is there: each round
reads up to the next `#` and goes on behind it. -/
theorem slicedUnescapeIn_eq {rounds : Nat} {t : Text} (h : t.length < rounds) :
    slicedUnescapeIn rounds t = some (unescape t) := by
  induction rounds generalizing t with
  | zero => exact absurd h (Nat.not_lt_zero _)
  | succ rounds ih =>
    rw [slicedUnescapeIn]
    cases hfind : t.findIdx? (· = '#') with
    -- no `#` is left, so neither is a code
    | none =>
      have hnot : '#' ∉ t := fun hmem => by
        simpa using List.findIdx?_eq_none_iff.1 hfind '#' hmem
      have hread := unescape_append_of_not_mem hnot []
      rw [List.append_nil, unescape_nil, List.append_nil] at hread
      rw [hread]
      rfl
    | some i =>
      -- what stands before the first `#` has no codes
      obtain ⟨before, rest, rfl, rfl, hnot⟩ := exists_of_findIdx?_hash hfind
      have hbefore := cut?_take (t := before ++ '#' :: rest) (i := before.length) (by simp)
      rw [byteOffset_append_length, List.take_left] at hbefore
      simp only [Option.map_some, byteOffset_append_length, hbefore, cut?_append,
        Option.bind_eq_bind, Option.bind_some, unescape_append_of_not_mem hnot]
      cases hcode : Reserved.ofCode? ('#' :: rest) with
      -- a code begins here; the rest behind it is shorter
      | some r =>
        obtain ⟨behind, hbehind⟩ := Reserved.exists_of_ofCode? hcode
        have hshorter : behind.length < rounds := by
          have hlength := congrArg List.length hbehind
          have hcodePos := List.length_pos_iff.2 r.code_ne_nil
          simp only [List.length_append, List.length_cons] at h hlength
          omega
        simp only [hbehind, cut?_append, Option.bind_some, ih hshorter, unescape_code_append]
        rfl
      -- no code begins here, so the `#` is an ordinary character
      | none =>
        have hshorter : rest.length < rounds := by
          simp only [List.length_append, List.length_cons] at h
          omega
        have hrest : cut? ('#' :: rest) ⟨1, byteLength ('#' :: rest)⟩ = some rest :=
          cut?_append ['#'] rest
        simp only [hrest, Option.bind_some, ih hshorter, unescape_cons hcode]
        rfl

theorem slicedUnescape_eq (t : Text) : slicedUnescape t = some (unescape t) :=
  slicedUnescapeIn_eq (Nat.lt_succ_self _)

end Text

namespace Condition

open Text (byteLength cut?)

/-! ### Tokens -/

namespace Token

/-- The connective or bracket that a text begins with, and its number of bytes. -/
def structural? : Text → Option (Token × Nat)
  | '&' :: '&' :: _ => some (and, 2)
  | '|' :: '|' :: _ => some (or, 2)
  | '(' :: _ => some (opening, 1)
  | ')' :: _ => some (closing, 1)
  | _ => none

/-- The cut in progress at a byte offset, in no more rounds than are given. -/
def slicedScan (t : Text) : Nat → Nat → Text → List Token → Option (List Token)
  | 0, _, _, _ => none
  | rounds + 1, b, current, done =>
    if b < byteLength t then do
      let rest ← cut? t ⟨b, byteLength t⟩
      match structural? rest, rest with
      | some (token, size), _ => slicedScan t rounds (b + size) [] (token :: pushRun current done)
      | none, c :: _ => slicedScan t rounds (b + c.utf8Size) (c :: current) done
      | none, [] => return (pushRun current done).reverse
    else return (pushRun current done).reverse

def slicedOfText (t : Text) : Option (List Token) := slicedScan t (t.length + 1) 0 [] []

/-- What a structural token takes of a text, and what the cut makes of the rest. -/
theorem scan_of_structural {t : Text} {token : Token} {size : Nat}
    (h : structural? t = some (token, size)) (run : Text) (done : List Token) :
    ∃ symbol rest, t = symbol ++ rest ∧ byteLength symbol = size ∧ symbol ≠ [] ∧
      scan run done t = scan [] (token :: pushRun run done) rest := by
  unfold structural? at h
  split at h <;> cases h
  · exact ⟨['&', '&'], _, rfl, rfl, List.cons_ne_nil _ _, rfl⟩
  · exact ⟨['|', '|'], _, rfl, rfl, List.cons_ne_nil _ _, rfl⟩
  · exact ⟨['('], _, rfl, rfl, List.cons_ne_nil _ _, rfl⟩
  · exact ⟨[')'], _, rfl, rfl, List.cons_ne_nil _ _, rfl⟩

/-- A character that begins no symbol belongs to the run. -/
theorem scan_cons_of_structural {c : Char} {t : Text} (h : structural? (c :: t) = none) (run : Text)
    (done : List Token) : scan run done (c :: t) = scan (c :: run) done t := by
  unfold structural? at h
  split at h <;> cases h
  -- each case of the scan but the last one reads a symbol
  next hand hor hopen hclose =>
    rw [scan]
    · exact fun rest hc ht => hand rest (by rw [hc, ht])
    · exact fun rest hc ht => hor rest (by rw [hc, ht])
    · exact fun hc => hopen t (by rw [hc])
    · exact fun hc => hclose t (by rw [hc])

/-- The scan by offsets goes on as the scan by characters does. The text before the offset is what
has been read; the rounds are more than what is left. -/
theorem slicedScan_eq (before : Text) {rest : Text} {rounds : Nat} (h : rest.length < rounds)
    (run : Text) (done : List Token) :
    slicedScan (before ++ rest) rounds (byteLength before) run done = some (scan run done rest) := by
  induction rounds generalizing before rest run done with
  | zero => exact absurd h (Nat.not_lt_zero _)
  | succ rounds ih =>
    have hmore : byteLength before < byteLength (before ++ rest) ↔ rest ≠ [] := by
      rw [Text.byteLength_append, Nat.lt_add_right_iff_pos, Text.byteLength_pos_iff]
    rw [slicedScan, Text.cut?_append]
    simp only [hmore, Option.bind_eq_bind, Option.bind_some]
    -- a step goes on behind the part that it has read
    have hstep : ∀ {part behind : Text} (run' : Text) (done' : List Token), rest = part ++ behind →
        part ≠ [] → slicedScan (before ++ rest) rounds (byteLength before + byteLength part) run'
          done' = some (scan run' done' behind) := by
      intro part behind run' done' hrest hpart
      have hpartPos := List.length_pos_iff.2 hpart
      rw [hrest, List.length_append] at h
      rw [hrest, ← Text.byteLength_append, ← List.append_assoc]
      exact ih (before ++ part) (by omega) run' done'
    cases rest with
    | nil => rfl
    | cons c rest =>
      rw [if_pos (List.cons_ne_nil c rest)]
      cases hstructural : structural? (c :: rest) with
      -- a symbol: the run is finished and the scan goes on behind the symbol
      | some found =>
        obtain ⟨token, size⟩ := found
        obtain ⟨symbol, behind, hsplit, hsize, hsymbol, hscan⟩ :=
          scan_of_structural hstructural run done
        rw [hscan, ← hsize]
        exact hstep [] _ hsplit hsymbol
      -- any other character goes to the run
      | none =>
        have hnext := @hstep [c] rest (c :: run) done rfl (List.cons_ne_nil c [])
        rw [Text.byteLength_cons, Text.byteLength_nil, Nat.add_zero] at hnext
        rw [scan_cons_of_structural hstructural]
        exact hnext

theorem slicedOfText_eq (t : Text) : slicedOfText t = some (ofText t) :=
  slicedScan_eq [] (Nat.lt_succ_self _) [] []

/-- The difference of two counts, which has no result below zero. -/
def difference? (a b : Nat) : Option Nat := if b ≤ a then some (a - b) else none

/-- `closed`, if the counts have a difference. -/
def slicedClosed (ts : List Token) : Option (List Token) :=
  if ts.count closing < ts.count opening then do
    let missing ← difference? (ts.count opening) (ts.count closing)
    return ts ++ List.replicate missing closing
  else some ts

/-- Closing brackets are added only where the difference of the counts exists. -/
theorem slicedClosed_eq (ts : List Token) : slicedClosed ts = some (closed ts) := by
  unfold slicedClosed closed
  split
  · next hlt =>
    rw [difference?, if_pos hlt.le]
    rfl
  · next hle => rw [Nat.sub_eq_zero_of_le (Nat.le_of_not_lt hle), List.replicate_zero, List.append_nil]

end Token

end Condition

/-! ### Comparisons -/

namespace Comparison

/-- `parse?`, if the operands can be read. -/
def slicedParse (t : Text) : Option (Option Comparison) :=
  match Operator.all.find? fun op => Text.contains op.symbol t with
  | none => some none
  | some op => do
    let parts := Text.split op.symbol t
    let left ← Text.slicedUnescape (Text.trim (parts.headD []))
    let right ← Text.slicedUnescape (Text.trim (parts.getD 1 []))
    return some ⟨left, op, right⟩

/-- A comparison is parsed the same way, since its sides are unescaped the same way. -/
theorem slicedParse_eq (t : Text) : slicedParse t = some (parse? t) := by
  unfold slicedParse parse?
  cases Operator.all.find? fun op => Text.contains op.symbol t with
  | none => rfl
  | some op =>
    simp only [Text.slicedUnescape_eq]
    rfl

/-- `holds`, if the relation is one of the four that an order decides where the order is asked. -/
def slicedHolds (c : Comparison) : Option Bool :=
  match c.op with
  | .equal => some (c.left == c.right)
  | .unequal => some (c.left != c.right)
  | op =>
    let order := order c.left c.right
    match op with
    | .above => some (order == .gt)
    | .below => some (order == .lt)
    | .atLeast => some (order != .lt)
    | .atMost => some (order != .gt)
    | .equal | .unequal => none

theorem slicedHolds_eq (c : Comparison) : c.slicedHolds = some c.holds := by
  obtain ⟨left, op, right⟩ := c
  cases op <;> rfl

end Comparison

/-! ### Conditions -/

namespace Condition

def slicedOfRun (t : Text) : Option Condition :=
  (Comparison.slicedParse t).map fun
    | some c => test c
    | none => never

theorem slicedOfRun_eq (t : Text) : slicedOfRun t = some (ofRun t) := by
  rw [slicedOfRun, Comparison.slicedParse_eq, ofRun]
  rfl

mutual

/-- `holds`, term by term up to the one that decides. -/
def slicedHolds : Condition → Option Bool
  | never => some false
  | test c => c.slicedHolds
  | all terms => slicedAllHold terms
  | any terms => slicedAnyHolds terms

def slicedAllHold : List Condition → Option Bool
  | [] => some true
  | c :: cs => do
    if ← slicedHolds c then slicedAllHold cs else return false

def slicedAnyHolds : List Condition → Option Bool
  | [] => some false
  | c :: cs => do
    if ← slicedHolds c then return true else slicedAnyHolds cs

end

mutual

/-- A condition has a truth value, by induction on its terms. -/
theorem slicedHolds_eq (c : Condition) : slicedHolds c = some c.holds := by
  cases c with
  | never => rfl
  | test c => exact c.slicedHolds_eq
  | all terms => exact slicedAllHold_eq terms
  | any terms => exact slicedAnyHolds_eq terms

theorem slicedAllHold_eq (cs : List Condition) : slicedAllHold cs = some (allHold cs) := by
  cases cs with
  | nil => rfl
  | cons c cs =>
    rw [slicedAllHold, slicedHolds_eq c, slicedAllHold_eq cs, allHold]
    -- the terms behind the first are asked for only if it holds
    cases c.holds <;> rfl

theorem slicedAnyHolds_eq (cs : List Condition) : slicedAnyHolds cs = some (anyHolds cs) := by
  cases cs with
  | nil => rfl
  | cons c cs =>
    rw [slicedAnyHolds, slicedHolds_eq c, slicedAnyHolds_eq cs, anyHolds]
    -- and here only if it does not
    cases c.holds <;> rfl

end

namespace Reader

/-- `step`; a run of text is read where an operand is needed. -/
def slicedStep : Reader → Token → Option (Except ParseError Reader)
  | needsOperand g outer, .run t => do
    let term ← slicedOfRun t
    return .ok (hasTerm g term outer)
  | r, token => some (r.step token)

/-- A step is defined for every state of the reader and every token. -/
theorem slicedStep_eq (r : Reader) (token : Token) : r.slicedStep token = some (r.step token) := by
  unfold slicedStep
  split
  · rw [slicedOfRun_eq]
    rfl
  · rfl

/-- The reading of a row of tokens, up to the first that cannot stand where it does. -/
def slicedSteps : Reader → List Token → Option (Except ParseError Reader)
  | r, [] => some (.ok r)
  | r, token :: ts => do
    match ← r.slicedStep token with
    | .ok r' => slicedSteps r' ts
    | .error e => return .error e

/-- The steps of a row of tokens, by induction on it. -/
theorem slicedSteps_eq (r : Reader) (ts : List Token) :
    r.slicedSteps ts = some (ts.foldlM step r) := by
  induction ts generalizing r with
  | nil => rfl
  | cons token ts ih =>
    rw [slicedSteps, slicedStep_eq, List.foldlM_cons, Option.bind_eq_bind, Option.bind_some]
    cases r.step token with
    | ok r' => exact ih r'
    | error e => rfl

end Reader

/-- `parse`, if all that is read can be sliced and counted. -/
def slicedParse (t : Text) : Option (Except ParseError Condition) :=
  if Text.isBlankText t then some (.error .empty)
  else do
    let ts ← Token.slicedOfText t
    let closed ← Token.slicedClosed ts
    let read ← Reader.start.slicedSteps closed
    return read.bind Reader.finish

/-- Parsing never fails to give a verdict. -/
theorem slicedParse_eq (t : Text) : slicedParse t = some (parse t) := by
  unfold slicedParse parse
  split
  · rfl
  · simp only [Token.slicedOfText_eq, Token.slicedClosed_eq, Reader.slicedSteps_eq,
      Option.bind_eq_bind, Option.bind_some]
    rfl

/-- `evaluate`, if the condition can be read and decided. -/
def slicedEvaluate (t : Text) : Option Bool := do
  match ← slicedParse t with
  | .ok c => slicedHolds c
  | .error _ => return false

/-- Every operation that reads a condition is defined on what it is applied to. -/
theorem slicedEvaluate_eq (t : Text) : slicedEvaluate t = some (evaluate t) := by
  rw [slicedEvaluate, slicedParse_eq, evaluate, Option.bind_eq_bind, Option.bind_some]
  cases parse t with
  | ok c => exact slicedHolds_eq c
  | error e => rfl

end Condition

end Stencil
