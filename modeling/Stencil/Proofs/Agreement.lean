import Mathlib.Tactic.TFAE
import Stencil.Proofs.Extraction
import Stencil.Proofs.Meaning
import Stencil.Proofs.Scan
import Stencil.Proofs.Tiling
/-!
# Keywords and the names that begin with them

The worklist takes the longest name at a `$`; a keyword is taken wherever its letters stand, whatever
is behind them. So the two readings of a `$` agree as long as no name goes on behind a keyword that
it begins with, and no longer: for each such name there is a text in which the keyword is taken and
the name is the entry (`keywords_agree_tfae`). `$else` alone is looked behind: it is not taken in
front of `if`.

Keywords, brackets and the look behind `$else` see letters as `Keyword.foldLetter` gives them, so the
block that is found depends on those alone (`findInnermost_folded`). A name can therefore be written
into a block as it is, also with an `ſ`.
-/

namespace Stencil

namespace Keyword

variable {k k' : Keyword} {t u : Text} {n : Nat}

/-! ### Folded letters -/

/-- The text with its letters as keywords see them. -/
def folded (t : Text) : Text := t.map foldLetter

/-- Texts in a row are folded one by one. -/
theorem folded_append (t u : Text) : folded (t ++ u) = folded t ++ folded u := List.map_append

/-- Folding keeps positions. -/
theorem folded_drop (n : Nat) (t : Text) : (folded t).drop n = folded (t.drop n) :=
  List.map_drop.symm

/-- Lower case does not change how a letter is folded. -/
theorem foldLetter_toLower (c : Char) : foldLetter c.toLower = foldLetter c := by
  have hlong : c.toLower = 'ſ' ↔ c = 'ſ' := by
    refine ⟨eq_of_toLower_eq (by decide), ?_⟩
    rintro rfl
    decide
  simp only [foldLetter, hlong, toLower_toLower]

/-- Folding twice is folding once. -/
theorem foldLetter_foldLetter (c : Char) : foldLetter (foldLetter c) = foldLetter c := by
  by_cases hc : c = 'ſ'
  · rw [hc]
    rfl
  · have hlower : foldLetter c = c.toLower := if_neg hc
    rw [hlower, foldLetter_toLower, hlower]

/-- So it does not matter whether a text is in lower case. -/
theorem folded_lowerAscii (t : Text) : folded (Text.lowerAscii t) = folded t := by
  rw [folded, Text.lowerAscii, List.map_map]
  exact List.map_congr_left fun c _ => foldLetter_toLower c

/-- A keyword stands in a text as it does in the folded one. -/
theorem startsIn_folded (k : Keyword) (t : Text) : k.startsIn (folded t) = k.startsIn t := by
  have hstarts : ∀ p t : Text, Search.startsBy (fun a c => a == foldLetter c) p (folded t) =
      Search.startsBy (fun a c => a == foldLetter c) p t := by
    intro p t
    induction p generalizing t with
    | nil => rfl
    | cons a p ih =>
      cases t with
      | nil => rfl
      | cons c t =>
        have hrest := ih t
        rw [folded] at hrest ⊢
        rw [List.map_cons, Search.startsBy, Search.startsBy, foldLetter_foldLetter, hrest]
  rw [startsIn_eq, startsIn_eq, hstarts]

/-- A keyword begins the texts that begin with its letters once these are folded. -/
theorem startsIn_iff : k.startsIn t = true ↔ folded (t.take k.size) = k.text := by
  have hstarts : ∀ p t : Text, Search.startsBy (fun a c => a == foldLetter c) p t = true ↔
      folded (t.take p.length) = p := by
    intro p t
    induction p generalizing t with
    | nil => simp [Search.startsBy, folded]
    | cons a p ih =>
      cases t with
      | nil => simp [Search.startsBy, folded]
      | cons c t =>
        have hrest := ih t
        rw [folded] at hrest ⊢
        rw [Search.startsBy, Bool.and_eq_true, beq_iff_eq, hrest, List.length_cons,
          List.take_succ_cons, List.map_cons, List.cons.injEq, eq_comm]
  rw [startsIn_eq, hstarts, size]

/-- At one position stands one keyword, but for `$else` where `$elseif[` is. -/
theorem eq_of_startsIn (h : k.startsIn t = true) (h' : k'.startsIn t = true)
    (hk' : k' ≠ .elseIfOpen) (hk : k ≠ .elseIfOpen) : k = k' := by
  have hwritten : folded t = k'.text ++ folded (t.drop k'.size) := by
    rw [← startsIn_iff.1 h', ← folded_append, List.take_append_drop]
  rw [← startsIn_folded, hwritten] at h
  cases k' with
  | otherwise =>
    cases k with
    | elseIfOpen => exact absurd rfl hk
    | otherwise => rfl
    | ifOpen | endIf | endElseIf => cases h
  | elseIfOpen => exact absurd rfl hk'
  | ifOpen | endIf | endElseIf =>
    rw [startsIn_text_append _ _ (absurd · (by decide)), decide_eq_true_eq] at h
    -- the keyword standing in front is then the one that is written, or the `$else` of
    -- `$elseif[`
    rcases h with h | ⟨-, h⟩
    · exact h
    · cases h

/-- A keyword begins with a letter, so that what it stands in is not blank. -/
theorem StandsAt.exists_letter (h : k.StandsAt t 0) : ∃ c ∈ t.tail, isBlank c = false := by
  have hletter : ∀ a ∈ k.letters.head?, a = 'i' ∨ a = 'e' := by cases k <;> simp [letters]
  obtain ⟨a, ha⟩ : ∃ a, k.text[1]? = some a := by cases k <;> exact ⟨_, rfl⟩
  rw [StandsAt, startsIn_eq] at h
  obtain ⟨c, hc, hlike⟩ := Search.getElem?_of_startsBy h ha
  have ha := hletter a (by rw [List.head?_eq_getElem?]; exact ha)
  refine ⟨c, ?_, Bool.eq_false_iff.2 fun hblank => ?_⟩
  · rw [List.drop_zero, ← List.getElem?_tail] at hc
    exact List.mem_of_getElem? hc
  -- no blank has a lower case but itself
  · have hfold : foldLetter c = a := (beq_iff_eq.1 hlike).symm
    have hnat := toNat_toLower c
    simp only [isBlank, Bool.or_eq_true, Bool.and_eq_true, decide_eq_true_eq, beq_iff_eq] at hblank
    rw [if_neg (by omega)] at hnat
    have hlong : c ≠ 'ſ' := by
      rintro rfl
      simp at hblank
    rw [foldLetter, if_neg hlong, Char.toNat_inj.1 hnat] at hfold
    subst hfold
    rcases ha with rfl | rfl <;> simp at hblank

/-- The places of a keyword are those in the folded text. -/
theorem findAllFrom_folded (k : Keyword) (n : Nat) (t : Text) :
    k.findAllFrom n (folded t) = k.findAllFrom n t := by
  induction t generalizing n with
  | nil => rfl
  | cons c t ih =>
    have hstarts := startsIn_folded k (c :: t)
    rw [folded] at hstarts ih ⊢
    rw [List.map_cons] at hstarts ⊢
    rw [findAllFrom, findAllFrom, hstarts, ih]

/-- The same from the beginning of the text. -/
theorem findAll_folded (k : Keyword) (t : Text) : k.findAll (folded t) = k.findAll t :=
  findAllFrom_folded k 0 t

/-- The first place from a position on is that in the folded text. -/
theorem find?_folded (k : Keyword) (t : Text) (start : Nat) :
    k.find? (folded t) start = k.find? t start := by
  rw [find?_eq_head?, find?_eq_head?, folded_drop, findAllFrom_folded]

/-- A keyword is present when it is in the folded text. -/
theorem isPresent_folded (k : Keyword) (t : Text) : k.isPresent (folded t) = k.isPresent t := by
  rw [Bool.eq_iff_iff, isPresent_iff, isPresent_iff]
  simp only [StandsAt, folded_drop, startsIn_folded]

end Keyword

/-- Brackets are not folded, so they close where they did. -/
theorem Bracket.closing?_folded (t : Text) (i : Nat) :
    Bracket.closing? (Keyword.folded t) i = Bracket.closing? t i := by
  have hclosing : ∀ (t : Text) (i depth : Nat),
      closingFrom i depth (Keyword.folded t) = closingFrom i depth t := by
    intro t
    induction t with
    | nil => exact fun _ _ => rfl
    | cons c t ih =>
      intro i depth
      have hrest := fun depth => ih (i + 1) depth
      simp only [Keyword.folded] at hrest ⊢
      simp only [List.map_cons, closingFrom, hrest,
        Keyword.foldLetter_eq_iff (m := '[') (by rfl), Keyword.foldLetter_eq_iff (m := ']') (by rfl)]
  rw [closing?, closing?, Keyword.folded_drop, hclosing]

namespace Block

open Keyword (folded)

variable {t : Text} {i : Nat} {names : List Text} {name rest : Text}

/-- Whether `if` follows is not changed by folding. -/
theorem goesOnWithIf_folded (t : Text) : goesOnWithIf (folded t) = goesOnWithIf t := by
  -- neither letter is the `s` for which the long one stands
  have hletter : ∀ (c a : Char), a = 'i' ∨ a = 'f' →
      ((Keyword.foldLetter c).toLower = a ↔ c.toLower = a) := by
    intro c a ha
    by_cases hc : c = 'ſ'
    · subst hc
      rcases ha with rfl | rfl <;> decide
    · have hlower : Keyword.foldLetter c = c.toLower := if_neg hc
      rw [hlower, toLower_toLower]
  rw [Bool.eq_iff_iff, goesOnWithIf, goesOnWithIf, beq_iff_eq, beq_iff_eq]
  rcases t with _ | ⟨c, _ | ⟨d, t⟩⟩
  · rfl
  · simp [folded, Text.lowerAscii]
  · simp [folded, Text.lowerAscii, hletter]

/-- So the `$else` that is found is the same. -/
theorem findElse?_folded (t : Text) (within : Span) :
    findElse? (folded t) within = findElse? t within := by
  have hfirst : ∀ es, firstElse? (folded t) within es = firstElse? t within es := by
    intro es
    induction es with
    | nil => rfl
    | cons e es ih =>
      rw [firstElse?, firstElse?, Keyword.folded_drop, goesOnWithIf_folded, ih]
  rw [findElse?, findElse?, Keyword.findAll_folded, hfirst]

/-- And the alternative that is read at a place. -/
theorem alternativeAt_folded (t : Text) (strict : Bool) (condition : Span) (next : Nat) :
    alternativeAt (folded t) strict condition next = alternativeAt t strict condition next := by
  simp only [alternativeAt, Keyword.find?_folded, findElse?_folded]

/-- And the way a region is cut into alternatives. -/
theorem cutAlternatives_folded (t : Text) (strict : Bool) (regionEnd position : Nat)
    (openers : List Span) :
    cutAlternatives (folded t) strict regionEnd position openers =
      cutAlternatives t strict regionEnd position openers := by
  induction openers generalizing position with
  | nil => rfl
  | cons opener later ih =>
    simp only [cutAlternatives, Bracket.closing?_folded, alternativeAt_folded, ih]

/-- And the parts in front of the `$else` and behind it. -/
theorem splitAtElse_folded (t : Text) (parts : List Span) :
    splitAtElse (folded t) parts = splitAtElse t parts := by
  induction parts with
  | nil => rfl
  | cons p ps ih => rw [splitAtElse, splitAtElse, findElse?_folded, ih]

/-- Where a block is depends on the letters of a text as keywords see them. -/
theorem findInnermost_folded (t : Text) (strict : Bool) :
    findInnermost (folded t) strict = findInnermost t strict := by
  simp only [findInnermost, Keyword.isPresent_folded, Keyword.findLast?, Keyword.findAll_folded,
    Bracket.closing?_folded, Keyword.find?_folded, cutAlternatives_folded, splitAtElse_folded]

/-! ### What is taken for a keyword -/

/-- A keyword that counts stands there: any one, but for a `$else` in front of `if`. -/
def Counts (t : Text) (k : Keyword) (i : Nat) : Prop :=
  k.StandsAt t i ∧ (k = .otherwise → goesOnWithIf (t.drop (i + 5)) = false)

instance (t : Text) (k : Keyword) (i : Nat) : Decidable (Counts t k i) :=
  inferInstanceAs (Decidable (_ ∧ _))

/-- A keyword is taken at a position: it is a mark in front of some position of the text, or it
divides the block that is found. -/
inductive Takes (t : Text) : Keyword → Nat → Prop
  | mark {k : Keyword} {position i : Nat} (kind : k = .ifOpen ∨ k = .endIf)
      (stands : k.StandsAt (t.take position) i) : Takes t k i
  | opener {strict : Bool} {b : Block} (found : findInnermost t strict = .ok b) :
      Takes t .ifOpen b.span.start
  | ending {strict : Bool} {b : Block} (found : findInnermost t strict = .ok b) :
      Takes t .endIf b.regionEnd
  | alternative {strict : Bool} {b : Block} {a : Alternative}
      (found : findInnermost t strict = .ok b) (mem : a ∈ b.alternatives) :
      Takes t .elseIfOpen (a.condition.start - 8)
  | alternativeEnding {strict : Bool} {b : Block} {a : Alternative}
      (found : findInnermost t strict = .ok b) (mem : a ∈ b.alternatives)
      (stands : Keyword.endElseIf.StandsAt t a.body.stop) : Takes t .endElseIf a.body.stop
  | alternativeElse {strict : Bool} {b : Block} {a : Alternative}
      (found : findInnermost t strict = .ok b) (mem : a ∈ b.alternatives)
      (stands : ElseAt t a.body.stop) : Takes t .otherwise a.body.stop
  | otherwise {strict : Bool} {b : Block} {i : Nat} {before behind : List Alternative}
      (found : findInnermost t strict = .ok b) (stands : ElseAt t i)
      (alternatives : b.alternatives = before ++ behind)
      (front : Tiled t (b.condition.stop + 1) i b.body before)
      (back : Tiled t (i + 5) b.regionEnd b.otherwise behind) : Takes t .otherwise i

/-- Where a tiling has an alternative its `$elseif[` stands. -/
theorem Tiled.standsAt_elseIfOpen {lo hi : Nat} {pieces : List Span}
    {alternatives : List Alternative} (h : Tiled t lo hi pieces alternatives) :
    ∀ a ∈ alternatives, Keyword.elseIfOpen.StandsAt t (a.condition.start - 8) := by
  induction h with
  | done => exact nofun
  | piece _ _ ih => exact ih
  | alternative stands _ ih =>
    intro a ha
    rcases List.mem_cons.1 ha with rfl | ha
    · rw [stands.condition_start, Nat.add_sub_cancel]
      exact stands.opener
    · exact ih a ha

/-- Only a keyword that counts is taken. -/
theorem Takes.counts {k : Keyword} (h : Takes t k i) : Counts t k i := by
  have hdecided : ∀ {k : Keyword} {i}, k ≠ .otherwise → k.StandsAt t i → Counts t k i :=
    fun hk hstands => ⟨hstands, (absurd · hk)⟩
  cases h with
  | @mark k position i kind stands =>
    refine hdecided ?_ ?_
    · rcases kind with rfl | rfl <;> decide
    · exact (Keyword.standsAt_take.1 stands).1
  | opener found => exact hdecided (by decide) (tiling_of_findInnermost found).opener
  | ending found => exact hdecided (by decide) (tiling_of_findInnermost found).endIf
  | alternative found mem =>
    refine hdecided (by decide) ?_
    rcases (tiling_of_findInnermost found).tiled with ⟨-, htiled⟩ | ⟨m, before, behind, -, halts,
      hbefore, hbehind⟩
    · exact htiled.standsAt_elseIfOpen _ mem
    · rw [halts, List.mem_append] at mem
      rcases mem with mem | mem
      · exact hbefore.standsAt_elseIfOpen _ mem
      · exact hbehind.standsAt_elseIfOpen _ mem
  | alternativeEnding found mem stands => exact hdecided (by decide) stands
  | alternativeElse found mem stands => exact ⟨stands.1, fun _ => stands.2⟩
  | otherwise found stands => exact ⟨stands.1, fun _ => stands.2⟩

/-! ### What is the entry of the worklist -/

/-- The worklist has a longer name for the `$` of a keyword, which cuts the name apart. -/
def Cuts (names : List Text) (t : Text) (k : Keyword) (i : Nat) : Prop :=
  ∃ name ∈ names, Worklist.nameBehind? (Worklist.withControls names) (Worklist.segmentAt t i) =
    some name ∧ k.size < name.length

/-- A name that can be an entry: the text that is looked at ends at the next `$` and with the line. -/
def Enterable (name : Text) : Prop := ∀ c ∈ name.tail, c ≠ '$' ∧ c ≠ '\n'

/-- What is read of a text for an entry. -/
theorem cons_segmentAt_prefix (h : t[i]? = some '$') :
    '$' :: Worklist.segmentAt t i <+: t.drop i := by
  obtain ⟨hlt, hget⟩ := List.getElem?_eq_some_iff.1 h
  rw [List.drop_eq_getElem_cons hlt, hget, List.prefix_cons_inj]
  exact List.takeWhile_prefix _

/-- Where a keyword counts, an entry that is longer begins with the keyword. -/
theorem Counts.of_nameBehind? {k : Keyword} (h : Counts t k i)
    (hname : Worklist.nameBehind? names (Worklist.segmentAt t i) = some name)
    (hlonger : k.size < name.length) : Enterable name ∧ Counts name k 0 := by
  obtain ⟨rest, hrest⟩ := cons_segmentAt_prefix h.1.getElem?_start
  have hstands : Text.startsFolded name ('$' :: Worklist.segmentAt t i) = true := by
    unfold Worklist.nameBehind? at hname
    split at hname
    · cases hname
    · exact Worklist.startsFolded_of_longestName? (Option.filter_eq_some_iff.1 hname).1
  -- the name is what begins the text there, but for the case of its letters
  have hwithin : ∀ n, n ≤ name.length →
      Text.lowerAscii (name.take n) = Text.lowerAscii ((t.drop i).take n) := by
    intro n hn
    have hwhole := Search.startsBy_append rest hstands
    rw [hrest] at hwhole
    have hlower := congrArg (List.take n) (Text.startsFolded_iff.1 hwhole)
    rw [Text.lowerAscii, Text.lowerAscii, ← List.map_take, ← List.map_take, List.take_take,
      Nat.min_eq_left hn] at hlower
    exact hlower.symm
  refine ⟨?_, ?_, ?_⟩
  -- the segment has no marker and no line end, so neither has the name but for its first
  -- character
  · intro c hc
    have hlower := Text.startsFolded_iff.1 hstands
    have hmem : c.toLower ∈ Text.lowerAscii name.tail := List.mem_map_of_mem hc
    rw [Text.lowerAscii, List.map_tail, ← Text.lowerAscii, ← hlower, Text.lowerAscii,
      ← List.map_tail] at hmem
    obtain ⟨d, hd, hdc⟩ := List.mem_map.1 hmem
    have hseg : d ∈ Worklist.segmentAt t i := by
      cases name with
      | nil => cases hc
      | cons a name => exact List.mem_of_mem_take hd
    have hd := List.mem_takeWhile_imp hseg
    rw [Bool.and_eq_true, decide_eq_true_eq, decide_eq_true_eq] at hd
    constructor
    · rintro rfl
      exact hd.1 (eq_of_toLower_eq (by decide) hdc)
    · rintro rfl
      exact hd.2 (eq_of_toLower_eq (by decide) hdc)
  -- the keyword stands in the text within the name, so it stands in the name
  · have hstarts := h.1
    rw [Keyword.StandsAt, Keyword.startsIn_iff] at hstarts ⊢
    rw [List.drop_zero, ← Keyword.folded_lowerAscii, hwithin _ hlonger.le,
      Keyword.folded_lowerAscii, hstarts]
  · rintro rfl
    -- both letters behind `$else` are of the name
    have hif := h.2 rfl
    by_contra hname
    have hletters := beq_iff_eq.1 ((Bool.not_eq_false _).mp hname)
    have hlen := congrArg List.length hletters
    simp only [Text.lowerAscii, List.length_map, List.length_take, List.length_drop,
      List.length_cons, List.length_nil] at hlen
    have htake : ∀ u : Text, (u.drop 5).take 2 = (u.take 7).drop 5 := fun u => List.take_drop
    have hsame : Text.lowerAscii ((name.take 7).drop 5) =
        Text.lowerAscii (((t.drop i).take 7).drop 5) := by
      have hdrop := congrArg (List.drop 5) (hwithin 7 (by omega))
      simpa only [Text.lowerAscii, List.map_drop] using hdrop
    rw [← htake, ← htake, List.drop_drop, hletters] at hsame
    rw [goesOnWithIf, ← hsame] at hif
    cases hif

/-! ### A text for every name that begins with a keyword -/

variable {k : Keyword}

/-- A name that stands there whole is cut apart, or a longer one is. -/
theorem Counts.cuts {registry : Registry} (h : Counts name k 0) (hlonger : k.size < name.length)
    (henterable : Enterable name) (hmem : name ∈ registry.names) (ht : t.drop i = name ++ rest) :
    Cuts registry.names t k i := by
  -- no name to choose from is empty
  have hne : ∀ other ∈ Worklist.withControls registry.names, other ≠ [] := by
    intro other hother
    rcases List.mem_append.1 hother with hother | hother
    · obtain ⟨f, -, rfl⟩ := List.mem_map.1 hother
      exact List.cons_ne_nil _ _
    · rintro rfl
      exact absurd (List.mem_filter.1 hother).1 (by decide)
  obtain ⟨f, -, rfl⟩ := List.mem_map.1 hmem
  have hstem : ∀ c ∈ f.name.stem, (c ≠ '$' && c ≠ '\n') = true := by
    intro c hc
    rw [Bool.and_eq_true, decide_eq_true_eq, decide_eq_true_eq]
    exact henterable c hc
  obtain ⟨more, hsegment⟩ : ∃ more, Worklist.segmentAt t i = f.name.stem ++ more := by
    have hbehind : t.drop (i + 1) = f.name.stem ++ rest := by
      rw [← List.drop_drop, ht]
      rfl
    rw [Worklist.segmentAt, hbehind, List.takeWhile_append_of_pos hstem]
    exact ⟨_, rfl⟩
  -- both the keyword and the name stand at this place
  have hstarts : k.startsIn ('$' :: Worklist.segmentAt t i) = true := by
    rw [hsegment]
    exact h.1.append more
  have hstands : Text.startsFolded f.name.text ('$' :: Worklist.segmentAt t i) = true := by
    rw [hsegment, Text.startsFolded_iff]
    exact congrArg Text.lowerAscii List.take_left
  have hblank : Text.isBlankText (Worklist.segmentAt t i) = false := by
    obtain ⟨c, hc, hletter⟩ := h.1.exists_letter
    rw [Text.isBlankText, List.all_eq_false, hsegment]
    exact ⟨c, List.mem_append_left more hc, by rw [hletter]; exact Bool.false_ne_true⟩
  have hlisted : f.name.text ∈ Worklist.withControls registry.names := List.mem_append_left _ hmem
  obtain ⟨best, hbest⟩ := Option.isSome_iff_exists.1 (Worklist.isSome_longestName? hlisted hstands)
  have hlongest := Worklist.length_le_of_longestName? hbest hlisted hstands
  have hbehind : Worklist.nameBehind? (Worklist.withControls registry.names)
      (Worklist.segmentAt t i) = some best := by
    rw [Worklist.nameBehind?_of_ne_nil hne, hblank, if_neg Bool.false_ne_true, hbest]
  refine ⟨best, ?_, hbehind, by omega⟩
  -- a control name is too short
  refine (List.mem_append.1 (Worklist.longestName?_mem hbest)).resolve_right fun hcontrol => ?_
  have hbest' := Worklist.startsFolded_of_longestName? hbest
  have hcontrol := (List.mem_filter.1 hcontrol).1
  simp only [Worklist.controlNames, List.mem_cons, List.not_mem_nil, or_false] at hcontrol
  rcases hcontrol with rfl | rfl
  · have hsize : 4 ≤ k.size := by cases k <;> decide
    have hthree : ['$', 'i', 'f'].length = 3 := rfl
    omega
  · -- `$endif` is the keyword itself, for no other one stands there
    have hsix : ['$', 'e', 'n', 'd', 'i', 'f'].length = 6 := rfl
    have hend : Keyword.endIf.startsIn ('$' :: Worklist.segmentAt t i) = true := by
      rw [Keyword.startsIn_iff, ← Keyword.folded_lowerAscii, Keyword.size_endIf, ← hsix,
        Text.startsFolded_iff.1 hbest']
      rfl
    have hk : k = .endIf := Keyword.eq_of_startsIn hstarts hend (by decide) (by
      rintro rfl
      rw [Keyword.size_elseIfOpen] at hlonger
      omega)
    rw [hk, Keyword.size_endIf] at hlonger
    omega

/-- Enough closing brackets close whatever is open. -/
theorem exists_closing (r : Text) : ∃ m inner behind,
    r ++ List.replicate m ']' = inner ++ ']' :: behind ∧ Bracket.Nested inner := by
  -- brackets that are closed often enough close every bracket of the text
  have hclosed : ∀ (r : Text) (i depth m : Nat), 1 ≤ depth → depth + r.length ≤ m →
      (Bracket.closingFrom i depth (r ++ List.replicate m ']')).isSome = true := by
    intro r
    induction r with
    | nil =>
      intro i depth m hdepth hm
      induction depth generalizing i m with
      | zero => cases hdepth
      | succ depth ih =>
        obtain ⟨m, rfl⟩ : ∃ m', m = m' + 1 := ⟨m - 1, by simp at hm; omega⟩
        rw [List.nil_append, List.replicate_succ, Bracket.closingFrom, if_neg (by decide),
          if_pos rfl]
        split
        · rfl
        · next hdeep => exact ih (i + 1) m (by omega) (by simp at hm ⊢; omega)
    | cons c r ih =>
      intro i depth m hdepth hm
      rw [List.length_cons] at hm
      rw [List.cons_append, Bracket.closingFrom]
      split
      · exact ih _ _ m (by omega) (by omega)
      split
      · split
        · rfl
        · exact ih _ _ m (by omega) (by omega)
      · exact ih _ _ m hdepth (by omega)
  obtain ⟨closing, hclosing⟩ :=
    Option.isSome_iff_exists.1 (hclosed r 0 1 (1 + r.length) le_rfl le_rfl)
  obtain ⟨inner, behind, heq, -, hinside, hcount⟩ :=
    (Bracket.closingFrom_eq_some_iff le_rfl).1 hclosing
  exact ⟨1 + r.length, inner, behind, heq,
    Bracket.nested_of_inside hinside (Nat.add_right_cancel hcount)⟩

/-- Behind a text without a `$` the `$endif` is the one keyword. -/
theorem findAllFrom_append_endIf {r : Text} (hr : '$' ∉ r) (k : Keyword) (n : Nat) :
    k.findAllFrom n (r ++ Keyword.endIf.text) =
      if k = .endIf then [k.spanAt (n + r.length)] else [] := by
  have hend := Keyword.findAllFrom_text_append (t := []) k .endIf (n + r.length)
    (absurd · (by decide))
  rw [Keyword.findAllFrom_of_not_mem hr, ← List.append_nil Keyword.endIf.text, hend]
  simp [Keyword.findAllFrom]

/-- An empty alternative with its `$endelseif` is cut out of a region that goes on behind it. -/
theorem cutAlternatives_empty {stop : Nat} (hclosing : Bracket.closing? t 12 = some 13)
    (hending : Keyword.endElseIf.find? t 14 = some (Keyword.endElseIf.spanAt 14))
    (hstop : 24 ≤ stop) :
    cutAlternatives t false stop 5 [Keyword.elseIfOpen.spanAt 5] =
      .ok (part ⟨24, stop⟩, [⟨⟨13, 13⟩, ⟨14, 14⟩⟩]) := by
  -- the list of the alternative is empty and closed at once
  have hfound : (Bracket.closing? t 12).filter (· < stop) = some 13 := by
    rw [hclosing, Option.filter_eq_some_iff]
    exact ⟨rfl, decide_eq_true (by omega)⟩
  have halternative : alternativeAt t false ⟨13, 13⟩ stop = .ok (⟨⟨13, 13⟩, ⟨14, 14⟩⟩, 24) := by
    have hwithin : (some (Keyword.endElseIf.spanAt 14)).filter (·.stop ≤ stop) =
        some (Keyword.endElseIf.spanAt 14) := by
      rw [Option.filter_eq_some_iff]
      exact ⟨rfl, decide_eq_true hstop⟩
    rw [alternativeAt, hending, hwithin]
    rfl
  have hopener : (Keyword.elseIfOpen.spanAt 5).stop = 13 := rfl
  rw [cutAlternatives, Keyword.spanAt_start, if_neg (by decide), hopener, hfound]
  simp only [List.find?_nil, Option.map_none, Option.getD_none, halternative, cutAlternatives,
    part_self, List.nil_append]

/-- An alternative that is ended, with a text behind it. -/
theorem findInnermost_endElseIf {r : Text} (hr : '$' ∉ r) :
    findInnermost ("$if[]$elseif[]$endelseif".toList ++ (r ++ Keyword.endIf.text)) false =
      .ok ⟨⟨0, 24 + r.length + 6⟩, ⟨4, 4⟩, part ⟨24, 24 + r.length⟩, [⟨⟨13, 13⟩, ⟨14, 14⟩⟩], []⟩ := by
  have hrest := findAllFrom_append_endIf hr
  generalize ht : "$if[]$elseif[]$endelseif".toList ++ (r ++ Keyword.endIf.text) = t
  -- the keywords of the block are those in front, for behind them there is no `$`
  have hopeners : Keyword.ifOpen.findLast? t = some (Keyword.ifOpen.spanAt 0) := by
    have hall : Keyword.ifOpen.findAll t =
        Keyword.ifOpen.spanAt 0 :: Keyword.ifOpen.findAllFrom 24 (r ++ Keyword.endIf.text) := by
      rw [← ht]
      rfl
    rw [Keyword.findLast?, hall, hrest]
    rfl
  have helseIfs : Keyword.elseIfOpen.findAll t = [Keyword.elseIfOpen.spanAt 5] := by
    have hall : Keyword.elseIfOpen.findAll t = Keyword.elseIfOpen.spanAt 5 ::
        Keyword.elseIfOpen.findAllFrom 24 (r ++ Keyword.endIf.text) := by
      rw [← ht]
      rfl
    rw [hall, hrest]
    rfl
  have hend : Keyword.endIf.find? t 5 = some (Keyword.endIf.spanAt (24 + r.length)) := by
    have hall : Keyword.endIf.findAllFrom 5 (t.drop 5) =
        Keyword.endIf.findAllFrom 24 (r ++ Keyword.endIf.text) := by
      rw [← ht]
      rfl
    rw [Keyword.find?_eq_head?, hall, hrest]
    rfl
  have hending : Keyword.endElseIf.find? t 14 = some (Keyword.endElseIf.spanAt 14) := by
    rw [Keyword.find?_eq_head?, ← ht]
    rfl
  have hpresent : Keyword.endIf.isPresent t = true := by
    obtain ⟨i, -, -, hi, -⟩ := Keyword.find?_eq_some_iff.1 hend
    exact Keyword.isPresent_iff.2 ⟨i, hi⟩
  have hclosing : Bracket.closing? t 3 = some 4 ∧ Bracket.closing? t 12 = some 13 := by
    rw [← ht]
    exact ⟨rfl, rfl⟩
  have hnoElse : ∀ within : Span, within.start = 24 → findElse? t within = none := by
    intro within hstart
    have hall : Keyword.otherwise.findAll t =
        Keyword.otherwise.spanAt 5 :: Keyword.otherwise.findAllFrom 24 (r ++ Keyword.endIf.text) := by
      rw [← ht]
      rfl
    rw [findElse?, hall, hrest, if_neg (by decide), firstElse?, Keyword.spanAt_start, hstart]
    split <;> rfl
  -- the `$else` of `$elseif[` lies in front of what the alternative leaves
  have hsplit : splitAtElse t (part ⟨24, 24 + r.length⟩) = (part ⟨24, 24 + r.length⟩, []) := by
    have hparts := splitAtElse_part_of_none (hnoElse ⟨24, 24 + r.length⟩ rfl) []
    simpa [splitAtElse] using hparts
  have hcut := cutAlternatives_empty hclosing.2 hending (Nat.le_add_right 24 r.length)
  have hregion : ([Keyword.elseIfOpen.spanAt 5].filter
      (·.start < (Keyword.endIf.spanAt (24 + r.length)).start)) = [Keyword.elseIfOpen.spanAt 5] := by
    rw [List.filter_eq_self, List.forall_mem_singleton]
    exact decide_eq_true (show 5 < 24 + r.length by omega)
  have hstop : (Keyword.ifOpen.spanAt 0).stop = 4 := rfl
  unfold findInnermost
  simp only [hpresent, hopeners, hstop, hclosing.1, hend, helseIfs, hregion, Bool.not_true,
    Bool.false_eq_true, if_false, Nat.reduceAdd, Nat.reduceSub]
  rw [Keyword.spanAt_start, hcut]
  simp only [hsplit]
  rfl

/-- A block is found as it is written, also where its letters are only folded like that. -/
theorem Spelling.Fits.findInnermost_of_folded {b : Spelling} (h : b.Fits)
    (ht : folded t = folded b.text) : Block.findInnermost t false = .ok (b.laid 0) := by
  have hlast : ∀ i, 0 < i → ¬ Keyword.ifOpen.StandsAt (b.text ++ []) i := by
    intro i hi hopens
    have hnone : ∀ i, ¬ Keyword.ifOpen.StandsAt [] i := fun i => Keyword.noneIn_nil _ i
    exact Nat.not_le_of_lt hi (@Spelling.Fits.le_of_ifOpen [] [] b h hnone i hopens)
  rw [← findInnermost_folded, ht, findInnermost_folded, ← List.append_nil b.text]
  exact h.findInnermost nofun rfl hlast

/-! ### Both readings -/

section

variable {r : Text} (hr : '$' ∉ r)

include hr

/-- Behind `$else` any text without a `$` may stand, so the block of such a text takes the name
for `$else`. -/
theorem exists_takes_otherwise (hname : folded name = folded (Keyword.otherwise.text ++ r))
    (hbehind : name.drop 5 = r) (hlonger : 5 < name.length) (h : Counts name .otherwise 0) :
    ∃ t i rest, Takes t .otherwise i ∧ t.drop i = name ++ rest := by
  have hif : goesOnWithIf r = false := hbehind ▸ h.2 rfl
  let b : Spelling := ⟨[], [], [], some r⟩
  have hfits : b.Fits :=
    { balanced := Bracket.Balanced.of_plain (by simp [b])
      condition := Keyword.noneIn_nil
      body := Keyword.noneIn_nil
      branches := by simp [b]
      -- the text behind `$else` does not go on with `if`
      otherwise := by
        intro other hother
        obtain rfl : r = other := by simpa [b] using hother
        exact ⟨Draft.noneIn_of_not_mem hr, hif⟩ }
  generalize ht : Keyword.ifOpen.text ++ (']' :: (name ++ Keyword.endIf.text)) = t
  -- the text with the name is the spelled block, but for folding
  have hfolded : folded t = folded b.text := by
    have htext : b.text = Keyword.ifOpen.text ++
        (']' :: ((Keyword.otherwise.text ++ r) ++ Keyword.endIf.text)) := by
      simp [b, Spelling.text, Spelling.tail, elseText]
    rw [← ht, htext, Keyword.folded_append, Keyword.folded_append, ← List.singleton_append,
      Keyword.folded_append, Keyword.folded_append, hname]
    simp [folded]
  have hfound := hfits.findInnermost_of_folded hfolded
  have hdrop : t.drop 5 = name ++ Keyword.endIf.text := by
    rw [← ht]
    rfl
  have hat : ElseAt t 5 := by
    have hrest : (name ++ Keyword.endIf.text).drop 5 = r ++ (Keyword.endIf.text ++ []) := by
      rw [List.append_nil, ← hbehind]
      exact List.drop_append_of_le_length hlonger.le
    refine ⟨?_, ?_⟩
    · rw [Keyword.StandsAt, hdrop]
      exact h.1.append Keyword.endIf.text
    · rw [← List.drop_drop, hdrop, hrest]
      exact goesOnWithIf_append r .endIf [] hif
  -- behind the `$else` there is one piece, if anything
  have hback : Tiled t 10 (b.laid 0).regionEnd (b.laid 0).otherwise [] := by
    have hpiece := Tiled.part (Nat.le_add_right 10 r.length) (.done (t := t) (10 + r.length))
    have hlen : (b.laid 0).regionEnd = 10 + r.length := by
      simp [b, Spelling.laid, regionEnd, length_elseText]
      omega
    have hother : (b.laid 0).otherwise = part ⟨10, (b.laid 0).regionEnd⟩ := rfl
    rwa [hother, hlen, ← List.append_nil (part _)]
  exact ⟨t, 5, Keyword.endIf.text,
    .otherwise hfound hat (List.nil_append []).symm (.done 5) hback, hdrop⟩

/-- Behind `$elseif[` the text is cut at the bracket that closes the condition, and brackets are
added so that there is one. -/
theorem exists_takes_elseIfOpen (hname : folded name = folded (Keyword.elseIfOpen.text ++ r)) :
    ∃ t i rest, Takes t .elseIfOpen i ∧ t.drop i = name ++ rest := by
  -- the condition ends inside the rest of the name or with the brackets added
  obtain ⟨m, inner, behind, hclosed, hnested⟩ := exists_closing r
  have hplain : '$' ∉ inner ++ ']' :: behind := by
    rw [← hclosed, List.mem_append, not_or]
    exact ⟨hr, fun hmem => absurd (List.eq_of_mem_replicate hmem) (by decide)⟩
  rw [List.mem_append, List.mem_cons, not_or, not_or] at hplain
  let b : Spelling := ⟨[], [], [⟨inner, behind, false⟩], none⟩
  have hfits : b.Fits :=
    { balanced := Bracket.Balanced.of_plain (by simp [b])
      condition := Keyword.noneIn_nil
      body := Keyword.noneIn_nil
      branches := by
        intro a ha
        obtain rfl : a = ⟨inner, behind, false⟩ := by simpa [b] using ha
        exact ⟨hnested.balanced, Draft.noneIn_of_not_mem hplain.1,
          Draft.noneIn_of_not_mem hplain.2.2⟩
      otherwise := by simp [b] }
  generalize ht : Keyword.ifOpen.text ++
    (']' :: (name ++ (List.replicate m ']' ++ Keyword.endIf.text))) = t
  have hfolded : folded t = folded b.text := by
    have hsum : inner ++ ']' :: (behind ++ Keyword.endIf.text) =
        r ++ (List.replicate m ']' ++ Keyword.endIf.text) := by
      rw [← List.append_assoc, hclosed]
      simp
    have htext : b.text = Keyword.ifOpen.text ++ (']' :: ((Keyword.elseIfOpen.text ++ r) ++
        (List.replicate m ']' ++ Keyword.endIf.text))) := by
      simp [b, Spelling.text, Spelling.tail, elseText, Branch.text, Branch.ending, hsum]
    rw [← ht, htext, Keyword.folded_append, Keyword.folded_append, ← List.singleton_append,
      Keyword.folded_append, Keyword.folded_append, hname]
    simp [folded]
  have hfound := hfits.findInnermost_of_folded hfolded
  refine ⟨t, 5, List.replicate m ']' ++ Keyword.endIf.text,
    .alternative hfound List.mem_cons_self, ?_⟩
  rw [← ht]
  rfl

/-- The name stands where the `$endelseif` of an alternative is looked for. -/
theorem exists_takes_endElseIf (hname : folded name = folded (Keyword.endElseIf.text ++ r))
    (h : Keyword.endElseIf.StandsAt name 0) :
    ∃ t i rest, Takes t .endElseIf i ∧ t.drop i = name ++ rest := by
  have hfolded : folded ("$if[]$elseif[]".toList ++ (name ++ Keyword.endIf.text)) =
      folded ("$if[]$elseif[]$endelseif".toList ++ (r ++ Keyword.endIf.text)) := by
    simp only [Keyword.folded_append, hname]
    simp [folded, Keyword.text, Keyword.letters]
  have hfound := findInnermost_endElseIf hr
  rw [← findInnermost_folded, ← hfolded, findInnermost_folded] at hfound
  exact ⟨_, 14, Keyword.endIf.text, .alternativeEnding hfound List.mem_cons_self
    (h.append Keyword.endIf.text), rfl⟩

end

/-- For every name that goes on behind a keyword there is a text in which the keyword is taken. -/
theorem Counts.exists_takes (h : Counts name k 0) (hlonger : k.size < name.length)
    (henterable : Enterable name) : ∃ t i rest, Takes t k i ∧ t.drop i = name ++ rest := by
  -- the name is the keyword and a rest, but for folding
  have hname : folded name = folded (k.text ++ name.drop k.size) := by
    have hwritten : folded k.text = k.text := by cases k <;> rfl
    have hstarts := Keyword.startsIn_iff.1 h.1
    rw [List.drop_zero] at hstarts
    rw [Keyword.folded_append, hwritten, ← hstarts, ← Keyword.folded_append,
      List.take_append_drop]
  have hr : '$' ∉ name.drop k.size := by
    have hpos : 1 ≤ k.size := by cases k <;> decide
    intro hmem
    obtain ⟨m, hm⟩ : ∃ m, k.size = 1 + m := ⟨k.size - 1, by omega⟩
    rw [hm, ← List.drop_drop, List.drop_one] at hmem
    exact (henterable _ (List.mem_of_mem_drop hmem)).1 rfl
  -- an opening or ending keyword is taken in the text before a position, with no block around it
  have hmark : k = .ifOpen ∨ k = .endIf → ∃ t i rest, Takes t k i ∧ t.drop i = name ++ rest := by
    intro hk
    have hat : k.StandsAt (name.take name.length) 0 := by
      rw [List.take_length]
      exact h.1
    exact ⟨name, 0, [], .mark hk hat, by simp⟩
  cases k with
  | ifOpen => exact hmark (.inl rfl)
  | endIf => exact hmark (.inr rfl)
  | otherwise => exact exists_takes_otherwise hr hname rfl hlonger h
  | elseIfOpen => exact exists_takes_elseIfOpen hr hname
  | endElseIf => exact exists_takes_endElseIf hr hname h.1

/-- Without a name that goes on behind a keyword no name is cut apart. -/
theorem Counts.not_cuts (hnames : ∀ name ∈ names, Enterable name → ∀ k : Keyword, Counts name k 0 →
    name.length ≤ k.size) (h : Counts t k i) : ¬ Cuts names t k i := by
  rintro ⟨name, hmem, hname, hlonger⟩
  obtain ⟨henterable, hbegins⟩ := h.of_nameBehind? hname hlonger
  exact Nat.not_le_of_lt hlonger (hnames name hmem henterable k hbegins)

/-- Keywords agree with the worklist on every text, those that are taken and all that count, if and
only if no name of the registry that can be an entry begins with a keyword and is longer. -/
theorem keywords_agree_tfae (registry : Registry) : List.TFAE [
    ∀ t k i, Takes t k i → ¬ Cuts registry.names t k i,
    ∀ t k i, Counts t k i → ¬ Cuts registry.names t k i,
    ∀ name ∈ registry.names, Enterable name → ∀ k : Keyword, Counts name k 0 →
      name.length ≤ k.size] := by
  tfae_have 2 → 1 := fun h t k i htakes => h t k i htakes.counts
  tfae_have 3 → 2 := fun h t k i hcounts => hcounts.not_cuts h
  tfae_have 1 → 3 := by
    intro h name hmem henterable k hbegins
    by_contra hlonger
    have hlonger := Nat.lt_of_not_le hlonger
    obtain ⟨t, i, rest, htakes, ht⟩ := hbegins.exists_takes hlonger henterable
    exact h t k i htakes (hbegins.cuts hlonger henterable hmem ht)
  tfae_finish

/-- A registry with one function, whose name begins with `$else`. -/
def elsewhere : Registry := Registry.empty.add (.constant "elsewhere".toList "Z".toList)

/-- The `$else` of the block is the beginning of the name that the worklist has. -/
theorem elsewhere_is_cut :
    Takes "$if[1==2]A$elsewhere[]B$endif".toList .otherwise 10 ∧
      Cuts elsewhere.names "$if[1==2]A$elsewhere[]B$endif".toList .otherwise 10 := by
  have hfound : findInnermost "$if[1==2]A$elsewhere[]B$endif".toList false =
      .ok ⟨⟨0, 29⟩, ⟨4, 8⟩, [⟨9, 10⟩], [], [⟨15, 23⟩]⟩ := by decide
  refine ⟨.otherwise hfound ⟨by decide, by decide⟩ (List.nil_append []).symm
    (.piece (by decide) (.done 10)) (.piece (by decide) (.done 23)), ?_⟩
  exact ⟨"$elsewhere".toList, by decide, by decide, by decide⟩

/-- No name of the standard library begins with a keyword. -/
theorem library_not_cuts (h : Counts t k i) : ¬ Cuts Library.registry.names t k i := by
  have hnames : ∀ name ∈ Library.registry.names, ∀ k : Keyword, k.startsIn name = false := by
    rw [Registry.names, Library.functions_registry]
    -- none of the names in the library begins with a keyword
    have hall : ∀ name ∈ Library.functions.map (·.name.text),
        [Keyword.ifOpen, .elseIfOpen, .otherwise, .endIf, .endElseIf].all
          (fun k => !k.startsIn name) = true := by
      decide +kernel
    intro name hname k
    have := List.all_eq_true.1 (hall name hname) k (by cases k <;> decide)
    simpa using this
  refine h.not_cuts fun name hname _ k hcounts => ?_
  have hstarts := hcounts.1
  rw [Keyword.StandsAt, List.drop_zero, hnames name hname k] at hstarts
  cases hstarts

end Block

end Stencil
