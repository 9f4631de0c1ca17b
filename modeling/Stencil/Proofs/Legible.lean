import Stencil.Proofs.CallSite
import Stencil.Proofs.Content
import Stencil.Proofs.WellFormed
/-!
# Texts whose names are legible

Where each `$` of a text begins one of the names, or the letters behind it end in front of something
else than another `$` (`Legible`), nothing that is put in the place of a `$` changes what stands in
front of it (`Legible.steady`). So what takes the place of a stretch that begins with a `$` brings no
name and breaks none (`Steady.occurrences_replace`), and the worklist holds each name as often as it
stands in the text (`Worklist.Separate.count_ofText`).
-/

namespace Stencil

variable {names : List Text} {name t : Text}

/-! ### How often names stand in a text -/

namespace Text

/-- How often a name stands in a text. -/
def occurrences (name : Text) : Text → Nat
  | [] => 0
  | c :: t => (if startsFolded name (c :: t) then 1 else 0) + occurrences name t

/-- The first character is where a name stands, or the name stands in the rest. -/
theorem occurrences_cons (name : Text) (c : Char) (t : Text) : occurrences name (c :: t) =
    (if startsFolded name (c :: t) then 1 else 0) + occurrences name t := rfl

/-- Text without `$` brings no occurrences. -/
theorem occurrences_of_not_mem (hname : name.head? = some '$') (h : '$' ∉ t) (rest : Text) :
    occurrences name (t ++ rest) = occurrences name rest := by
  induction t with
  | nil => rfl
  | cons c t ih =>
    have hstands : startsFolded name (c :: (t ++ rest)) = false := by
      rw [Bool.eq_false_iff]
      intro hstarts
      have := getElem?_of_startsFolded (t := c :: (t ++ rest)) (i := 0) hname hstarts
      obtain rfl : c = '$' := by simpa using this
      exact h List.mem_cons_self
    rw [List.cons_append, occurrences, hstands, ih fun hmem => h (List.mem_cons_of_mem c hmem)]
    simp

/-- What stands in front takes no occurrence away. -/
theorem occurrences_le_append (name before t : Text) :
    occurrences name t ≤ occurrences name (before ++ t) := by
  induction before with
  | nil => exact le_rfl
  | cons c before ih =>
    rw [List.cons_append, occurrences]
    omega

/-- In front of a text the name stands where it begins in the part in front. -/
theorem occurrences_append_of_forall {before : Text}
    (h : ∀ i < before.length, startsFolded name (before.drop i ++ t) = false) :
    occurrences name (before ++ t) = occurrences name t := by
  induction before with
  | nil => rfl
  | cons c before ih =>
    have hfirst := h 0 (Nat.succ_pos _)
    rw [List.drop_zero, List.cons_append] at hfirst
    rw [List.cons_append, occurrences, hfirst,
      ih fun i hi => h (i + 1) (Nat.succ_lt_succ hi)]
    simp

/-- A name that stands somewhere occurs. -/
theorem occurrences_pos {i : Nat} (hi : i < t.length)
    (h : startsFolded name (t.drop i) = true) : 0 < occurrences name t := by
  have hle := occurrences_le_append name (t.take i) (t.drop i)
  rw [List.take_append_drop] at hle
  rw [List.drop_eq_getElem_cons hi] at h hle
  rw [occurrences, if_pos h] at hle
  omega

/-- And a name that occurs stands somewhere. -/
theorem exists_of_occurrences_pos (h : 0 < occurrences name t) :
    ∃ i < t.length, startsFolded name (t.drop i) = true := by
  induction t with
  | nil => cases h
  | cons c t ih =>
    rw [occurrences] at h
    split at h
    · next hstarts => exact ⟨0, Nat.succ_pos _, hstarts⟩
    · obtain ⟨i, hi, hstarts⟩ := ih (by omega)
      exact ⟨i + 1, Nat.succ_lt_succ hi, hstarts⟩

end Text

/-- A name stands where it is written in either case of its letters. -/
theorem startsFolded_append_of_sameFolded {written : Text}
    (h : Text.sameFolded name written = true) (rest : Text) :
    Text.startsFolded name (written ++ rest) = true := by
  have hlower := Text.sameFolded_iff.1 h
  have hlen : name.length = written.length := by
    have := congrArg List.length hlower
    simpa [Text.lowerAscii] using this
  rw [Text.startsFolded_iff, hlen, List.take_left, hlower]

/-! ### Names of letters -/

/-- A letter is no blank. -/
theorem isBlank_of_isAlpha {c : Char} (h : c.isAlpha = true) : isBlank c = false := by
  rw [Content.isAlpha_iff] at h
  simp only [isBlank, Char.toNat, Bool.or_eq_false_iff, Bool.and_eq_false_iff,
    decide_eq_false_iff_not, beq_eq_false_iff_ne]
  omega

namespace Worklist

/-- Where a `$` with letters behind it stands, letters are written behind a `$`, and it stands
wherever they are. -/
theorem exists_written {a : Char} {letters : Text} (hletters : ∀ c ∈ a :: letters, c.isAlpha = true)
    (hstands : Text.startsFolded ('$' :: a :: letters) t = true) :
    ∃ c stem rest, t = '$' :: c :: (stem ++ rest) ∧ (∀ d ∈ c :: stem, d.isAlpha = true) ∧
      stem.length = letters.length ∧
      ∀ rest', Text.startsFolded ('$' :: a :: letters) ('$' :: c :: (stem ++ rest')) = true := by
  have hle := Search.startsBy_length_le hstands
  have hlower := Text.startsFolded_iff.1 hstands
  have hhead := Text.getElem?_of_startsFolded (i := 0) rfl hstands
  -- the text is long enough to have the first two characters of the name
  obtain ⟨d, c, t, rfl⟩ : ∃ d c t', t = d :: c :: t' := by
    match t, hle with
    | d :: c :: t, _ => exact ⟨d, c, t, rfl⟩
  obtain rfl : d = '$' := by simpa using hhead
  have hsame : Text.sameFolded ('$' :: a :: letters) ('$' :: c :: t.take letters.length) = true :=
    Text.sameFolded_iff.2 hlower.symm
  refine ⟨c, t.take letters.length, t.drop letters.length, by rw [List.take_append_drop],
    fun d hd => ?_, ?_, fun rest' => startsFolded_append_of_sameFolded hsame rest'⟩
  · have hlettered : ∀ name ∈ ['$' :: a :: letters], Lettered name := by
      intro name hname
      obtain rfl := List.mem_singleton.1 hname
      exact ⟨a :: letters, rfl, hletters⟩
    exact Content.isAlpha_of_mem_stem hlettered ⟨_, List.mem_cons_self, hsame⟩ hd
  · simp only [List.length_cons] at hle
    rw [List.length_take]
    omega

/-- Control names are written in letters, one at least. -/
theorem exists_eq_cons_of_control (h : name ∈ controlNames) :
    ∃ a stem, name = '$' :: a :: stem ∧ ∀ c ∈ a :: stem, c.isAlpha = true := by
  simp only [controlNames, List.mem_cons, List.not_mem_nil, or_false] at h
  rcases h with rfl | rfl
  · exact ⟨'i', ['f'], rfl, by simp⟩
  · exact ⟨'e', ['n', 'd', 'i', 'f'], rfl, by simp⟩

/-- Every name to look for is a `$` with letters behind it, at least one. -/
theorem Separate.exists_eq_cons (h : Separate names)
    (hname : name ∈ Worklist.withControls names) :
    ∃ a stem, name = '$' :: a :: stem ∧ ∀ c ∈ a :: stem, c.isAlpha = true := by
  rcases List.mem_append.1 hname with hname | hname
  · obtain ⟨stem, rfl, hletters⟩ := h.letters name hname
    cases stem with
    -- a `$` alone would begin the control names
    | nil => cases h.not_begins ['$'] hname ['$', 'i', 'f'] List.mem_cons_self
    | cons a stem => exact ⟨a, stem, rfl, hletters⟩
  · exact exists_eq_cons_of_control (List.mem_filter.1 hname).1

/-- Every name of the worklist begins with a `$`. -/
theorem Separate.head? (h : Separate names) (hname : name ∈ Worklist.withControls names) :
    name.head? = some '$' := by
  obtain ⟨a, stem, rfl, -⟩ := h.exists_eq_cons hname
  rfl

/-- What is written in letters ends in front of a character that is none. -/
theorem startsFolded_append_cons {a b : Char} {letters : Text}
    (halpha : ∀ c ∈ a :: letters, c.isAlpha = true) (hb : b.isAlpha = false) (hdollar : b ≠ '$')
    (t rest : Text) : Text.startsFolded ('$' :: a :: letters) (t ++ b :: rest) =
      Text.startsFolded ('$' :: a :: letters) t := by
  rw [Bool.eq_iff_iff]
  refine ⟨fun hstarts => ?_, fun hstarts => Search.startsBy_append _ hstarts⟩
  obtain ⟨c, stem, more, heq, hletters, -, hwritten⟩ := exists_written halpha hstarts
  -- the name ends in the text, or it would go on over a character that is no letter
  rcases List.append_eq_append_iff.1
    (show t ++ b :: rest = ('$' :: c :: stem) ++ more from heq) with
    ⟨mid, hmid, hrest⟩ | ⟨mid, rfl, -⟩
  · cases mid with
    | nil =>
      have hall := hwritten []
      rw [List.append_nil] at hall hmid
      rwa [← hmid]
    | cons d mid =>
      obtain ⟨rfl, -⟩ := List.cons.inj hrest
      have hmem : b ∈ '$' :: c :: stem := by rw [hmid]; simp
      rw [hletters b ((List.mem_cons.1 hmem).resolve_left hdollar)] at hb
      cases hb
  · exact hwritten mid

/-- Where one of the names stands no control name does. -/
theorem Separate.not_control (h : Separate names) (hname : name ∈ names)
    (hstands : Text.startsFolded name t = true) :
    ∀ control ∈ controlNames, Text.startsFolded control t = false := by
  intro control hcontrol
  rw [Bool.eq_false_iff]
  intro hstarts
  rcases Nat.le_total name.length control.length with hle | hle
  · have := h.not_begins name hname control hcontrol
    rw [Text.startsFolded_of_length_le hstands hstarts hle] at this
    cases this
  · have := h.not_extends name hname control hcontrol
    rw [Text.startsFolded_of_length_le hstarts hstands hle] at this
    cases this

/-- The control names are names to look for. -/
theorem Separate.mem_withControls (h : Separate names) {control : Text}
    (hcontrol : control ∈ controlNames) : control ∈ Worklist.withControls names := by
  refine List.mem_append_right _ (List.mem_filter.2 ⟨hcontrol, ?_⟩)
  rw [Bool.not_eq_true', List.any_eq_false]
  intro name hname hsame
  have hstarts := startsFolded_append_of_sameFolded hsame []
  rw [List.append_nil, h.not_extends name hname control hcontrol] at hstarts
  cases hstarts

/-- None of the names is a control name. -/
theorem Separate.isControl (h : Separate names) (hname : name ∈ names) : isControl name = false := by
  rw [Worklist.isControl, List.any_eq_false]
  intro control hcontrol hsame
  have hstarts := startsFolded_append_of_sameFolded hsame []
  rw [List.append_nil, h.not_extends name hname control hcontrol] at hstarts
  cases hstarts

end Worklist

/-- Where a block begins, the control name of blocks stands. -/
theorem Keyword.startsFolded_of_standsAt {j : Nat} (h : Keyword.ifOpen.StandsAt t j) :
    Text.startsFolded ['$', 'i', 'f'] (t.drop j) = true := by
  rw [Keyword.StandsAt, Keyword.startsIn_eq] at h
  have hword := Search.startsBy_of_append (p := ['$', 'i', 'f']) (q := ['[']) h
  refine Search.startsBy_mono hword fun a ha c _ hfold => ?_
  have hne : c ≠ 'ſ' := by
    rintro rfl
    simp only [List.mem_cons, List.not_mem_nil, or_false] at ha
    rcases ha with rfl | rfl | rfl <;> cases hfold
  have hlower : a.toLower = a := by
    simp only [List.mem_cons, List.not_mem_nil, or_false] at ha
    rcases ha with rfl | rfl | rfl <;> rfl
  rw [Keyword.foldLetter, if_neg hne] at hfold
  rw [sameLetter, hlower]
  exact hfold

/-! ### Names that keep their places -/

/-- Which of the names a `$` of the text begins does not depend on what stands from the next `$`
on. -/
def Steady (names : List Text) (t : Text) : Prop :=
  ∀ before behind, '$' :: (before ++ '$' :: behind) <:+ t → ∀ name ∈ names, ∀ new,
    Text.startsFolded name ('$' :: (before ++ new)) =
      Text.startsFolded name ('$' :: (before ++ '$' :: behind))

namespace Steady

variable {before mid behind new other : Text} {left : List Text}

/-- What is steady stays so without its first character. -/
theorem tail {c : Char} (h : Steady names (c :: t)) : Steady names t :=
  fun before behind hsuffix => h before behind (hsuffix.trans (List.suffix_cons c t))

/-- What takes the place of a stretch that begins with a `$` changes no name in front of it. -/
theorem startsFolded_replace (h : Steady names (before ++ '$' :: behind)) (hname : name ∈ names)
    (hhead : name.head? = some '$') {i : Nat} (hi : i < before.length) (new : Text) :
    Text.startsFolded name ((before ++ new).drop i) =
      Text.startsFolded name ((before ++ '$' :: behind).drop i) := by
  induction before generalizing i with
  | nil => cases hi
  | cons c before ih =>
    cases i with
    | succ i => exact ih h.tail (Nat.lt_of_succ_lt_succ hi)
    | zero =>
      by_cases hc : c = '$'
      · subst hc
        exact h before behind (List.suffix_refl _) name hname new
      -- a name begins with a `$`, so it does not stand here
      · have hnot : ∀ rest, Text.startsFolded name (c :: rest) = false := by
          intro rest
          rw [Bool.eq_false_iff]
          intro hstarts
          have := Text.getElem?_of_startsFolded (t := c :: rest) (i := 0) hhead hstarts
          exact hc (by simpa using this)
        exact (hnot _).trans (hnot _).symm

/-- In front of a stretch that begins with a `$` a name stands as often as in front of anything that
takes its place. -/
theorem occurrences_append (h : Steady names (before ++ '$' :: behind)) (hname : name ∈ names)
    (hhead : name.head? = some '$') (new : Text) :
    Text.occurrences name (before ++ new) + Text.occurrences name ('$' :: behind) =
      Text.occurrences name (before ++ '$' :: behind) + Text.occurrences name new := by
  induction before with
  | nil => rw [List.nil_append, List.nil_append, Nat.add_comm]
  | cons c before ih =>
    have hstep := ih h.tail
    have hsame : Text.startsFolded name (c :: (before ++ new)) =
        Text.startsFolded name (c :: (before ++ '$' :: behind)) :=
      h.startsFolded_replace hname hhead (Nat.succ_pos before.length) new
    rw [List.cons_append, List.cons_append, Text.occurrences_cons name c,
      Text.occurrences_cons name c, hsame]
    omega

/-- What takes the place of a stretch that begins with a `$` takes the names away that stand in
it. -/
theorem occurrences_replace (h : Steady names (before ++ '$' :: (mid ++ behind)))
    (hname : name ∈ names) (hhead : name.head? = some '$') (hnew : '$' ∉ new) :
    Text.occurrences name (before ++ (new ++ behind)) +
        (if Text.startsFolded name ('$' :: (mid ++ behind)) then 1 else 0) +
        Text.occurrences name (mid ++ behind) =
      Text.occurrences name (before ++ '$' :: (mid ++ behind)) +
        Text.occurrences name behind := by
  have happend := h.occurrences_append hname hhead (new ++ behind)
  rw [Text.occurrences_of_not_mem hhead hnew, Text.occurrences_cons _ '$'] at happend
  omega

/-- A worklist that has a name less when its call is replaced goes on to hold every name as often as
it stands in the text. -/
theorem occurrences_le_count (h : Steady names (before ++ '$' :: (mid ++ behind)))
    (hat : Text.startsFolded name ('$' :: (mid ++ behind)) = true) (hnew : '$' ∉ new)
    (hother : other ∈ names) (hhead : other.head? = some '$')
    (hcount : Text.occurrences other (before ++ '$' :: (mid ++ behind)) ≤
      (name :: left).count other) :
    Text.occurrences other (before ++ (new ++ behind)) ≤ left.count other := by
  have hle := Text.occurrences_le_append other mid behind
  have hreplace := h.occurrences_replace hother hhead hnew
  rw [List.count_cons] at hcount
  split at hcount
  · next heq =>
    obtain rfl : name = other := beq_iff_eq.1 heq
    rw [if_pos hat] at hreplace
    omega
  · omega

end Steady

/-! ### What a `$` begins -/

/-- The `$` at the head of the text begins one of the names, or the letters behind it end in front
of something else than another `$`. -/
def Reads (names : List Text) (t : Text) : Prop :=
  (∃ name ∈ Worklist.withControls names, Text.startsFolded name t = true) ∨
    (t.tail.dropWhile Char.isAlpha).head? ≠ some '$'

instance (names : List Text) (t : Text) : Decidable (Reads names t) :=
  inferInstanceAs (Decidable (_ ∨ _))

/-- What every `$` of the text begins does not depend on what stands from the next `$` on. -/
def Legible (names : List Text) (t : Text) : Prop :=
  ∀ i, t[i]? = some '$' → Reads names (t.drop i)

instance (names : List Text) (t : Text) : Decidable (Legible names t) :=
  decidable_of_iff (∀ i < t.length, t[i]? = some '$' → Reads names (t.drop i))
    ⟨fun h i hi => h i (List.getElem?_eq_some_iff.1 hi).1 hi, fun h i _ hi => h i hi⟩

namespace Reads

variable {before behind : Text}

/-- What stands between two `$` of which the first begins no name ends in front of the second. -/
theorem exists_end (h : ((before ++ '$' :: behind).dropWhile Char.isAlpha).head? ≠ some '$') :
    ∃ letters c more, before = letters ++ c :: more ∧ (∀ a ∈ letters, a.isAlpha = true) ∧
      c.isAlpha = false ∧ c ≠ '$' := by
  rw [List.dropWhile_append] at h
  -- the letters end in front of the second `$`, or right at it
  cases hdrop : before.dropWhile Char.isAlpha with
  | nil =>
    rw [hdrop] at h
    exact absurd rfl h
  | cons c more =>
    rw [hdrop] at h
    refine ⟨before.takeWhile Char.isAlpha, c, more, ?_, fun a ha => List.mem_takeWhile_imp ha,
      ?_, ?_⟩
    · rw [← hdrop, List.takeWhile_append_dropWhile]
    · have hne : before.dropWhile Char.isAlpha ≠ [] := by simp [hdrop]
      simpa [hdrop] using List.head_dropWhile_not Char.isAlpha hne
    · rintro rfl
      exact h rfl

/-- A `$` in front of another one begins the same whatever takes the place of the other one. -/
theorem append (hnames : Worklist.Separate names)
    (h : Reads names ('$' :: (before ++ '$' :: behind))) (new : Text) :
    Reads names ('$' :: (before ++ new)) ∧
      ∀ name ∈ Worklist.withControls names, Text.startsFolded name ('$' :: (before ++ new)) =
        Text.startsFolded name ('$' :: (before ++ '$' :: behind)) := by
  rcases h with ⟨entry, hlisted, hstands⟩ | hplain
  · obtain ⟨a, letters, hentryEq, halpha⟩ := hnames.exists_eq_cons hlisted
    rw [hentryEq] at hstands
    obtain ⟨c, stem, rest, heq, hletters, -, hwritten⟩ := Worklist.exists_written halpha hstands
    -- the letters of the name end in front of the other `$`
    obtain ⟨more, rfl⟩ : ∃ more, before = c :: stem ++ more := by
      rcases List.append_eq_append_iff.1
        (show before ++ '$' :: behind = (c :: stem) ++ rest from (List.cons.inj heq).2) with
        ⟨mid, hmid, hrest⟩ | ⟨mid, rfl, -⟩
      · cases mid with
        | nil => exact ⟨[], by simpa using hmid.symm⟩
        | cons d mid =>
          obtain ⟨rfl, -⟩ := List.cons.inj hrest
          have := hletters '$' (by rw [hmid]; simp)
          cases this
      · exact ⟨mid, rfl⟩
    rw [← hentryEq] at hstands hwritten
    have hstands' : ∀ rest, Text.startsFolded entry ('$' :: (c :: stem ++ more ++ rest)) = true := by
      intro rest
      rw [List.append_assoc]
      exact hwritten _
    refine ⟨.inl ⟨entry, hlisted, hstands' new⟩, fun name hname => ?_⟩
    rw [Bool.eq_iff_iff]
    constructor <;> intro hname'
    · rwa [hnames.withControls.unique hname hlisted hname' (hstands' new)]
    · rw [hnames.withControls.unique hname hlisted hname' hstands]
      exact hstands' new
  · obtain ⟨letters, c, more, rfl, hletters, hc, hdollar⟩ := exists_end hplain
    refine ⟨.inr ?_, fun name hname => ?_⟩
    · rw [List.tail_cons, List.append_assoc, List.dropWhile_append_of_pos hletters,
        List.cons_append, List.dropWhile_cons_of_neg (by simp [hc]), List.head?_cons]
      exact fun heq => hdollar (Option.some.inj heq)
    · obtain ⟨a, stem, rfl, halpha⟩ := hnames.exists_eq_cons hname
      have hends : ∀ rest, Text.startsFolded ('$' :: a :: stem)
          ('$' :: (letters ++ c :: more ++ rest)) =
            Text.startsFolded ('$' :: a :: stem) ('$' :: letters) := by
        intro rest
        rw [List.append_assoc, List.cons_append, ← List.cons_append]
        exact Worklist.startsFolded_append_cons halpha hc hdollar ('$' :: letters) (more ++ rest)
      rw [hends, hends]

end Reads

namespace Legible

variable {before behind : Text}

/-- A legible text is legible without its first character. -/
theorem tail {c : Char} (h : Legible names (c :: t)) : Legible names t := fun i hi => h (i + 1) hi

/-- And without any text in front. -/
theorem right (h : Legible names (before ++ t)) : Legible names t := by
  induction before with
  | nil => exact h
  | cons c before ih => exact ih h.tail

/-- What holds of every `$` of a text holds behind a text without any, too. -/
theorem forall_append_of_not_mem {P : Text → Prop} (h : '$' ∉ before)
    (ht : ∀ i, t[i]? = some '$' → P (t.drop i)) :
    ∀ i, (before ++ t)[i]? = some '$' → P ((before ++ t).drop i) := by
  intro i hi
  rcases Nat.lt_or_ge i before.length with hlt | hge
  · rw [List.getElem?_append_left hlt] at hi
    exact absurd (List.mem_of_getElem? hi) h
  · rw [List.getElem?_append_right hge] at hi
    rw [List.drop_append, List.drop_eq_nil_of_le hge, List.nil_append]
    exact ht _ hi

/-- What takes the place of a stretch that begins with a `$` breaks no name. -/
theorem replace (hnames : Worklist.Separate names)
    (h : Legible names (before ++ '$' :: (t ++ behind))) {new : Text} (hnew : '$' ∉ new) :
    Legible names (before ++ (new ++ behind)) := by
  induction before with
  | nil =>
    rw [List.nil_append]
    exact forall_append_of_not_mem hnew h.tail.right
  | cons c before ih =>
    intro i hi
    cases i with
    | zero =>
      obtain rfl : c = '$' := by simpa using hi
      exact ((h 0 rfl).append hnames (new ++ behind)).1
    | succ i => exact ih h.tail i hi

/-- Which names stand in front of a `$` does not depend on what it begins. -/
theorem steady (hnames : Worklist.Separate names) (h : Legible names t) :
    Steady (Worklist.withControls names) t := by
  rintro before behind ⟨lead, rfl⟩ name hname new
  exact ((h.right 0 rfl).append hnames new).2 name hname

/-- What takes its place changes no name in front of it. -/
theorem startsFolded_replace (hnames : Worklist.Separate names)
    (h : Legible names (before ++ '$' :: behind)) (hname : name ∈ Worklist.withControls names)
    {i : Nat} (hi : i < before.length) (new : Text) :
    Text.startsFolded name ((before ++ new).drop i) =
      Text.startsFolded name ((before ++ '$' :: behind).drop i) :=
  (h.steady hnames).startsFolded_replace hname (hnames.head? hname) hi new

variable {left : List Text} {mid new other : Text}

/-! #### Names that are done

The worklist has a name less when its call is replaced, and the text has the names less that stood
in the call. -/

/-- The worklist goes on to hold every name as often as it stands in the text. -/
theorem occurrences_le_count (hnames : Worklist.Separate names)
    (h : Legible names (before ++ '$' :: (mid ++ behind)))
    (hat : Text.startsFolded name ('$' :: (mid ++ behind)) = true) (hnew : '$' ∉ new)
    (hother : other ∈ Worklist.withControls names)
    (hcount : Text.occurrences other (before ++ '$' :: (mid ++ behind)) ≤
      (name :: left).count other) :
    Text.occurrences other (before ++ (new ++ behind)) ≤ left.count other :=
  (h.steady hnames).occurrences_le_count hat hnew hother (hnames.head? hother) hcount

/-- The worklist holds no name more often than it stands in the text, unless the name stood in the
call. -/
theorem count_le_occurrences (hnames : Worklist.Separate names)
    (h : Legible names (before ++ '$' :: (mid ++ behind)))
    (hname : name ∈ Worklist.withControls names)
    (hat : Text.startsFolded name ('$' :: (mid ++ behind)) = true) (hnew : '$' ∉ new)
    (hother : other ∈ Worklist.withControls names)
    (hnone : ∀ m < mid.length, Text.startsFolded other (mid.drop m ++ behind) = false)
    (hcount : (name :: left).count other ≤
      Text.occurrences other (before ++ '$' :: (mid ++ behind))) :
    left.count other ≤ Text.occurrences other (before ++ (new ++ behind)) := by
  have hsame := Text.occurrences_append_of_forall hnone
  have hreplace := (h.steady hnames).occurrences_replace hother (hnames.head? hother) hnew
  rw [List.count_cons] at hcount
  -- the entry is left out of the worklist, and its occurrence is gone from the text
  by_cases heq : name = other
  · subst heq
    rw [if_pos hat] at hreplace
    rw [if_pos (beq_self_eq_true name)] at hcount
    omega
  · rw [if_neg fun hstarts => heq (hnames.withControls.unique hname hother hat hstarts)] at hreplace
    rw [if_neg (by simpa using heq)] at hcount
    omega

/-- A place at which a name stands is one afterwards. -/
theorem exists_startsFolded (hnames : Worklist.Separate names)
    (h : Legible names (before ++ '$' :: (mid ++ behind))) {z : Option Nat} {x : Nat}
    {placesBefore placesMid placesBehind : List (Option Nat)}
    (hbefore : placesBefore.length = before.length) (hmid : placesMid.length = mid.length)
    (hnamed : ∀ i, (placesBefore ++ z :: (placesMid ++ placesBehind))[i]? = some (some x) →
      ∃ name ∈ names,
        Text.startsFolded name ((before ++ '$' :: (mid ++ behind)).drop i) = true) {i : Nat}
    (hi : (placesBefore ++ (List.replicate new.length none ++ placesBehind))[i]? =
      some (some x)) :
    ∃ name ∈ names, Text.startsFolded name ((before ++ (new ++ behind)).drop i) = true := by
  -- the place stands in front of the call or behind it
  rcases Nat.lt_or_ge i before.length with hfront | hback
  · rw [List.getElem?_append_left (hbefore ▸ hfront)] at hi
    obtain ⟨name, hname, hstarts⟩ :=
      hnamed i (by rw [List.getElem?_append_left (hbefore ▸ hfront), hi])
    exact ⟨name, hname, by
      rw [h.startsFolded_replace hnames (List.mem_append_left _ hname) hfront, hstarts]⟩
  · obtain ⟨n, rfl⟩ := Nat.exists_eq_add_of_le hback
    rw [← hbefore, List.getElem?_append_right (Nat.le_add_right ..),
      Nat.add_sub_cancel_left] at hi
    rcases Nat.lt_or_ge n new.length with hwithin | hbeyond
    · rw [List.getElem?_append_left (by rwa [List.length_replicate])] at hi
      cases List.eq_of_mem_replicate (List.mem_of_getElem? hi)
    · obtain ⟨k, rfl⟩ := Nat.exists_eq_add_of_le hbeyond
      rw [List.getElem?_append_right (by rw [List.length_replicate]; omega),
        List.length_replicate, Nat.add_sub_cancel_left] at hi
      obtain ⟨name, hname, hstarts⟩ := hnamed (placesBefore.length + (placesMid.length + k + 1)) (by
        rw [List.getElem?_append_right (Nat.le_add_right ..), Nat.add_sub_cancel_left,
          List.getElem?_cons_succ, List.getElem?_append_right (Nat.le_add_right ..),
          Nat.add_sub_cancel_left, hi])
      refine ⟨name, hname, ?_⟩
      rw [hbefore, hmid, ← List.drop_drop, List.drop_left, List.drop_succ_cons, ← List.drop_drop,
        List.drop_left] at hstarts
      rw [← List.drop_drop, List.drop_left, ← List.drop_drop, List.drop_left, hstarts]

end Legible

/-! ### The worklist of a text -/

/-- The entry of the `$` is the name that stands there, if there is one. -/
theorem Worklist.Separate.nameBehind? (hnames : Worklist.Separate names) (t : Text) :
    (∃ entry ∈ Worklist.withControls names, Text.startsFolded entry ('$' :: t) = true ∧
      Worklist.nameBehind? (Worklist.withControls names)
        (t.takeWhile (fun c => c ≠ '$' && c ≠ '\n')) = some entry) ∨
    ((∀ name ∈ Worklist.withControls names, Text.startsFolded name ('$' :: t) = false) ∧
      Worklist.nameBehind? (Worklist.withControls names)
        (t.takeWhile (fun c => c ≠ '$' && c ≠ '\n')) = none) := by
  have hne : ∀ name ∈ Worklist.withControls names, name ≠ [] := by
    rintro name hname rfl
    obtain ⟨_, _, hnil, -⟩ := hnames.exists_eq_cons hname
    cases hnil
  by_cases hstands : ∃ name ∈ Worklist.withControls names, Text.startsFolded name ('$' :: t) = true
  · obtain ⟨entry, hlisted, hstands⟩ := hstands
    refine .inl ⟨entry, hlisted, hstands, ?_⟩
    obtain ⟨a, letters, hentryEq, halpha⟩ := hnames.exists_eq_cons hlisted
    rw [hentryEq] at hstands
    obtain ⟨c, stem, rest, heq, hletters, -, hwritten⟩ := Worklist.exists_written halpha hstands
    rw [← hentryEq] at hwritten
    obtain rfl := (List.cons.inj heq).2
    have hall : ∀ d ∈ c :: stem, (d ≠ '$' && d ≠ '\n') = true := by
      intro d hd
      have halpha := hletters d hd
      rw [Bool.and_eq_true, decide_eq_true_eq, decide_eq_true_eq]
      constructor <;> rintro rfl <;> cases halpha
    rw [← List.cons_append, List.takeWhile_append_of_pos hall]
    refine hnames.withControls.nameBehind? hne hlisted (hwritten _) ?_
    rw [Text.isBlankText, List.all_eq_false]
    exact ⟨c, by simp, by rw [isBlank_of_isAlpha (hletters c List.mem_cons_self)]; decide⟩
  · have hnone : ∀ name ∈ Worklist.withControls names,
        Text.startsFolded name ('$' :: t) = false :=
      fun name hname => Bool.eq_false_iff.2 fun hstarts => hstands ⟨name, hname, hstarts⟩
    refine .inr ⟨hnone, ?_⟩
    rw [Worklist.nameBehind?_of_ne_nil hne]
    split
    · rfl
    · cases hlongest : Worklist.longestName? (Worklist.withControls names)
          ('$' :: t.takeWhile (fun c => c ≠ '$' && c ≠ '\n')) with
      | none => rfl
      | some name =>
        -- what stands at the head of the piece stands at the head of the text
        have hstarts := Worklist.startsFolded_of_longestName? hlongest
        have hwhole := Search.startsBy_append
          (t.dropWhile (fun c => c ≠ '$' && c ≠ '\n')) hstarts
        rw [List.cons_append, List.takeWhile_append_dropWhile] at hwhole
        have := hnone name (Worklist.longestName?_mem hlongest)
        rw [Text.startsFolded, hwhole] at this
        cases this

/-- Where the entry of each `$` is a name exactly if the name stands there, the worklist holds the
name as often as it stands in the text. -/
theorem Worklist.count_ofText_of_forall {all : List Text} (hhead : name.head? = some '$')
    (h : ∀ rest, '$' :: rest <:+ t →
      (Worklist.nameBehind? all (rest.takeWhile (fun c => c ≠ '$' && c ≠ '\n')) = some name ↔
        Text.startsFolded name ('$' :: rest) = true)) :
    (Worklist.ofText all t).count name = Text.occurrences name t := by
  rw [(Worklist.ofText_perm _ t).count_eq]
  induction t with
  | nil => rfl
  | cons c t ih =>
    have ih := ih fun rest hsuffix => h rest (hsuffix.trans (List.suffix_cons c t))
    rw [Worklist.behind, Text.occurrences]
    split
    · next hc =>
      subst hc
      -- the entry of this `$` is the name exactly when the name stands here
      have hentry := h t (List.suffix_refl _)
      rw [List.filterMap_cons]
      cases hbehind : Worklist.nameBehind? all
          (t.takeWhile (fun c => c ≠ '$' && c ≠ '\n')) with
      | none =>
        have hstands : Text.startsFolded name ('$' :: t) = false := by
          rw [Bool.eq_false_iff]
          intro hstarts
          rw [hentry.2 hstarts] at hbehind
          cases hbehind
        rw [hstands]
        simpa using ih
      | some entry =>
        rw [hbehind, Option.some_inj] at hentry
        simp only [List.count_cons, beq_iff_eq, hentry, ih]
        exact Nat.add_comm _ _
    · next hc =>
      have hstands : Text.startsFolded name (c :: t) = false := by
        rw [Bool.eq_false_iff]
        intro hstarts
        have := Text.getElem?_of_startsFolded (t := c :: t) (i := 0) hhead hstarts
        exact hc (by simpa using this)
      rw [ih, hstands]
      simp

/-- The worklist of a text holds the names as often as they stand there. -/
theorem Worklist.Separate.count_ofText (hnames : Worklist.Separate names)
    (hname : name ∈ Worklist.withControls names) (t : Text) :
    (Worklist.ofText (Worklist.withControls names) t).count name = Text.occurrences name t := by
  refine Worklist.count_ofText_of_forall (hnames.head? hname) fun rest _ => ?_
  rcases hnames.nameBehind? rest with ⟨entry, hentry, hstands, hbehind⟩ | ⟨hnone, hbehind⟩
  · rw [hbehind, Option.some_inj]
    constructor
    · rintro rfl
      exact hstands
    · exact fun hstarts => hnames.withControls.unique hentry hname hstands hstarts
  · rw [hbehind, hnone name hname]
    simp

/-! ### Texts without control names -/

/-- No control name stands in the text. -/
def Uncontrolled (t : Text) : Prop :=
  ∀ control ∈ Worklist.controlNames, Text.occurrences control t = 0

instance (t : Text) : Decidable (Uncontrolled t) := inferInstanceAs (Decidable (∀ control ∈ _, _))

namespace Uncontrolled

/-- In an uncontrolled text no control name stands anywhere. -/
theorem startsFolded (h : Uncontrolled t) {control : Text}
    (hcontrol : control ∈ Worklist.controlNames) (i : Nat) :
    Text.startsFolded control (t.drop i) = false := by
  rw [Bool.eq_false_iff]
  intro hstarts
  obtain ⟨a, letters, rfl, -⟩ := Worklist.exists_eq_cons_of_control hcontrol
  have hlt := (List.getElem?_eq_some_iff.1 (Text.getElem?_of_startsFolded rfl hstarts)).1
  exact (Text.occurrences_pos hlt hstarts).ne' (h _ hcontrol)

/-- The worklist holds no control name. -/
theorem mem_names_of_mem_ofText (h : Uncontrolled t)
    (hname : name ∈ Worklist.ofText (Worklist.withControls names) t) : name ∈ names := by
  obtain ⟨i, hi⟩ := Worklist.stands_of_mem_ofText hname
  refine (List.mem_append.1 (Worklist.mem_of_mem_ofText hname)).resolve_right fun hmem => ?_
  rw [h.startsFolded (List.mem_filter.1 hmem).1] at hi
  cases hi

/-- No block begins in the text. -/
theorem not_standsAt (h : Uncontrolled t) (j : Nat) : ¬ Keyword.ifOpen.StandsAt t j := by
  intro hj
  have hstarts := Keyword.startsFolded_of_standsAt hj
  rw [h.startsFolded List.mem_cons_self] at hstarts
  cases hstarts

/-- No block begins in front of a line break that ends the text. -/
theorem not_standsAt_break (h : Uncontrolled t) (rest : Text) {j : Nat} (hj : j < t.length) :
    ¬ Keyword.ifOpen.StandsAt (t ++ '\n' :: rest) j := by
  intro hstands
  have hstarts := Keyword.startsFolded_of_standsAt hstands
  rw [List.drop_append_of_le_length hj.le,
    Worklist.startsFolded_append_cons (by simp) rfl (by decide),
    h.startsFolded List.mem_cons_self] at hstarts
  cases hstarts

/-- No position up to its end is inside a block. -/
theorem isInside (h : Uncontrolled t) (rest : Text) {i : Nat} (hi : i ≤ t.length) :
    Block.isInside (t ++ rest) i = false := by
  have hpart : Block.isInside (t ++ rest) i = Block.isInside t i := by
    rw [Block.isInside, List.take_append_of_le_length hi]
    rfl
  rw [hpart]
  exact Block.isInside_eq_false h.not_standsAt i

end Uncontrolled

end Stencil
