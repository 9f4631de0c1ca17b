import Stencil.Proofs.Legible
import Stencil.Proofs.Scan
import Stencil.Proofs.Shown
/-!
# Texts in which every `$` begins a call

Where every `$` of a text begins a name with its argument list (`AllCalled`), what a `$` begins ends
in front of the next one (`AllCalled.steady`), and the argument list of a call is found right behind
its name (`CallSite.listOpening?_call`, `Bracket.Balanced.closing?_call`). The worklist of such a
text holds the names that are called, each as often as it stands there (`AllCalled.count_ofText`),
also where a name goes on like a control name: the bracket behind a name tells the two apart. What a
tree shows is such a text (`Content.Shows.allCalled`).
-/

namespace Stencil

/-! ### Calls at the head of a text -/

/-- A call of one of the names begins the text: the name, in either case of its letters, and the
bracket right behind it. -/
def Called (names : List Text) (t : Text) : Prop :=
  ∃ name ∈ names, ∃ stem rest, t = '$' :: (stem ++ '[' :: rest) ∧
    Text.sameFolded name ('$' :: stem) = true

/-- Every `$` of the text begins a call. -/
def AllCalled (names : List Text) (t : Text) : Prop :=
  ∀ i, t[i]? = some '$' → Called names (t.drop i)

variable {names : List Text} {name t : Text}

/-- Whether a call begins a text is seen from the name and the character behind it. -/
theorem called_iff : Called names t ↔ ∃ name ∈ names, 0 < name.length ∧ t.head? = some '$' ∧
    Text.sameFolded name (t.take name.length) = true ∧ t[name.length]? = some '[' := by
  refine exists_congr fun name => and_congr_right fun _ => ?_
  constructor
  -- the part of the text that is like the name has the length of the name
  · rintro ⟨stem, rest, rfl, hsame⟩
    have hlen : name.length = ('$' :: stem).length := by
      simpa [Text.lowerAscii] using congrArg List.length (Text.sameFolded_iff.1 hsame)
    refine ⟨by simp [hlen], rfl, ?_, ?_⟩
    · rwa [hlen, ← List.cons_append, List.take_left]
    · rw [hlen, ← List.cons_append, List.getElem?_append_right le_rfl, Nat.sub_self]
      rfl
  · rintro ⟨hpos, hhead, hsame, hopen⟩
    obtain ⟨t, rfl⟩ := List.head?_eq_some_iff.1 hhead
    obtain ⟨n, hn⟩ := Nat.exists_eq_succ_of_ne_zero hpos.ne'
    rw [hn, List.take_succ_cons] at hsame
    rw [hn, List.getElem?_cons_succ] at hopen
    obtain ⟨hlt, hget⟩ := List.getElem?_eq_some_iff.1 hopen
    refine ⟨t.take n, t.drop (n + 1), ?_, hsame⟩
    rw [← hget, ← List.drop_eq_getElem_cons hlt, List.take_append_drop]

instance (names : List Text) (t : Text) : Decidable (Called names t) :=
  decidable_of_iff _ called_iff.symm

instance (names : List Text) (t : Text) : Decidable (AllCalled names t) :=
  decidable_of_iff (∀ i < t.length, t[i]? = some '$' → Called names (t.drop i))
    ⟨fun h i hi => h i (List.getElem?_eq_some_iff.1 hi).1 hi, fun h i _ hi => h i hi⟩

/-- Behind its first character a text has the same calls. -/
theorem AllCalled.tail {c : Char} (h : AllCalled names (c :: t)) : AllCalled names t :=
  fun i hi => h (i + 1) hi

/-- So it has behind any text in front. -/
theorem AllCalled.right (before : Text) (h : AllCalled names (before ++ t)) :
    AllCalled names t := by
  induction before with
  | nil => exact h
  | cons c before ih => exact ih h.tail

/-- A written name begins the text with a name that is like it. -/
theorem startsFolded_call {stem : Text} (h : Text.sameFolded name ('$' :: stem) = true)
    (rest : Text) : Text.startsFolded name ('$' :: (stem ++ rest)) = true :=
  startsFolded_append_of_sameFolded h rest

/-! ### The names of a text of calls -/

namespace Worklist

/-- Names that are separate can be called. -/
theorem Separate.callable (h : Separate names) : Callable names :=
  ⟨h.letters, h.prefixFree, fun _ hname => h.isControl hname⟩

instance : Coe (Separate names) (Callable names) := ⟨Separate.callable⟩

/-- A name of letters ends in front of what is neither a letter nor a `$`. -/
theorem Lettered.startsFolded_append_cons (h : Lettered name) {c : Char} (hc : c.isAlpha = false)
    (hdollar : c ≠ '$') (t rest : Text) :
    Text.startsFolded name (t ++ c :: rest) = Text.startsFolded name t := by
  obtain ⟨stem, rfl, halpha⟩ := h
  cases stem with
  | nil =>
    cases t with
    | nil =>
      rw [Bool.eq_iff_iff]
      refine ⟨fun hstarts => ?_, fun hstarts => by cases hstarts⟩
      have hget := Text.getElem?_of_startsFolded (t := c :: rest) (i := 0) rfl hstarts
      exact absurd (Option.some.inj hget) hdollar
    | cons d t => simp [Text.startsFolded, Search.startsBy]
  | cons a letters => exact Worklist.startsFolded_append_cons halpha hc hdollar t rest

/-- A name of letters ends in front of a bracket. -/
theorem Lettered.startsFolded_append_opening (h : Lettered name) (t rest : Text) :
    Text.startsFolded name (t ++ '[' :: rest) = Text.startsFolded name t :=
  h.startsFolded_append_cons rfl (by decide) t rest

/-- Control names are made of letters. -/
theorem lettered_of_mem_controlNames (h : name ∈ controlNames) : Lettered name := by
  obtain ⟨a, stem, rfl, halpha⟩ := exists_eq_cons_of_control h
  exact ⟨a :: stem, rfl, halpha⟩

/-- A name that stands where one of its length is called is written there. -/
theorem Lettered.sameFolded_of_length_eq (h : Lettered name) {entry stem rest : Text}
    (hsame : Text.sameFolded entry ('$' :: stem) = true)
    (hstands : Text.startsFolded name ('$' :: (stem ++ '[' :: rest)) = true)
    (hlen : name.length = entry.length) : Text.sameFolded name entry = true := by
  rw [← List.cons_append, h.startsFolded_append_opening, Text.startsFolded_iff] at hstands
  have hlower := Text.sameFolded_iff.1 hsame
  have hle : entry.length = ('$' :: stem).length := by
    simpa [Text.lowerAscii] using congrArg List.length hlower
  rw [hlen, hle, List.take_length, ← hlower] at hstands
  exact Text.sameFolded_iff.2 hstands.symm

end Worklist

/-- Between two `$` there is a name with its bracket. -/
theorem Called.tail_eq {before behind : Text} (hnames : ∀ name ∈ names, Worklist.Lettered name)
    (h : Called names ('$' :: (before ++ '$' :: behind))) :
    ∃ stem more, before = stem ++ '[' :: more := by
  obtain ⟨name, hname, stem, rest, heq, hsame⟩ := h
  have hstem : '$' ∉ stem := by
    intro hmem
    cases Content.isAlpha_of_mem_stem hnames ⟨name, hname, hsame⟩ hmem
  obtain ⟨mid, hbefore, hmid⟩ := Content.exists_of_not_mem _ (List.cons.inj heq).2.symm hstem
  cases mid with
  | nil => cases hmid
  | cons c mid =>
    obtain ⟨rfl, -⟩ := List.cons.inj hmid
    exact ⟨stem, mid, hbefore⟩

/-- What a call begins with is decided in front of the next `$`. -/
theorem AllCalled.steady (hnames : ∀ name ∈ names, Worklist.Lettered name)
    (h : AllCalled names t) : Steady names t := by
  rintro before behind ⟨lead, rfl⟩ name hname new
  obtain ⟨stem, more, rfl⟩ := Called.tail_eq hnames (h.right lead 0 rfl)
  have hends : ∀ rest, Text.startsFolded name ('$' :: (stem ++ '[' :: more ++ rest)) =
      Text.startsFolded name ('$' :: stem) := by
    intro rest
    rw [List.append_assoc, List.cons_append, ← List.cons_append]
    exact (hnames name hname).startsFolded_append_opening _ _
  rw [hends, hends]

/-- The entry of a `$` that begins a call is the name that is called, in either case of its letters. -/
theorem Worklist.nameBehind?_call (hnames : ∀ name ∈ names, Lettered name) {entry stem : Text}
    (hentry : entry ∈ names) (hsame : Text.sameFolded entry ('$' :: stem) = true) (rest : Text) :
    ∃ best ∈ withControls names, Text.sameFolded best ('$' :: stem) = true ∧
      nameBehind? (withControls names)
        ((stem ++ '[' :: rest).takeWhile (fun c => c ≠ '$' && c ≠ '\n')) = some best := by
  -- the segment reaches beyond the bracket
  obtain ⟨more, hsegment⟩ : ∃ more, (stem ++ '[' :: rest).takeWhile
      (fun c => c ≠ '$' && c ≠ '\n') = stem ++ '[' :: more := by
    have hstem : ∀ d ∈ stem, (d ≠ '$' && d ≠ '\n') = true := by
      intro d hd
      have halpha := Content.isAlpha_of_mem_stem hnames ⟨entry, hentry, hsame⟩ hd
      rw [Bool.and_eq_true, decide_eq_true_eq, decide_eq_true_eq]
      constructor <;> rintro rfl <;> cases halpha
    rw [List.takeWhile_append_of_pos hstem, List.takeWhile_cons_of_pos (by decide)]
    exact ⟨_, rfl⟩
  have hlettered : ∀ name ∈ withControls names, Lettered name := by
    intro name hname
    rcases List.mem_append.1 hname with hname | hname
    · exact hnames name hname
    · exact lettered_of_mem_controlNames (List.mem_filter.1 hname).1
  have hne : ∀ name ∈ withControls names, name ≠ [] := by
    rintro name hname rfl
    obtain ⟨_, hnil, -⟩ := hlettered _ hname
    cases hnil
  have hblank : Text.isBlankText (stem ++ '[' :: more) = false := by
    rw [Text.isBlankText, List.all_eq_false]
    exact ⟨'[', by simp, by decide⟩
  have hstands := startsFolded_call hsame ('[' :: more)
  have hlisted : entry ∈ withControls names := List.mem_append_left _ hentry
  rw [hsegment, nameBehind?_of_ne_nil hne, hblank, if_neg Bool.false_ne_true]
  -- the longest name there is as long as the one that is called, since the bracket is behind that
  obtain ⟨best, hbest⟩ := Option.isSome_iff_exists.1 (isSome_longestName? hlisted hstands)
  have hmem := longestName?_mem hbest
  have hbestStands := startsFolded_of_longestName? hbest
  have hlonger := length_le_of_longestName? hbest hlisted hstands
  have hshorter : best.length ≤ entry.length := by
    have hlower := congrArg List.length (Text.sameFolded_iff.1 hsame)
    have hwithin := hbestStands
    rw [← List.cons_append, (hlettered best hmem).startsFolded_append_opening] at hwithin
    have hle := Search.startsBy_length_le hwithin
    simp only [Text.lowerAscii, List.length_map] at hlower
    omega
  have hsameEntry := (hlettered best hmem).sameFolded_of_length_eq hsame hbestStands
    (Nat.le_antisymm hshorter hlonger)
  rw [Text.sameFolded_iff] at hsame hsameEntry
  exact ⟨best, hmem, Text.sameFolded_iff.2 (hsameEntry.trans hsame), hbest⟩

/-- Where no name begins another one, it is the name that is called. -/
theorem Called.nameBehind? (hnames : Worklist.Callable names) (h : Called names ('$' :: t)) :
    ∃ entry ∈ names, Text.startsFolded entry ('$' :: t) = true ∧
      Worklist.nameBehind? (Worklist.withControls names)
        (t.takeWhile (fun c => c ≠ '$' && c ≠ '\n')) = some entry := by
  obtain ⟨entry, hentry, stem, rest, heq, hsame⟩ := h
  obtain rfl := (List.cons.inj heq).2
  obtain ⟨best, hmem, hbestSame, hbest⟩ :=
    Worklist.nameBehind?_call hnames.letters hentry hsame rest
  have hstands := startsFolded_call hsame ('[' :: rest)
  have hbestStands := startsFolded_call hbestSame ('[' :: rest)
  refine ⟨entry, hentry, hstands, ?_⟩
  rw [hbest, Option.some_inj]
  rcases List.mem_append.1 hmem with hmem | hmem
  · exact hnames.prefixFree.unique hmem hentry hbestStands hstands
  -- a control name that is written like the one that is called would make that a control name
  · have hnot := hnames.not_control entry hentry
    rw [Worklist.isControl, List.any_eq_false] at hnot
    have hcontrol : Text.sameFolded best entry = true := by
      rw [Text.sameFolded_iff] at hbestSame hsame ⊢
      exact hbestSame.trans hsame.symm
    exact absurd hcontrol (hnot best (List.mem_filter.1 hmem).1)

/-- The worklist of a text of calls holds the names as often as they stand there. -/
theorem AllCalled.count_ofText (hnames : Worklist.Callable names) (h : AllCalled names t)
    (hname : name ∈ names) :
    (Worklist.ofText (Worklist.withControls names) t).count name = Text.occurrences name t := by
  have hhead : name.head? = some '$' := by
    obtain ⟨stem, rfl, -⟩ := hnames.letters name hname
    rfl
  refine Worklist.count_ofText_of_forall hhead fun rest hsuffix => ?_
  obtain ⟨lead, rfl⟩ := hsuffix
  obtain ⟨entry, hentry, hstands, hbehind⟩ := Called.nameBehind? hnames (h.right lead 0 rfl)
  rw [hbehind, Option.some_inj]
  constructor
  · rintro rfl
    exact hstands
  · exact fun hstarts => hnames.prefixFree.unique hentry hname hstands hstarts

/-- It holds no other names. -/
theorem AllCalled.mem_names_of_mem_ofText (hnames : Worklist.Callable names)
    (h : AllCalled names t)
    (hname : name ∈ Worklist.ofText (Worklist.withControls names) t) : name ∈ names := by
  rw [← Worklist.map_snd_entries] at hname
  obtain ⟨⟨i, name⟩, hentry, rfl⟩ := List.mem_map.1 hname
  obtain ⟨hdollar, hbehind⟩ := Worklist.of_mem_entries hentry
  have hcalled := h i hdollar
  obtain ⟨hlt, hget⟩ := List.getElem?_eq_some_iff.1 hdollar
  rw [List.drop_eq_getElem_cons hlt, hget] at hcalled
  obtain ⟨entry, hentry, -, hbehind'⟩ := hcalled.nameBehind? hnames
  rw [Worklist.segmentAt, hbehind', Option.some_inj] at hbehind
  exact hbehind ▸ hentry

/-- No block begins in a text of calls. -/
theorem AllCalled.not_standsAt (hnames : Worklist.Callable names) (h : AllCalled names t)
    (j : Nat) : ¬ Keyword.ifOpen.StandsAt t j := by
  intro hj
  have hstarts := Keyword.startsFolded_of_standsAt hj
  have hbracket := hj.getElem?_bracket rfl
  obtain ⟨entry, hentry, stem, rest, heq, hsame⟩ := h j hj.getElem?_start
  have hlettered : Worklist.Lettered ['$', 'i', 'f'] :=
    Worklist.lettered_of_mem_controlNames List.mem_cons_self
  rw [heq] at hstarts
  have hlower := congrArg List.length (Text.sameFolded_iff.1 hsame)
  simp only [Text.lowerAscii, List.length_map, List.length_cons] at hlower
  have hwithin := hstarts
  rw [← List.cons_append, hlettered.startsFolded_append_opening] at hwithin
  have hle := Search.startsBy_length_le hwithin
  -- the bracket of the block is the one behind the name
  have hstem : stem.length = 2 := by
    simp only [List.length_cons, List.length_nil] at hle
    refine Nat.le_antisymm (Nat.le_of_not_lt fun hlt => ?_) (by omega)
    have hget : stem[2]? = some '[' := by
      have hthird : (t.drop j)[3]? = some '[' := by
        rw [List.getElem?_drop]
        exact hbracket
      rw [heq, List.getElem?_cons_succ, List.getElem?_append_left hlt] at hthird
      exact hthird
    cases Content.isAlpha_of_mem_stem hnames.letters ⟨entry, hentry, hsame⟩
      (List.mem_of_getElem? hget)
  have hcontrol := hlettered.sameFolded_of_length_eq hsame hstarts (by simp; omega)
  have hnot := hnames.not_control entry hentry
  rw [Worklist.isControl, List.any_eq_false] at hnot
  exact hnot _ List.mem_cons_self hcontrol

/-- Behind the `$` of a call its argument list opens. -/
theorem CallSite.listOpening?_call {stem rest : Text} {i n : Nat}
    (h : t.drop i = '$' :: (stem ++ '[' :: rest)) (hstem : ∀ c ∈ stem, c.isAlpha = true)
    (hlo : i < n) (hhi : n ≤ i + 1 + stem.length) :
    CallSite.listOpening? t n = some (i + 1 + stem.length) := by
  have hget : ∀ m, t[i + 1 + m]? = (stem ++ '[' :: rest)[m]? := by
    intro m
    rw [Nat.add_assoc, ← List.getElem?_drop, h, Nat.add_comm 1, List.getElem?_cons_succ]
  refine CallSite.listOpening?_eq_some_iff.2 ⟨hhi, ?_, fun m c hm hlt hc => ?_⟩
  · rw [hget, List.getElem?_append_right le_rfl, Nat.sub_self]
    rfl
  · obtain ⟨j, rfl⟩ := Nat.exists_eq_add_of_le (show i + 1 ≤ m by omega)
    rw [hget, List.getElem?_append_left (by omega)] at hc
    exact Apart.isMarker_of_isAlpha (hstem c (List.mem_of_getElem? hc))

/-- Brackets that match are closed behind what stands in them. -/
theorem Bracket.Balanced.closing?_call {stem inner rest : Text} {i : Nat} (h : Balanced inner)
    (ht : t.drop i = '$' :: (stem ++ '[' :: (inner ++ ']' :: rest))) :
    Bracket.closing? t (i + 1 + stem.length) = some (i + 1 + stem.length + 1 + inner.length) := by
  have hdrop : t.drop (i + 1 + stem.length) = '[' :: (inner ++ ']' :: rest) := by
    have hlen : i + 1 + stem.length = i + ('$' :: stem).length := by
      rw [List.length_cons]
      omega
    rw [hlen, ← List.drop_drop, ht, ← List.cons_append, List.drop_left]
  exact h.closing? hdrop

/-! ### Trees -/

/-- What a tree shows is a text of calls. -/
theorem Content.Shows.allCalled {q : Content} {results : Nat → Option Text} {stamps : List Stamp}
    {top : Bool} (h : q.Shows results stamps) (hnodup : q.labels.Nodup)
    (hsound : q.Sound names top)
    (hplaces : ∀ i : Nat, (stamps.map Prod.fst)[i]? = some '$' →
      ∃ x : Nat, stamps[i]? = some ('$', some x)) : AllCalled names (stamps.map Prod.fst) := by
  intro i hi
  -- the `$` belongs to a call of the tree, and what is behind it is shown from there on
  obtain ⟨x, hx⟩ := hplaces i hi
  obtain ⟨hlt, hget⟩ := List.getElem?_eq_some_iff.1 hx
  have hdrop : stamps.drop i = ('$', some x) :: stamps.drop (i + 1) := by
    rw [← hget]
    exact List.drop_eq_getElem_cons hlt
  have hsplit : stamps = stamps.take i ++ ('$', some x) :: stamps.drop (i + 1) := by
    rw [← hdrop, List.take_append_drop]
  rw [hsplit] at h
  obtain ⟨site, hsite, rest, -, -, hbehind, -⟩ := h.exists_site hnodup
  obtain ⟨⟨name, hname, hsame⟩, -⟩ := hsound.of_mem_sites hsite
  refine ⟨name, hname, site.stem, (site.inner.shown results ++ (']', none) :: rest).map Prod.fst,
    ?_, hsame⟩
  rw [← List.map_drop, hdrop, hbehind]
  simp

end Stencil
