import Mathlib.Data.List.Nodup
import Stencil.Proofs.Called
import Stencil.Proofs.Work
/-!
# Reading a text as a tree

A text whose brackets are well nested and whose every `$` begins a call is what a tree shows before
any call has returned (`exists_writes`). The calls of the tree are the `$` of the text, in the order
in which they are written (`Writes.mem_labels_iff`, `Writes.pairwise_labels`), and a call stands
inside of another one in the tree exactly where it stands between its brackets in the text
(`Writes.mem_inner_labels_of_encloses`).
-/

namespace Stencil

/-! ### Well nested brackets -/

namespace Bracket

/-- How many brackets are open behind a text, `none` if one is closed that was not opened. -/
def depthBehind? (depth : Nat) : Text → Option Nat
  | [] => some depth
  | c :: t =>
    if c = '[' then depthBehind? (depth + 1) t
    else if c = ']' then
      match depth with
      | 0 => none
      | outer + 1 => depthBehind? outer t
    else depthBehind? depth t

/-- Every bracket of the text has its counterpart. -/
def WellNested (t : Text) : Prop := depthBehind? 0 t = some 0

instance (t : Text) : Decidable (WellNested t) := inferInstanceAs (Decidable (_ = _))

/-- An opening bracket leads one level down. -/
theorem depthBehind?_opening (depth : Nat) (t : Text) :
    depthBehind? depth ('[' :: t) = depthBehind? (depth + 1) t := by
  cases depth <;> rfl

/-- A closing bracket leads one level up. -/
theorem depthBehind?_closing (depth : Nat) (t : Text) :
    depthBehind? (depth + 1) (']' :: t) = depthBehind? depth t := rfl

/-- Any other character leaves the level as it is. -/
theorem depthBehind?_cons {c : Char} (hopen : c ≠ '[') (hclose : c ≠ ']') (depth : Nat)
    (t : Text) : depthBehind? depth (c :: t) = depthBehind? depth t := by
  cases depth <;> simp [depthBehind?, hopen, hclose]

/-- An open bracket is closed, and what stands between the two is well nested. -/
theorem exists_closing {t : Text} {depth : Nat} (h : depthBehind? (depth + 1) t = some 0) :
    ∃ inner rest, t = inner ++ ']' :: rest ∧ depthBehind? depth inner = some 0 ∧
      WellNested rest := by
  induction t generalizing depth with
  | nil => cases h
  | cons c t ih =>
    by_cases hopen : c = '['
    · subst hopen
      rw [depthBehind?_opening] at h
      obtain ⟨inner, rest, rfl, hinner, hrest⟩ := ih h
      exact ⟨'[' :: inner, rest, rfl, by rw [depthBehind?_opening, hinner], hrest⟩
    by_cases hclose : c = ']'
    · subst hclose
      rw [depthBehind?_closing] at h
      cases depth with
      -- the bracket closes the outermost one, so it ends what is inside
      | zero => exact ⟨[], t, rfl, rfl, h⟩
      | succ depth =>
        obtain ⟨inner, rest, rfl, hinner, hrest⟩ := ih h
        exact ⟨']' :: inner, rest, rfl, by rw [depthBehind?_closing, hinner], hrest⟩
    · rw [depthBehind?_cons hopen hclose] at h
      obtain ⟨inner, rest, rfl, hinner, hrest⟩ := ih h
      exact ⟨c :: inner, rest, rfl, by rw [depthBehind?_cons hopen hclose, hinner], hrest⟩

/-- Text without brackets in front changes no depth. -/
theorem depthBehind?_append {t : Text} (h : ∀ c ∈ t, c ≠ '[' ∧ c ≠ ']') (depth : Nat)
    (rest : Text) : depthBehind? depth (t ++ rest) = depthBehind? depth rest := by
  induction t with
  | nil => rfl
  | cons c t ih =>
    obtain ⟨hopen, hclose⟩ := h c List.mem_cons_self
    rw [List.cons_append, depthBehind?_cons hopen hclose,
      ih fun c' hc' => h c' (List.mem_cons_of_mem c hc')]

end Bracket

/-- The second place stands between the brackets of the call that is written at the first one. -/
def Encloses (t : Text) (x y : Nat) : Prop :=
  ∃ opening closing, CallSite.listOpening? t (x + 1) = some opening ∧
    Bracket.closing? t opening = some closing ∧ opening < y ∧ y < closing

variable {names : List Text} {source t : Text} {x y : Nat}

instance (t : Text) (x y : Nat) : Decidable (Encloses t x y) :=
  decidable_of_iff ((CallSite.listOpening? t (x + 1)).any fun opening =>
    (Bracket.closing? t opening).any fun closing => decide (opening < y ∧ y < closing)) <| by
      simp [Encloses, Option.any_eq_true]

/-- Between the `$` of a call and a place between its brackets stand but places between its
brackets. -/
theorem Encloses.of_between {w : Nat} (h : Encloses t x y) (hw : t[w]? = some '$') (hlo : x < w)
    (hhi : w < y) : Encloses t x w := by
  obtain ⟨opening, closing, hopening, hclosing, hlt, hlt'⟩ := h
  refine ⟨opening, closing, hopening, hclosing, ?_, hhi.trans hlt'⟩
  obtain ⟨-, hopen, hplain⟩ := CallSite.listOpening?_eq_some_iff.1 hopening
  rcases Nat.lt_trichotomy w opening with hbefore | rfl | hbehind
  · cases hplain w '$' hlo hbefore hw
  · rw [hw] at hopen
    cases hopen
  · exact hbehind

/-- The names in front of a character that no call begins with are written in front of it
altogether. -/
theorem AllCalled.left {c : Char} {rest : Text} (hnames : ∀ name ∈ names, Worklist.Lettered name)
    (h : AllCalled names (t ++ c :: rest)) (halpha : c.isAlpha = false) (hdollar : c ≠ '$')
    (hopen : c ≠ '[') : AllCalled names t := by
  intro i hi
  have hlt := (List.getElem?_eq_some_iff.1 hi).1
  obtain ⟨name, hname, stem, more, heq, hsame⟩ := h i (by rw [List.getElem?_append_left hlt, hi])
  rw [List.drop_append_of_le_length hlt.le, ← List.cons_append] at heq
  -- the name ends before the character, which neither a name nor a call begins with
  have hstem : c ∉ '$' :: stem := by
    intro hmem
    rcases List.mem_cons.1 hmem with hmem | hmem
    · exact hdollar hmem
    · have := Content.isAlpha_of_mem_stem hnames ⟨name, hname, hsame⟩ hmem
      rw [halpha] at this
      cases this
  obtain ⟨mid, hdrop, hmid⟩ := Content.exists_of_not_mem _ heq.symm hstem
  cases mid with
  | nil => exact absurd (List.cons.inj hmid).1.symm hopen
  | cons d mid =>
    obtain ⟨rfl, -⟩ := List.cons.inj hmid
    exact ⟨name, hname, stem, mid, by rw [hdrop, List.cons_append], hsame⟩

namespace Content

variable {q : Content} {site : Site}

/-! ### What is shown before any call has returned -/

/-- The text is what the tree shows before any call has returned, and the places of the calls are
those where they are written. -/
def Writes (q : Content) (source : Text) : Prop :=
  q.shown (fun _ => none) = stamps source ((List.range source.length).map some)

/-- The stamps of a text begin with that of its first character. -/
theorem stamps_cons (c : Char) (t : Text) (i : Nat) :
    stamps (c :: t) ((List.range' i (t.length + 1)).map some) =
      stamp c (some i) :: stamps t ((List.range' (i + 1) t.length).map some) := by
  rw [List.range'_succ]
  rfl

/-- The stamps of two texts in a row are those of the one and those of the other, counted on. -/
theorem stamps_append (a b : Text) (i : Nat) :
    stamps (a ++ b) ((List.range' i (a ++ b).length).map some) =
      stamps a ((List.range' i a.length).map some) ++
        stamps b ((List.range' (i + a.length) b.length).map some) := by
  rw [List.length_append, ← List.range'_append_1, List.map_append, stamps,
    List.zipWith_append (by simp)]
  rfl

/-- Only the `$` of a text have their places. -/
theorem stamps_eq_plain {t : Text} (h : '$' ∉ t) (i : Nat) :
    stamps t ((List.range' i t.length).map some) = plain t := by
  induction t generalizing i with
  | nil => rfl
  | cons c t ih =>
    have hc : c ≠ '$' := by
      rintro rfl
      exact h List.mem_cons_self
    rw [List.length_cons, stamps_cons, ih fun hmem => h (List.mem_cons_of_mem c hmem), stamp,
      if_neg hc]
    rfl

/-- A well nested text of calls is shown by a tree. -/
theorem exists_shown_eq_stamps (hnames : ∀ name ∈ names, Worklist.Lettered name)
    (hcalled : AllCalled names t) (hnested : Bracket.WellNested t) (i : Nat) :
    ∃ q : Content, q.Sound names false ∧
      q.shown (fun _ => none) = stamps t ((List.range' i t.length).map some) := by
  -- by induction on the length, since the text is cut where brackets are closed
  generalize hn : t.length = n
  induction n using Nat.strong_induction_on generalizing t i with
  | _ n ih =>
    subst hn
    -- what stands in brackets and behind them
    have hparts : ∀ inner rest : Text, inner.length < t.length → rest.length < t.length →
        AllCalled names (inner ++ ']' :: rest) → Bracket.WellNested inner →
        Bracket.WellNested rest → ∀ j k : Nat, ∃ a b : Content,
          a.Sound names false ∧ b.Sound names false ∧
          a.shown (fun _ => none) = stamps inner ((List.range' j inner.length).map some) ∧
          b.shown (fun _ => none) = stamps rest ((List.range' k rest.length).map some) := by
      intro inner rest hinner hrest hboth hinnerNested hrestNested j k
      obtain ⟨a, ha, hashown⟩ := ih _ hinner (hboth.left hnames rfl (by decide) (by decide))
        hinnerNested j rfl
      obtain ⟨b, hb, hbshown⟩ := ih _ hrest hboth.right.tail hrestNested k rfl
      exact ⟨a, b, ha, hb, hashown, hbshown⟩
    cases t with
    | nil => exact ⟨empty, trivial, rfl⟩
    | cons c t =>
      by_cases hdollar : c = '$'
      · subst hdollar
        -- a `$` begins a call, and its brackets are cut out of what follows
        obtain ⟨name, hname, stem, more, heq, hsame⟩ := hcalled 0 rfl
        obtain rfl : t = stem ++ '[' :: more := (List.cons.inj heq).2
        have hletters : ∀ c ∈ stem, c.isAlpha = true :=
          fun c hc => isAlpha_of_mem_stem hnames ⟨name, hname, hsame⟩ hc
        have hplain : ∀ c ∈ '$' :: stem, c ≠ '[' ∧ c ≠ ']' := by
          intro c hc
          rcases List.mem_cons.1 hc with rfl | hc
          · decide
          · constructor <;> rintro rfl <;> cases hletters _ hc
        have hnodollar : '$' ∉ stem := by
          intro hmem
          cases hletters _ hmem
        rw [Bracket.WellNested, ← List.cons_append, Bracket.depthBehind?_append hplain,
          Bracket.depthBehind?_opening] at hnested
        obtain ⟨inner, rest, rfl, hinner, hrest⟩ := Bracket.exists_closing hnested
        have hboth : AllCalled names (inner ++ ']' :: rest) :=
          (hcalled.tail.right stem).tail
        obtain ⟨a, b, ha, hb, hashown, hbshown⟩ := hparts inner rest (by simp; omega)
          (by simp; omega) hboth hinner hrest (i + 1 + stem.length + 1)
          (i + 1 + stem.length + 1 + inner.length + 1)
        refine ⟨call i stem a b, ⟨⟨name, hname, hsame⟩, ha, hb⟩, ?_⟩
        rw [shown_call_of_none rfl, hashown, hbshown, List.length_cons, stamps_cons, stamps_append,
          stamps_eq_plain hnodollar, List.length_cons, stamps_cons, stamps_append,
          List.length_cons, stamps_cons]
        simp [stamp]
      by_cases hopen : c = '['
      -- brackets of no call make a group
      · subst hopen
        rw [Bracket.WellNested, Bracket.depthBehind?_opening] at hnested
        obtain ⟨inner, rest, rfl, hinner, hrest⟩ := Bracket.exists_closing hnested
        obtain ⟨a, b, ha, hb, hashown, hbshown⟩ := hparts inner rest
          (by simp only [List.length_cons, List.length_append]; omega)
          (by simp only [List.length_cons, List.length_append]; omega) hcalled.tail hinner hrest
          (i + 1) (i + 1 + inner.length + 1)
        refine ⟨group a b, ⟨ha, hb⟩, ?_⟩
        rw [shown, hashown, hbshown, List.length_cons, stamps_cons, stamps_append,
          List.length_cons, stamps_cons]
        simp [stamp]
      · have hclose : c ≠ ']' := by
          rintro rfl
          -- a closing bracket without an opening one is not well nested
          cases hnested
        rw [Bracket.WellNested, Bracket.depthBehind?_cons hopen hclose] at hnested
        obtain ⟨b, hb, hbshown⟩ := ih _ (Nat.lt_succ_self _) hcalled.tail hnested (i + 1) rfl
        refine ⟨char c b, ⟨hdollar, .inr ⟨hopen, hclose⟩, hb⟩, ?_⟩
        rw [shown, hbshown, List.length_cons, stamps_cons, stamp, if_neg hdollar]

/-- So such a text is what some content shows before any call has returned. -/
theorem exists_writes (hnames : ∀ name ∈ names, Worklist.Lettered name)
    (hcalled : AllCalled names source) (hnested : Bracket.WellNested source) :
    ∃ q : Content, q.Sound names false ∧ q.Writes source := by
  obtain ⟨q, hsound, hshown⟩ := exists_shown_eq_stamps hnames hcalled hnested 0
  exact ⟨q, hsound, by rw [Writes, hshown, List.range_eq_range']⟩

/-! ### The calls of a text -/

/-- Before any call has returned every call of the tree is shown. -/
theorem filterMap_snd_shown (q : Content) :
    (q.shown fun _ => none).filterMap Prod.snd = q.labels := by
  have hplain : ∀ t, (plain t).filterMap Prod.snd = [] := by
    intro t
    simp [plain, List.filterMap_map]
  induction q with
  | empty => rfl
  | char c rest ih =>
    rw [shown, List.filterMap_cons, ih]
    rfl
  | group inner rest ihInner ihRest => simp [shown, labels_group, ihInner, ihRest]
  | call place stem inner rest ihInner ihRest =>
    rw [shown_call_of_none rfl, labels_call]
    simp [hplain, ihInner, ihRest]

namespace Writes

/-- What is shown at a place is the character of the text there, with its stamp. -/
theorem getElem?_shown (h : q.Writes source) (i : Nat) :
    (q.shown fun _ => none)[i]? = source[i]?.map fun c => stamp c (some i) := by
  rw [h, stamps, List.getElem?_zipWith]
  cases hi : source[i]? with
  | none => simp
  | some c =>
    have hlt := (List.getElem?_eq_some_iff.1 hi).1
    simp [hlt]

/-- The characters that are shown are those of the text. -/
theorem map_fst_shown (h : q.Writes source) : (q.shown fun _ => none).map Prod.fst = source := by
  rw [h]
  exact map_fst_stamps (by simp)

/-- A `$` is shown with the place where it stands. -/
theorem getElem?_shown_of_dollar (h : q.Writes source) (hx : source[x]? = some '$') :
    (q.shown fun _ => none)[x]? = some ('$', some x) := by
  rw [h.getElem?_shown, hx]
  rfl

/-- What is shown with a place is the `$` of the text at that place. -/
theorem getElem?_eq_some (h : q.Writes source) {i : Nat} {c : Char}
    (hi : (q.shown fun _ => none)[i]? = some (c, some x)) :
    x = i ∧ c = '$' ∧ source[i]? = some c := by
  rw [h.getElem?_shown] at hi
  obtain ⟨c', hc', hstamp⟩ := Option.map_eq_some_iff.1 hi
  rw [stamp] at hstamp
  split at hstamp
  · next hdollar =>
    cases hstamp
    exact ⟨rfl, hdollar, hc'⟩
  · cases hstamp

/-- The calls of the tree are the `$` of the text. -/
theorem mem_labels_iff (h : q.Writes source) : x ∈ q.labels ↔ source[x]? = some '$' := by
  rw [← filterMap_snd_shown, List.mem_filterMap]
  constructor
  · rintro ⟨⟨c, place⟩, hmem, rfl⟩
    obtain ⟨i, hi⟩ := List.mem_iff_getElem?.1 hmem
    obtain ⟨rfl, rfl, hget⟩ := h.getElem?_eq_some hi
    exact hget
  · exact fun hx => ⟨_, List.mem_of_getElem? (h.getElem?_shown_of_dollar hx), rfl⟩

/-- All of them are shown. -/
theorem mem_shown_iff (h : q.Writes source) :
    ('$', some x) ∈ q.shown (fun _ => none) ↔ source[x]? = some '$' := by
  rw [← h.mem_labels_iff]
  exact ⟨mem_labels_of_mem_shown, mem_shown_of_mem_labels⟩

/-- They stand in the tree as they are written. -/
theorem pairwise_labels (h : q.Writes source) : q.labels.Pairwise (· < ·) := by
  rw [← filterMap_snd_shown, List.pairwise_filterMap, List.pairwise_iff_getElem]
  rintro i j hi hj hlt x hx y hy
  obtain ⟨rfl, -⟩ := h.getElem?_eq_some (i := i) (x := x)
    (List.getElem?_eq_some_iff.2 ⟨hi, Prod.ext rfl hx⟩)
  obtain ⟨rfl, -⟩ := h.getElem?_eq_some (i := j) (x := y)
    (List.getElem?_eq_some_iff.2 ⟨hj, Prod.ext rfl hy⟩)
  exact hlt

/-- No place is the label of two calls. -/
theorem nodup_labels (h : q.Writes source) : q.labels.Nodup :=
  h.pairwise_labels.imp fun hlt => hlt.ne

/-- Each call of the tree is written at its place. -/
theorem exists_drop_eq (h : q.Writes source) (hsite : site ∈ q.sites) : ∃ rest,
    (q.shown fun _ => none).drop site.place = ('$', some site.place) :: (plain site.stem ++
      ('[', none) :: (site.inner.shown (fun _ => none) ++ (']', none) :: rest)) := by
  have hstamp := h.getElem?_shown_of_dollar (h.mem_labels_iff.1 (List.mem_map_of_mem hsite))
  obtain ⟨hlt, hget⟩ := List.getElem?_eq_some_iff.1 hstamp
  have hsplit : q.shown (fun _ => none) = (q.shown fun _ => none).take site.place ++
      ('$', some site.place) :: (q.shown fun _ => none).drop (site.place + 1) := by
    rw [← hget, ← List.drop_eq_getElem_cons hlt, List.take_append_drop]
  obtain ⟨other, rest, hplace, hopens⟩ := exists_opensAt h.nodup_labels hsplit
  obtain rfl := List.inj_on_of_nodup_map h.nodup_labels hopens.mem hsite hplace
  exact ⟨rest, by rw [List.drop_eq_getElem_cons hlt, hget, hopens.behind_eq]⟩

/-- The text at the place of a call. -/
theorem exists_text_drop_eq (h : q.Writes source) (hsite : site ∈ q.sites) : ∃ rest,
    source.drop site.place = '$' :: (site.stem ++ '[' ::
      ((site.inner.shown fun _ => none).map Prod.fst ++ ']' :: rest)) := by
  obtain ⟨rest, hdrop⟩ := h.exists_drop_eq hsite
  refine ⟨rest.map Prod.fst, ?_⟩
  rw [← h.map_fst_shown, ← List.map_drop, hdrop]
  simp

/-- Where the brackets of a call are in the text. -/
theorem exists_brackets (h : q.Writes source) (hsound : q.Sound names false)
    (hnames : ∀ name ∈ names, Worklist.Lettered name) (hsite : site ∈ q.sites) : ∃ opening rest,
    CallSite.listOpening? source (site.place + 1) = some opening ∧
      Bracket.closing? source opening =
        some (opening + 1 + (site.inner.shown fun _ => none).length) ∧
      (q.shown fun _ => none).drop (opening + 1) =
        site.inner.shown (fun _ => none) ++ (']', none) :: rest := by
  obtain ⟨hwritten, hinner⟩ := hsound.of_mem_sites hsite
  obtain ⟨rest, htext⟩ := h.exists_text_drop_eq hsite
  -- the list of the call begins behind its name and is closed behind what is inside
  have hopening := CallSite.listOpening?_call htext
    (fun c hc => isAlpha_of_mem_stem hnames hwritten hc) (Nat.lt_succ_self _) (Nat.le_add_right _ _)
  have hclosing := (hinner.balanced hnames _).closing?_call htext
  obtain ⟨rest, hdrop⟩ := h.exists_drop_eq hsite
  rw [List.length_map] at hclosing
  refine ⟨_, rest, hopening, hclosing, ?_⟩
  -- up to the list there are the marker, the name and a bracket
  have hcons : ('$', some site.place) :: (plain site.stem ++ ('[', none) ::
      (site.inner.shown (fun _ => none) ++ (']', none) :: rest)) =
      (('$', some site.place) :: (plain site.stem ++ [('[', none)])) ++
        (site.inner.shown (fun _ => none) ++ (']', none) :: rest) := by
    simp
  have hlen : site.place + 1 + site.stem.length + 1 = site.place +
      (('$', some site.place) :: (plain site.stem ++ [('[', none)])).length := by
    simp
    omega
  rw [hlen, ← List.drop_drop, hdrop, hcons, List.drop_left]

/-- What stands between the brackets of a call in the text stands inside of it in the tree. -/
theorem mem_inner_labels_of_encloses (h : q.Writes source) (hsound : q.Sound names false)
    (hnames : ∀ name ∈ names, Worklist.Lettered name) (hsite : site ∈ q.sites)
    (hy : source[y]? = some '$') (hxy : Encloses source site.place y) : y ∈ site.inner.labels := by
  -- the brackets of the call are those that are found in the text
  obtain ⟨opening, closing, hopening, hclosing, hlo, hhi⟩ := hxy
  obtain ⟨_, rest, hopening', hclosing', hsplit⟩ := h.exists_brackets hsound hnames hsite
  obtain rfl := Option.some.inj (hopening.symm.trans hopening')
  obtain rfl := Option.some.inj (hclosing.symm.trans hclosing')
  -- so the other `$` is shown between them
  obtain ⟨j, rfl⟩ := Nat.exists_eq_add_of_le (Nat.succ_le_of_lt hlo)
  have hget := h.getElem?_shown_of_dollar hy
  rw [Nat.succ_eq_add_one, ← List.getElem?_drop, hsplit,
    List.getElem?_append_left (by omega)] at hget
  rw [← filterMap_snd_shown, List.mem_filterMap]
  exact ⟨_, List.mem_of_getElem? hget, rfl⟩

/-- What stands inside of a call in the tree stands between its brackets in the text. -/
theorem encloses_of_mem_inner_labels (h : q.Writes source) (hsound : q.Sound names false)
    (hnames : ∀ name ∈ names, Worklist.Lettered name) (hsite : site ∈ q.sites)
    (hy : y ∈ site.inner.labels) : Encloses source site.place y := by
  obtain ⟨opening, rest, hopening, hclosing, hsplit⟩ := h.exists_brackets hsound hnames hsite
  obtain ⟨j, hj⟩ := List.mem_iff_getElem?.1 (mem_shown_of_mem_labels hy)
  have hlt := (List.getElem?_eq_some_iff.1 hj).1
  have hinner := @List.getElem?_append_left _ _ ((']', none) :: rest) j hlt
  rw [← hinner, ← hsplit, List.getElem?_drop] at hj
  obtain ⟨rfl, -⟩ := h.getElem?_eq_some hj
  exact ⟨_, _, hopening, hclosing, by omega, by omega⟩

/-- The tree has as many calls as the text has `$`. -/
theorem length_labels (h : q.Writes source) : q.labels.length = Text.markers '$' source := by
  -- every marker, and no other character, is stamped with its place
  have hcount : ∀ (t : Text) (places : List Nat), t.length = places.length →
      ((stamps t (places.map some)).filterMap Prod.snd).length = Text.markers '$' t := by
    intro t
    induction t with
    | nil => exact fun _ _ => rfl
    | cons c t ih =>
      intro places hlen
      cases places with
      | nil => cases hlen
      | cons x places =>
        have hrest := ih places (Nat.succ.inj hlen)
        rw [stamps] at hrest
        rw [stamps, List.map_cons, List.zipWith_cons_cons, stamp, Text.markers, List.countP_cons]
        by_cases hc : c = '$'
        · simp [hc, hrest]
        · simp [hc, hrest]
  rw [← filterMap_snd_shown, h]
  exact hcount source _ (by simp)

end Writes

end Content

end Stencil
