import Stencil.Proofs.CallSite
import Stencil.Proofs.Slots
/-!
# The first occurrence of a name

`CallSite.find` searches a document, looks behind and in front of what it finds and cuts an argument
list. `CallSite.Describes` says without a search what the first occurrence of a name is: one
constructor for each kind of call site, with the positions it names told as least ones, the closing
bracket by counting and the slots by their parts. For names that begin with `$` the two agree on
every document, whatever its texts (`find_eq_iff_describes`).
-/

namespace Stencil

namespace Document

variable {d : Document} {name : Text} {i : Nat}

/-- A name stands at a position of source text, but for the case of ASCII letters. -/
structure Occurs (d : Document) (name : Text) (i : Nat) : Prop where
  source : ∃ c, d.cells[i]? = some (c, Origin.source)
  same : (d.text.slice ⟨i, i + name.length⟩).lowerAscii = name.lowerAscii

theorem text_slice_add (d : Document) (name : Text) (i : Nat) :
    d.text.slice ⟨i, i + name.length⟩ = (d.text.drop i).take name.length := by
  rw [Text.slice, Nat.add_sub_cancel_left]

/-- A name with a `$` in front starts where it stands in source text. -/
theorem nameAt_iff_occurs (hname : name.head? = some '$') :
    d.NameAt name i ↔ d.Occurs name i := by
  constructor
  · intro h
    refine ⟨⟨'$', h.getElem?_start hname⟩, ?_⟩
    rw [text_slice_add]
    exact Text.startsFolded_iff.1 h.startsBy
  · rintro ⟨⟨c, hc⟩, hsame⟩
    rw [text_slice_add] at hsame
    have hstarts : Search.startsBy sameLetter name (d.text.drop i) = true :=
      Text.startsFolded_iff.2 hsame
    have hsource : startsInSource (d.cells.drop i) = true := by
      rw [drop_eq_cons hc]
      rfl
    rw [NameAt, nameAtStart, startsBy_cells, List.map_drop, map_fst_cells, hstarts, hsource,
      Bool.and_true]

theorem findName?_eq_some_iff_isLeast (hname : name.head? = some '$') :
    d.findName? name 0 = some i ↔ IsLeast {i | d.Occurs name i} i := by
  rw [findName?_eq_some_iff]
  constructor
  · rintro ⟨-, -, hat, hfirst⟩
    refine ⟨(nameAt_iff_occurs hname).1 hat, fun j hj => ?_⟩
    by_contra hlt
    exact hfirst j (Nat.zero_le j) (Nat.lt_of_not_le hlt) ((nameAt_iff_occurs hname).2 hj)
  · rintro ⟨hat, hleast⟩
    obtain ⟨c, hc⟩ := hat.source
    have hlt := (List.getElem?_eq_some_iff.1 hc).1
    rw [length_cells] at hlt
    refine ⟨Nat.zero_le i, hlt.le, (nameAt_iff_occurs hname).2 hat, fun j _ hj hno => ?_⟩
    exact absurd (hleast ((nameAt_iff_occurs hname).1 hno)) (Nat.not_le_of_lt hj)

theorem findName?_eq_none_iff_occurs (hname : name.head? = some '$') :
    d.findName? name 0 = none ↔ ∀ i, ¬ d.Occurs name i := by
  constructor
  · intro h i hat
    obtain ⟨c, hc⟩ := hat.source
    have hlt := (List.getElem?_eq_some_iff.1 hc).1
    rw [length_cells] at hlt
    obtain ⟨j, hj⟩ := ((nameAt_iff_occurs hname).2 hat).exists_findName? hlt.le
    rw [h] at hj
    cases hj
  · intro h
    rw [Option.eq_none_iff_forall_ne_some]
    exact fun i hi => h i ((findName?_eq_some_iff_isLeast hname).1 hi).1

end Document

namespace CallSite

variable {d : Document} {t name : Text} {site : CallSite} {start i : Nat}

/-- The first marker at or behind a position. -/
def FirstMarker (t : Text) (start i : Nat) : Prop :=
  IsLeast {i | start ≤ i ∧ ∃ c, t[i]? = some c ∧ isMarker c = true} i

theorem nextMarker?_eq_some_iff_firstMarker :
    nextMarker? t start = some i ↔ FirstMarker t start i := by
  rw [nextMarker?_eq_some_iff]
  constructor
  · rintro ⟨hle, hmarker, hno⟩
    refine ⟨⟨hle, hmarker⟩, fun j ⟨hj, c, hc, hmark⟩ => ?_⟩
    by_contra hlt
    rw [hno j c hj (Nat.lt_of_not_le hlt) hc] at hmark
    cases hmark
  · rintro ⟨⟨hle, hmarker⟩, hleast⟩
    refine ⟨hle, hmarker, fun j c hj hlt hc => ?_⟩
    by_contra hmark
    exact absurd (hleast ⟨hj, c, hc, by simpa using hmark⟩) (Nat.not_le_of_lt hlt)

theorem listOpening?_eq_some_iff_firstMarker :
    listOpening? t start = some i ↔ FirstMarker t start i ∧ t[i]? = some '[' := by
  rw [listOpening?, Option.filter_eq_some_iff, nextMarker?_eq_some_iff_firstMarker, beq_iff_eq]

theorem listOpening?_eq_none_iff_firstMarker :
    listOpening? t start = none ↔ ∀ i, FirstMarker t start i → t[i]? ≠ some '[' := by
  rw [Option.eq_none_iff_forall_ne_some]
  simp only [ne_eq, listOpening?_eq_some_iff_firstMarker, not_and]

/-- A `$` stands before a position. -/
def Escaped (t : Text) (i : Nat) : Prop := 0 < i ∧ t[i - 1]? = some '$'

/-- What the first occurrence of a name in a document is. -/
inductive Describes (d : Document) (name : Text) : CallSite → Prop where
  | absent (hno : ∀ i, ¬ d.Occurs name i) : Describes d name .absent
  | escaped {p : Nat} (hfirst : IsLeast {i | d.Occurs name i} p) (hescaped : Escaped d.text p) :
      Describes d name (.escaped p)
  | bare {p : Nat} (hfirst : IsLeast {i | d.Occurs name i} p) (hescaped : ¬ Escaped d.text p)
      (hmarker : ∀ i, FirstMarker d.text (p + name.length) i → d.text[i]? ≠ some '[') :
      Describes d name (.bare ⟨p, p + name.length⟩)
  | unterminated {p opening : Nat} (hfirst : IsLeast {i | d.Occurs name i} p)
      (hescaped : ¬ Escaped d.text p)
      (hmarker : FirstMarker d.text (p + name.length) opening)
      (hopening : d.text[opening]? = some '[')
      (hopen : ∀ k, opening ≤ k → k < d.text.length → ¬ Bracket.EvenFrom d.text opening (k + 1)) :
      Describes d name (.unterminated p)
  | call {p opening closing : Nat} {slots : List (Option Span)}
      (hfirst : IsLeast {i | d.Occurs name i} p) (hescaped : ¬ Escaped d.text p)
      (hmarker : FirstMarker d.text (p + name.length) opening)
      (hopening : d.text[opening]? = some '[')
      (hclosing : IsLeast {k | opening ≤ k ∧ k < d.text.length ∧
        Bracket.EvenFrom d.text opening (k + 1)} closing)
      (hnested : Bracket.Nested (d.text.slice ⟨opening + 1, closing⟩))
      (hslots : Bracket.ListSlots d.text ⟨opening + 1, closing⟩ slots) :
      Describes d name (.call ⟨p, closing + 1⟩ slots)

theorem ofPosition_of_escaped (h : Escaped t i) : ofPosition t name i = .escaped i := by
  rw [ofPosition, if_pos (by simpa [Escaped] using h)]

/-- Without a `$` before it an occurrence is told by its argument list. -/
theorem ofPosition_of_not_escaped (h : ¬ Escaped t i) :
    ofPosition t name i =
      match listOpening? t (i + name.length) with
      | none => .bare ⟨i, i + name.length⟩
      | some opening =>
        match Bracket.closing? t opening with
        | none => .unterminated i
        | some closing => .call ⟨i, closing + 1⟩ (Bracket.slots t ⟨opening + 1, closing⟩) := by
  unfold ofPosition
  exact if_neg (by simpa [Escaped] using h)

/-- The bounds of an argument list, and its slots by their parts. -/
theorem slots_eq_iff_of_closing? {opening closing : Nat} {slots : List (Option Span)}
    (hopening : t[opening]? = some '[') (hclosing : Bracket.closing? t opening = some closing) :
    Bracket.slots t ⟨opening + 1, closing⟩ = slots ↔
      Bracket.ListSlots t ⟨opening + 1, closing⟩ slots :=
  Bracket.slots_eq_iff (Bracket.nested_of_closing? hclosing hopening)
    (Bracket.lt_of_closing? hclosing hopening)
    (List.getElem?_eq_some_iff.1 (Bracket.getElem?_of_closing? hclosing).2).1.le

/-- What the search finds is so described. -/
theorem describes_find (hname : name.head? = some '$') : Describes d name (find d name) := by
  rw [find]
  split
  · next hnone => exact .absent ((Document.findName?_eq_none_iff_occurs hname).1 hnone)
  · next p hp =>
    have hfirst := (Document.findName?_eq_some_iff_isLeast hname).1 hp
    by_cases hescaped : Escaped d.text p
    · rw [ofPosition_of_escaped hescaped]
      exact .escaped hfirst hescaped
    · rw [ofPosition_of_not_escaped hescaped]
      split
      · next hbare =>
        exact .bare hfirst hescaped (listOpening?_eq_none_iff_firstMarker.1 hbare)
      · next opening hlist =>
        obtain ⟨hmarker, hopening⟩ := listOpening?_eq_some_iff_firstMarker.1 hlist
        split
        · next hclosing =>
          exact .unterminated hfirst hescaped hmarker hopening
            ((Bracket.closing?_eq_none_iff hopening).1 hclosing)
        · next closing hclosing =>
          exact .call hfirst hescaped hmarker hopening
            ((Bracket.closing?_eq_some_iff_isLeast hopening).1 hclosing)
            (Bracket.nested_of_closing? hclosing hopening)
            ((slots_eq_iff_of_closing? hopening hclosing).1 rfl)

/-- A description fits what the search finds, and nothing else. -/
theorem Describes.find_eq (hname : name.head? = some '$') (h : Describes d name site) :
    find d name = site := by
  -- the search goes to the first occurrence
  have hfind : ∀ {p}, IsLeast {i | d.Occurs name i} p →
      find d name = ofPosition d.text name p := by
    intro p hp
    rw [find, (Document.findName?_eq_some_iff_isLeast hname).2 hp]
  cases h with
  | absent hno => rw [find, (Document.findName?_eq_none_iff_occurs hname).2 hno]
  | escaped hfirst hescaped => rw [hfind hfirst, ofPosition_of_escaped hescaped]
  | bare hfirst hescaped hmarker =>
    rw [hfind hfirst, ofPosition_of_not_escaped hescaped,
      listOpening?_eq_none_iff_firstMarker.2 hmarker]
  | unterminated hfirst hescaped hmarker hopening hopen =>
    rw [hfind hfirst, ofPosition_of_not_escaped hescaped,
      listOpening?_eq_some_iff_firstMarker.2 ⟨hmarker, hopening⟩]
    simp only [(Bracket.closing?_eq_none_iff hopening).2 hopen]
  | call hfirst hescaped hmarker hopening hleast _ hslots =>
    have hclosing := (Bracket.closing?_eq_some_iff_isLeast hopening).2 hleast
    rw [hfind hfirst, ofPosition_of_not_escaped hescaped,
      listOpening?_eq_some_iff_firstMarker.2 ⟨hmarker, hopening⟩]
    simp only [hclosing, (slots_eq_iff_of_closing? hopening hclosing).2 hslots]

/-- The call site that is found for a name is what the first occurrence of the name in source text
is: absent, escaped, bare, never closed, or a call that ends with the least position at which the
brackets balance and has the trimmed parts of its list for slots. -/
theorem find_eq_iff_describes (hname : name.head? = some '$') :
    find d name = site ↔ Describes d name site :=
  ⟨fun h => h ▸ describes_find hname, Describes.find_eq hname⟩

theorem nested_list_is_described :
    ("$f".toList).head? = some '$' ∧
      Describes (.ofFragments [⟨.literal, "a".toList⟩, ⟨.source, " $F x[ b ;;c[d;e]; ] $f".toList⟩])
        "$f".toList (.call ⟨2, 21⟩ [some ⟨8, 9⟩, none, some ⟨12, 18⟩]) :=
  ⟨rfl, (find_eq_iff_describes rfl).1 (by decide +kernel)⟩

end CallSite

end Stencil
