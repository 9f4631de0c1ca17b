import Stencil.CallSite
import Stencil.Proofs.Bracket
import Stencil.Proofs.Keyword
/-!
# Where calls are

A name is acted on where it first starts in source text. What the call covers begins there, holds
the whole name, and ends with the name or with the bracket that closes its argument list; the slots
lie between the two brackets of that list, one behind the other.
-/

namespace Stencil

/-- A text that begins like one with a `$` in front has a `$` there. -/
theorem Text.getElem?_of_startsFolded {name t : Text} {i : Nat} (hname : name.head? = some '$')
    (h : startsFolded name (t.drop i) = true) : t[i]? = some '$' := by
  obtain ⟨stem, rfl⟩ := List.head?_eq_some_iff.1 hname
  obtain ⟨c, hget, hlike⟩ := Search.getElem?_of_startsBy (n := 0) h rfl
  have hdollar : c = '$' := (toLower_eq_iff rfl).1 (beq_iff_eq.1 hlike).symm
  rwa [List.getElem?_drop, Nat.add_zero, hdollar] at hget

namespace Document

variable {d : Document} {name : Text} {i : Nat}

/-- The name starts at a position, in source text. -/
def NameAt (d : Document) (name : Text) (i : Nat) : Prop :=
  nameAtStart name (d.cells.drop i) = true

instance (d : Document) (name : Text) (i : Nat) : Decidable (d.NameAt name i) :=
  inferInstanceAs (Decidable (_ = true))

/-- Where a name stands the text begins with it. -/
theorem NameAt.startsBy (h : d.NameAt name i) :
    Search.startsBy sameLetter name (d.text.drop i) = true := by
  have hcells := (Bool.and_eq_true_iff.1 h).2
  rwa [startsBy_cells, List.map_drop, map_fst_cells] at hcells

/-- In source text a name starts wherever it stands. -/
theorem nameAt_source {t : Text} :
    (source t).NameAt name i ↔ Text.startsFolded name (t.drop i) = true := by
  have hsource : ∀ u : Text, startsInSource (u.map (·, Origin.source)) = true := by
    intro u
    cases u <;> rfl
  have hfst : ∀ u : Text, (u.map (·, Origin.source)).map Prod.fst = u := by
    intro u
    rw [List.map_map]
    exact List.map_id u
  rw [NameAt, cells_source, ← List.map_drop, nameAtStart, hsource, Bool.true_and, startsBy_cells,
    hfst]
  exact Iff.rfl

/-- Its characters are those of the text, but for their case. -/
theorem NameAt.getElem? (h : d.NameAt name i) {n : Nat} {a : Char} (ha : name[n]? = some a) :
    ∃ c, d.text[i + n]? = some c ∧ sameLetter a c = true := by
  obtain ⟨c, hget, hc⟩ := Search.getElem?_of_startsBy h.startsBy ha
  rw [List.getElem?_drop] at hget
  exact ⟨c, hget, hc⟩

/-- A name that stands in a text ends in it. -/
theorem NameAt.add_length_le (h : d.NameAt name i) (hne : name ≠ []) :
    i + name.length ≤ d.text.length := by
  have hlen := Search.startsBy_length_le h.startsBy
  have hpos := List.length_pos_of_ne_nil hne
  rw [List.length_drop] at hlen
  omega

/-- A name that begins with a marker begins with that marker in the source. -/
theorem NameAt.getElem?_start (h : d.NameAt name i) (hname : name.head? = some '$') :
    d.cells[i]? = some ('$', .source) := by
  obtain ⟨stem, rfl⟩ : ∃ stem, name = '$' :: stem := List.head?_eq_some_iff.1 hname
  obtain ⟨hsource, hstart⟩ := Bool.and_eq_true_iff.1 h
  obtain ⟨⟨c, origin⟩, hget, hc⟩ := Search.getElem?_of_startsBy (n := 0) hstart rfl
  -- no other character has `$` for its lower case
  have hdollar : c = '$' := by
    have hlower : c.toLower = '$' := (beq_iff_eq.1 hc).symm
    rwa [toLower_eq_iff rfl] at hlower
  cases hd : d.cells.drop i with
  | nil =>
    rw [hd] at hget
    cases hget
  | cons cell rest =>
    rw [hd] at hget hsource
    obtain rfl : cell = (c, origin) := by simpa using hget
    cases origin with
    | literal => cases hsource
    | source => rw [← hdollar, ← Nat.add_zero i, ← List.getElem?_drop, hd]; rfl

/-- A name is found at the first place where it stands in source text. -/
theorem findName?_eq_some_iff {start : Nat} :
    d.findName? name start = some i ↔
      start ≤ i ∧ i ≤ d.text.length ∧ d.NameAt name i ∧
        ∀ m, start ≤ m → m < i → ¬ d.NameAt name m := by
  rw [findName?_eq, Search.firstAfter?_eq_some_iff, length_cells]
  simp only [NameAt, Bool.not_eq_true]

/-- A name that starts somewhere is found. -/
theorem NameAt.exists_findName? (h : d.NameAt name i) (hi : i ≤ d.text.length) :
    ∃ j, d.findName? name 0 = some j := by
  have hex : ∃ i, d.NameAt name i := ⟨i, h⟩
  refine ⟨Nat.find hex, findName?_eq_some_iff.2 ⟨Nat.zero_le _, ?_, Nat.find_spec hex, ?_⟩⟩
  · exact (Nat.find_min' hex h).trans hi
  · exact fun m _ hm => Nat.find_min hex hm

end Document

namespace CallSite

variable {d : Document} {t name : Text} {span : Span} {slots : List (Option Span)}

/-! ### Argument lists -/

/-- The next marker is the first one from a position on. -/
theorem nextMarker?_eq_some_iff {start i : Nat} :
    nextMarker? t start = some i ↔
      start ≤ i ∧ (∃ c, t[i]? = some c ∧ isMarker c = true) ∧
        ∀ m c, start ≤ m → m < i → t[m]? = some c → isMarker c = false := by
  have hhead : ∀ m, (t.drop m).head?.any isMarker = true ↔
      ∃ c, t[m]? = some c ∧ isMarker c = true := by
    intro m
    rw [List.head?_drop, Option.any_eq_true]
  rw [nextMarker?, Search.firstAfter?_eq_some_iff]
  constructor
  -- a marker at a position is a text that begins with one
  · rintro ⟨hle, -, hp, hlt⟩
    refine ⟨hle, (hhead i).1 hp, fun m c hm hmi hc => ?_⟩
    have := hlt m hm hmi
    rw [List.head?_drop, hc] at this
    exact this
  · rintro ⟨hle, ⟨c, hc, hmark⟩, hlt⟩
    obtain ⟨hi, -⟩ := List.getElem?_eq_some_iff.1 hc
    refine ⟨hle, hi.le, (hhead i).2 ⟨c, hc, hmark⟩, fun m hm hmi => ?_⟩
    rw [List.head?_drop]
    cases hget : t[m]? with
    | none => rfl
    | some c => exact hlt m c hm hmi hget

/-- An argument list opens at the next marker. -/
theorem listOpening?_eq_some_iff {nameEnd i : Nat} :
    listOpening? t nameEnd = some i ↔
      nameEnd ≤ i ∧ t[i]? = some '[' ∧
        ∀ m c, nameEnd ≤ m → m < i → t[m]? = some c → isMarker c = false := by
  rw [listOpening?, Option.filter_eq_some_iff, nextMarker?_eq_some_iff, beq_iff_eq]
  constructor
  · rintro ⟨⟨hle, -, hlt⟩, hopen⟩
    exact ⟨hle, hopen, hlt⟩
  · rintro ⟨hle, hopen, hlt⟩
    exact ⟨⟨hle, ⟨'[', hopen, rfl⟩, hlt⟩, hopen⟩

/-! ### What a call covers -/

/-- The span of a call of a name and its slots: the name starts there and nowhere before, and the
span ends with the name or with the argument list. -/
structure Covers (d : Document) (name : Text) (span : Span) (slots : List (Option Span)) :
    Prop where
  name_at : d.NameAt name span.start
  first : ∀ m < span.start, ¬ d.NameAt name m
  name_le : span.start + name.length ≤ span.stop
  stop_le : span.stop ≤ d.text.length
  shape : (slots = [] ∧ span.stop = span.start + name.length ∧
      listOpening? d.text (span.start + name.length) = none) ∨
    ∃ opening, listOpening? d.text (span.start + name.length) = some opening ∧
      opening + 1 < span.stop ∧ Bracket.closing? d.text opening = some (span.stop - 1) ∧
      slots = Bracket.slots d.text ⟨opening + 1, span.stop - 1⟩

/-- A name without a list covers itself. -/
theorem covers_of_bare (hne : name ≠ []) (h : find d name = .bare span) :
    Covers d name span [] := by
  unfold find at h
  split at h
  · cases h
  · next start hstart =>
    obtain ⟨-, -, hname, hfirst⟩ := Document.findName?_eq_some_iff.1 hstart
    unfold ofPosition at h
    split at h
    · cases h
    · split at h
      · next hlist =>
        cases h
        exact ⟨hname, fun m hm => hfirst m (Nat.zero_le m) hm, le_rfl,
          hname.add_length_le hne, .inl ⟨rfl, rfl, hlist⟩⟩
      · split at h <;> cases h

/-- A call covers its name and its list. -/
theorem covers_of_call (h : find d name = .call span slots) : Covers d name span slots := by
  unfold find at h
  split at h
  · cases h
  · next start hstart =>
    obtain ⟨-, -, hname, hfirst⟩ := Document.findName?_eq_some_iff.1 hstart
    unfold ofPosition at h
    split at h
    · cases h
    · split at h
      · cases h
      · next opening hopening =>
        obtain ⟨hle, hopen, -⟩ := listOpening?_eq_some_iff.1 hopening
        split at h
        · cases h
        · next closing hclosing =>
          cases h
          -- the brackets of the list lie in the text, the closing one behind the other
          have hlt := Bracket.lt_of_closing? hclosing hopen
          have hclose := (Bracket.getElem?_of_closing? hclosing).2
          obtain ⟨hin, -⟩ := List.getElem?_eq_some_iff.1 hclose
          refine ⟨hname, fun m hm => hfirst m (Nat.zero_le m) hm, by simp only; omega, hin,
            .inr ⟨opening, hopening, by simp only; omega, hclosing, rfl⟩⟩

namespace Covers

/-- What a call covers begins with a `$` of the source. -/
theorem head (h : Covers d name span slots) (hname : name.head? = some '$') :
    d.cells[span.start]? = some ('$', .source) :=
  h.name_at.getElem?_start hname

/-- The slots lie behind the name, inside of the brackets. -/
theorem slots_inOrder (h : Covers d name span slots) :
    ∃ inner, span.start + name.length ≤ inner ∧
      Span.InOrder inner span.stop (slots.filterMap id) ∧
      (slots ≠ [] → span.start + name.length < inner ∧ d.text[inner - 1]? = some '[') := by
  have hstop := h.stop_le
  rcases h.shape with ⟨rfl, -, -⟩ | ⟨opening, hopening, hlt, -, rfl⟩
  · exact ⟨span.start + name.length, le_rfl, h.name_le, fun hne => absurd rfl hne⟩
  · obtain ⟨hle, hopen, -⟩ := listOpening?_eq_some_iff.1 hopening
    have horder := Bracket.slots_inOrder (t := d.text) (s := ⟨opening + 1, span.stop - 1⟩)
      (by simp only; omega) (by simp only; omega)
    refine ⟨opening + 1, by omega, horder.mono le_rfl (by simp only; omega), fun _ => ?_⟩
    exact ⟨by omega, hopen⟩

/-- A call without the bracket that ends an argument list is its name. -/
theorem stop_eq_or (h : Covers d name span slots) :
    span.stop = span.start + name.length ∨
      span.start + name.length < span.stop ∧ d.text[span.stop - 1]? = some ']' := by
  rcases h.shape with ⟨-, hstop, -⟩ | ⟨opening, hopening, hlt, hclosing, -⟩
  · exact .inl hstop
  · obtain ⟨hle, -, -⟩ := listOpening?_eq_some_iff.1 hopening
    exact .inr ⟨by omega, (Bracket.getElem?_of_closing? hclosing).2⟩

end Covers

end CallSite

end Stencil
