import Stencil.Document.Name
import Stencil.Proofs.Offset
import Stencil.Proofs.Ranges
/-!
# Documents as tagged bytes

Outside of this library a document is a row of bytes, each of which is literal or not (`tagged`).
The tags can be kept beside the text as the ranges of the literal bytes. `Ranged` is that form, with
the arithmetic of offsets that building, cutting and splicing take there; every step of it gives the
ranges of the document that the same step gives here (`ranged_push`, `ranged_slice`,
`ranged_gather`, `ranged_splice`), because the ranges lie apart and are therefore known from the
bytes that they hold (`Span.Gapped.eq_of_holds`).
-/

namespace Stencil

open Text (byteLength byteOffset)

/-! ### Tagged bytes -/

namespace Fragment

variable {fs : List Fragment} {cs cs' : List Cell} {i b n : Nat} {o : Origin}

/-- The bytes of the characters, each with the origin of its character. -/
def tagBytes (cs : List Cell) : List (UInt8 × Origin) :=
  cs.flatMap fun c => (String.utf8EncodeChar c.1).map (·, c.2)

@[simp] theorem tagBytes_cons (c : Cell) (cs : List Cell) :
    tagBytes (c :: cs) = (String.utf8EncodeChar c.1).map (·, c.2) ++ tagBytes cs := rfl

@[simp] theorem tagBytes_append (cs cs' : List Cell) :
    tagBytes (cs ++ cs') = tagBytes cs ++ tagBytes cs' :=
  List.flatMap_append

/-- Without their tags, tagged bytes are the bytes of the text. -/
theorem map_fst_tagBytes (cs : List Cell) :
    (tagBytes cs).map Prod.fst = Text.bytes (cs.map Prod.fst) := by
  induction cs with
  | nil => rfl
  | cons c cs ih =>
    rw [tagBytes_cons, List.map_append, ih, List.map_map, List.map_cons, Text.bytes, Text.bytes,
      List.flatMap_cons]
    simp [Function.comp_def]

/-- There is a tag for every byte. -/
theorem length_tagBytes (cs : List Cell) :
    (tagBytes cs).length = byteLength (cs.map Prod.fst) := by
  rw [← Text.length_bytes, ← map_fst_tagBytes, List.length_map]

/-- The bytes of a fragment all have its origin. -/
theorem tagBytes_cells (f : Fragment) : tagBytes f.cells = f.text.bytes.map (·, f.origin) := by
  rw [cells, Text.bytes, List.map_flatMap, tagBytes, List.flatMap_map]

/-- The bytes are cut where the byte offset of a position is. -/
theorem tagBytes_split (cs : List Cell) (i : Nat) :
    tagBytes cs = tagBytes (cs.take i) ++ tagBytes (cs.drop i) ∧
      (tagBytes (cs.take i)).length = byteOffset (cs.map Prod.fst) i := by
  refine ⟨?_, ?_⟩
  · rw [← tagBytes_append, List.take_append_drop]
  · rw [length_tagBytes, List.map_take, byteOffset]

/-- Where cells are split, their bytes are. -/
theorem tagBytes_take (cs : List Cell) (i : Nat) :
    tagBytes (cs.take i) = (tagBytes cs).take (byteOffset (cs.map Prod.fst) i) := by
  obtain ⟨hsplit, hlength⟩ := tagBytes_split cs i
  rw [hsplit, ← hlength, List.take_left]

theorem tagBytes_drop (cs : List Cell) (i : Nat) :
    tagBytes (cs.drop i) = (tagBytes cs).drop (byteOffset (cs.map Prod.fst) i) := by
  obtain ⟨hsplit, hlength⟩ := tagBytes_split cs i
  rw [hsplit, ← hlength, List.drop_left]

/-- The characters of a span have the bytes between its ends. -/
theorem tagBytes_cut {j : Nat} (hij : i ≤ j) (cs : List Cell) :
    tagBytes ((cs.drop i).take (j - i)) =
      ((tagBytes cs).drop (byteOffset (cs.map Prod.fst) i)).take
        (byteOffset (cs.map Prod.fst) j - byteOffset (cs.map Prod.fst) i) := by
  have hbefore : byteOffset ((cs.map Prod.fst).take j) i = byteOffset (cs.map Prod.fst) i := by
    rw [byteOffset, List.take_take, Nat.min_eq_left hij, byteOffset]
  rw [← List.drop_take, ← List.drop_take, tagBytes_drop, tagBytes_take, List.map_take, hbefore]

/-- The tag of a byte is the origin of the character that it belongs to. -/
theorem exists_getElem?_tagBytes (hle : byteOffset (cs.map Prod.fst) i ≤ b)
    (hlt : b < byteOffset (cs.map Prod.fst) (i + 1)) :
    (∃ x, (tagBytes cs)[b]? = some (x, o)) ↔ ∃ c, cs[i]? = some (c, o) := by
  induction cs generalizing i b with
  | nil => simp [tagBytes]
  | cons c cs ih =>
    have hsize : ((String.utf8EncodeChar c.1).map (·, c.2)).length = c.1.utf8Size := by
      rw [List.length_map, String.length_utf8EncodeChar]
    cases i with
    -- the offset is one of the first character, whose bytes all have its origin
    | zero =>
      rw [List.map_cons, Text.byteOffset_cons_succ, Text.byteOffset_zero, Nat.add_zero] at hlt
      have hbyte : b < (String.utf8EncodeChar c.1).length := by
        rwa [String.length_utf8EncodeChar]
      rw [tagBytes_cons, List.getElem?_append_left (by rwa [hsize]), List.getElem?_map,
        List.getElem?_eq_getElem hbyte]
      obtain ⟨ch, origin⟩ := c
      simp
    -- the offset is one of a later character
    | succ i =>
      rw [List.map_cons, Text.byteOffset_cons_succ] at hle hlt
      rw [tagBytes_cons, List.getElem?_append_right (by omega), hsize, List.getElem?_cons_succ]
      exact ih (by omega) (by omega)

/-- Cells with the same tagged bytes are the same. -/
theorem tagBytes_injective (h : tagBytes cs = tagBytes cs') : cs = cs' := by
  have htext : cs.map Prod.fst = cs'.map Prod.fst :=
    Text.bytes_injective (by rw [← map_fst_tagBytes, ← map_fst_tagBytes, h])
  -- the characters are the same, so a character begins at the same byte in both
  induction cs generalizing cs' with
  | nil => exact (List.map_eq_nil_iff.1 htext.symm).symm
  | cons c cs ih =>
    obtain ⟨c', cs', rfl, hc, hcs⟩ := List.map_eq_cons_iff.1 htext.symm
    rw [tagBytes_cons, tagBytes_cons, hc] at h
    obtain ⟨hfirst, hrest⟩ := List.append_inj h (by simp)
    obtain ⟨x, xs, hx⟩ := List.exists_cons_of_length_pos
      ((String.length_utf8EncodeChar c.1).symm ▸ c.1.utf8Size_pos)
    rw [hx, List.map_cons, List.map_cons] at hfirst
    have horigin : c.2 = c'.2 := (Prod.mk.inj (List.cons.inj hfirst).1).2
    rw [ih hrest hcs.symm, show c = c' from Prod.ext hc.symm horigin]

/-! ### Ranges of literal bytes -/

/-- The ranges of the literal bytes of a row whose first byte is at the offset `n`. -/
def literalsFrom (n : Nat) : List Fragment → List Span
  | [] => []
  | ⟨.source, t⟩ :: fs => literalsFrom (n + byteLength t) fs
  | ⟨.literal, t⟩ :: fs => ⟨n, n + byteLength t⟩ :: literalsFrom (n + byteLength t) fs

/-- The ranges lie within the row. -/
theorem bounds_literalsFrom {r : Span} (h : r ∈ literalsFrom n fs) :
    n ≤ r.start ∧ r.stop ≤ n + byteLength (rowText fs) := by
  induction fs generalizing n with
  | nil => cases h
  | cons f fs ih =>
    obtain ⟨origin, t⟩ := f
    rw [rowText_cons, Text.byteLength_append]
    cases origin with
    | source =>
      have hr := ih h
      simp only
      omega
    | literal =>
      rcases List.mem_cons.1 h with rfl | h
      · simp only
        omega
      · have hr := ih h
        simp only
        omega

/-- In a canonical row source text stands between two literal fragments. -/
theorem gapped_literalsFrom (h : Canonical fs) : Span.Gapped (literalsFrom n fs) := by
  induction fs generalizing n with
  | nil => exact .nil
  | cons f fs ih =>
    obtain ⟨origin, t⟩ := f
    cases origin with
    -- source fragments have no range of their own
    | source => exact ih h.2.2
    | literal =>
      have hrest : Span.Gapped (literalsFrom (n + byteLength t) fs) := ih h.2.2
      have hsize : 0 < byteLength t := Text.byteLength_pos h.1
      refine ⟨fun r hr => ?_, List.pairwise_cons.2 ⟨fun r hr => ?_, hrest.gaps⟩⟩
      -- no range is empty, because no fragment is
      · rcases List.mem_cons.1 hr with rfl | hr
        · simp only
          omega
        · exact hrest.nonempty r hr
      -- behind a literal fragment comes a source fragment, which is the gap
      · cases fs with
        | nil => cases hr
        | cons g fs =>
          obtain ⟨origin, u⟩ := g
          cases origin with
          | literal => exact absurd rfl (h.2.1 ⟨.literal, u⟩ rfl)
          | source =>
            have hr : r ∈ literalsFrom (n + byteLength t + byteLength u) fs := hr
            have hbehind := (bounds_literalsFrom hr).1
            have hgap : 0 < byteLength u := Text.byteLength_pos h.2.2.1
            simp only
            omega

/-- The ranges hold the offsets of the literal bytes. -/
theorem holds_literalsFrom : Span.Holds (literalsFrom n fs) b ↔
    n ≤ b ∧ ∃ x, (tagBytes (rowCells fs))[b - n]? = some (x, .literal) := by
  induction fs generalizing n with
  | nil => simp [literalsFrom, tagBytes]
  | cons f fs ih =>
    obtain ⟨origin, t⟩ := f
    have hlength : (t.bytes.map (·, origin)).length = byteLength t := by
      rw [List.length_map, Text.length_bytes]
    have hcells : tagBytes (cells ⟨origin, t⟩) = t.bytes.map (·, origin) := tagBytes_cells _
    rw [rowCells_cons, tagBytes_append, hcells]
    by_cases hin : b < n + byteLength t
    · -- the byte is one of the first fragment
      have hlater : ¬ Span.Holds (literalsFrom (n + byteLength t) fs) b := by
        rw [ih]
        exact fun h => absurd h.1 (by omega)
      cases origin with
      | source =>
        refine iff_of_false hlater ?_
        rintro ⟨hle, x, hx⟩
        rw [List.getElem?_append_left (by rw [hlength]; omega), List.getElem?_map] at hx
        obtain ⟨y, -, hy⟩ := Option.map_eq_some_iff.1 hx
        cases hy
      | literal =>
        rw [literalsFrom, Span.holds_cons, or_iff_left hlater]
        refine ⟨fun h => ⟨h.1, ?_⟩, fun h => ⟨h.1, hin⟩⟩
        have hle : n ≤ b := h.1
        have hbyte : b - n < t.bytes.length := by rw [Text.length_bytes]; omega
        refine ⟨t.bytes[b - n], ?_⟩
        rw [List.getElem?_append_left (by rw [hlength]; omega), List.getElem?_map,
          List.getElem?_eq_getElem hbyte]
        rfl
    -- the byte is one of the later fragments
    · have hfirst : (n ≤ b ∧ ∃ x, (t.bytes.map (·, origin) ++ tagBytes (rowCells fs))[b - n]? =
            some (x, .literal)) ↔ n + byteLength t ≤ b ∧
              ∃ x, (tagBytes (rowCells fs))[b - (n + byteLength t)]? = some (x, .literal) := by
        rw [List.getElem?_append_right (by omega), hlength, Nat.sub_sub]
        exact and_congr_left fun _ => by omega
      rw [hfirst, ← ih]
      cases origin with
      | source => rfl
      | literal =>
        rw [literalsFrom, Span.holds_cons]
        exact or_iff_right fun h => hin h.2

end Fragment

/-! ### Text with ranges -/

/-- A document as text with the byte ranges of its literal characters. -/
structure Ranged where
  text : Text
  literals : List Span

namespace Ranged

/-- The text between two byte offsets. -/
def between (d : Ranged) (start stop : Nat) : Text :=
  Text.slice d.text (Text.spanOfBytes d.text start stop)

def slice (d : Ranged) (r : Span) : Ranged :=
  ⟨d.between r.start r.stop, d.literals.filterMap r.clip?⟩

def push (d e : Ranged) : Ranged :=
  ⟨d.text ++ e.text, (e.literals.map (Span.shift (byteLength d.text))).foldl Span.add d.literals⟩

def gather (d : Ranged) (rs : List Span) : Ranged :=
  rs.foldl (fun out r => out.push (d.slice r)) ⟨[], []⟩

def splice (d : Ranged) (r : Span) (e : Ranged) : Ranged :=
  ((d.slice ⟨0, r.start⟩).push e).push (d.slice ⟨r.stop, byteLength d.text⟩)

def isLiteralAt (d : Ranged) (b : Nat) : Bool := d.literals.any fun r => r.start ≤ b && b < r.stop

/-- The source and literal pieces behind an offset, where the next literal ranges are known. -/
def piecesFrom (d : Ranged) (b : Nat) : List Span → List Fragment
  | [] => if b < byteLength d.text then [⟨.source, d.between b (byteLength d.text)⟩] else []
  | r :: rs =>
    (if b < r.start then [⟨.source, d.between b r.start⟩] else []) ++
      ⟨.literal, d.between r.start r.stop⟩ :: d.piecesFrom r.stop rs

def fragments (d : Ranged) : List Fragment := d.piecesFrom 0 d.literals

end Ranged

namespace Document

variable {d e : Document} {r : Span} {rs : List Span} {b : Nat}

/-- The bytes of a document with the origins of their characters. -/
def tagged (d : Document) : List (UInt8 × Origin) := Fragment.tagBytes d.cells

/-- The ranges of the literal bytes of a document. -/
def literals (d : Document) : List Span := Fragment.literalsFrom 0 d.fragments

def ranged (d : Document) : Ranged := ⟨d.text, d.literals⟩

/-- The span of the characters in a range of bytes. -/
def spanOf (d : Document) (r : Span) : Span := Text.spanOfBytes d.text r.start r.stop

/-- The range lies within the document, and both ends lie between characters. -/
structure InBounds (d : Document) (r : Span) : Prop where
  start_le_stop : r.start ≤ r.stop
  start : Text.IsBoundary d.text r.start
  stop : Text.IsBoundary d.text r.stop

theorem tagged_injective (h : d.tagged = e.tagged) : d = e :=
  ext_cells (Fragment.tagBytes_injective h)

theorem length_tagged (d : Document) : d.tagged.length = byteLength d.text := by
  rw [tagged, Fragment.length_tagBytes, map_fst_cells]

/-- Appending documents appends their tagged bytes. -/
theorem tagged_push (d e : Document) : (d.push e).tagged = d.tagged ++ e.tagged := by
  rw [tagged, cells_push, Fragment.tagBytes_append]
  rfl

theorem InBounds.spanOf_le (h : d.InBounds r) : (d.spanOf r).start ≤ (d.spanOf r).stop :=
  h.start.position_le_position h.stop h.start_le_stop

/-- A slice between two boundaries has the tagged bytes between them. -/
theorem tagged_slice (h : d.InBounds r) : (d.slice (d.spanOf r)).tagged = r.cut d.tagged := by
  have hstart : byteOffset d.text (d.spanOf r).start = r.start := h.start.byteOffset_position
  have hstop : byteOffset d.text (d.spanOf r).stop = r.stop := h.stop.byteOffset_position
  rw [tagged, cells_slice, Fragment.tagBytes_cut h.spanOf_le, map_fst_cells, hstart, hstop]
  rfl

/-- Gathered slices have their tagged bytes one behind the other. -/
theorem tagged_gather (h : ∀ r ∈ rs, d.InBounds r) :
    (d.gather (rs.map d.spanOf)).tagged = Span.gather rs d.tagged := by
  induction rs with
  | nil => rfl
  | cons r rs ih =>
    have hfirst := tagged_slice (h r List.mem_cons_self)
    have hrest := ih fun s hs => h s (List.mem_cons_of_mem r hs)
    rw [tagged, cells_slice_eq_cut] at hfirst
    rw [tagged, cells_gather_eq] at hrest ⊢
    rw [List.map_cons, Span.gather_cons, Fragment.tagBytes_append, hfirst, hrest, Span.gather_cons]

/-- A splice at boundaries is one of the tagged bytes. -/
theorem tagged_splice (h : d.InBounds r) (e : Document) :
    (d.splice (d.spanOf r) e).tagged = r.graft e.tagged d.tagged := by
  have hstart : byteOffset d.text (d.spanOf r).start = r.start := h.start.byteOffset_position
  have hstop : byteOffset d.text (d.spanOf r).stop = r.stop := h.stop.byteOffset_position
  rw [tagged, cells_splice, Fragment.tagBytes_append, Fragment.tagBytes_append,
    Fragment.tagBytes_take, Fragment.tagBytes_drop, map_fst_cells, hstart, hstop]
  rfl

/-! ### The ranges of a document -/

/-- The ranges of a document are gapped, since its fragments are canonical. -/
theorem gapped_literals (d : Document) : Span.Gapped d.literals :=
  Fragment.gapped_literalsFrom d.canonical

theorem stop_le_of_mem_literals (h : r ∈ d.literals) : r.stop ≤ byteLength d.text :=
  (Fragment.bounds_literalsFrom h).2.trans_eq (Nat.zero_add _)

/-- The ranges hold the literal bytes. -/
theorem holds_literals : Span.Holds d.literals b ↔ ∃ x, d.tagged[b]? = some (x, .literal) := by
  rw [literals, Fragment.holds_literalsFrom, Nat.sub_zero, and_iff_right b.zero_le]
  rfl

/-- Ranges that lie apart and hold the literal bytes are the ranges of the document. -/
theorem literals_eq (h : Span.Gapped rs)
    (hholds : ∀ b, Span.Holds rs b ↔ ∃ x, d.tagged[b]? = some (x, .literal)) : d.literals = rs :=
  d.gapped_literals.eq_of_holds h fun b => by rw [holds_literals, hholds]

/-- The ranges of a slice are those of the document, clipped to it. -/
theorem ranged_slice (h : d.InBounds r) : (d.slice (d.spanOf r)).ranged = d.ranged.slice r := by
  have hliterals : (d.slice (d.spanOf r)).literals = d.literals.filterMap r.clip? := by
    refine literals_eq (d.gapped_literals.clip r) fun b => ?_
    -- an offset within the slice is literal where the same one of the document is
    rw [Span.holds_clip, holds_literals, tagged_slice h, Span.getElem?_cut]
    split
    · next hlt => simp [hlt]
    · next hge => simp [hge]
  rw [ranged, hliterals, text_slice]
  rfl

theorem text_push (d e : Document) : (d.push e).text = d.text ++ e.text := by
  simp only [← map_fst_cells, cells_push, List.map_append]

/-- The ranges of what is appended begin where the text ended before. -/
theorem ranged_push (d e : Document) : (d.push e).ranged = d.ranged.push e.ranged := by
  -- the ranges of the second document come behind those of the first
  have hbehind : ∀ r ∈ d.literals, ∀ s ∈ e.literals.map (Span.shift (byteLength d.text)),
      r.stop ≤ s.start := by
    intro r hr s hs
    obtain ⟨s', -, rfl⟩ := List.mem_map.1 hs
    exact (stop_le_of_mem_literals hr).trans (Nat.le_add_left _ _)
  obtain ⟨hgapped, hholds⟩ := d.gapped_literals.foldl_add (e.gapped_literals.shift _) hbehind
  have hliterals : (d.push e).literals =
      (e.literals.map (Span.shift (byteLength d.text))).foldl Span.add d.literals := by
    refine literals_eq hgapped fun b => ?_
    rw [hholds, Span.holds_shift, holds_literals, holds_literals, tagged_push, ← length_tagged]
    -- an offset belongs to the first document or, moved back, to the second
    by_cases hb : b < d.tagged.length
    · rw [List.getElem?_append_left hb, or_iff_left fun h => absurd h.1 (Nat.not_le.2 hb)]
    · have hle := Nat.le_of_not_lt hb
      rw [List.getElem?_append_right hle, List.getElem?_eq_none hle, and_iff_right hle]
      simp
  rw [ranged, hliterals, text_push]
  rfl

/-- The ranges of gathered slices are put together slice by slice. -/
theorem ranged_gather (h : ∀ r ∈ rs, d.InBounds r) :
    (d.gather (rs.map d.spanOf)).ranged = d.ranged.gather rs := by
  -- by induction on the slices, in front of which a document has been gathered already
  have hfold : ∀ out : Document, (out.push (d.gather (rs.map d.spanOf))).ranged =
      rs.foldl (fun out r => out.push (d.ranged.slice r)) out.ranged := by
    induction rs with
    | nil =>
      intro out
      exact congrArg ranged (ext_cells (by rw [cells_push, cells_gather_eq]; simp))
    | cons r rs ih =>
      intro out
      have hsplit : out.push (d.gather ((r :: rs).map d.spanOf)) =
          (out.push (d.slice (d.spanOf r))).push (d.gather (rs.map d.spanOf)) :=
        ext_cells (by simp [cells_gather_eq, Span.cut])
      rw [hsplit, ih fun s hs => h s (List.mem_cons_of_mem r hs), ranged_push,
        ranged_slice (h r List.mem_cons_self)]
      rfl
  have hempty : Document.empty.push (d.gather (rs.map d.spanOf)) = d.gather (rs.map d.spanOf) :=
    ext_cells (by simp)
  rw [← hempty, hfold]
  rfl

/-- The ranges of a splice are those of its three parts. -/
theorem ranged_splice (h : d.InBounds r) (e : Document) :
    (d.splice (d.spanOf r) e).ranged = d.ranged.splice r e.ranged := by
  have hbefore : d.InBounds ⟨0, r.start⟩ := ⟨Nat.zero_le _, Text.isBoundary_zero _, h.start⟩
  have hbehind : d.InBounds ⟨r.stop, byteLength d.text⟩ :=
    ⟨h.stop.le_byteLength, h.stop, Text.isBoundary_byteLength _⟩
  have hsplit : d.splice (d.spanOf r) e =
      ((d.slice (d.spanOf ⟨0, r.start⟩)).push e).push
        (d.slice (d.spanOf ⟨r.stop, byteLength d.text⟩)) := by
    refine tagged_injective ?_
    -- what stands behind is the rest of the bytes
    have hrest : Span.cut ⟨r.stop, byteLength d.text⟩ d.tagged = d.tagged.drop r.stop := by
      rw [Span.cut, ← length_tagged, ← List.length_drop, List.take_length]
    rw [tagged_splice h, tagged_push, tagged_push, tagged_slice hbefore, tagged_slice hbehind,
      hrest]
    rfl
  rw [hsplit, ranged_push, ranged_push, ranged_slice hbefore, ranged_slice hbehind]
  rfl

/-! ### Reading a document through its ranges -/

/-- A position is literal if its cell is. -/
theorem isLiteralAt_iff {i : Nat} :
    d.isLiteralAt i = true ↔ ∃ c, d.cells[i]? = some (c, .literal) := by
  rw [isLiteralAt, ← List.head?_drop]
  rcases d.cells.drop i with _ | ⟨⟨c, _ | _⟩, rest⟩ <;> simp [startsInSource]

/-- Whether a byte is literal is read off the character that it belongs to. -/
theorem isLiteralAt_positionHolding :
    d.isLiteralAt (Text.positionHolding d.text b) = true ↔
      ∃ x, d.tagged[b]? = some (x, .literal) := by
  rw [isLiteralAt_iff]
  -- the offset is one of a character, or it is behind the text
  by_cases hb : b < byteLength d.text
  · obtain ⟨i, hi, hle, hlt⟩ := Text.exists_position hb
    rw [Text.positionHolding_eq hi hle hlt]
    rw [← map_fst_cells] at hle hlt
    exact (Fragment.exists_getElem?_tagBytes hle hlt).symm
  · have hpast := Nat.le_of_not_lt hb
    rw [Text.positionHolding_past hpast, List.getElem?_eq_none (by rw [length_cells]),
      List.getElem?_eq_none (by rwa [length_tagged])]
    simp

/-- Ranges tell at an offset what the document tells at the character that holds it. -/
theorem ranged_isLiteralAt (d : Document) (b : Nat) :
    d.ranged.isLiteralAt b = d.isLiteralAt (Text.positionHolding d.text b) := by
  rw [Bool.eq_iff_iff, isLiteralAt_positionHolding, ← holds_literals, Ranged.isLiteralAt,
    List.any_eq_true]
  simp [Span.Holds, Span.Has, ranged]

/-- The text of a row is one text after the other. -/
theorem flatMap_fragments (d : Document) : d.fragments.flatMap (·.text) = d.text := by
  rw [text]
  induction d.fragments with
  | nil => rfl
  | cons f fs ih => rw [List.flatMap_cons, ih, Fragment.rowText_cons]

/-- Between two offsets stands the text that has them as its ends. -/
theorem between_eq (before mid behind : Text) (h : d.text = before ++ mid ++ behind) :
    d.ranged.between (byteLength before) (byteLength before + byteLength mid) = mid := by
  rw [Ranged.between, ranged, h, Text.slice_spanOfBytes]

/-- The pieces between the ranges are the fragments, where some source text `t` was passed already
and the next fragment does not go on with it. -/
theorem piecesFrom_literals {fs : List Fragment} (h : Fragment.Canonical fs) {before t : Text}
    (htext : d.text = before ++ t ++ Fragment.rowText fs)
    (ht : t ≠ [] → ∀ f ∈ fs.head?, f.origin = .literal) :
    d.ranged.piecesFrom (byteLength before)
        (Fragment.literalsFrom (byteLength before + byteLength t) fs) =
      (if t = [] then [] else [⟨.source, t⟩]) ++ fs := by
  induction fs generalizing before t with
  -- behind the last fragment there is only the source text that is left
  | nil =>
    rw [Fragment.rowText, List.append_nil] at htext
    have hlength : byteLength d.ranged.text = byteLength before + byteLength t := by
      rw [ranged, htext, Text.byteLength_append]
    have hbetween : d.ranged.between (byteLength before) (byteLength before + byteLength t) = t :=
      between_eq before t [] (by rw [htext, List.append_nil])
    rw [Fragment.literalsFrom, Ranged.piecesFrom, hlength, hbetween]
    by_cases hne : t = [] <;> simp [Text.byteLength_pos_iff, hne]
  | cons f fs ih =>
    obtain ⟨origin, u⟩ := f
    rw [Fragment.rowText_cons] at htext
    cases origin with
    -- a literal fragment ends the source text before it
    | literal =>
      have hsource : d.ranged.between (byteLength before) (byteLength before + byteLength t) = t :=
        between_eq before t (u ++ Fragment.rowText fs) htext
      have hliteral : d.ranged.between (byteLength before + byteLength t)
          (byteLength before + byteLength t + byteLength u) = u := by
        rw [← Text.byteLength_append]
        exact between_eq (before ++ t) u (Fragment.rowText fs)
          (by rw [htext, List.append_assoc _ u])
      have hrest := @ih h.2.2 (before ++ t ++ u) [] (by simp [htext]) (fun hne => absurd rfl hne)
      simp only [Text.byteLength_append, Text.byteLength_nil, Nat.add_zero] at hrest
      rw [Fragment.literalsFrom, Ranged.piecesFrom, hsource, hliteral, hrest]
      by_cases hne : t = [] <;> simp [Text.byteLength_pos_iff, hne]
    -- a source fragment is the source text before the next range
    | source =>
      obtain rfl : t = [] := by
        by_contra hne
        cases ht hne _ rfl
      have hnext : ∀ f ∈ fs.head?, f.origin = .literal := by
        intro f hf
        have hne := h.2.1 f hf
        cases hf : f.origin with
        | source => exact absurd hf.symm hne
        | literal => rfl
      rw [Fragment.literalsFrom, Text.byteLength_nil, Nat.add_zero,
        @ih h.2.2 before u (by simpa using htext) (fun _ => hnext), if_neg h.1, if_pos rfl]
      rfl

/-- The pieces between the ranges are the fragments. -/
theorem ranged_fragments (d : Document) : d.ranged.fragments = d.fragments := by
  have hpieces :=
    @piecesFrom_literals d d.fragments d.canonical [] [] rfl (fun hne => absurd rfl hne)
  simpa [Ranged.fragments, ranged, literals] using hpieces

/-- Canonical fragments alternate, and none of them is empty. -/
theorem isChain_of_canonical {fs : List Fragment} (h : Fragment.Canonical fs) :
    fs.IsChain (·.origin ≠ ·.origin) ∧ ∀ f ∈ fs, f.text ≠ [] := by
  induction fs with
  | nil => exact ⟨.nil, nofun⟩
  | cons f fs ih =>
    obtain ⟨hchain, hnonempty⟩ := ih h.2.2
    refine ⟨?_, fun g hg => ?_⟩
    · cases fs with
      | nil => exact .singleton f
      | cons g fs => exact .cons_cons (h.2.1 g rfl) hchain
    · rcases List.mem_cons.1 hg with rfl | hg
      · exact h.1
      · exact hnonempty g hg

/-- Source text has no ranges. -/
theorem ranged_source (t : Text) : (source t).ranged = ⟨t, []⟩ := by
  rw [ranged, text_source]
  cases t <;> rfl

/-- Literal text has one range, unless it is empty. -/
theorem ranged_literal (t : Text) :
    (literal t).ranged = ⟨t, if t.isEmpty then [] else [⟨0, byteLength t⟩]⟩ := by
  rw [ranged, text_literal]
  cases t with
  | nil => rfl
  | cons c t => exact congrArg (fun n => Ranged.mk (c :: t) [⟨0, n⟩]) (Nat.zero_add _)

/-- The text and the ranges tell a document. -/
theorem ranged_injective (h : d.ranged = e.ranged) : d = e := by
  have hfragments : d.fragments = e.fragments := by rw [← ranged_fragments, h, ranged_fragments]
  exact ext_cells (congrArg Fragment.rowCells hfragments)

/-- A document is a row of tagged bytes, and it can be kept as text with ranges. Its literal ranges
lie apart, within the text, and hold the literal bytes. Appending documents appends their bytes, and
slicing, gathering and splicing at boundaries cuts and joins the bytes at the offsets; the ranges
come out of the arithmetic that is done on ranges. Documents with the same tagged bytes are the
same. The fragments are the pieces of one origin, and a byte is literal where its tag says so. -/
theorem document_is_tagged_bytes :
    (∀ d : Document, Span.Gapped d.literals ∧ (∀ r ∈ d.literals, r.stop ≤ byteLength d.text) ∧
      ∀ b, Span.Holds d.literals b ↔ ∃ x, d.tagged[b]? = some (x, .literal)) ∧
    (∀ t : Text, (source t).tagged = t.bytes.map (·, .source) ∧ (source t).ranged = ⟨t, []⟩) ∧
    (∀ t : Text, (literal t).tagged = t.bytes.map (·, .literal) ∧
      (literal t).ranged = ⟨t, if t.isEmpty then [] else [⟨0, byteLength t⟩]⟩) ∧
    (∀ d e : Document, (d.push e).tagged = d.tagged ++ e.tagged ∧
      (d.push e).ranged = d.ranged.push e.ranged) ∧
    (∀ (d : Document) (r : Span), d.InBounds r →
      (d.slice (d.spanOf r)).tagged = (d.tagged.drop r.start).take (r.stop - r.start) ∧
        (d.slice (d.spanOf r)).ranged = d.ranged.slice r) ∧
    (∀ (d : Document) (rs : List Span), (∀ r ∈ rs, d.InBounds r) →
      (d.gather (rs.map d.spanOf)).tagged =
          rs.flatMap (fun r => (d.slice (d.spanOf r)).tagged) ∧
        (d.gather (rs.map d.spanOf)).ranged = d.ranged.gather rs) ∧
    (∀ (d : Document) (r : Span) (e : Document), d.InBounds r →
      (d.splice (d.spanOf r) e).tagged =
          d.tagged.take r.start ++ e.tagged ++ d.tagged.drop r.stop ∧
        (d.splice (d.spanOf r) e).ranged = d.ranged.splice r e.ranged) ∧
    (∀ d e : Document, (d = e ↔ d.tagged = e.tagged) ∧
      (d.ranged = e.ranged ↔ d.tagged = e.tagged)) ∧
    (∀ d : Document, d.ranged.fragments = d.fragments ∧
      d.fragments.IsChain (·.origin ≠ ·.origin) ∧ (∀ f ∈ d.fragments, f.text ≠ []) ∧
      d.fragments.flatMap (·.text) = d.text) ∧
    ∀ (d : Document) (b : Nat),
      (d.ranged.isLiteralAt b = true ↔ ∃ x, d.tagged[b]? = some (x, .literal)) ∧
        d.isLiteralAt (Text.positionHolding d.text b) = d.ranged.isLiteralAt b := by
  refine ⟨fun d => ⟨d.gapped_literals, fun r => stop_le_of_mem_literals, fun b => holds_literals⟩,
    fun t => ⟨?_, ranged_source t⟩, fun t => ⟨?_, ranged_literal t⟩,
    fun d e => ⟨tagged_push d e, ranged_push d e⟩,
    fun d r h => ⟨tagged_slice h, ranged_slice h⟩, fun d rs h => ⟨?_, ranged_gather h⟩,
    fun d r e h => ⟨tagged_splice h e, ranged_splice h e⟩, fun d e => ⟨?_, ?_⟩, fun d => ?_,
    fun d b => ⟨?_, (d.ranged_isLiteralAt b).symm⟩⟩
  · rw [tagged, cells_source]
    exact Fragment.tagBytes_cells ⟨.source, t⟩
  · rw [tagged, cells_literal]
    exact Fragment.tagBytes_cells ⟨.literal, t⟩
  · rw [tagged_gather h]
    exact List.flatMap_congr fun r hr => (tagged_slice (h r hr)).symm
  · exact ⟨fun h => h ▸ rfl, tagged_injective⟩
  · exact ⟨fun h => congrArg tagged (ranged_injective h),
      fun h => congrArg ranged (tagged_injective h)⟩
  · obtain ⟨hchain, hnonempty⟩ := isChain_of_canonical d.canonical
    exact ⟨d.ranged_fragments, hchain, hnonempty, d.flatMap_fragments⟩
  · rw [ranged_isLiteralAt, isLiteralAt_positionHolding]

/-- A character of two bytes takes the place of a call of four. -/
theorem tagged_bytes_of_splice :
    let d := source "a$x[]b".toList
    let spliced := d.splice (d.spanOf ⟨1, 5⟩) (literal ['é'])
    d.InBounds ⟨1, 5⟩ ∧
      spliced.tagged = [(0x61, .source), (0xC3, .literal), (0xA9, .literal), (0x62, .source)] ∧
      spliced.ranged.literals = [⟨1, 3⟩] := by
  have hbounds : (source "a$x[]b".toList).InBounds ⟨1, 5⟩ :=
    ⟨by decide, ⟨1, by decide, by decide⟩, ⟨5, by decide, by decide⟩⟩
  obtain ⟨-, -, -, -, -, -, hsplice, -⟩ := document_is_tagged_bytes
  obtain ⟨htagged, hranged⟩ := hsplice _ _ (literal ['é']) hbounds
  exact ⟨hbounds, htagged.trans (by decide), congrArg Ranged.literals (hranged.trans rfl)⟩

end Document

end Stencil
