import Stencil.Proofs.ByteCalls
import Stencil.Proofs.Slots
import Stencil.Text.Split
/-!
# Argument lists that are joined

Slots can be written in a row, a semicolon between two of them and blanks around each. Cutting the
list gives the slots back wherever it stands (`slots_of_joined`). The pieces of the list are the
slots with their blanks (`piecesFrom_joined`), and trimming takes exactly these blanks off
(`slotOf_text`). Of empty slots only a last one is dropped, so one more semicolon behind the list
adds nothing (`Tail.exists_row`).

Where the slots stand is known from what is written (`spans`), in positions and in bytes.
-/

namespace Stencil.Bracket

open Text (byteLength byteOffset inBytes cut?)

/-- A slot as it is written: a text with blanks around it, or blanks alone where there is none. -/
structure Padded where
  before : Text
  word : Option Text
  behind : Text

namespace Padded

def text (p : Padded) : Text := p.before ++ (p.word.getD [] ++ p.behind)

/-- Around the text of a slot there are only blanks, and the text makes up one slot. -/
structure Fits (p : Padded) : Prop where
  before : ∀ c ∈ p.before, isBlank c = true
  behind : ∀ c ∈ p.behind, isBlank c = true
  word : ∀ w, p.word = some w → w ≠ [] ∧ w.Trimmed ∧ Nested w ∧ Uncut 0 w

/-- A slot fits when its blanks are blanks and what it holds is trimmed, nested and without a
semicolon of its own. -/
theorem fits_iff {p : Padded} : p.Fits ↔ Text.isBlankText p.before ∧ Text.isBlankText p.behind ∧
    p.word.all fun w => w ≠ [] ∧ Text.trim w = w ∧ Nested w ∧ Uncut 0 w := by
  have htrimmed : ∀ w : Text, Text.trim w = w ↔ w.Trimmed :=
    fun w => ⟨fun h => h ▸ Text.trimmed_trim w, Text.Trimmed.trim_eq⟩
  simp only [htrimmed, Text.isBlankText, List.all_eq_true, Option.all_eq_true, decide_eq_true_eq]
  exact ⟨fun h => ⟨h.before, h.behind, h.word⟩, fun h => ⟨h.1, h.2.1, h.2.2⟩⟩

instance (p : Padded) : Decidable p.Fits := decidable_of_iff _ fits_iff.symm

/-- An empty slot. -/
def empty (blanks : Text) : Padded := ⟨blanks, none, []⟩

@[simp] theorem text_empty (blanks : Text) : (empty blanks).text = blanks := by
  simp [text, empty]

/-- A slot of blanks alone fits. -/
theorem fits_empty {blanks : Text} (h : ∀ c ∈ blanks, isBlank c = true) : (empty blanks).Fits where
  before := h
  behind c hc := absurd hc List.not_mem_nil
  word w hw := by cases hw

/-- Where the text of a slot stands that is written behind a text, in some measure of texts. -/
def span (size : Text → Nat) (before : Text) (p : Padded) : Option Span :=
  p.word.map fun w => ⟨size before + size p.before, size before + size p.before + size w⟩

/-- Slots in a row, with semicolons between them. -/
def joined (ps : List Padded) : Text := Text.join [';'] (ps.map text)

/-- Slots in a row behind a text, each with all that stands in front of it. -/
def placed (before : Text) : List Padded → List (Text × Padded)
  | [] => []
  | p :: more => (before, p) :: placed (before ++ (p.text ++ [';'])) more

/-- Where the texts of slots in a row behind a text stand. -/
def spans (size : Text → Nat) (before : Text) (ps : List Padded) : List (Option Span) :=
  (placed before ps).map fun x => x.2.span size x.1

/-- A row of one slot is the text of the slot. -/
theorem joined_singleton (p : Padded) : joined [p] = p.text := by
  rw [joined, Text.join, List.map_singleton, List.intercalate_singleton]

/-- A row of more slots is the first, a semicolon and the row of the others. -/
theorem joined_cons_cons (p q : Padded) (more : List Padded) :
    joined (p :: q :: more) = p.text ++ ([';'] ++ joined (q :: more)) := by
  rw [joined, Text.join, List.map_cons, List.map_cons, List.intercalate_cons_cons,
    List.append_assoc]
  rfl

/-- Behind a row the next slot stands after a semicolon. -/
theorem joined_concat {ps : List Padded} (hne : ps ≠ []) (q : Padded) :
    joined (ps ++ [q]) = joined ps ++ ';' :: q.text := by
  induction ps with
  | nil => exact absurd rfl hne
  | cons p more ih =>
    cases more with
    | nil => rw [List.singleton_append, joined_cons_cons, joined_singleton, joined_singleton]; rfl
    | cons p' more =>
      have hmore : joined (p' :: (more ++ [q])) = joined (p' :: more) ++ ';' :: q.text :=
        ih (List.cons_ne_nil p' more)
      rw [List.cons_append, List.cons_append, joined_cons_cons, hmore, joined_cons_cons]
      simp only [List.append_assoc]

variable {p : Padded} {ps : List Padded} {t before behind : Text} {x : Text × Padded}

/-- A slot put at the end of a row is the last that is placed; where the others are placed
stays. -/
theorem placed_concat (before : Text) (ps : List Padded) (q : Padded) :
    ∃ front, placed before (ps ++ [q]) = placed before ps ++ [(front, q)] := by
  induction ps generalizing before with
  | nil => exact ⟨before, rfl⟩
  | cons p more ih =>
    obtain ⟨front, hmore⟩ := ih (before ++ (p.text ++ [';']))
    refine ⟨front, ?_⟩
    rw [List.cons_append, placed, placed, hmore, List.cons_append]

/-- What is placed are the slots of the row, in their order. -/
theorem map_snd_placed (before : Text) (ps : List Padded) :
    (placed before ps).map Prod.snd = ps := by
  induction ps generalizing before with
  | nil => rfl
  | cons p more ih => rw [placed, List.map_cons, ih]

/-- A slot in a row stands behind what is in front of it. -/
theorem of_mem_placed (ht : t = before ++ (joined ps ++ behind)) (hx : x ∈ placed before ps) :
    x.2 ∈ ps ∧ ∃ rest, t = x.1 ++ (x.2.text ++ rest) := by
  induction ps generalizing before with
  | nil => cases hx
  | cons p more ih =>
    -- the first slot stands right behind what is before the row
    rw [placed, List.mem_cons] at hx
    cases more with
    | nil =>
      obtain rfl : x = (before, p) := hx.resolve_right List.not_mem_nil
      rw [joined_singleton] at ht
      exact ⟨List.mem_cons_self, behind, ht⟩
    | cons q more =>
      rw [joined_cons_cons] at ht
      rcases hx with rfl | hx
      · refine ⟨List.mem_cons_self, [';'] ++ (joined (q :: more) ++ behind), ?_⟩
        rw [ht]
        simp only [List.append_assoc]
      -- a later one stands behind the first slot and its semicolon
      · have hlater : t = (before ++ (p.text ++ [';'])) ++ (joined (q :: more) ++ behind) := by
          rw [ht]
          simp only [List.append_assoc]
        obtain ⟨hmem, hrest⟩ := ih hlater hx
        exact ⟨List.mem_cons_of_mem p hmem, hrest⟩

/-! ### Pieces -/

/-- Blanks are part of one slot. -/
theorem uncut_of_blank {blanks : Text} (h : ∀ c ∈ blanks, isBlank c = true) :
    Nested blanks ∧ Uncut 0 blanks := by
  have hnot : ∀ {m : Char}, isBlank m = false → m ∉ blanks := by
    intro m hm hmem
    rw [h m hmem] at hm
    cases hm
  have hbalanced : Balanced blanks := Balanced.of_plain fun c hc =>
    ⟨fun heq => hnot (by decide) (heq ▸ hc), fun heq => hnot (by decide) (heq ▸ hc)⟩
  refine ⟨balanced_iff_nested.1 hbalanced, fun s hs => ?_⟩
  exact absurd (hs.subset (List.mem_append_right s List.mem_cons_self)) (hnot (by decide))

/-- What makes up one slot belongs to the current piece. -/
theorem piecesFrom_append {u : Text} (h : Nested u ∧ Uncut 0 u) (start i : Nat) (done : List Span)
    (rest : Text) :
    piecesFrom start i 0 done (u ++ rest) = piecesFrom start (i + u.length) 0 done rest := by
  rw [piecesFrom_append_of_uncut (h.1.inside le_rfl) h.2, h.1.count_eq, Nat.add_sub_cancel]

/-- The text of a slot is passed over without a cut. -/
theorem piecesFrom_text_append (h : p.Fits) (start i : Nat) (done : List Span) (rest : Text) :
    piecesFrom start i 0 done (p.text ++ rest) =
      piecesFrom start (i + p.text.length) 0 done rest := by
  -- what the slot holds has no semicolon outside its brackets
  have hword : Nested (p.word.getD []) ∧ Uncut 0 (p.word.getD []) := by
    cases hw : p.word with
    | none => exact uncut_of_blank fun c hc => absurd hc List.not_mem_nil
    | some w => exact (h.word w hw).2.2
  rw [text, List.append_assoc, List.append_assoc, piecesFrom_append (uncut_of_blank h.before),
    piecesFrom_append hword, piecesFrom_append (uncut_of_blank h.behind), List.length_append,
    List.length_append, Nat.add_assoc, Nat.add_assoc]

/-- A slot with its blanks. -/
def part (x : Text × Padded) : Span := ⟨x.1.length, x.1.length + x.2.text.length⟩

/-- The cut of slots in a row comes to the slots with their blanks. -/
theorem piecesFrom_joined (hne : ps ≠ []) (h : ∀ p ∈ ps, p.Fits) (before : Text)
    (done : List Span) :
    piecesFrom before.length before.length 0 done (joined ps) =
      done.reverse ++ (placed before ps).map part := by
  induction ps generalizing before done with
  | nil => exact absurd rfl hne
  | cons p more ih =>
    have hp := h p List.mem_cons_self
    cases more with
    | nil =>
      -- the last slot ends with the text
      have happend := piecesFrom_text_append hp before.length before.length done []
      rw [List.append_nil] at happend
      rw [joined_singleton, happend, piecesFrom, List.reverse_cons]
      rfl
    | cons q more =>
      -- behind any other slot a semicolon ends its piece
      have hmore := ih (List.cons_ne_nil q more) (fun r hr => h r (List.mem_cons_of_mem p hr))
        (before ++ (p.text ++ [';'])) (part (before, p) :: done)
      rw [List.length_append, List.length_append, ← Nat.add_assoc, List.reverse_cons,
        List.append_assoc] at hmore
      rw [joined_cons_cons, piecesFrom_text_append hp, List.singleton_append, piecesFrom,
        if_neg (by decide), if_neg (by decide), if_pos (by decide)]
      exact hmore

/-! ### Trimmed pieces -/

/-- Trimming a slot with its blanks leaves the span of its text. -/
theorem slotOf_text (h : p.Fits) (ht : t = before ++ (p.text ++ behind)) :
    slotOf t (part (before, p)) = p.span List.length before := by
  have hslice : t.slice (part (before, p)) = p.text :=
    Text.slice_of_drop (by rw [ht, List.drop_left])
  -- the piece of a slot lies in the text
  have hstop : (part (before, p)).stop ≤ t.length := by
    show before.length + p.text.length ≤ t.length
    rw [ht, List.length_append, List.length_append]
    omega
  refine ((trims_iff hstop).1 ?_).symm
  unfold span
  cases hw : p.word with
  | none =>
    refine .blank ?_
    rw [hslice, text, hw, Text.isBlankText, List.all_eq_true]
    exact fun c hc => (List.mem_append.1 hc).elim (h.before c) (h.behind c)
  | some w =>
    obtain ⟨hne, htrimmed, -⟩ := h.word w hw
    refine .text p.before w p.behind ?_ h.before h.behind hne htrimmed
    rw [hslice, text, hw]
    rfl

/-- So the trimmed pieces of a row are the spans of what its slots hold. -/
theorem map_slotOf_part (h : ∀ p ∈ ps, p.Fits) (ht : t = before ++ (joined ps ++ behind)) :
    ((placed before ps).map part).map (slotOf t) = spans List.length before ps := by
  rw [List.map_map, spans]
  refine List.map_congr_left fun x hx => ?_
  obtain ⟨hmem, rest, hrest⟩ := of_mem_placed ht hx
  exact slotOf_text (h x.2 hmem) hrest

end Padded

/-- The list without its last slot, if that is empty. -/
def dropNoneLast (found : List (Option Span)) : List (Option Span) :=
  if found.getLast? = some none then found.dropLast else found

/-- The slots are the trimmed pieces, less an empty last one. -/
theorem slots_eq_dropNoneLast (t : Text) (s : Span) :
    slots t s = dropNoneLast ((pieces t s).map (slotOf t)) := by
  have hmap : ∀ parts : List Span,
      (parts.map (Text.trimSpan t)).map (fun p => if p.isEmpty then none else some p) =
        parts.map (slotOf t) := fun parts => List.map_map
  rw [slots, dropEmptyLast, dropNoneLast, List.getLast?_map, List.getLast?_map]
  cases (pieces t s).getLast? with
  | none => exact hmap _
  | some last =>
    simp only [Option.map_some, Option.some_inj]
    by_cases hempty : (Text.trimSpan t last).isEmpty = true
    · have hnone : slotOf t last = none := if_pos hempty
      rw [if_pos hempty, if_pos hnone, ← List.map_dropLast, ← List.map_dropLast, hmap]
    · have hsome : slotOf t last = some (Text.trimSpan t last) := if_neg hempty
      rw [if_neg hempty, if_neg (hsome ▸ Option.some_ne_none _), hmap]

/-- An empty last slot is dropped. -/
theorem dropNoneLast_concat_none (found : List (Option Span)) :
    dropNoneLast (found ++ [none]) = found := by
  rw [dropNoneLast, List.getLast?_concat, if_pos rfl, List.dropLast_concat]

/-- A last slot that holds something stays. -/
theorem dropNoneLast_of_ne {found : List (Option Span)} (h : found.getLast? ≠ some none) :
    dropNoneLast found = found := if_neg h

namespace Padded

variable {p : Padded} {ps : List Padded} {t before behind tail : Text}

/-- The slots of a row are those that are written, but for an empty last one. -/
theorem slots_row (hne : ps ≠ []) (h : ∀ p ∈ ps, p.Fits)
    (ht : t = before ++ (joined ps ++ behind)) :
    slots t ⟨before.length, before.length + (joined ps).length⟩ =
      dropNoneLast (spans List.length before ps) := by
  have hslice : t.slice ⟨before.length, before.length + (joined ps).length⟩ = joined ps :=
    Text.slice_of_drop (by rw [ht, List.drop_left])
  rw [slots_eq_dropNoneLast, pieces, hslice, piecesFrom_joined hne h, List.reverse_nil,
    List.nil_append, map_slotOf_part h ht]

/-! ### Behind the last slot -/

/-- What can stand behind slots in a row without changing them. -/
inductive Tail (ps : List Padded) : Text → Prop where
  | nothing : Tail ps []
  | semicolon (hne : ps ≠ []) (blanks : Text) (hblanks : ∀ c ∈ blanks, isBlank c = true) :
      Tail ps (';' :: blanks)

/-- A slot of blanks at the end of a row adds a slot that holds nothing. -/
theorem spans_concat_empty (size : Text → Nat) (before : Text) (ps : List Padded) (blanks : Text) :
    spans size before (ps ++ [empty blanks]) = spans size before ps ++ [none] := by
  obtain ⟨front, hplaced⟩ := placed_concat before ps (empty blanks)
  rw [spans, hplaced, List.map_append]
  rfl

/-- When the last slot of a row holds something, so does the last of its spans. -/
theorem getLast?_spans (size : Text → Nat) (before : Text)
    (hlast : (ps.map word).getLast? ≠ some none) :
    (spans size before ps).getLast? ≠ some none := by
  rw [spans, List.getLast?_map]
  rw [← map_snd_placed before ps, List.map_map, List.getLast?_map] at hlast
  cases hx : (placed before ps).getLast? with
  | none => exact nofun
  | some x =>
    rw [hx] at hlast
    simpa [span] using hlast

/-- With what stands behind it the row is one of slots too, the last of them empty or not. -/
theorem Tail.exists_row (htail : Tail ps tail) (h : ∀ p ∈ ps, p.Fits)
    (hlast : (ps.map word).getLast? ≠ some none) :
    ∃ row, row ≠ [] ∧ (∀ p ∈ row, p.Fits) ∧ joined row = joined ps ++ tail ∧
      ∀ before, dropNoneLast (spans List.length before row) = spans List.length before ps := by
  -- a row that ends with an empty slot
  have hempty : ∀ blanks : Text, (∀ c ∈ blanks, isBlank c = true) →
      ps ++ [empty blanks] ≠ [] ∧ (∀ p ∈ ps ++ [empty blanks], p.Fits) ∧
        ∀ before, dropNoneLast (spans List.length before (ps ++ [empty blanks])) =
          spans List.length before ps := by
    intro blanks hblanks
    refine ⟨List.concat_ne_nil _ _, fun p hp => ?_, fun before => ?_⟩
    · rcases List.mem_append.1 hp with hp | hp
      · exact h p hp
      · rw [List.mem_singleton.1 hp]
        exact fits_empty hblanks
    · rw [spans_concat_empty, dropNoneLast_concat_none]
  cases htail with
  | nothing =>
    -- a row without slots is one of a blank slot, which is dropped
    by_cases hne : ps = []
    · obtain ⟨hrow, hfits, hspans⟩ := hempty [] fun c hc => absurd hc List.not_mem_nil
      refine ⟨_, hrow, hfits, ?_, hspans⟩
      rw [hne, List.nil_append, joined_singleton, text_empty]
      rfl
    · exact ⟨ps, hne, h, (List.append_nil _).symm, fun before =>
        dropNoneLast_of_ne (getLast?_spans _ before hlast)⟩
  | semicolon hne blanks hblanks =>
    obtain ⟨hrow, hfits, hspans⟩ := hempty blanks hblanks
    -- a semicolon begins a blank slot, which is dropped as well
    refine ⟨_, hrow, hfits, ?_, hspans⟩
    rw [joined_concat hne, text_empty]

/-! ### Slots of a row -/

/-- Cutting slots in a row gives the slots back. -/
theorem slots_of_joined (h : ∀ p ∈ ps, p.Fits) (hlast : (ps.map word).getLast? ≠ some none)
    (htail : Tail ps tail) (ht : t = before ++ (joined ps ++ tail ++ behind)) :
    slots t ⟨before.length, before.length + (joined ps ++ tail).length⟩ =
      spans List.length before ps := by
  obtain ⟨row, hne, hfits, hjoined, hspans⟩ := htail.exists_row h hlast
  rw [← hjoined] at ht ⊢
  rw [slots_row hne hfits ht, hspans]

/-- A slot in a row is the part of the text that is its own. -/
theorem map_slice_spans (ht : t = before ++ (joined ps ++ behind)) :
    (spans List.length before ps).map (·.map t.slice) = ps.map word := by
  conv_rhs => rw [← map_snd_placed before ps]
  rw [spans, List.map_map, List.map_map]
  refine List.map_congr_left fun x hx => ?_
  obtain ⟨-, rest, hrest⟩ := of_mem_placed ht hx
  show (x.2.span List.length x.1).map t.slice = x.2.word
  unfold span
  cases hw : x.2.word with
  | none => rfl
  | some w =>
    rw [text, hw, Option.getD_some] at hrest
    -- what the slot holds stands behind its blanks
    have hdrop : t.drop (x.1 ++ x.2.before).length = w ++ (x.2.behind ++ rest) := by
      rw [hrest, List.append_assoc, List.append_assoc, ← List.append_assoc x.1, List.drop_left]
    rw [Option.map_some, Option.map_some, ← List.length_append, Text.slice_of_drop hdrop]

/-- In bytes the slots of a row stand behind as many bytes. -/
theorem map_inBytes_spans (ht : t = before ++ (joined ps ++ behind)) :
    (spans List.length before ps).map (·.map (inBytes t)) = spans byteLength before ps := by
  rw [spans, List.map_map]
  refine List.map_congr_left fun x hx => ?_
  obtain ⟨-, rest, hrest⟩ := of_mem_placed ht hx
  show (x.2.span List.length x.1).map (inBytes t) = x.2.span byteLength x.1
  unfold span
  cases hw : x.2.word with
  | none => rfl
  | some w =>
    -- what stands before the slot ends where its first byte begins
    have hstart : t = (x.1 ++ x.2.before) ++ (w ++ (x.2.behind ++ rest)) := by
      rw [hrest, text, hw, Option.getD_some]
      simp only [List.append_assoc]
    have hstop : t = (x.1 ++ x.2.before ++ w) ++ (x.2.behind ++ rest) := by
      rw [hstart]
      simp only [List.append_assoc]
    have hoffset : byteOffset t (x.1 ++ x.2.before).length = byteLength (x.1 ++ x.2.before) := by
      rw [hstart, Text.byteOffset_append_length]
    have hoffset' : byteOffset t (x.1 ++ x.2.before ++ w).length =
        byteLength (x.1 ++ x.2.before ++ w) := by
      rw [hstop, Text.byteOffset_append_length]
    rw [Option.map_some, Option.map_some, inBytes]
    rw [List.length_append, Text.byteLength_append] at hoffset
    rw [List.length_append, List.length_append, Text.byteLength_append,
      Text.byteLength_append] at hoffset'
    rw [Option.map_some, hoffset, hoffset']

/-- The spans of a row stand one behind the other, in any measure that adds up. -/
theorem inOrder_spans_of_le {size : Text → Nat} (hsize : ∀ t u, size (t ++ u) = size t + size u)
    {lo hi : Nat} (hlo : lo ≤ hi) (hbefore : lo ≤ size before)
    (h : ∀ x ∈ placed before ps, size x.1 + size x.2.text ≤ hi) :
    Span.InOrder lo hi ((spans size before ps).filterMap id) := by
  induction ps generalizing before lo with
  | nil => exact hlo
  | cons p more ih =>
    have hp : size before + size p.text ≤ hi := h (before, p) List.mem_cons_self
    have hmore : ∀ x ∈ placed (before ++ (p.text ++ [';'])) more, size x.1 + size x.2.text ≤ hi :=
      fun x hx => h x (List.mem_cons_of_mem _ hx)
    have hnext : size before + size p.text ≤ size (before ++ (p.text ++ [';'])) := by
      rw [hsize, hsize]
      omega
    show Span.InOrder lo hi ((p.span size before :: spans size _ more).filterMap id)
    unfold span
    cases hw : p.word with
    -- a slot that holds nothing has no span, and the others stand behind it
    | none => exact ih hlo (by omega) hmore
    | some w =>
      -- what the slot holds lies between its blanks
      have htext : size p.before + size w ≤ size p.text := by
        rw [text, hw, hsize, hsize, Option.getD_some]
        omega
      refine ⟨hbefore.trans (Nat.le_add_right _ _), Nat.le_add_right _ _, ih ?_ ?_ hmore⟩
      · show size before + size p.before + size w ≤ hi
        omega
      · show size before + size p.before + size w ≤ _
        omega

/-- The slots of a row stand one behind the other, within what is written. -/
theorem inOrder_spans {size : Text → Nat} (hsize : ∀ t u, size (t ++ u) = size t + size u)
    (before : Text) (ps : List Padded) (tail : Text) :
    Span.InOrder (size before) (size before + size (joined ps ++ tail))
      ((spans size before ps).filterMap id) := by
  refine inOrder_spans_of_le hsize (Nat.le_add_right _ _) le_rfl fun x hx => ?_
  obtain ⟨-, rest, hrest⟩ := of_mem_placed (rfl : _ = before ++ (joined ps ++ tail)) hx
  have hsizes := congrArg size hrest
  rw [hsize before, hsize x.1, hsize x.2.text] at hsizes
  omega

/-- In bytes too a slot in a row can be cut out, and is its own text. -/
theorem map_cut?_spans (ht : t = before ++ (joined ps ++ behind)) :
    (spans byteLength before ps).map (·.map (cut? t)) = ps.map fun p => p.word.map some := by
  have horder := @inOrder_spans List.length (fun _ _ => List.length_append) before ps []
  have hend : before.length + (joined ps ++ []).length ≤ t.length := by
    rw [ht, List.append_nil, List.length_append, List.length_append]
    omega
  have hcut : ∀ slot ∈ spans List.length before ps,
      (slot.map (inBytes t)).map (cut? t) = (slot.map t.slice).map some := by
    intro slot hslot
    cases slot with
    | none => rfl
    | some s =>
      obtain ⟨-, hle, hstop⟩ := horder.bounds (List.mem_filterMap.2 ⟨some s, hslot, rfl⟩)
      exact congrArg some (Text.cut?_inBytes hle (hstop.trans hend))
  calc (spans byteLength before ps).map (·.map (cut? t))
      = (spans List.length before ps).map fun slot => (slot.map (inBytes t)).map (cut? t) := by
        rw [← map_inBytes_spans ht, List.map_map]
        rfl
    _ = (spans List.length before ps).map fun slot => (slot.map t.slice).map some :=
        List.map_congr_left hcut
    _ = ((spans List.length before ps).map (·.map t.slice)).map (·.map some) :=
        by rw [List.map_map]; rfl
    _ = ps.map fun p => p.word.map some := by
        rw [map_slice_spans ht, List.map_map]
        rfl

/-- Cutting undoes joining. Whatever stands in front of slots in a row and behind them, they are cut
where they were written, in positions and in bytes, which is where their texts are, one behind the
other and without the blanks. One more semicolon behind the last of them changes nothing. -/
theorem cut_undoes_joined {inner : Text} (h : ∀ p ∈ ps, p.Fits)
    (hlast : (ps.map word).getLast? ≠ some none) (htail : Tail ps tail)
    (hinner : inner = joined ps ++ tail) (ht : t = before ++ (inner ++ behind)) :
    (slots t ⟨before.length, before.length + inner.length⟩ = spans List.length before ps ∧
      slotBytes? t ⟨byteLength before, byteLength before + byteLength inner⟩ =
        some (spans byteLength before ps)) ∧
    ((spans List.length before ps).map (·.map t.slice) = ps.map word ∧
      (spans byteLength before ps).map (·.map (cut? t)) = ps.map fun p => p.word.map some) ∧
    (Span.InOrder before.length (before.length + inner.length)
        ((spans List.length before ps).filterMap id) ∧
      Span.InOrder (byteLength before) (byteLength before + byteLength inner)
        ((spans byteLength before ps).filterMap id)) := by
  subst hinner
  have hrow : t = before ++ (joined ps ++ (tail ++ behind)) := by rw [ht, List.append_assoc]
  have hslots := slots_of_joined h hlast htail ht
  -- the list lies in the text, so its bytes can be cut
  have hstop : before.length + (joined ps ++ tail).length ≤ t.length := by
    have hlength : t.length = before.length + ((joined ps ++ tail).length + behind.length) := by
      rw [ht, List.length_append, List.length_append]
    omega
  -- counted in bytes the list stands at the length of what is before it
  have hbytes : inBytes t ⟨before.length, before.length + (joined ps ++ tail).length⟩ =
      ⟨byteLength before, byteLength before + byteLength (joined ps ++ tail)⟩ := by
    have hend : byteOffset t (before ++ (joined ps ++ tail)).length =
        byteLength (before ++ (joined ps ++ tail)) := by
      rw [ht, ← List.append_assoc, Text.byteOffset_append_length]
    rw [List.length_append, Text.byteLength_append] at hend
    have hfront : byteOffset t before.length = byteLength before := by
      rw [ht, Text.byteOffset_append_length]
    rw [inBytes, hfront, hend]
  refine ⟨⟨hslots, ?_⟩, ⟨map_slice_spans hrow, map_cut?_spans hrow⟩,
    inOrder_spans (fun _ _ => List.length_append) before ps tail,
    inOrder_spans Text.byteLength_append before ps tail⟩
  rw [← hbytes, slotBytes?_inBytes (Nat.le_add_right _ _) hstop, hslots, map_inBytes_spans hrow]

/-- A list with blanks of several bytes, an empty slot and a list in a slot, cut at the bytes of
what the slots hold. -/
theorem padded_list_is_cut :
    slotBytes? "$f[ \u00A0a[b;é]\u3000; ;c ;\u2003] x".toList ⟨3, 25⟩ =
      some [some ⟨6, 13⟩, none, some ⟨19, 20⟩] := by
  have hfits : ∀ p ∈ [⟨" \u00A0".toList, some "a[b;é]".toList, "\u3000".toList⟩,
      empty " ".toList, ⟨[], some "c".toList, " ".toList⟩], p.Fits := by decide +kernel
  exact (@cut_undoes_joined _ _ "$f[".toList "] x".toList _
    " \u00A0a[b;é]\u3000; ;c ;\u2003".toList hfits (by decide +kernel)
    (.semicolon (List.cons_ne_nil _ _) ['\u2003'] (List.forall_mem_singleton.2 (by decide)))
    (by decide +kernel) (by decide +kernel)).1.2

end Padded

end Stencil.Bracket
