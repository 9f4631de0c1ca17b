import Mathlib.Data.List.Forall2
import Stencil.Proofs.Inert
import Stencil.Proofs.Lines
/-!
# What documents are composed of

A document of a run, outside of arguments and conditions, is a row of *items*: characters that were
written in the source, and results of calls that have returned, each one escaped (`Composed`). The
items stand in the order in which the characters and the calls were written.

A step takes items out, and a call puts its result in its own place. A step could also cut through a
result: a name or a keyword that a result completes ends within it. What is then left of the result
is its end. As long as no result continues a name or a keyword, this does not happen, and all
results are whole.
-/

namespace Stencil

/-- A source character, or what is left of the result of a call, in a document. -/
inductive Item where
  | written (place : Nat) (c : Char)
  /-- So many characters of the escaped result are gone from its front. -/
  | returned (place : Nat) (result : Text) (gone : Nat)

namespace Item

/-- Where the character or the call was written. -/
def place : Item → Nat
  | written x _ => x
  | returned x _ _ => x

/-- The cells of an item, each with the place that is told for it. -/
def row : Item → List (Cell × Option Nat)
  | written x c => [((c, .source), some x)]
  | returned _ r gone => ((Text.escape r).drop gone).map fun c => ((c, .literal), none)

def rows (items : List Item) : List (Cell × Option Nat) := items.flatMap row

/-- Nothing of a result is gone. -/
def Whole : Item → Prop
  | written _ _ => True
  | returned _ _ gone => gone = 0

/-- The character was written where the item says, or the call that was written there returned the
result. -/
def Grounded (ev : Evaluator) (source : Text) (state : ExecutionState) : Item → Prop
  | written x c => source[x]? = some c
  | returned x r _ => ev.Returns source state x r

@[simp] theorem rows_nil : rows [] = [] := rfl

@[simp] theorem rows_cons (item : Item) (items : List Item) :
    rows (item :: items) = item.row ++ rows items := rfl

@[simp] theorem rows_append (xs ys : List Item) : rows (xs ++ ys) = rows xs ++ rows ys :=
  List.flatMap_append

/-! ### What remains of items -/

/-- The item as it was, or with more gone from its front, unless items are kept whole. -/
inductive Kept (whole : Prop) : Item → Item → Prop
  | same (item : Item) : Kept whole item item
  | cut {x : Nat} {r : Text} {n m : Nat} (le : n ≤ m) (cuts : ¬ whole) :
      Kept whole (returned x r m) (returned x r n)

variable {whole : Prop} {item item' : Item} {items xs ys zs xs' ys' : List Item}

instance : Std.Refl (Kept whole) := ⟨.same⟩

instance : IsTrans Item (Kept whole) where
  trans _ _ _ h h' := by
    cases h with
    | same => exact h'
    | cut le cuts =>
      cases h' with
      | same => exact .cut le cuts
      | cut le' => exact .cut (le'.trans le) cuts

/-- What remains of an item has its place. -/
theorem Kept.place_eq (h : Kept whole item' item) : item'.place = item.place := by
  cases h <;> rfl

/-- Where results are to remain whole, the item itself remains. -/
theorem Kept.eq (h : Kept whole item' item) (hwhole : whole) : item' = item := by
  cases h with
  | same => rfl
  | cut _ cuts => exact absurd hwhole cuts

/-- What remains of a result is still the result of that call. -/
theorem Kept.grounded {ev : Evaluator} {source : Text} {state : ExecutionState}
    (h : Kept whole item' item) (hitem : item.Grounded ev source state) :
    item'.Grounded ev source state := by
  cases h with
  | same => exact hitem
  | cut => exact hitem

/-- Some of the items are left, in their order. -/
def Remain (whole : Prop) : List Item → List Item → Prop := List.SublistForall₂ (Kept whole)

namespace Remain

theorem refl (items : List Item) : Remain whole items items :=
  Std.Refl.refl (r := List.SublistForall₂ (Kept whole)) items

/-- What remains of what remains is a remainder. -/
theorem trans (h : Remain whole xs ys) (h' : Remain whole ys zs) : Remain whole xs zs :=
  IsTrans.trans (r := List.SublistForall₂ (Kept whole)) _ _ _ h h'

/-- Items can be left out. -/
theorem of_sublist (h : xs.Sublist ys) : Remain whole xs ys := h.sublistForall₂

/-- Remainders of two rows make up a remainder of both. -/
theorem append (h : Remain whole xs ys) (h' : Remain whole xs' ys') :
    Remain whole (xs ++ xs') (ys ++ ys') := by
  obtain ⟨zs, hforall, hsub⟩ := List.sublistForall₂_iff.1 h
  obtain ⟨zs', hforall', hsub'⟩ := List.sublistForall₂_iff.1 h'
  exact List.sublistForall₂_iff.2
    ⟨zs ++ zs', List.rel_append hforall hforall', hsub.append hsub'⟩

/-- The places of what remains keep their order. -/
theorem places_sublist (h : Remain whole xs ys) : (xs.map place).Sublist (ys.map place) := by
  induction h with
  | nil => exact List.nil_sublist _
  | cons hkept _ ih =>
    rw [List.map_cons, List.map_cons, hkept.place_eq]
    exact ih.cons_cons _
  | cons_right _ ih => exact ih.cons _

/-- What remains is what remained of an item. -/
theorem exists_kept (h : Remain whole xs ys) (hitem : item' ∈ xs) :
    ∃ item ∈ ys, Kept whole item' item := by
  induction h with
  | nil => cases hitem
  -- the item is the first that remains, or one of the others
  | cons hkept _ ih =>
    rcases List.mem_cons.1 hitem with rfl | hitem
    · exact ⟨_, List.mem_cons_self, hkept⟩
    · obtain ⟨item, hmem, hkept⟩ := ih hitem
      exact ⟨item, List.mem_cons_of_mem _ hmem, hkept⟩
  | cons_right _ ih =>
    obtain ⟨item, hmem, hkept⟩ := ih hitem
    exact ⟨item, List.mem_cons_of_mem _ hmem, hkept⟩

end Remain

/-! ### Cutting a row of items -/

/-- Literal text stands before a position and behind it. -/
def Inside (cells : List Cell) (n : Nat) : Prop :=
  ∃ m a b, n = m + 1 ∧ cells[m]? = some (a, .literal) ∧ cells[m + 1]? = some (b, .literal)

/-- Behind a source character one is not inside of literals. -/
theorem not_inside_of_source_before {cells : List Cell} {n : Nat} {c : Char}
    (h : cells[n]? = some (c, .source)) : ¬ Inside cells (n + 1) := by
  rintro ⟨m, a, b, heq, ha, -⟩
  obtain rfl : m = n := by omega
  rw [h] at ha
  cases ha

/-- Nor is one in front of a source character. -/
theorem not_inside_of_source_behind {cells : List Cell} {n : Nat} {c : Char}
    (h : cells[n]? = some (c, .source)) : ¬ Inside cells n := by
  rintro ⟨m, a, b, rfl, -, hb⟩
  rw [h] at hb
  cases hb

/-- Inside of a part is inside of the whole. -/
theorem Inside.of_drop {cells : List Cell} {lo n : Nat} (h : Inside (cells.drop lo) n) :
    Inside cells (lo + n) := by
  obtain ⟨m, a, b, rfl, ha, hb⟩ := h
  rw [List.getElem?_drop] at ha hb
  exact ⟨lo + m, a, b, rfl, ha, hb⟩

/-- All cells of a result are literal. -/
theorem exists_literal {x gone m : Nat} {r : Text} (items : List Item)
    (hm : m < (row (returned x r gone)).length) :
    ∃ c, ((rows (returned x r gone :: items)).map Prod.fst)[m]? = some (c, .literal) := by
  rw [rows_cons, List.map_append, List.getElem?_append_left (by rwa [List.length_map])]
  rw [row, List.length_map] at hm
  rw [row, List.map_map, List.getElem?_map, List.getElem?_eq_getElem hm]
  exact ⟨_, rfl⟩

/-- Items can be dropped up to any position. What a result keeps behind the position remains, and if
the position is inside of no result, all results remain whole. -/
theorem exists_drop (items : List Item) (n : Nat)
    (h : whole → ¬ Inside ((rows items).map Prod.fst) n) :
    ∃ left, rows left = (rows items).drop n ∧ Remain whole left items := by
  induction items generalizing n with
  | nil => exact ⟨[], by simp, .refl []⟩
  | cons item items ih =>
    by_cases hlong : item.row.length ≤ n
    -- the item is dropped as a whole
    · obtain ⟨k, rfl⟩ := Nat.exists_eq_add_of_le hlong
      have hdrop : (rows (item :: items)).drop (item.row.length + k) = (rows items).drop k := by
        rw [rows_cons, ← List.drop_drop, List.drop_left]
      obtain ⟨left, hrows, hleft⟩ := ih k fun hwhole hinside => h hwhole <| by
        refine Inside.of_drop ?_
        rwa [← List.map_drop, rows_cons, List.drop_left]
      exact ⟨left, by rw [hrows, hdrop], hleft.cons_right⟩
    · cases n with
      | zero => exact ⟨item :: items, rfl, .refl _⟩
      | succ n =>
        cases item with
        | written => exact absurd (Nat.succ_le_succ n.zero_le) hlong
        | returned x r gone =>
          -- the position is inside of the result
          have hlt : n + 1 < (row (returned x r gone)).length := Nat.lt_of_not_le hlong
          refine ⟨returned x r (gone + (n + 1)) :: items, ?_,
            .cons (.cut (Nat.le_add_right _ _) fun hwhole => h hwhole ?_) (Remain.refl items)⟩
          · rw [rows_cons, rows_cons, List.drop_append_of_le_length hlt.le, row, row,
              ← List.map_drop, List.drop_drop]
          · obtain ⟨a, ha⟩ := exists_literal items (Nat.lt_of_succ_lt hlt)
            obtain ⟨b, hb⟩ := exists_literal items hlt
            exact ⟨n, a, b, rfl, ha, hb⟩

/-- A source character is an item of its own. -/
theorem exists_split {n : Nat} {c : Char} {y : Option Nat}
    (h : (rows items)[n]? = some ((c, .source), y)) :
    ∃ before x behind, items = before ++ written x c :: behind ∧ y = some x ∧
      (rows before).length = n := by
  induction items generalizing n with
  | nil => cases h
  | cons item items ih =>
    -- the character is behind the first item
    by_cases hlong : item.row.length ≤ n
    · obtain ⟨k, rfl⟩ := Nat.exists_eq_add_of_le hlong
      rw [rows_cons, List.getElem?_append_right (Nat.le_add_right _ _),
        Nat.add_sub_cancel_left] at h
      obtain ⟨before, x, behind, rfl, rfl, hlength⟩ := ih h
      exact ⟨item :: before, x, behind, rfl, rfl, by rw [rows_cons, List.length_append, hlength]⟩
    · rw [rows_cons, List.getElem?_append_left (Nat.lt_of_not_le hlong)] at h
      cases item with
      | written x d =>
        obtain rfl : n = 0 := Nat.lt_one_iff.1 (Nat.lt_of_not_le hlong)
        cases h
        exact ⟨[], x, items, rfl, rfl, rfl⟩
      | returned x r gone =>
        -- all cells of a result are literal
        obtain ⟨_, -, heq⟩ := List.mem_map.1 (List.mem_of_getElem? h)
        cases heq

/-- Items can be parted at any position that is inside of no result. -/
theorem exists_append {n : Nat} (hle : n ≤ (rows items).length)
    (h : ¬ Inside ((rows items).map Prod.fst) n) :
    -- the cell in front of the position and the one behind it tell whether an item ends there
    ∃ first rest, items = first ++ rest ∧ (rows first).length = n := by
  cases n with
  | zero => exact ⟨[], items, rfl, rfl⟩
  | succ n =>
    obtain ⟨⟨⟨a, origin⟩, y⟩, ha⟩ : ∃ cell, (rows items)[n]? = some cell :=
      ⟨_, List.getElem?_eq_getElem hle⟩
    cases origin with
    -- the item of a source character ends behind it
    | source =>
      obtain ⟨before, x, behind, rfl, -, hlength⟩ := exists_split ha
      refine ⟨before ++ [.written x a], behind, ?_, ?_⟩
      · rw [List.append_assoc]
        rfl
      · rw [rows_append, List.length_append, hlength]
        rfl
    | literal =>
      -- at the end of the row the last item ends
      cases hnext : (rows items)[n + 1]? with
      | none =>
        exact ⟨items, [], (List.append_nil items).symm,
          Nat.le_antisymm (List.getElem?_eq_none_iff.1 hnext) hle⟩
      | some cell =>
        obtain ⟨⟨b, origin⟩, y'⟩ := cell
        cases origin with
        -- in front of a source character the item before it ends
        | source =>
          obtain ⟨before, x, behind, rfl, -, hlength⟩ := exists_split hnext
          exact ⟨before, _, rfl, hlength⟩
        -- between two literal cells one would be inside
        | literal =>
          refine absurd ⟨n, a, b, rfl, ?_, ?_⟩ h
          · rw [List.getElem?_map, ha]
            rfl
          · rw [List.getElem?_map, hnext]
            rfl

/-- What spans in order hold consists of items that remain, if each of the spans ends before a
source character. -/
theorem exists_gather {start : List Item} {lo hi : Nat} {spans : List Span}
    (horder : Span.InOrder lo hi spans)
    (hstop : ∀ s ∈ spans, ∃ c y, (rows items)[s.stop]? = some ((c, .source), y))
    (hcut : whole → ∀ n, n = hi ∨ n ∈ spans.map (·.start) →
      ¬ Inside ((rows items).map Prod.fst) n)
    (hstart : rows start = (rows items).drop lo) :
    ∃ held left, rows held = Span.gather spans (rows items) ∧ rows left = (rows items).drop hi ∧
      Remain whole (held ++ left) start := by
  -- dropping from the start of the rest is dropping from the whole
  have hdrop : ∀ {start : List Item} {lo n : Nat}, lo ≤ n → rows start = (rows items).drop lo →
      (whole → ¬ Inside ((rows items).map Prod.fst) n) →
      ∃ left, rows left = (rows items).drop n ∧ Remain whole left start := by
    intro start lo n hle hstart hn
    obtain ⟨k, rfl⟩ := Nat.exists_eq_add_of_le hle
    obtain ⟨left, hrows, hleft⟩ := exists_drop start k fun (hwhole : whole) hinside =>
      hn hwhole (Inside.of_drop (by rwa [← List.map_drop, ← hstart]))
    exact ⟨left, by rw [hrows, hstart, List.drop_drop], hleft⟩
  -- by induction on the spans: what stands before the first one is dropped, and the span itself
  -- is cut off at a source character
  induction spans generalizing lo start with
  | nil =>
    obtain ⟨left, hrows, hleft⟩ := hdrop horder hstart fun hwhole => hcut hwhole hi (.inl rfl)
    exact ⟨[], left, rfl, hrows, hleft⟩
  | cons s spans ih =>
    obtain ⟨hlo, hle, horder⟩ := horder
    obtain ⟨first, hfirst, hremain⟩ := hdrop hlo hstart fun hwhole =>
      hcut hwhole s.start (.inr List.mem_cons_self)
    obtain ⟨c, y, hc⟩ := hstop s List.mem_cons_self
    obtain ⟨n, hn⟩ := Nat.exists_eq_add_of_le hle
    -- the span holds the items before the source character
    have hsplit : (rows first)[n]? = some ((c, .source), y) := by
      rw [hfirst, List.getElem?_drop, ← hn, hc]
    obtain ⟨before, x, behind, rfl, -, hlength⟩ := exists_split hsplit
    rw [rows_append] at hfirst
    have hbehind : rows (written x c :: behind) = (rows items).drop s.stop := by
      rw [hn, ← List.drop_drop, ← hfirst, ← hlength, List.drop_left]
    have hbefore : rows before = s.cut (rows items) := by
      rw [Span.cut, ← hfirst, hn, Nat.add_sub_cancel_left, ← hlength, List.take_left]
    obtain ⟨held, left, hheld, hleft, hrest⟩ := ih horder
      (fun s' hs' => hstop s' (List.mem_cons_of_mem s hs'))
      (fun hwhole m hm => hcut hwhole m (hm.imp_right (List.mem_cons_of_mem _))) hbehind
    refine ⟨before ++ held, left, ?_, hleft, ?_⟩
    · rw [rows_append, hbefore, hheld, Span.gather_cons]
    · rw [List.append_assoc]
      exact ((Remain.refl before).append hrest).trans hremain

/-- Items that come in between are a graft of the rows. -/
theorem rows_graft {before behind left : List Item} {span : Span}
    (hlength : (rows before).length = span.start)
    (hleft : rows left = (rows (before ++ behind)).drop span.stop) (new : List Item) :
    rows (before ++ (new ++ left)) = span.graft (rows new) (rows (before ++ behind)) := by
  rw [Span.graft, ← hleft, ← hlength, rows_append, rows_append, rows_append, List.take_left,
    List.append_assoc]

end Item

/-! ### Documents of a run -/

namespace Evaluator

variable {ev : Evaluator} {source : Text} {state : ExecutionState} {p q : Point}
  {items left : List Item}

/-- Items in the order of their places, each one as it was written or returned, and whole if results
are kept whole. -/
structure Arranged (ev : Evaluator) (source : Text) (state : ExecutionState) (whole : Prop)
    (items : List Item) : Prop where
  rising : (items.map Item.place).Pairwise (· < ·)
  grounded : ∀ item ∈ items, item.Grounded ev source state
  kept : whole → ∀ item ∈ items, item.Whole

/-- What remains of arranged items is arranged. -/
theorem Arranged.remain {whole : Prop} (h : ev.Arranged source state whole items)
    (hleft : Item.Remain whole left items) : ev.Arranged source state whole left where
  rising := h.rising.sublist hleft.places_sublist
  grounded item' hitem' := by
    obtain ⟨item, hitem, hkept⟩ := hleft.exists_kept hitem'
    exact hkept.grounded (h.grounded item hitem)
  kept hwhole item' hitem' := by
    obtain ⟨item, hitem, hkept⟩ := hleft.exists_kept hitem'
    rw [hkept.eq hwhole]
    exact h.kept hwhole item hitem

/-- Fewer results need to be whole. -/
theorem Arranged.mono {whole whole' : Prop} (h : ev.Arranged source state whole items)
    (hwhole : whole' → whole) : ev.Arranged source state whole' items :=
  ⟨h.rising, h.grounded, fun h' => h.kept (hwhole h')⟩

/-- A result has the place of the `$` of its call. -/
theorem Arranged.replace {whole : Prop} {before behind : List Item} {x : Nat} {c : Char}
    {result : Text} (h : ev.Arranged source state whole (before ++ .written x c :: behind))
    (hreturns : ev.Returns source state x result) :
    ev.Arranged source state whole (before ++ .returned x result 0 :: behind) := by
  -- the result has the place of the `$` it came for
  have hplaces : (before ++ .written x c :: behind).map Item.place =
      (before ++ .returned x result 0 :: behind).map Item.place := by
    rw [List.map_append, List.map_append]
    rfl
  have hmem : ∀ item ∈ before ++ .returned x result 0 :: behind, item = .returned x result 0 ∨
      item ∈ before ++ .written x c :: behind := by
    intro item hitem
    rw [List.mem_append, List.mem_cons] at hitem ⊢
    tauto
  refine ⟨hplaces ▸ h.rising, fun item hitem => ?_, fun hwhole item hitem => ?_⟩
  · rcases hmem item hitem with rfl | hitem
    · exact hreturns
    · exact h.grounded item hitem
  · rcases hmem item hitem with rfl | hitem
    · exact rfl
    · exact h.kept hwhole item hitem

/-- The document of a point is a row of items. -/
structure Composed (ev : Evaluator) (source : Text) (state : ExecutionState) (p : Point)
    (items : List Item) : Prop where
  cells_eq : p.document.cells = (Item.rows items).map Prod.fst
  places_eq : p.places = (Item.rows items).map Prod.snd
  arranged : ev.Arranged source state (ev.Harmless p.session) items

/-- A source character of the document is an item of its own, with its place. -/
theorem Composed.exists_row (h : ev.Composed source state p items) {n : Nat} {c : Char}
    (hc : p.document.cells[n]? = some (c, .source)) :
    ∃ y, (Item.rows items)[n]? = some ((c, .source), y) := by
  rw [h.cells_eq, List.getElem?_map] at hc
  obtain ⟨⟨cell, y⟩, hrow, rfl⟩ := Option.map_eq_some_iff.1 hc
  exact ⟨y, hrow⟩

/-- The source is composed of its characters. -/
theorem exists_composed_start (ev : Evaluator) (source : Text) (state : ExecutionState) :
    ∃ items, ev.Composed source state (ev.start source state) items := by
  have hrows : Item.rows (source.zipIdx.map fun (c, x) => .written x c) =
      source.zipIdx.map fun (c, x) => ((c, .source), some x) := by
    rw [Item.rows, List.flatMap_map]
    exact List.map_eq_flatMap.symm
  have hplaces : (source.zipIdx.map fun (c, x) => Item.written x c).map Item.place =
      List.range' 0 source.length := by
    rw [List.map_map, ← List.zipIdx_map_snd 0 source]
    rfl
  -- each character of the source is an item
  refine ⟨source.zipIdx.map fun (c, x) => .written x c, ?_, ?_, ?_, fun item hitem => ?_,
    fun _ item hitem => ?_⟩
  · rw [hrows, start, enter, Document.cells_source, List.map_map]
    conv_lhs => rw [← List.zipIdx_map_fst 0 source, List.map_map]
    rfl
  · rw [hrows, start, enter, List.map_map, List.range_eq_range', ← List.zipIdx_map_snd 0 source,
      List.map_map]
    rfl
  · rw [hplaces]
    exact List.pairwise_lt_range'
  · obtain ⟨⟨c, x⟩, hmem, rfl⟩ := List.mem_map.1 hitem
    exact List.mem_zipIdx_iff_getElem?.1 hmem
  · obtain ⟨⟨c, x⟩, -, rfl⟩ := List.mem_map.1 hitem
    trivial

/-- A result comes in for the items of its call. -/
theorem Composed.exists_afterCall (hp : ev.Reached source state p)
    (h : ev.Composed source state p items) {f : Function} {span : Span}
    {slots : List (Option Span)} {result : Text} {s : Session} (calls : ev.Calls p f span slots)
    (returns : ev.callResult (ev.resolveAt (p.depth + 1)) p.document f slots p.session =
      (.ok result, s)) :
    ∃ items', ev.Composed source state (afterCall p span result s) items' := by
  have hlog : p.session.log <:+ s.log := (keptLog ev).move (.call calls returns)
  -- the call begins with a `$` of the source, which is the item that the result takes the place
  -- of
  obtain ⟨name, hhead, hname, hcovers⟩ := calls.covers hp.listed
  obtain ⟨y, hrow⟩ := h.exists_row (hcovers.head hhead)
  obtain ⟨before, x, behind, rfl, rfl, hlength⟩ := Item.exists_split hrow
  have hplace : p.places[span.start]? = some (some x) := by
    rw [h.places_eq, List.getElem?_map, hrow]
    rfl
  obtain ⟨n, hn⟩ := Nat.exists_eq_add_of_le (calls.start_lt_stop hp.listed)
  have hbehind : Item.rows behind =
      (Item.rows (before ++ .written x '$' :: behind)).drop (span.start + 1) := by
    rw [Item.rows_append, Item.rows_cons, ← hlength, ← List.drop_drop, List.drop_left]
    rfl
  -- while results are harmless, the call ends with source text
  have hcut : ev.Harmless p.session → ¬ Item.Inside ((Item.rows behind).map Prod.fst) n := by
    intro hharmless hinside
    obtain ⟨j, c, hstop, hlast⟩ :=
      source_of_covers (hp.begun hharmless) hp.marked hharmless hname hcovers
    rw [hbehind, List.map_drop, ← h.cells_eq] at hinside
    refine Item.not_inside_of_source_before hlast ?_
    rw [← hstop, hn]
    exact hinside.of_drop
  obtain ⟨left, hleft, hremain⟩ := Item.exists_drop behind n hcut
  rw [hbehind, List.drop_drop, ← hn] at hleft
  have hrows := Item.rows_graft hlength hleft [.returned x result 0]
  rw [Item.rows_cons, Item.rows_nil, List.append_nil] at hrows
  -- the result stands for the `$`, and the rest of the call is dropped
  refine ⟨before ++ ([.returned x result 0] ++ left), ?_, ?_, ?_⟩
  · rw [hrows, Span.map_graft, ← h.cells_eq, afterCall, cells_replaced, Item.row, List.map_map]
    rfl
  · rw [hrows, Span.map_graft, ← h.places_eq, afterCall, Item.row, List.map_map, ← List.map_const']
    rfl
  · have hreturns : ev.Returns source state x result :=
      ⟨p, f, span, slots, s, hp, calls, hplace, returns⟩
    have harranged := (h.arranged.replace hreturns).remain
      ((Item.Remain.refl before).append (.cons (.same (.returned x result 0)) hremain))
    exact harranged.mono fun hharmless => hharmless.of_suffix hlog

/-- Of the items of a block those that are chosen remain. -/
theorem Composed.exists_afterBlock (hp : ev.Reached source state p)
    (h : ev.Composed source state p items) {b : Block} {chosen : List Span} {s : Session}
    (resolves : ev.Resolves p b)
    (chooses : ev.chosenBody (ev.resolveAt (p.depth + 1)) p.document b p.session =
      (.ok chosen, s)) :
    ∃ items', ev.Composed source state (ev.afterBlock p b chosen s) items' := by
  have hlog : p.session.log <:+ s.log := (keptLog ev).move (.block resolves chooses)
  have hlaid := resolves.laid
  have hchosen := mem_choices_of_chosenBody chooses
  have hfenced := (hlaid.choice_laid hchosen).2
  have hsource : ∀ {i : Nat}, p.document.text[i]? = some '$' →
      ∃ y, (Item.rows items)[i]? = some (('$', .source), y) :=
    fun hi => h.exists_row (Document.getElem?_cells_of_marked hp.marked hi rfl)
  -- the block begins with a `$` of the source, and each of the chosen parts ends with one
  obtain ⟨y, hrow⟩ := hsource hlaid.opener.getElem?_start
  obtain ⟨before, x, behind, rfl, rfl, hlength⟩ := Item.exists_split hrow
  -- while results are harmless, source text stands at every fence
  have hcut : ev.Harmless p.session → ∀ n, n = b.span.stop ∨ n ∈ chosen.map (·.start) →
      ¬ Item.Inside ((Item.rows (before ++ .written x '$' :: behind)).map Prod.fst) n := by
    intro hharmless n hn
    have hfence : Block.FencedAt p.document.text n := by
      rcases hn with rfl | hn
      · exact .inr (.inl ⟨.endIf, b.regionEnd, hlaid.endIf, hlaid.span_stop⟩)
      · obtain ⟨span, hspan, rfl⟩ := List.mem_map.1 hn
        exact (hfenced span hspan).1
    rw [← h.cells_eq]
    rcases source_of_fencedAt (hp.begun hharmless) hp.marked hharmless hfence with
      ⟨j, c, rfl, hj⟩ | ⟨c, hc⟩
    · exact Item.not_inside_of_source_before hj
    · exact Item.not_inside_of_source_behind hc
  have hopener : Item.rows (.written x '$' :: behind) =
      (Item.rows (before ++ .written x '$' :: behind)).drop b.span.start := by
    rw [Item.rows_append, ← hlength, List.drop_left]
  -- the chosen parts are held, and everything behind the block is left
  obtain ⟨held, left, hheld, hleft, hremain⟩ := Item.exists_gather (hlaid.choice_inOrder hchosen)
    (fun span hspan => ⟨'$', hsource (hfenced span hspan).2⟩) hcut hopener
  have hrows := Item.rows_graft hlength hleft held
  rw [hheld] at hrows
  refine ⟨before ++ (held ++ left), ?_, ?_, ?_⟩
  · rw [hrows, Span.map_graft, Span.map_gather, ← h.cells_eq, afterBlock, enter, cells_restarted]
  · rw [hrows, Span.map_graft, Span.map_gather, ← h.places_eq]
    rfl
  · have harranged := h.arranged.remain ((Item.Remain.refl before).append hremain)
    exact harranged.mono fun hharmless => hharmless.of_suffix hlog

/-- Outside of arguments and conditions every document of a run is composed of items. -/
theorem Reached.exists_composed (hp : ev.Reached source state p) (hdepth : p.depth = 0) :
    ∃ items, ev.Composed source state p items := by
  induction hp with
  | refl => exact ev.exists_composed_start source state
  | @tail p q hp move ih =>
    have hreached : ev.Reached source state p := hp
    obtain ⟨items, h⟩ := ih (Nat.le_zero.1 (hdepth ▸ move.depth_mono))
    cases move with
    -- a call or a block takes items away or replaces one; arguments and conditions are deeper
    | leave => exact ⟨items, h.cells_eq, h.places_eq, h.arranged⟩
    | call calls returns => exact h.exists_afterCall hreached calls returns
    | block resolves chooses => exact h.exists_afterBlock hreached resolves chooses
    | argument | condition => exact absurd hdepth (Nat.succ_ne_zero _)

end Evaluator

end Stencil
