import Mathlib.Data.List.Infix
import Stencil.Proofs.Keyword
import Stencil.Proofs.Worklist
/-!
# Text and calls as a tree

A document without blocks is text with calls in it, and the argument list of a call is text with
calls in it again: a `Content`. The slots of a call are the `pieces` of its tree, cut at the
semicolons outside of brackets; together they have the calls of the tree (`flatMap_sites_pieces`).
-/

namespace Stencil

/-! ### Trees -/

/-- Text with calls in it. -/
inductive Content where
  | empty
  | char (c : Char) (rest : Content)
  /-- Brackets that belong to no call. -/
  | group (inner rest : Content)
  /-- A call, written at a place. The stem is what is written behind the `$`. -/
  | call (place : Nat) (stem : Text) (inner rest : Content)

/-- A call in a tree. -/
structure Site where
  place : Nat
  stem : Text
  inner : Content

namespace Content

/-- The calls of a tree, each with those inside of it. -/
def sites : Content → List Site
  | empty => []
  | char _ rest => rest.sites
  | group inner rest => inner.sites ++ rest.sites
  | call place stem inner rest => ⟨place, stem, inner⟩ :: (inner.sites ++ rest.sites)

/-- The places of the calls of a tree. -/
def labels (q : Content) : List Nat := q.sites.map (·.place)

/-- Every call of the tree is one of a name, in either case of its letters, and brackets match. At
the top, where there is no bracket to close, single brackets are text as well. -/
def Sound (names : List Text) : Bool → Content → Prop
  | _, empty => True
  | top, char c rest => c ≠ '$' ∧ (top = true ∨ c ≠ '[' ∧ c ≠ ']') ∧ rest.Sound names top
  | top, group inner rest => inner.Sound names false ∧ rest.Sound names top
  | top, call _ stem inner rest =>
    (∃ name ∈ names, Text.sameFolded name ('$' :: stem) = true) ∧ inner.Sound names false ∧
      rest.Sound names top

/-- The parts of a tree between the semicolons outside of brackets. -/
def pieces : Content → List Content
  | empty => [empty]
  | char c rest => if c = ';' then empty :: rest.pieces else rest.pieces.modifyHead (char c)
  | group inner rest => rest.pieces.modifyHead (group inner)
  | call place stem inner rest => rest.pieces.modifyHead (call place stem inner)

/-- No semicolon stands outside of brackets. -/
def Solid : Content → Prop
  | empty => True
  | char c rest => c ≠ ';' ∧ rest.Solid
  | group _ rest => rest.Solid
  | call _ _ _ rest => rest.Solid

variable {names : List Text} {top : Bool} {q piece : Content} {site : Site}

/-! ### Calls inside of calls -/

/-- The calls inside of a call are calls of the tree. -/
theorem sites_inner_subset (h : site ∈ q.sites) : site.inner.sites ⊆ q.sites := by
  induction q with
  | empty => cases h
  | char c rest ih => exact ih h
  | group inner rest ihInner ihRest =>
    rcases List.mem_append.1 h with h | h
    · exact List.Subset.trans (ihInner h) (List.subset_append_left _ _)
    · exact List.Subset.trans (ihRest h) (List.subset_append_right _ _)
  | call place stem inner rest ihInner ihRest =>
    rcases List.mem_cons.1 h with rfl | h
    · exact List.subset_cons_of_subset _ (List.subset_append_left _ _)
    rcases List.mem_append.1 h with h | h
    · exact List.subset_cons_of_subset _ (List.subset_append_of_subset_left _ (ihInner h))
    · exact List.subset_cons_of_subset _ (List.subset_append_of_subset_right _ (ihRest h))

/-- The place of a call comes before the places inside it and the places behind it. -/
theorem labels_call (place : Nat) (stem : Text) (inner rest : Content) :
    (call place stem inner rest).labels = place :: (inner.labels ++ rest.labels) := by
  simp [labels, sites]

theorem labels_group (inner rest : Content) :
    (group inner rest).labels = inner.labels ++ rest.labels := by
  simp [labels, sites]

/-- A call stands before the calls inside of it. -/
theorem labels_site_sublist (h : site ∈ q.sites) :
    (site.place :: site.inner.labels).Sublist q.labels := by
  induction q with
  | empty => cases h
  | char c rest ih => exact ih h
  | group inner rest ihInner ihRest =>
    rw [labels_group]
    rcases List.mem_append.1 h with h | h
    · exact (ihInner h).trans (List.sublist_append_left _ _)
    · exact (ihRest h).trans (List.sublist_append_right _ _)
  | call place stem inner rest ihInner ihRest =>
    rw [labels_call]
    rcases List.mem_cons.1 h with rfl | h
    · exact (List.sublist_append_left _ _).cons_cons _
    rcases List.mem_append.1 h with h | h
    · exact ((ihInner h).trans (List.sublist_append_left _ _)).trans (List.sublist_cons_self _ _)
    · exact ((ihRest h).trans (List.sublist_append_right _ _)).trans (List.sublist_cons_self _ _)

/-- The places inside of a call are places of the tree. -/
theorem labels_inner_subset (h : site ∈ q.sites) : site.inner.labels ⊆ q.labels :=
  ((List.sublist_cons_self _ _).trans (labels_site_sublist h)).subset

/-- Each call of a sound tree is written with a name of the list, and its argument list is
sound. -/
theorem Sound.of_mem_sites (h : q.Sound names top) (hsite : site ∈ q.sites) :
    (∃ name ∈ names, Text.sameFolded name ('$' :: site.stem) = true) ∧
      site.inner.Sound names false := by
  induction q generalizing top with
  | empty => cases hsite
  | char c rest ih => exact ih h.2.2 hsite
  | group inner rest ihInner ihRest =>
    rcases List.mem_append.1 hsite with hsite | hsite
    · exact ihInner h.1 hsite
    · exact ihRest h.2 hsite
  | call place stem inner rest ihInner ihRest =>
    obtain ⟨hname, hinner, hrest⟩ := h
    rcases List.mem_cons.1 hsite with rfl | hsite
    · exact ⟨hname, hinner⟩
    rcases List.mem_append.1 hsite with hsite | hsite
    · exact ihInner hinner hsite
    · exact ihRest hrest hsite

/-- Arguments nest so deep at most: at depth zero nothing stands between the brackets of a call. -/
def Nests : Nat → Content → Prop
  | 0, q => ∀ site ∈ q.sites, site.inner = empty
  | n + 1, q => ∀ site ∈ q.sites, site.inner.Nests n

/-- A tree with fewer calls nests no deeper. -/
theorem Nests.mono {n : Nat} {q' : Content} (h : q.Nests n) (hsites : q'.sites ⊆ q.sites) :
    q'.Nests n := by
  cases n with
  | zero => exact fun site hsite => h site (hsites hsite)
  | succ n => exact fun site hsite => h site (hsites hsite)

/-! ### Pieces -/

/-- There is always a first piece. -/
theorem pieces_ne_nil (q : Content) : q.pieces ≠ [] := by
  induction q with
  | empty => exact List.cons_ne_nil _ _
  | char c rest ih =>
    rw [pieces]
    split
    · exact List.cons_ne_nil _ _
    -- a character goes in front of the first piece
    · simpa [List.modifyHead_eq_nil_iff] using ih
  | group inner rest _ ih => simpa [pieces, List.modifyHead_eq_nil_iff] using ih
  | call place stem inner rest _ ih => simpa [pieces, List.modifyHead_eq_nil_iff] using ih

theorem exists_pieces_eq_cons (q : Content) : ∃ first more, q.pieces = first :: more :=
  List.exists_cons_of_ne_nil q.pieces_ne_nil

/-- The pieces have the calls of the tree, in the same order. -/
theorem flatMap_sites_pieces (q : Content) : q.pieces.flatMap sites = q.sites := by
  induction q with
  | empty => rfl
  | char c rest ih =>
    rw [pieces, sites]
    split
    · exact ih
    -- the first piece gets the character, and its calls stay what they were
    · obtain ⟨first, more, hpieces⟩ := rest.exists_pieces_eq_cons
      rw [hpieces] at ih
      rw [hpieces, List.modifyHead_cons, List.flatMap_cons, sites, ← ih, List.flatMap_cons]
  | group inner rest _ ih =>
    obtain ⟨first, more, hpieces⟩ := rest.exists_pieces_eq_cons
    rw [hpieces] at ih
    rw [pieces, hpieces, List.modifyHead_cons, List.flatMap_cons, sites, sites, ← ih,
      List.flatMap_cons, List.append_assoc]
  | call place stem inner rest _ ih =>
    obtain ⟨first, more, hpieces⟩ := rest.exists_pieces_eq_cons
    rw [hpieces] at ih
    rw [pieces, hpieces, List.modifyHead_cons, List.flatMap_cons, sites, sites, ← ih,
      List.flatMap_cons, List.cons_append, List.append_assoc]

/-- Each place is in one piece. -/
theorem flatMap_labels_pieces (q : Content) : q.pieces.flatMap labels = q.labels := by
  rw [labels, ← flatMap_sites_pieces, List.map_flatMap]
  rfl

/-- The places of a piece are in the order of the tree. -/
theorem labels_piece_sublist (h : piece ∈ q.pieces) : piece.labels.Sublist q.labels := by
  rw [← flatMap_labels_pieces q]
  obtain ⟨before, behind, hpieces⟩ := List.append_of_mem h
  rw [hpieces, List.flatMap_append, List.flatMap_cons]
  exact (List.sublist_append_left _ _).trans (List.sublist_append_right _ _)

theorem sites_piece_subset (h : piece ∈ q.pieces) : piece.sites ⊆ q.sites := by
  rw [← flatMap_sites_pieces q]
  exact fun site hsite => List.mem_flatMap.2 ⟨piece, h, hsite⟩

/-- The pieces of a sound tree are sound, and no semicolon is left outside of brackets. -/
theorem sound_solid_of_mem_pieces (h : q.Sound names top) (hpiece : piece ∈ q.pieces) :
    piece.Sound names top ∧ piece.Solid := by
  -- what goes in front of the first piece leaves the others as they are
  have modify : ∀ {rest : Content} {f : Content → Content},
      (∀ piece ∈ rest.pieces, piece.Sound names top ∧ piece.Solid) →
      (∀ piece, piece.Sound names top ∧ piece.Solid →
        (f piece).Sound names top ∧ (f piece).Solid) →
      ∀ piece ∈ rest.pieces.modifyHead f, piece.Sound names top ∧ piece.Solid := by
    intro rest f hrest hf piece hpiece
    obtain ⟨first, more, hpieces⟩ := rest.exists_pieces_eq_cons
    rw [hpieces] at hrest hpiece
    rcases List.mem_cons.1 hpiece with rfl | hpiece
    · exact hf first (hrest first List.mem_cons_self)
    · exact hrest piece (List.mem_cons_of_mem first hpiece)
  induction q generalizing piece with
  | empty =>
    obtain rfl : piece = empty := by simpa [pieces] using hpiece
    exact ⟨trivial, trivial⟩
  | char c rest ih =>
    obtain ⟨hdollar, hbracket, hrest⟩ := h
    rw [pieces] at hpiece
    -- a semicolon ends the first piece, which is empty then
    split at hpiece
    · rcases List.mem_cons.1 hpiece with rfl | hpiece
      · exact ⟨trivial, trivial⟩
      · exact ih hrest hpiece
    · next hsemi =>
      exact modify (f := char c) (fun piece hpiece => ih hrest hpiece)
        (fun piece hpiece => ⟨⟨hdollar, hbracket, hpiece.1⟩, hsemi, hpiece.2⟩) piece hpiece
  | group inner rest _ ih =>
    exact modify (f := group inner) (fun piece hpiece => ih h.2 hpiece)
      (fun piece hpiece => ⟨⟨h.1, hpiece.1⟩, hpiece.2⟩) piece hpiece
  | call place stem inner rest _ ih =>
    exact modify (f := call place stem inner) (fun piece hpiece => ih h.2.2 hpiece)
      (fun piece hpiece => ⟨⟨h.1, h.2.1, hpiece.1⟩, hpiece.2⟩) piece hpiece

/-! ### Letters -/

/-- Lowering shifts the upper case letters and leaves everything else. -/
theorem toNat_toLower (c : Char) :
    c.toLower.val.toNat =
      if 65 ≤ c.val.toNat ∧ c.val.toNat ≤ 90 then c.val.toNat + 32 else c.val.toNat := by
  unfold Char.toLower
  split
  · next h =>
    have hlo : 65 ≤ c.val.toNat := UInt32.le_iff_toNat_le.1 h.1
    have hhi : c.val.toNat ≤ 90 := UInt32.le_iff_toNat_le.1 h.2
    have hshift : (32 : UInt32).toNat = 32 := rfl
    have hsum : (c.val + 32).toNat = c.val.toNat + 32 := by
      rw [UInt32.toNat_add]
      omega
    rw [if_pos ⟨hlo, hhi⟩]
    exact hsum
  · next h =>
    rw [if_neg fun h' => h ⟨UInt32.le_iff_toNat_le.2 h'.1, UInt32.le_iff_toNat_le.2 h'.2⟩]

/-- Letters, by their codes. -/
theorem isAlpha_iff {c : Char} : c.isAlpha = true ↔
    (65 ≤ c.val.toNat ∧ c.val.toNat ≤ 90) ∨ (97 ≤ c.val.toNat ∧ c.val.toNat ≤ 122) := by
  change (decide (65 ≤ c.val ∧ c.val ≤ 90) || (decide (97 ≤ c.val) && decide (c.val ≤ 122))) = true
    ↔ _
  simp [UInt32.le_iff_toNat_le]

/-- A letter in either case is a letter. -/
theorem isAlpha_of_toLower_eq {a c : Char} (ha : a.isAlpha = true) (h : a.toLower = c.toLower) :
    c.isAlpha = true := by
  have hval : a.toLower.val.toNat = c.toLower.val.toNat := congrArg (·.val.toNat) h
  rw [isAlpha_iff] at ha ⊢
  rw [toNat_toLower, toNat_toLower] at hval
  split at hval <;> split at hval <;> omega

/-- What is written for a name of letters has letters too. -/
theorem isAlpha_of_mem_stem (hnames : ∀ name ∈ names, Worklist.Lettered name) {stem : Text}
    (h : ∃ name ∈ names, Text.sameFolded name ('$' :: stem) = true) {c : Char} (hc : c ∈ stem) :
    c.isAlpha = true := by
  obtain ⟨name, hname, hsame⟩ := h
  obtain ⟨letters, rfl, hletters⟩ := hnames name hname
  have hlower := (List.cons.inj (Text.sameFolded_iff.1 hsame)).2
  obtain ⟨a, ha, heq⟩ := List.mem_map.1 (hlower ▸ List.mem_map_of_mem hc : c.toLower ∈ _)
  exact isAlpha_of_toLower_eq (hletters a ha) heq

end Content

end Stencil
