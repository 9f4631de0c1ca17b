import Stencil.Proofs.Block
/-!
# A block is tiled

What is found of a block is the whole of it. From its condition to its `$endif` pieces of the bodies
and alternatives stand one behind the other, with nothing between them (`Tiled`), but for one
`$else` behind which the pieces are those of the other body. Cutting alternatives out of a region
tiles it (`tiled_of_cutAlternatives`), and splitting what they leave at `$else` splits the tiling
there (`Tiled.splitAtElse`).
-/

namespace Stencil.Block

variable {t : Text} {strict : Bool} {lo hi : Nat} {pieces : List Span}
  {alternatives : List Alternative}

/-- From one position up to another stand pieces and alternatives, each right behind the one before,
in the order in which they are listed. -/
inductive Tiled (t : Text) : Nat → Nat → List Span → List Alternative → Prop
  | done (i : Nat) : Tiled t i i [] []
  | piece {i j hi : Nat} {pieces : List Span} {alternatives : List Alternative} (lt : i < j)
      (next : Tiled t j hi pieces alternatives) : Tiled t i hi (⟨i, j⟩ :: pieces) alternatives
  | alternative {i j hi : Nat} {a : Alternative} {pieces : List Span} {later : List Alternative}
      (stands : a.Stands t i j) (next : Tiled t j hi pieces later) :
      Tiled t i hi pieces (a :: later)

namespace Tiled

theorem part {mid : Nat} (h : lo ≤ mid) (next : Tiled t mid hi pieces alternatives) :
    Tiled t lo hi (Block.part ⟨lo, mid⟩ ++ pieces) alternatives := by
  rcases Nat.eq_or_lt_of_le h with rfl | hlt
  · rw [part_self]
    exact next
  · have hpart : Block.part ⟨lo, mid⟩ = [⟨lo, mid⟩] := by
      rw [Block.part, Span.isEmpty, decide_eq_false (Nat.not_le_of_lt hlt)]
      rfl
    rw [hpart]
    exact .piece hlt next

/-- No piece is empty. -/
theorem lt_of_mem (h : Tiled t lo hi pieces alternatives) : ∀ s ∈ pieces, s.start < s.stop := by
  induction h with
  | done => exact nofun
  | piece lt _ ih =>
    intro s hs
    rcases List.mem_cons.1 hs with rfl | hs
    · exact lt
    · exact ih s hs
  | alternative _ _ ih => exact ih

/-- The pieces stand in order, whatever stands between them. -/
theorem pieces_inOrder (h : Tiled t lo hi pieces alternatives) : Span.InOrder lo hi pieces := by
  induction h with
  | done => exact le_rfl
  | piece lt _ ih => exact ⟨le_rfl, lt.le, ih⟩
  | alternative stands next ih =>
    have hbounds := stands.le
    have hcondition := stands.condition_le
    have hbody := stands.body_le
    exact ih.mono (by omega) le_rfl

/-- So do the conditions of the alternatives and their bodies, all together. -/
theorem alternatives_inOrder (h : Tiled t lo hi pieces alternatives) :
    Span.InOrder lo hi (alternatives.flatMap Alternative.spans) := by
  induction h with
  | done => exact le_rfl
  | piece lt _ ih => exact ih.mono lt.le le_rfl
  | @alternative i j hi a pieces later stands next ih =>
    obtain ⟨hfirst, hmid, hlast⟩ := stands.le
    have hspans : Span.InOrder i j a.spans :=
      ⟨hfirst.le, stands.condition_le, hmid.le, stands.body_le, hlast⟩
    exact hspans.append ih

end Tiled

/-! ### The `$else` of a region -/

/-- A `$else` stands there that does not begin `$elseif`. -/
def ElseAt (t : Text) (i : Nat) : Prop :=
  Keyword.otherwise.StandsAt t i ∧ goesOnWithIf (t.drop (i + 5)) = false

theorem not_goesOnWithIf_of_firstElse? {within e : Span} {es : List Span}
    (h : firstElse? t within es = some e) : goesOnWithIf (t.drop e.stop) = false := by
  induction es with
  | nil => cases h
  | cons e' es ih =>
    rw [firstElse?] at h
    split at h
    · cases h
    · split at h
      · exact ih h
      · next hif =>
        obtain rfl : e' = e := Option.some.inj h
        rw [Bool.or_eq_true, not_or] at hif
        exact Bool.eq_false_iff.2 hif.2

theorem exists_elseAt_of_findElse? {within e : Span} (h : findElse? t within = some e) :
    ∃ i, e = Keyword.otherwise.spanAt i ∧ ElseAt t i ∧ within.start ≤ i ∧ i + 5 ≤ within.stop := by
  have hif := not_goesOnWithIf_of_firstElse? h
  obtain ⟨i, rfl, hat, hstart, hstop⟩ := findElse?_eq_some h
  exact ⟨i, rfl, ⟨hat, hif⟩, hstart, hstop⟩

/-- A region with pieces of one body, or of two around a `$else`. -/
def TiledAround (t : Text) (lo hi : Nat) (body otherwise : List Span)
    (alternatives : List Alternative) : Prop :=
  otherwise = [] ∧ Tiled t lo hi body alternatives ∨
    ∃ i before behind, ElseAt t i ∧ alternatives = before ++ behind ∧
      Tiled t lo i body before ∧ Tiled t (i + 5) hi otherwise behind

/-- A tiling is split where its pieces are. -/
theorem Tiled.splitAtElse (h : Tiled t lo hi pieces alternatives) :
    TiledAround t lo hi (splitAtElse t pieces).1 (splitAtElse t pieces).2 alternatives := by
  induction h with
  | done i => exact .inl ⟨rfl, .done i⟩
  | @piece i j hi pieces alternatives lt next ih =>
    rw [Block.splitAtElse]
    split
    · next e he =>
      obtain ⟨m, rfl, hat, hstart, hstop⟩ := exists_elseAt_of_findElse? he
      have hfront : Tiled t i m (Block.part ⟨i, m⟩ ++ []) [] := .part hstart (.done m)
      rw [List.append_nil] at hfront
      exact .inr ⟨m, [], _, hat, rfl, hfront, .part hstop next⟩
    · rcases ih with ⟨hnone, htiled⟩ | ⟨m, before, behind, hat, halts, hbefore, hbehind⟩
      · exact .inl ⟨hnone, .piece lt htiled⟩
      · exact .inr ⟨m, before, behind, hat, halts, .piece lt hbefore, hbehind⟩
  | @alternative i j hi a pieces later stands next ih =>
    rcases ih with ⟨hnone, htiled⟩ | ⟨m, before, behind, hat, rfl, hbefore, hbehind⟩
    · exact .inl ⟨hnone, .alternative stands htiled⟩
    · exact .inr ⟨m, a :: before, behind, hat, rfl, .alternative stands hbefore, hbehind⟩

namespace TiledAround

variable {body otherwise : List Span}

theorem lt_of_mem (h : TiledAround t lo hi body otherwise alternatives) :
    ∀ s ∈ body ++ otherwise, s.start < s.stop := by
  intro s hs
  rcases h with ⟨rfl, htiled⟩ | ⟨i, before, behind, -, -, hbefore, hbehind⟩
  · rw [List.append_nil] at hs
    exact htiled.lt_of_mem s hs
  · rcases List.mem_append.1 hs with hs | hs
    · exact hbefore.lt_of_mem s hs
    · exact hbehind.lt_of_mem s hs

theorem pieces_inOrder (h : TiledAround t lo hi body otherwise alternatives) :
    Span.InOrder lo hi (body ++ otherwise) := by
  rcases h with ⟨rfl, htiled⟩ | ⟨i, before, behind, -, -, hbefore, hbehind⟩
  · rw [List.append_nil]
    exact htiled.pieces_inOrder
  · exact hbefore.pieces_inOrder.append (hbehind.pieces_inOrder.mono (Nat.le_add_right i 5) le_rfl)

theorem alternatives_inOrder (h : TiledAround t lo hi body otherwise alternatives) :
    Span.InOrder lo hi (alternatives.flatMap Alternative.spans) := by
  rcases h with ⟨-, htiled⟩ | ⟨i, before, behind, -, rfl, hbefore, hbehind⟩
  · exact htiled.alternatives_inOrder
  · rw [List.flatMap_append]
    exact hbefore.alternatives_inOrder.append
      (hbehind.alternatives_inOrder.mono (Nat.le_add_right i 5) le_rfl)

end TiledAround

/-! ### Blocks -/

/-- Cutting alternatives out of a region tiles it with them and with what they leave. -/
theorem tiled_of_cutAlternatives {stop i : Nat} {openers parts : List Span}
    (h : cutAlternatives t strict stop i openers = .ok (parts, alternatives))
    (hopeners : ∀ o ∈ openers, ∃ j, o = Keyword.elseIfOpen.spanAt j ∧
      Keyword.elseIfOpen.StandsAt t j ∧ j < stop)
    (hle : i ≤ stop) (hfence : FencedAt t i) (hstop : t[stop]? = some '$') :
    Tiled t i stop parts alternatives := by
  refine cutAlternatives_induction (fun i => Tiled t i stop) (fun i hi _ => ?_) ?_ h hopeners hle
    hfence hstop
  · have hrest : Tiled t i stop (part ⟨i, stop⟩ ++ []) [] := .part hi (.done stop)
    rwa [List.append_nil] at hrest
  · intro i j k a parts later _ hij hstands _ hlater
    exact .part hij (.alternative hstands hlater)

/-- A block that takes up all of the text from the last `$if[` to the first `$endif` behind its
condition. -/
structure Tiling (t : Text) (b : Block) : Prop where
  opener : Keyword.ifOpen.StandsAt t b.span.start
  last : ∀ i, b.span.start < i → ¬ Keyword.ifOpen.StandsAt t i
  condition_start : b.condition.start = b.span.start + 4
  condition_le : b.condition.start ≤ b.condition.stop
  nested : Bracket.Nested (t.slice b.condition)
  closing : t[b.condition.stop]? = some ']'
  region_le : b.condition.stop + 1 ≤ b.regionEnd
  region : ∀ i, b.condition.stop < i → i < b.regionEnd →
    ¬ Keyword.ifOpen.StandsAt t i ∧ ¬ Keyword.endIf.StandsAt t i
  endIf : Keyword.endIf.StandsAt t b.regionEnd
  span_stop : b.span.stop = b.regionEnd + 6
  tiled : TiledAround t (b.condition.stop + 1) b.regionEnd b.body b.otherwise b.alternatives
  pieces_lt : ∀ s ∈ b.body ++ b.otherwise, s.start < s.stop
  pieces_inOrder : Span.InOrder (b.condition.stop + 1) b.regionEnd (b.body ++ b.otherwise)
  alternatives_inOrder : Span.InOrder (b.condition.stop + 1) b.regionEnd
    (b.alternatives.flatMap Alternative.spans)

/-- Whatever block is found, strictly or not, its parts tile it. -/
theorem tiling_of_findInnermost {b : Block} (h : findInnermost t strict = .ok b) : Tiling t b := by
  obtain ⟨i, closing, stop, parts, alternatives, ⟨hat, hlast⟩, hclosing, ⟨hle, hend, hfirst⟩, hcut,
    rfl⟩ := findInnermost_eq_ok h
  have hopen : t[i + 3]? = some '[' := hat.getElem?_bracket rfl
  have hlt : i + 3 < closing := Bracket.lt_of_closing? hclosing hopen
  have hclose := (Bracket.getElem?_of_closing? hclosing).2
  have hcut' := tiled_of_cutAlternatives hcut (fun _ => exists_of_mem_openers) hle
    (.inl ⟨closing, rfl, hclose⟩) hend.getElem?_start
  have htiled := hcut'.splitAtElse
  -- no `$if[` stands behind the last one
  have hregion : ∀ m, closing < m → m < stop →
      ¬ Keyword.ifOpen.StandsAt t m ∧ ¬ Keyword.endIf.StandsAt t m :=
    fun m hm hstop => ⟨hlast m (by omega), hfirst m hm hstop⟩
  exact
    { opener := hat
      last := hlast
      condition_start := rfl
      condition_le := hlt
      nested := Bracket.nested_of_closing? hclosing hopen
      closing := hclose
      region_le := hle
      region := hregion
      endIf := hend
      span_stop := rfl
      tiled := htiled
      pieces_lt := htiled.lt_of_mem
      pieces_inOrder := htiled.pieces_inOrder
      alternatives_inOrder := htiled.alternatives_inOrder }

/-- A text with pieces and alternatives on both sides of the first `$else` of its last block. -/
def mixed : Text :=
  "$if[]$endif$IF[a[b]]A$elseif[c]B$EndElseIf C$elseif[d]D$else E$elseif[e]$else$endif]".toList

def mixedBlock : Block where
  span := ⟨11, 83⟩
  condition := ⟨15, 19⟩
  body := [⟨20, 21⟩, ⟨42, 44⟩]
  alternatives := [⟨⟨29, 30⟩, ⟨31, 32⟩⟩, ⟨⟨52, 53⟩, ⟨54, 55⟩⟩, ⟨⟨70, 71⟩, ⟨72, 72⟩⟩]
  otherwise := [⟨60, 62⟩, ⟨72, 77⟩]

theorem tiling_mixed : findInnermost mixed false = .ok mixedBlock ∧ Tiling mixed mixedBlock := by
  have hfound : findInnermost mixed false = .ok mixedBlock := rfl
  exact ⟨hfound, tiling_of_findInnermost hfound⟩

end Stencil.Block
