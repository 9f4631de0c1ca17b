import Stencil.Proofs.Extraction
/-!
# Blocks are found as they are written

Whatever a block is written behind, and whatever stands behind it as long as no `$if[` does, it is
the one that is found, and its spans hold the texts that it was written with
(`ReadFrom`). Brackets have to be nested in its conditions, and none of its texts may have a keyword
in it. Where the `$endelseif` of an alternative is left out, a strict reader says so.
-/

namespace Stencil.Block.Spelling

variable {b : Spelling} {lead suffix t : Text} {n : Nat}

def conditions (b : Spelling) : List Text := b.condition :: b.branches.map (·.condition)

def bodies (b : Spelling) : List Text :=
  b.body :: (b.branches.map (·.body) ++ b.otherwise.toList)

/-- The spans of a block hold the texts that a spelling is made of. -/
structure ReadFrom (b : Spelling) (t : Text) (block : Block) : Prop where
  span : t.slice block.span = b.text
  condition : t.slice block.condition = b.condition
  body : Span.gather block.body t = b.body
  alternatives : block.alternatives.map (fun a => (t.slice a.condition, t.slice a.body)) =
    b.branches.map fun a => (a.condition, a.body)
  otherwise : Span.gather block.otherwise t = b.otherwise.getD []

/-- The span of a block ends where its text does. -/
theorem stop_laid (b : Spelling) (n : Nat) : (b.laid n).span.stop = n + b.text.length := by
  have hopen : Keyword.ifOpen.text.length = 4 := rfl
  have hend : Keyword.endIf.text.length = 6 := rfl
  -- the lengths of the two keywords and of the closing bracket are counted in
  simp only [laid, text, tail, List.length_append, List.length_cons, hopen, hend]
  omega

/-- The spans of a block that is laid out at a position hold the texts that it was written
with. -/
theorem readFrom_laid (ht : t.drop n = b.text ++ suffix) : b.ReadFrom t (b.laid n) where
  span := by
    have hspan : (b.laid n).span = ⟨n, n + b.text.length⟩ := by
      rw [← stop_laid]
      rfl
    rw [hspan]
    exact Text.slice_of_drop ht
  condition := slice_condition ht
  body := gather_body ht
  alternatives := map_slice_alternativesAt (drop_branches ht)
  otherwise := gather_otherwise ht

/-- Brackets that are nested balance, so a block fits as soon as its texts hold no keywords. -/
theorem fits_of_nested (hnested : ∀ c ∈ b.conditions, Bracket.Nested c)
    (hfree : ∀ u ∈ b.conditions ++ b.bodies, Keyword.NoneIn u)
    (helse : ∀ other ∈ b.otherwise, goesOnWithIf other = false) : b.Fits := by
  -- the conditions and the bodies are those of the block itself and of its alternatives
  simp only [conditions, bodies, List.forall_mem_append, List.forall_mem_cons,
    List.forall_mem_map, Option.mem_toList] at hnested hfree
  obtain ⟨hfirst, hlater⟩ := hnested
  obtain ⟨⟨hcondition, hconditions⟩, hbody, hbodies, hother⟩ := hfree
  exact
    { balanced := hfirst.balanced
      condition := hcondition
      body := hbody
      branches := fun a ha => ⟨(hlater a ha).balanced, hconditions a ha, hbodies a ha⟩
      otherwise := fun other ho => ⟨hother other ho, helse other ho⟩ }

/-- A block is found where it is written, and its parts are. A strict reader finds it only if
`$endelseif` ends each of its alternatives. -/
theorem findInnermost_text_append (b : Spelling) (lead suffix : Text)
    (hnested : ∀ c ∈ b.conditions, Bracket.Nested c)
    (hfree : ∀ u ∈ b.conditions ++ b.bodies, Keyword.NoneIn u)
    (helse : ∀ other ∈ b.otherwise, goesOnWithIf other = false)
    (hsuffix : ∀ i, ¬ Keyword.ifOpen.StandsAt suffix i) :
    findInnermost (lead ++ (b.text ++ suffix)) false = .ok (b.laid lead.length) ∧
      findInnermost (lead ++ (b.text ++ suffix)) true =
        (if b.branches.all (·.closed) then .ok (b.laid lead.length)
          else .error .missingEndElseIf) ∧
      b.ReadFrom (lead ++ (b.text ++ suffix)) (b.laid lead.length) := by
  have hfits : b.Fits := fits_of_nested hnested hfree helse
  have hdrop : (lead ++ (b.text ++ suffix)).drop lead.length = b.text ++ suffix := List.drop_left
  have hlast : ∀ i, lead.length < i →
      ¬ Keyword.ifOpen.StandsAt (lead ++ (b.text ++ suffix)) i :=
    fun i hi hopens => Nat.not_le_of_lt hi (hfits.le_of_ifOpen hsuffix hopens)
  refine ⟨hfits.findInnermost nofun hdrop hlast, ?_, readFrom_laid hdrop⟩
  -- strict finding differs only in the alternatives that nothing closes
  rw [hfits.findInnermost_eq hdrop hlast, missesEnding, Bool.true_and, ← List.not_all_eq_any_not]
  cases b.branches.all (·.closed) with
  | true => rfl
  | false => rfl

/-- A block of which only the second alternative is ended, with brackets and beginnings of keywords
in its bodies. -/
def twoBranches : Spelling where
  condition := "a[b]".toList
  body := "]$if $els[".toList
  branches := [⟨"[1]".toList, "[$end".toList, false⟩, ⟨[], "$ endif".toList, true⟩]
  otherwise := some " $elif[".toList

def foundTwoBranches : Block where
  span := ⟨17, 97⟩
  condition := ⟨21, 25⟩
  body := [⟨26, 36⟩]
  alternatives := [⟨⟨44, 47⟩, ⟨48, 53⟩⟩, ⟨⟨61, 61⟩, ⟨62, 69⟩⟩]
  otherwise := [⟨84, 91⟩]

theorem findInnermost_twoBranches :
    findInnermost ("$if[x]y$endif$IF[".toList ++ (twoBranches.text ++ "]$endif".toList)) false =
        .ok foundTwoBranches ∧
      findInnermost ("$if[x]y$endif$IF[".toList ++ (twoBranches.text ++ "]$endif".toList)) true =
        .error .missingEndElseIf ∧
      twoBranches.ReadFrom
        ("$if[x]y$endif$IF[".toList ++ (twoBranches.text ++ "]$endif".toList))
        foundTwoBranches := by
  have hnone : Keyword.ifOpen.findAll "]$endif".toList = [] := rfl
  have hsuffix := Keyword.findAllFrom_eq_nil_iff.1 hnone
  exact findInnermost_text_append twoBranches _ _ (by decide) (by decide) (by decide) hsuffix

end Stencil.Block.Spelling
