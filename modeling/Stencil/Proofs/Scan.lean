import Stencil.Proofs.Worklist
/-!
# Where the entries of a worklist come from

A worklist holds names and no positions. `entries` is the worklist with the position of the `$` that
each entry was made for (`map_snd_entries`): a name is the entry of a `$` where it is the longest
one that stands there, and what counts is the text up to the next `$` or to the end of the line
(`of_mem_entries`, `length_le_of_longestName?`).
-/

namespace Stencil

namespace Text

variable {c : Char} {t piece : Text} {n m k : Nat}

/-- Pieces with the positions at which they begin, when the first one begins at `n` and one
character stands between two of them. -/
def placed (n : Nat) : List Text → List (Nat × Text)
  | [] => []
  | piece :: rest => (n, piece) :: placed (n + piece.length + 1) rest

theorem map_snd_placed (n : Nat) (pieces : List Text) :
    (placed n pieces).map Prod.snd = pieces := by
  induction pieces generalizing n with
  | nil => rfl
  | cons piece rest ih => rw [placed, List.map_cons, ih]

theorem drop_takeWhile {p : Char → Bool} (h : k ≤ (t.takeWhile p).length) :
    (t.takeWhile p).drop k = (t.drop k).takeWhile p := by
  induction t generalizing k with
  | nil => simp
  | cons x t ih =>
    cases k with
    | zero => rfl
    | succ k =>
      by_cases hx : p x = true
      · rw [List.takeWhile_cons_of_pos hx] at h ⊢
        exact ih (Nat.le_of_succ_le_succ h)
      · rw [List.takeWhile_cons_of_neg hx] at h
        cases h

/-- A piece but the first one begins behind a separator and ends before the next one. -/
theorem of_mem_drop_placed (h : (m, piece) ∈ (placed n (split [c] t)).drop 1) :
    ∃ k, m = n + k + 1 ∧ t[k]? = some c ∧ piece = (t.drop (k + 1)).takeWhile (· ≠ c) := by
  induction t generalizing n with
  | nil => cases h
  | cons x t ih =>
    obtain ⟨rest, hsplit⟩ := exists_split_eq_cons c t
    have hlater : (m, piece) ∈ (placed (n + 1) (split [c] t)).drop 1 →
        ∃ k, m = n + k + 1 ∧ (x :: t)[k]? = some c ∧
          piece = ((x :: t).drop (k + 1)).takeWhile (· ≠ c) := by
      intro h
      obtain ⟨k, hm, hk, hpiece⟩ := ih h
      exact ⟨k + 1, by omega, hk, hpiece⟩
    rw [split_cons] at h
    by_cases hx : c = x
    · rw [if_pos hx] at h
      have h : (m, piece) ∈ placed (n + 1) (split [c] t) := h
      rw [hsplit, placed] at h hlater
      rcases List.mem_cons.1 h with h | h
      · cases h
        exact ⟨0, rfl, by rw [hx]; rfl, rfl⟩
      · exact hlater h
    · rw [if_neg hx, hsplit, List.modifyHead_cons, placed] at h
      rw [hsplit, placed] at hlater
      refine hlater ?_
      have hstart : n + (x :: t.takeWhile (· ≠ c)).length + 1 =
          n + 1 + (t.takeWhile (· ≠ c)).length + 1 := by
        rw [List.length_cons]
        omega
      rwa [hstart] at h

/-- Every piece begins at its position and ends before the next separator. -/
theorem of_mem_placed (h : (m, piece) ∈ placed 0 (split [c] t)) :
    piece = (t.drop m).takeWhile (· ≠ c) := by
  obtain ⟨rest, hsplit⟩ := exists_split_eq_cons c t
  have hbehind := @of_mem_drop_placed c t piece 0 m
  rw [hsplit, placed] at h hbehind
  rcases List.mem_cons.1 h with h | h
  · cases h
    rfl
  · obtain ⟨k, rfl, -, hpiece⟩ := hbehind h
    rwa [Nat.zero_add]

end Text

namespace Worklist

variable {names : List Text} {t name other : Text} {i : Nat}

/-- What stands behind a position, up to the next `$` or to the end of the line. -/
def segmentAt (t : Text) (i : Nat) : Text :=
  (t.drop (i + 1)).takeWhile fun c => c ≠ '$' && c ≠ '\n'

/-- The entries of a line that begins at a position, each with the position of its `$`. -/
def entriesOfLine (names : List Text) (line : Nat × Text) : List (Nat × Text) :=
  ((Text.placed line.1 (Text.split ['$'] line.2)).drop 1).reverse.filterMap fun piece =>
    (nameBehind? names piece.2).map (piece.1 - 1, ·)

/-- The entries of a text, each with the position of its `$`. -/
def entries (names : List Text) (t : Text) : List (Nat × Text) :=
  (Text.placed 0 (Text.split ['\n'] t)).flatMap (entriesOfLine names)

theorem map_snd_entriesOfLine (names : List Text) (line : Nat × Text) :
    (entriesOfLine names line).map Prod.snd = ofLine names line.2 := by
  have hpieces : (((Text.placed line.1 (Text.split ['$'] line.2)).drop 1).reverse).map Prod.snd =
      ((Text.split ['$'] line.2).drop 1).reverse := by
    rw [List.map_reverse, List.map_drop, Text.map_snd_placed]
  rw [ofLine, ← hpieces, List.filterMap_map, entriesOfLine, List.map_filterMap]
  refine List.filterMap_congr fun piece _ => ?_
  simp [Function.comp_def]

/-- Without the positions the entries are the worklist. -/
theorem map_snd_entries (names : List Text) (t : Text) :
    (entries names t).map Prod.snd = ofText names t := by
  have hlines : ofText names t =
      ((Text.placed 0 (Text.split ['\n'] t)).map Prod.snd).flatMap (ofLine names) := by
    rw [Text.map_snd_placed, ofText]
  rw [hlines, entries, List.map_flatMap, List.flatMap_map]
  exact List.flatMap_congr fun line _ => map_snd_entriesOfLine names line

/-- An entry was made for a `$`, and is what the text behind it gives. -/
theorem of_mem_entries (h : (i, name) ∈ entries names t) :
    t[i]? = some '$' ∧ nameBehind? names (segmentAt t i) = some name := by
  obtain ⟨⟨n, line⟩, hline, h⟩ := List.mem_flatMap.1 h
  obtain ⟨⟨m, segment⟩, hsegment, h⟩ := List.mem_filterMap.1 h
  obtain ⟨name', hname, heq⟩ := Option.map_eq_some_iff.1 h
  obtain ⟨k, hm, hdollar, hpiece⟩ := Text.of_mem_drop_placed (List.mem_reverse.1 hsegment)
  have hline := Text.of_mem_placed hline
  simp only at hm hdollar hpiece hname
  obtain ⟨rfl, rfl⟩ := Prod.mk.inj heq
  subst hm hline
  obtain ⟨hk, -⟩ := List.getElem?_eq_some_iff.1 hdollar
  -- the line is a part of the text, so what stands in it stands in the text
  obtain ⟨rest, hrest⟩ : (t.drop n).takeWhile (· ≠ '\n') <+: t.drop n := List.takeWhile_prefix _
  have hwithin : t[n + k]? = some '$' := by
    rw [← List.getElem?_drop, ← hrest, List.getElem?_append_left hk, hdollar]
  have hsegment : segment = segmentAt t (n + k) := by
    rw [hpiece, Text.drop_takeWhile hk, List.drop_drop, List.takeWhile_takeWhile, segmentAt]
    simp [Nat.add_assoc]
  rw [Nat.add_sub_cancel, ← hsegment]
  exact ⟨hwithin, hname⟩

/-- Among the names that stand at the head of a text none is longer than the longest one. -/
theorem length_le_of_longestName? (h : longestName? names t = some name) (hother : other ∈ names)
    (hstands : Text.startsFolded other t = true) : other.length ≤ name.length := by
  -- the best name so far only grows, and it is no shorter than the names that were passed
  have keeps : ∀ (names : List Text) (best : Option Text),
      (∃ b ∈ best, other.length ≤ b.length) ∨ other ∈ names →
      ∀ b ∈ names.foldl (longerName? t) best, other.length ≤ b.length := by
    intro names
    induction names with
    | nil =>
      rintro best (⟨b, hb, hle⟩ | hmem) b' hb'
      · cases hb.symm.trans hb'
        exact hle
      · cases hmem
    | cons n names ih =>
      intro best hbest
      refine ih _ ?_
      have hgrows : (∃ b ∈ best, other.length ≤ b.length) →
          ∃ b ∈ longerName? t best n, other.length ≤ b.length := by
        rintro ⟨b, hb, hle⟩
        obtain rfl : best = some b := hb
        unfold longerName?
        split
        · next hlonger =>
          have hlt : b.length < n.length := by simpa using (Bool.and_eq_true_iff.1 hlonger).2
          exact ⟨n, rfl, hle.trans hlt.le⟩
        · exact ⟨b, rfl, hle⟩
      rcases hbest with hbest | hmem
      · exact .inl (hgrows hbest)
      rcases List.mem_cons.1 hmem with rfl | hmem
      · refine .inl ?_
        unfold longerName?
        cases best with
        | none => exact ⟨other, by simp [hstands], le_rfl⟩
        | some b =>
          by_cases hlt : b.length < other.length
          · exact ⟨other, by simp [hstands, hlt], le_rfl⟩
          · exact ⟨b, by simp [hlt], Nat.le_of_not_lt hlt⟩
      · exact .inr hmem
  exact keeps names none (.inr hother) name h

end Worklist

end Stencil
