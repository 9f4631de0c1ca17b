import Mathlib.Data.List.Basic
import Mathlib.Data.List.Pairwise
import Stencil.Proofs.Span
/-!
# Ranges with gaps between them

A set of offsets can be kept as a list of ranges. The list is the only one for its set as long as
no range is empty and between two of them there is a gap (`Gapped`, `Gapped.eq_of_holds`), so what is
done to a list of ranges is known from the offsets that it holds. Three things are done here: ranges
are moved (`shift`), cut to a range (`clip?`), and added at the end, where a range that begins at
the end of the last one becomes one with it (`add`).
-/

namespace Stencil.Span

variable {r s last outer : Span} {rs ss : List Span} {b n : Nat}

/-- No range is empty, and each of them ends before the next one begins. -/
structure Gapped (rs : List Span) : Prop where
  nonempty : ∀ r ∈ rs, r.start < r.stop
  gaps : rs.Pairwise (·.stop < ·.start)

/-- The offset lies in the range. -/
def Has (r : Span) (b : Nat) : Prop := r.start ≤ b ∧ b < r.stop

/-- The offset lies in one of the ranges. -/
def Holds (rs : List Span) (b : Nat) : Prop := ∃ r ∈ rs, r.Has b

@[simp] theorem not_holds_nil : ¬ Holds [] b := by
  rintro ⟨r, h, -⟩
  cases h

@[simp] theorem holds_cons : Holds (r :: rs) b ↔ r.Has b ∨ Holds rs b := by
  simp [Holds]

@[simp] theorem holds_append : Holds (rs ++ ss) b ↔ Holds rs b ∨ Holds ss b := by
  simp [Holds, or_and_right, exists_or]

namespace Gapped

theorem nil : Gapped [] := ⟨nofun, .nil⟩

/-- The ranges behind the first are gapped. -/
theorem tail (h : Gapped (r :: rs)) : Gapped rs :=
  ⟨fun s hs => h.nonempty s (List.mem_cons_of_mem r hs), (List.pairwise_cons.1 h.gaps).2⟩

theorem has_start (h : Gapped (r :: rs)) : r.Has r.start := ⟨le_rfl, h.nonempty r List.mem_cons_self⟩

/-- The later ranges hold what lies behind the first one. -/
theorem stop_lt (h : Gapped (r :: rs)) (hb : Holds rs b) : r.stop < b := by
  obtain ⟨s, hs, hle, -⟩ := hb
  have hgap := (List.pairwise_cons.1 h.gaps).1 s hs
  exact hgap.trans_le hle

/-- The offsets behind the first range are those that the others hold. -/
theorem holds_tail_iff (h : Gapped (r :: rs)) : Holds rs b ↔ Holds (r :: rs) b ∧ r.stop ≤ b := by
  rw [holds_cons]
  refine ⟨fun hb => ⟨.inr hb, (h.stop_lt hb).le⟩, ?_⟩
  rintro ⟨hb | hb, hle⟩
  · exact absurd hb.2 (Nat.not_lt.2 hle)
  · exact hb

/-- No offset is held before the first range. -/
theorem start_le (h : Gapped (r :: rs)) (hb : Holds (r :: rs) b) : r.start ≤ b := by
  rcases holds_cons.1 hb with hb | hb
  · exact hb.1
  · exact (h.has_start.2.trans (h.stop_lt hb)).le

/-- The first range is the longest one that is held from its start on. -/
theorem not_holds_stop (h : Gapped (r :: rs)) : ¬ Holds (r :: rs) r.stop := by
  rw [holds_cons]
  rintro (hb | hb)
  · exact lt_irrefl _ hb.2
  · exact lt_irrefl _ (h.stop_lt hb)

/-- Of two first ranges that begin together the one that holds less is the shorter one. -/
theorem stop_le_stop (h : Gapped (s :: ss)) (hstart : r.start = s.start)
    (hheld : ∀ b, Holds (r :: rs) b → Holds (s :: ss) b) : r.stop ≤ s.stop := by
  by_contra hlt
  refine h.not_holds_stop (hheld _ (holds_cons.2 (.inl ⟨?_, Nat.lt_of_not_le hlt⟩)))
  rw [hstart]
  exact h.has_start.2.le

/-- Ranges with gaps between them are told by the offsets that they hold. -/
theorem eq_of_holds (hr : Gapped rs) (hs : Gapped ss) (h : ∀ b, Holds rs b ↔ Holds ss b) :
    rs = ss := by
  induction rs generalizing ss with
  | nil =>
    cases ss with
    | nil => rfl
    | cons s ss => exact absurd ((h _).2 (holds_cons.2 (.inl hs.has_start))) not_holds_nil
  | cons r rs ih =>
    cases ss with
    | nil => exact absurd ((h _).1 (holds_cons.2 (.inl hr.has_start))) not_holds_nil
    | cons s ss =>
      -- the first ranges begin at the least offset that is held, which is the same for both
      have hstart : r.start = s.start :=
        le_antisymm (hr.start_le ((h _).2 (holds_cons.2 (.inl hs.has_start))))
          (hs.start_le ((h _).1 (holds_cons.2 (.inl hr.has_start))))
      -- and they end at the first offset behind it that is not
      have hstop : r.stop = s.stop :=
        le_antisymm (hs.stop_le_stop hstart fun b => (h b).1)
          (hr.stop_le_stop hstart.symm fun b => (h b).2)
      -- so the others hold the same offsets as well
      have hrest : rs = ss := ih hr.tail hs.tail fun b => by
        rw [hr.holds_tail_iff, hs.holds_tail_iff, h b, hstop]
      obtain ⟨a, c⟩ := r
      obtain ⟨a', c'⟩ := s
      simp only at hstart hstop
      rw [hstart, hstop, hrest]

end Gapped

/-! ### Moving and cutting -/

/-- The range `n` offsets further on. -/
def shift (n : Nat) (r : Span) : Span := ⟨r.start + n, r.stop + n⟩

/-- What a range has within another one, counted from the start of that one. -/
def clip? (outer r : Span) : Option Span :=
  let start := max r.start outer.start
  let stop := min r.stop outer.stop
  if start < stop then some ⟨start - outer.start, stop - outer.start⟩ else none

/-- Shifted ranges hold the shifted offsets. -/
theorem holds_shift : Holds (rs.map (shift n)) b ↔ n ≤ b ∧ Holds rs (b - n) := by
  constructor
  · rintro ⟨_, hmem, hb⟩
    obtain ⟨r, hr, rfl⟩ := List.mem_map.1 hmem
    have hlow : r.start + n ≤ b := hb.1
    have hhigh : b < r.stop + n := hb.2
    exact ⟨by omega, r, hr, by omega, by omega⟩
  · rintro ⟨hle, r, hr, hlow, hhigh⟩
    have hlow' : r.start + n ≤ b := by omega
    have hhigh' : b < r.stop + n := by omega
    exact ⟨shift n r, List.mem_map_of_mem hr, hlow', hhigh'⟩

/-- Gaps stay where all ranges are moved alike. -/
theorem Gapped.shift (h : Gapped rs) (n : Nat) : Gapped (rs.map (Span.shift n)) where
  nonempty s hs := by
    obtain ⟨r, hr, rfl⟩ := List.mem_map.1 hs
    exact Nat.add_lt_add_right (h.nonempty r hr) n
  gaps := List.pairwise_map.2 (h.gaps.imp fun hgap => Nat.add_lt_add_right hgap n)

/-- A range is clipped to what it has in common with another one, counted from where that
begins. -/
theorem clip?_eq_some : outer.clip? r = some s ↔
    max r.start outer.start < min r.stop outer.stop ∧
      s.start = max r.start outer.start - outer.start ∧
      s.stop = min r.stop outer.stop - outer.start := by
  rw [clip?]
  split
  · next h =>
    obtain ⟨a, c⟩ := s
    simp [h, eq_comm]
  · next h => simp [h]

/-- Clipped ranges hold the offsets that were held within. -/
theorem holds_clip : Holds (rs.filterMap outer.clip?) b ↔
    b < outer.stop - outer.start ∧ Holds rs (outer.start + b) := by
  constructor
  · rintro ⟨s, hmem, hb⟩
    obtain ⟨r, hr, hclip⟩ := List.mem_filterMap.1 hmem
    obtain ⟨-, hstart, hstop⟩ := clip?_eq_some.1 hclip
    have hlow : s.start ≤ b := hb.1
    have hhigh : b < s.stop := hb.2
    exact ⟨by omega, r, hr, by omega, by omega⟩
  -- an offset within that is held is in the part that is left of its range
  · rintro ⟨hlt, r, hr, hlow, hhigh⟩
    have hmeet : max r.start outer.start < min r.stop outer.stop := by omega
    have hstart : max r.start outer.start - outer.start ≤ b := by omega
    have hstop : b < min r.stop outer.stop - outer.start := by omega
    exact ⟨⟨_, _⟩, List.mem_filterMap.2 ⟨r, hr, clip?_eq_some.2 ⟨hmeet, rfl, rfl⟩⟩, hstart, hstop⟩

/-- What is clipped is gapped: empty ranges are dropped, and no range gets longer. -/
theorem Gapped.clip (h : Gapped rs) (outer : Span) : Gapped (rs.filterMap outer.clip?) where
  nonempty s hs := by
    obtain ⟨r, -, hclip⟩ := List.mem_filterMap.1 hs
    obtain ⟨hlt, hstart, hstop⟩ := clip?_eq_some.1 hclip
    omega
  gaps := by
    refine List.pairwise_filterMap.2 (h.gaps.imp fun {r r'} hgap s hs s' hs' => ?_)
    obtain ⟨hlt, hstart, hstop⟩ := clip?_eq_some.1 hs
    obtain ⟨hlt', hstart', hstop'⟩ := clip?_eq_some.1 hs'
    omega

/-! ### Adding at the end -/

/-- The ranges with one more at the end. -/
def add (rs : List Span) (r : Span) : List Span :=
  if r.isEmpty then rs
  else
    match rs.getLast? with
    | none => [r]
    | some last => if last.stop = r.start then rs.dropLast ++ [⟨last.start, r.stop⟩] else rs ++ [r]

/-- An empty range is not added, a range that goes on where the last one ends makes that one longer,
and any other range comes behind the others. -/
theorem add_cases (rs : List Span) (r : Span) :
    (r.stop ≤ r.start ∧ add rs r = rs) ∨
      (r.start < r.stop ∧ (∀ last ∈ rs.getLast?, last.stop ≠ r.start) ∧ add rs r = rs ++ [r]) ∨
      r.start < r.stop ∧ ∃ earlier last, rs = earlier ++ [last] ∧ last.stop = r.start ∧
        add rs r = earlier ++ [⟨last.start, r.stop⟩] := by
  by_cases hempty : r.stop ≤ r.start
  -- an empty range adds nothing
  · exact .inl ⟨hempty, if_pos (decide_eq_true hempty)⟩
  have hstart := Nat.lt_of_not_le hempty
  have hadd : add rs r = match rs.getLast? with
      | none => [r]
      | some last =>
        if last.stop = r.start then rs.dropLast ++ [⟨last.start, r.stop⟩] else rs ++ [r] :=
    if_neg (by simpa [isEmpty] using hstart)
  refine .inr ?_
  rcases rs.eq_nil_or_concat' with rfl | ⟨earlier, last, rfl⟩
  · exact .inl ⟨hstart, nofun, hadd⟩
  rw [List.getLast?_concat, List.dropLast_concat] at hadd
  by_cases hmeet : last.stop = r.start
  · exact .inr ⟨hstart, earlier, last, rfl, hmeet, hadd.trans (if_pos hmeet)⟩
  · refine .inl ⟨hstart, ?_, hadd.trans (if_neg hmeet)⟩
    rw [List.getLast?_concat]
    rintro _ ⟨⟩
    exact hmeet

/-- An added range ends last, or it adds nothing. -/
theorem stop_of_mem_add (hs : s ∈ add rs r) : s ∈ rs ∨ s.stop = r.stop := by
  rcases add_cases rs r with ⟨-, h⟩ | ⟨-, -, h⟩ | ⟨-, earlier, last, rfl, -, h⟩ <;> rw [h] at hs
  · exact .inl hs
  · rcases List.mem_append.1 hs with hs | hs
    · exact .inl hs
    · exact .inr (List.mem_singleton.1 hs ▸ rfl)
  · rcases List.mem_append.1 hs with hs | hs
    · exact .inl (List.mem_append_left _ hs)
    · exact .inr (List.mem_singleton.1 hs ▸ rfl)

/-- A range that is added adds its own offsets, even where it makes the last range longer. -/
theorem holds_add (h : Gapped rs) : Holds (add rs r) b ↔ Holds rs b ∨ r.Has b := by
  rcases add_cases rs r with ⟨hempty, hadd⟩ | ⟨-, -, hadd⟩ |
    ⟨hstart, earlier, last, rfl, hmeet, hadd⟩
  -- an empty range holds nothing
  · have hnone : ¬ r.Has b := fun hb => absurd (hb.1.trans_lt hb.2) (Nat.not_lt.2 hempty)
    simp [hadd, hnone]
  · simp [hadd]
  · have hlast := h.nonempty last (by simp)
    -- what the last range and the new one have between them, the longer one has
    have hjoined : (Span.mk last.start r.stop).Has b ↔ last.Has b ∨ r.Has b := by
      unfold Has
      simp only
      omega
    simp [hadd, hjoined, or_assoc]

/-- A range fits behind others if it is not empty and begins behind all of them. -/
theorem gapped_concat : Gapped (rs ++ [r]) ↔
    Gapped rs ∧ r.start < r.stop ∧ ∀ s ∈ rs, s.stop < r.start := by
  constructor
  · rintro ⟨hnonempty, hgaps⟩
    obtain ⟨hrs, -, hlast⟩ := List.pairwise_append.1 hgaps
    exact ⟨⟨fun s hs => hnonempty s (List.mem_append_left _ hs), hrs⟩, hnonempty r (by simp),
      fun s hs => hlast s hs r (by simp)⟩
  · rintro ⟨⟨hnonempty, hgaps⟩, hr, hlast⟩
    refine ⟨fun s hs => ?_, List.pairwise_append.2 ⟨hgaps, List.pairwise_singleton _ _, ?_⟩⟩
    · rcases List.mem_append.1 hs with hs | hs
      · exact hnonempty s hs
      · exact List.mem_singleton.1 hs ▸ hr
    · intro s hs s' hs'
      exact List.mem_singleton.1 hs' ▸ hlast s hs

/-- A range that begins where the others are over can be added. -/
theorem Gapped.add (h : Gapped rs) (hr : ∀ s ∈ rs, s.stop ≤ r.start) : Gapped (Span.add rs r) := by
  rcases add_cases rs r with ⟨-, hadd⟩ | ⟨hstart, hgapped, hadd⟩ |
    ⟨hstart, earlier, last, rfl, hmeet, hadd⟩ <;> rw [hadd]
  · exact h
  -- there is a gap before the new range, because it does not begin where the last one ends
  · refine gapped_concat.2 ⟨h, hstart, fun s hs => ?_⟩
    rcases rs.eq_nil_or_concat' with rfl | ⟨earlier, last, rfl⟩
    · cases hs
    have hlast := hgapped last (by simp)
    have hle := hr last (by simp)
    obtain ⟨-, hnonempty, hbefore⟩ := gapped_concat.1 h
    rcases List.mem_append.1 hs with hs | hs
    · have hgap := hbefore s hs
      omega
    · obtain rfl := List.mem_singleton.1 hs
      omega
  -- the last range gets longer, and the gap before it stays
  · obtain ⟨hearlier, hnonempty, hbefore⟩ := gapped_concat.1 h
    refine gapped_concat.2 ⟨hearlier, ?_, hbefore⟩
    simp only
    omega

/-- Ranges with gaps between them can be added behind others, one after the other. -/
theorem Gapped.foldl_add (h : Gapped rs) (hs : Gapped ss)
    (hbehind : ∀ r ∈ rs, ∀ s ∈ ss, r.stop ≤ s.start) :
    Gapped (ss.foldl Span.add rs) ∧
      ∀ b, Holds (ss.foldl Span.add rs) b ↔ Holds rs b ∨ Holds ss b := by
  induction ss generalizing rs with
  | nil => exact ⟨h, fun b => by simp⟩
  | cons s ss ih =>
    have hfirst := h.add fun r hr => hbehind r hr s List.mem_cons_self
    have hgaps := (List.pairwise_cons.1 hs.gaps).1
    -- all ranges so far end before the ones that are left begin
    obtain ⟨hgapped, hholds⟩ := ih hfirst hs.tail fun r hr s' hs' => by
      rcases stop_of_mem_add hr with hr | hr
      · exact hbehind r hr s' (List.mem_cons_of_mem s hs')
      · exact hr ▸ (hgaps s' hs').le
    exact ⟨hgapped, fun b => by rw [List.foldl_cons, hholds, holds_add h, holds_cons, or_assoc]⟩

end Stencil.Span
