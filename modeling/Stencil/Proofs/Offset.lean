import Stencil.Text.Offset
/-!
# Byte offsets and positions

Every character has at least one byte, so a byte offset tells its position: `positionAtOrAfter` is
the inverse of `byteOffset` on the offsets that lie between characters (`IsBoundary`), and
`positionHolding` names the character whose bytes begin at or before the offset and end behind it.
-/

namespace Stencil.Text

variable {t u : Text} {b i n k : Nat}

@[simp] theorem byteLength_nil : byteLength [] = 0 := rfl

@[simp] theorem byteLength_cons (c : Char) (t : Text) :
    byteLength (c :: t) = c.utf8Size + byteLength t := by
  rw [byteLength, List.foldl_cons, byteLength_from, Nat.zero_add]

@[simp] theorem byteLength_append (t u : Text) :
    byteLength (t ++ u) = byteLength t + byteLength u := by
  induction t with
  | nil => simp
  | cons c t ih => rw [List.cons_append, byteLength_cons, byteLength_cons, ih, Nat.add_assoc]

/-- The bytes of a text are as many as its byte length says. -/
theorem length_bytes (t : Text) : t.bytes.length = byteLength t := by
  induction t with
  | nil => rfl
  | cons c t ih =>
    rw [bytes, List.flatMap_cons, List.length_append, String.length_utf8EncodeChar, byteLength_cons]
    exact congrArg (c.utf8Size + ·) ih

/-- A text that is not empty has a byte. -/
theorem byteLength_pos (h : t ≠ []) : 0 < byteLength t := by
  obtain ⟨c, t, rfl⟩ := List.exists_cons_of_ne_nil h
  have hsize := c.utf8Size_pos
  rw [byteLength_cons]
  omega

theorem byteLength_pos_iff : 0 < byteLength t ↔ t ≠ [] := by
  refine ⟨?_, byteLength_pos⟩
  rintro hpos rfl
  exact Nat.lt_irrefl 0 hpos

/-- Texts with the same bytes are the same. -/
theorem bytes_injective (h : t.bytes = u.bytes) : t = u := by
  have hencoded : t.utf8Encode = u.utf8Encode := congrArg List.toByteArray h
  rw [← String.toByteArray_ofList, ← String.toByteArray_ofList, String.toByteArray_inj] at hencoded
  simpa using congrArg String.toList hencoded

/-! ### Boundaries -/

theorem byteOffset_length (t : Text) : byteOffset t t.length = byteLength t := by
  rw [byteOffset, List.take_length]

/-- The bytes before a position and those behind it are all there are. -/
theorem byteOffset_add_drop (t : Text) (i : Nat) :
    byteOffset t i + byteLength (t.drop i) = byteLength t := by
  rw [byteOffset, ← byteLength_append, List.take_append_drop]

/-- The offset lies between two characters, or at an end. -/
def IsBoundary (t : Text) (b : Nat) : Prop := ∃ i ≤ t.length, byteOffset t i = b

/-- The first position whose offset is not before the offset is where the search stops. -/
theorem positionFrom_eq (hk : k ≤ t.length) (hbefore : ∀ j < k, n + byteOffset t j < b)
    (hle : b ≤ n + byteOffset t k) : positionFrom b i n t = i + k := by
  induction t generalizing i n k with
  | nil =>
    obtain rfl : k = 0 := Nat.le_zero.1 hk
    rw [positionFrom, if_pos (by simpa using hle), Nat.add_zero]
  | cons c t ih =>
    -- the offset is not reached yet, so the search goes on behind the first character
    cases k with
    | zero => rw [positionFrom, if_pos (by simpa using hle), Nat.add_zero]
    | succ k =>
      have hfirst := hbefore 0 k.succ_pos
      rw [byteOffset_zero, Nat.add_zero] at hfirst
      rw [byteOffset_cons_succ, ← Nat.add_assoc] at hle
      rw [positionFrom, if_neg (Nat.not_le.2 hfirst),
        ih (Nat.le_of_succ_le_succ hk) (fun j hj => ?_) hle]
      · omega
      · have hlater := hbefore (j + 1) (Nat.succ_lt_succ hj)
        rwa [byteOffset_cons_succ, ← Nat.add_assoc] at hlater

/-- An offset behind the whole text is not reached at all. -/
theorem positionFrom_past (h : n + byteLength t < b) : positionFrom b i n t = i + t.length + 1 := by
  induction t generalizing i n with
  | nil => rw [positionFrom, if_neg (by simpa using h)]; rfl
  | cons c t ih =>
    rw [byteLength_cons] at h
    rw [positionFrom, if_neg (by omega), ih (by omega), List.length_cons]
    omega

/-- A later position has a greater offset, since the characters in between have bytes. -/
theorem byteOffset_lt (hi : i < k) (hk : k ≤ t.length) : byteOffset t i < byteOffset t k := by
  obtain ⟨m, rfl⟩ := Nat.exists_eq_add_of_lt hi
  have hne : (t.drop i).take (m + 1) ≠ [] := by
    rw [Ne, List.take_eq_nil_iff, List.drop_eq_nil_iff]
    omega
  have hmore := byteLength_pos hne
  rw [byteOffset, byteOffset, Nat.add_assoc, List.take_add, byteLength_append]
  omega

/-- Between characters the position can be read off the offset. -/
theorem positionAtOrAfter_byteOffset (hk : k ≤ t.length) :
    positionAtOrAfter t (byteOffset t k) = k := by
  rw [positionAtOrAfter, positionFrom_eq hk (fun j hj => ?_) (Nat.le_of_eq (Nat.zero_add _).symm),
    Nat.zero_add]
  rw [Nat.zero_add]
  exact byteOffset_lt hj hk

/-- A boundary is the offset of its position. -/
theorem IsBoundary.byteOffset_position (h : IsBoundary t b) :
    byteOffset t (positionAtOrAfter t b) = b := by
  obtain ⟨i, hi, rfl⟩ := h
  rw [positionAtOrAfter_byteOffset hi]

theorem IsBoundary.position_le (h : IsBoundary t b) : positionAtOrAfter t b ≤ t.length := by
  obtain ⟨i, hi, rfl⟩ := h
  rwa [positionAtOrAfter_byteOffset hi]

/-- Boundaries are in the order of their positions. -/
theorem IsBoundary.position_le_position {b' : Nat} (hb : IsBoundary t b) (hb' : IsBoundary t b')
    (hle : b ≤ b') : positionAtOrAfter t b ≤ positionAtOrAfter t b' := by
  refine Nat.le_of_not_lt fun hlt => ?_
  have hoffset := byteOffset_lt hlt hb.position_le
  rw [hb.byteOffset_position, hb'.byteOffset_position] at hoffset
  omega

/-- No boundary lies behind the text. -/
theorem IsBoundary.le_byteLength (h : IsBoundary t b) : b ≤ byteLength t := by
  obtain ⟨i, -, rfl⟩ := h
  rw [← byteOffset_add_drop t i]
  exact Nat.le_add_right _ _

theorem isBoundary_zero (t : Text) : IsBoundary t 0 := ⟨0, Nat.zero_le _, byteOffset_zero t⟩

theorem isBoundary_byteLength (t : Text) : IsBoundary t (byteLength t) :=
  ⟨t.length, Nat.le_refl _, byteOffset_length t⟩

/-- Where a text is cut in three the offsets of the cuts give the part in between. -/
theorem slice_spanOfBytes (before mid behind : Text) :
    slice (before ++ mid ++ behind)
      (spanOfBytes (before ++ mid ++ behind) (byteLength before)
        (byteLength before + byteLength mid)) = mid := by
  -- both ends of the part in the middle are boundaries
  have hstart : byteOffset (before ++ mid ++ behind) before.length = byteLength before := by
    rw [byteOffset, List.append_assoc, List.take_left]
  have hstop : byteOffset (before ++ mid ++ behind) (before ++ mid).length =
      byteLength before + byteLength mid := by
    rw [byteOffset, List.take_left, byteLength_append]
  have hmid : (before ++ mid).length ≤ (before ++ mid ++ behind).length := by
    simp only [List.length_append]
    omega
  have hbefore : before.length ≤ (before ++ mid ++ behind).length := by
    simp only [List.length_append]
    omega
  rw [spanOfBytes, ← hstop, ← hstart, positionAtOrAfter_byteOffset hbefore,
    positionAtOrAfter_byteOffset hmid, slice, List.append_assoc, List.drop_left,
    List.length_append, Nat.add_sub_cancel_left, List.take_left]

/-- The character that a byte belongs to begins at or before it and ends behind it. -/
theorem positionHolding_eq (hi : i < t.length) (hle : byteOffset t i ≤ b)
    (hlt : b < byteOffset t (i + 1)) : positionHolding t b = i := by
  have hbefore : ∀ j < i + 1, 0 + byteOffset t j < b + 1 := by
    intro j hj
    rcases Nat.lt_succ_iff_lt_or_eq.1 hj with hj | rfl
    · have hearlier := byteOffset_lt hj (Nat.le_of_lt hi)
      omega
    · omega
  rw [positionHolding, positionAtOrAfter,
    positionFrom_eq (Nat.succ_le_of_lt hi) hbefore (by rw [Nat.zero_add]; exact hlt)]
  omega

/-- Behind the text no character holds an offset. -/
theorem positionHolding_past (h : byteLength t ≤ b) : positionHolding t b = t.length := by
  rw [positionHolding, positionAtOrAfter, positionFrom_past (by omega)]
  omega

/-- Every byte of a text belongs to a character. -/
theorem exists_position (h : b < byteLength t) :
    ∃ i < t.length, byteOffset t i ≤ b ∧ b < byteOffset t (i + 1) := by
  induction t generalizing b with
  | nil => cases h
  | cons c t ih =>
    rw [byteLength_cons] at h
    by_cases hfirst : b < c.utf8Size
    · exact ⟨0, Nat.succ_pos _, by simp, by rw [byteOffset_cons_succ]; omega⟩
    · obtain ⟨i, hi, hle, hlt⟩ := ih (b := b - c.utf8Size) (by omega)
      refine ⟨i + 1, Nat.succ_lt_succ hi, ?_, ?_⟩ <;> rw [byteOffset_cons_succ] <;> omega

end Stencil.Text
