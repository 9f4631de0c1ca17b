import Stencil.Proofs.Keyword
import Stencil.Proofs.Offset
/-!
# Slices between byte offsets

A slice of a text is asked for by two byte offsets. It is there if they are in order and neither of
them lies within a character, which is told by the byte at the offset (`isCharBoundary`). `cut?` is
the slice, if it is there. Every span of positions is one of byte offsets (`inBytes`), and what the
span covers is cut out at these (`cut?_inBytes`). The bytes of an ASCII character are its own, and no
other character has them (`utf8EncodeChar_cases`), so a search for such a character can go by bytes.
-/

namespace Stencil.Text

variable {t u : Text} {b i k n : Nat} {s : Span}

/-! ### Bytes of characters -/

/-- The bytes of a character: an ASCII character is its only byte, and any other one begins with a
byte that continues none and goes on with bytes that do. -/
theorem utf8EncodeChar_cases (c : Char) :
    c.toNat < 128 ∧ String.utf8EncodeChar c = [UInt8.ofNat c.toNat] ∨
      128 ≤ c.toNat ∧ ∃ first rest, String.utf8EncodeChar c = first :: rest ∧ 192 ≤ first.toNat ∧
        ∀ b ∈ rest, 128 ≤ b.toNat ∧ b.toNat < 192 := by
  have hmax : c.toNat < 1114112 := by
    have hvalid := c.valid
    simp only [UInt32.isValidChar, Nat.isValidChar] at hvalid
    have hval : c.toNat = c.val.toNat := rfl
    omega
  have hval : c.val.toNat = c.toNat := rfl
  unfold String.utf8EncodeChar
  simp only [hval]
  -- one byte, two bytes, three or four
  split
  · exact .inl ⟨by omega, rfl⟩
  split
  · refine .inr ⟨by omega, _, _, rfl, ?_, ?_⟩ <;> simp <;> omega
  split
  · refine .inr ⟨by omega, _, _, rfl, ?_, ?_⟩ <;> simp <;> omega
  · refine .inr ⟨by omega, _, _, rfl, ?_, ?_⟩ <;> simp <;> omega

/-- An ASCII byte is that of a single character. -/
theorem toNat_of_mem_utf8EncodeChar {c : Char} {x : UInt8} (hx : x ∈ String.utf8EncodeChar c)
    (hlt : x.toNat < 128) : c.toNat = x.toNat := by
  rcases utf8EncodeChar_cases c with ⟨hc, heq⟩ | ⟨-, first, rest, heq, hfirst, hrest⟩
  · rw [heq, List.mem_singleton] at hx
    rw [hx, UInt8.toNat_ofNat_of_lt' (by change c.toNat < 256; omega)]
  · rw [heq, List.mem_cons] at hx
    rcases hx with rfl | hx
    · omega
    · have := hrest x hx
      omega

theorem bytes_cons (c : Char) (t : Text) : bytes (c :: t) = String.utf8EncodeChar c ++ t.bytes :=
  List.flatMap_cons

theorem bytes_append (t u : Text) : bytes (t ++ u) = t.bytes ++ u.bytes := List.flatMap_append

/-- Behind the offset of a position stand the bytes of the rest. -/
theorem drop_bytes (t : Text) (i : Nat) : t.bytes.drop (byteOffset t i) = bytes (t.drop i) := by
  have hsplit : t.bytes = bytes (t.take i) ++ bytes (t.drop i) := by
    rw [← bytes_append, List.take_append_drop]
  rw [hsplit, byteOffset, ← length_bytes, List.drop_left]

/-! ### Offsets of positions -/

/-- Offsets are in the order of their positions. -/
theorem byteOffset_lt_iff (hi : i ≤ t.length) (hk : k ≤ t.length) :
    byteOffset t i < byteOffset t k ↔ i < k := by
  refine ⟨fun h => ?_, fun h => byteOffset_lt h hk⟩
  by_contra hle
  rcases Nat.eq_or_lt_of_le (Nat.le_of_not_lt hle) with rfl | hlt
  · exact Nat.lt_irrefl _ h
  · exact Nat.lt_asymm h (byteOffset_lt hlt hi)

theorem byteOffset_le_iff (hi : i ≤ t.length) (hk : k ≤ t.length) :
    byteOffset t i ≤ byteOffset t k ↔ i ≤ k := by
  rw [← Nat.not_lt, byteOffset_lt_iff hk hi, Nat.not_lt]

/-- The bytes of a part of the text lie between the offsets of its ends. -/
theorem byteOffset_add (t : Text) (i n : Nat) :
    byteOffset t (i + n) = byteOffset t i + byteLength ((t.drop i).take n) := by
  rw [byteOffset, List.take_add, byteLength_append]
  rfl

theorem byteOffset_append_length (t u : Text) : byteOffset (t ++ u) t.length = byteLength t := by
  rw [byteOffset, List.take_left]

/-- Between two texts there is a boundary. -/
theorem isBoundary_append (t u : Text) : IsBoundary (t ++ u) (byteLength t) :=
  ⟨t.length, by simp, byteOffset_append_length t u⟩

/-- Behind an ASCII character the next offset is the next one. -/
theorem byteOffset_succ {c : Char} (h : t[i]? = some c) (hc : c.toNat < 128) :
    byteOffset t (i + 1) = byteOffset t i + 1 := by
  have htake : (t.drop i).take 1 = [c] := by
    obtain ⟨hlt, hget⟩ := List.getElem?_eq_some_iff.1 h
    rw [List.drop_eq_getElem_cons hlt, hget]
    rfl
  rw [byteOffset_add, htake, ← length_bytes]
  rcases utf8EncodeChar_cases c with ⟨-, heq⟩ | ⟨hlarge, -⟩
  · rw [bytes_cons, heq]
    rfl
  · omega

/-- The span in byte offsets. -/
def inBytes (t : Text) (s : Span) : Span := ⟨byteOffset t s.start, byteOffset t s.stop⟩

/-- A span is empty in bytes if it is empty. -/
theorem isEmpty_inBytes (hstart : s.start ≤ t.length) (hstop : s.stop ≤ t.length) :
    (inBytes t s).isEmpty = s.isEmpty := by
  rw [Span.isEmpty, Span.isEmpty, decide_eq_decide]
  exact byteOffset_le_iff hstop hstart

/-! ### Boundaries by bytes -/

/-- A byte that goes on with a character. -/
def goesOn (x : UInt8) : Bool := 128 ≤ x.toNat && x.toNat < 192

/-- Whether a slice can begin or end at an offset: at the ends of the text, and in front of a byte
that begins a character. -/
def isCharBoundary (t : Text) (b : Nat) : Bool :=
  b == 0 || t.bytes[b]?.elim (b == t.bytes.length) (!goesOn ·)

/-- The byte at an offset, if it is the first one of a character, does not go on. -/
theorem isCharBoundary_iff : isCharBoundary t b = true ↔ IsBoundary t b := by
  have hbyte : ∀ {i c}, t[i]? = some c → ∀ n, n < c.utf8Size →
      t.bytes[byteOffset t i + n]? = (String.utf8EncodeChar c)[n]? := by
    intro i c hget n hn
    obtain ⟨hlt, hget⟩ := List.getElem?_eq_some_iff.1 hget
    rw [← List.getElem?_drop, drop_bytes, List.drop_eq_getElem_cons hlt, hget, bytes_cons,
      List.getElem?_append_left (by rwa [String.length_utf8EncodeChar])]
  rw [isCharBoundary, Bool.or_eq_true, beq_iff_eq]
  constructor
  · rintro (rfl | h)
    · exact isBoundary_zero t
    -- the offset is one of a character, or the end of the text
    by_cases hb : b < byteLength t
    · obtain ⟨i, hi, hle, hlt⟩ := exists_position hb
      obtain ⟨n, rfl⟩ := Nat.exists_eq_add_of_le hle
      have hget : t[i]? = some t[i] := List.getElem?_eq_getElem hi
      have hsize : byteOffset t (i + 1) = byteOffset t i + t[i].utf8Size := by
        rw [byteOffset_add, List.drop_eq_getElem_cons hi, List.take_succ_cons, List.take_zero,
          byteLength_cons, byteLength_nil, Nat.add_zero]
      have hn : n < t[i].utf8Size := by omega
      rw [hbyte hget n hn] at h
      -- any byte of a character but the first one goes on
      cases n with
      | zero => exact ⟨i, hi.le, rfl⟩
      | succ n =>
        rw [← String.length_utf8EncodeChar] at hn
        rw [List.getElem?_eq_getElem hn] at h
        have hgoesOn : goesOn ((String.utf8EncodeChar t[i])[n + 1]) = true := by
          rcases utf8EncodeChar_cases t[i] with ⟨-, heq⟩ | ⟨-, first, rest, heq, -, hrest⟩
          · simp [heq] at hn
          · have hmem : (String.utf8EncodeChar t[i])[n + 1] ∈ rest := by
              simp only [heq, List.getElem_cons_succ]
              exact List.getElem_mem _
            have := hrest _ hmem
            simpa [goesOn] using this
        simp [hgoesOn] at h
    · rw [List.getElem?_eq_none (by rw [length_bytes]; omega), length_bytes] at h
      obtain rfl : b = byteLength t := by simpa using h
      exact isBoundary_byteLength t
  · rintro ⟨i, hi, rfl⟩
    -- at the end of the text there is no byte, and at any other position there is the first byte
    -- of a character
    rcases Nat.eq_or_lt_of_le hi with rfl | hlt
    · right
      rw [byteOffset_length, List.getElem?_eq_none (by rw [length_bytes]), length_bytes]
      simp
    · right
      have hget : t[i]? = some t[i] := List.getElem?_eq_getElem hlt
      have hfirst := hbyte hget 0 t[i].utf8Size_pos
      rw [Nat.add_zero] at hfirst
      rw [hfirst]
      rcases utf8EncodeChar_cases t[i] with ⟨hsmall, heq⟩ | ⟨-, first, rest, heq, hlarge, -⟩
      · rw [heq]
        simp [goesOn]
        omega
      · rw [heq]
        simp [goesOn]
        omega

/-! ### Slices -/

/-- The slice of a text between two byte offsets. There is none if they are not in order, if they
are not offsets of the text, or if one of them lies within a character. -/
def cut? (t : Text) (r : Span) : Option Text :=
  if r.start ≤ r.stop && isCharBoundary t r.start && isCharBoundary t r.stop then
    some (t.slice (spanOfBytes t r.start r.stop))
  else none

/-- The range is one of the text, and both ends lie between characters. -/
structure InRange (t : Text) (r : Span) : Prop where
  start_le_stop : r.start ≤ r.stop
  start : IsBoundary t r.start
  stop : IsBoundary t r.stop

/-- A slice in range is there. -/
theorem cut?_of_inRange {r : Span} (h : InRange t r) :
    cut? t r = some (t.slice (spanOfBytes t r.start r.stop)) := by
  rw [cut?, isCharBoundary_iff.2 h.start, isCharBoundary_iff.2 h.stop,
    decide_eq_true h.start_le_stop, Bool.and_self, Bool.and_self, if_pos rfl]

/-- A slice is there only if it is in range. -/
theorem isSome_cut?_iff {r : Span} : (cut? t r).isSome = true ↔ InRange t r := by
  rw [cut?]
  split
  · next h =>
    simp only [Bool.and_eq_true, decide_eq_true_eq, isCharBoundary_iff] at h
    simpa using InRange.mk h.1.1 h.1.2 h.2
  · next h =>
    simp only [Bool.and_eq_true, decide_eq_true_eq, isCharBoundary_iff] at h
    simpa using fun hrange : InRange t r => h ⟨⟨hrange.1, hrange.2⟩, hrange.3⟩

/-- A span is read back from its bytes. -/
theorem spanOfBytes_inBytes (hstart : s.start ≤ t.length) (hstop : s.stop ≤ t.length) :
    spanOfBytes t (byteOffset t s.start) (byteOffset t s.stop) = s := by
  rw [spanOfBytes, positionAtOrAfter_byteOffset hstart, positionAtOrAfter_byteOffset hstop]

/-- A span of positions in the text is in range. -/
theorem inRange_inBytes (hle : s.start ≤ s.stop) (hstop : s.stop ≤ t.length) :
    InRange t (inBytes t s) where
  start_le_stop := (byteOffset_le_iff (hle.trans hstop) hstop).2 hle
  start := ⟨s.start, hle.trans hstop, rfl⟩
  stop := ⟨s.stop, hstop, rfl⟩

/-- A span within the text can be cut out of its bytes. -/
theorem cut?_inBytes (hle : s.start ≤ s.stop) (hstop : s.stop ≤ t.length) :
    cut? t (inBytes t s) = some (t.slice s) := by
  rw [cut?_of_inRange (inRange_inBytes hle hstop)]
  exact congrArg (fun s => some (t.slice s)) (spanOfBytes_inBytes (hle.trans hstop) hstop)

/-- What stands in front of a position can be cut out. -/
theorem cut?_take {i : Nat} (hi : i ≤ t.length) : cut? t ⟨0, byteOffset t i⟩ = some (t.take i) := by
  have hcut := cut?_inBytes (t := t) (s := ⟨0, i⟩) (Nat.zero_le i) hi
  rwa [inBytes, byteOffset_zero] at hcut

/-- What stands behind a position can be cut out. -/
theorem cut?_drop {i : Nat} (hi : i ≤ t.length) :
    cut? t ⟨byteOffset t i, byteLength t⟩ = some (t.drop i) := by
  have hcut := cut?_inBytes (t := t) (s := ⟨i, t.length⟩) hi le_rfl
  rw [inBytes, byteOffset_length] at hcut
  rw [hcut, slice, ← List.length_drop, List.take_length]

/-- All of some spans are there. -/
theorem mapM_cut?_inBytes {spans : List Span}
    (h : ∀ s ∈ spans, s.start ≤ s.stop ∧ s.stop ≤ t.length) :
    (spans.map (inBytes t)).mapM (cut? t) = some (spans.map t.slice) := by
  induction spans with
  | nil => rfl
  | cons s spans ih =>
    obtain ⟨hle, hstop⟩ := h s List.mem_cons_self
    rw [List.map_cons, List.mapM_cons, cut?_inBytes hle hstop,
      ih fun s' hs' => h s' (List.mem_cons_of_mem s hs')]
    rfl

end Stencil.Text
