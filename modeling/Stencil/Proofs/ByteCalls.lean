import Stencil.Proofs.CallSite
import Stencil.Proofs.Slices
import Stencil.Proofs.Tagged
/-!
# Calls by byte offsets

The searches for a call go along the bytes of a text: for a name, which is compared byte by byte
(`Ranged.findName?`), for the bracket that closes another one (`Bracket.closingByte?`), and for the
semicolons between slots (`Bracket.slotBytes?`). What they find is read out of the text in slices,
and there is an answer only if every slice is there. It always is, and it is the one that the
searches by positions give, in byte offsets (`CallSite.findByte?_eq`): brackets and semicolons are
ASCII characters, and names begin with one, so nothing is found within a character.
-/

namespace Stencil

open Text (bytes byteLength byteOffset inBytes cut?)

/-! ### Single characters -/

namespace Text

/-- No character but an ASCII character itself has its byte. -/
theorem not_mem_utf8EncodeChar {c m : Char} {x : UInt8} (hx : x.toNat = m.toNat)
    (hm : m.toNat < 128) (hne : c ≠ m) : x ∉ String.utf8EncodeChar c := by
  intro hmem
  have hnat := toNat_of_mem_utf8EncodeChar hmem (by omega)
  exact hne (Char.toNat_inj.1 (hnat.trans hx))

end Text

/-! ### Brackets and slots -/

namespace Bracket

variable {t u behind : Text} {s : Span} {i depth : Nat}

/-- `closingFrom` along bytes. -/
def closingByteFrom (b depth : Nat) : List UInt8 → Option Nat
  | [] => none
  | x :: xs =>
    if x = 0x5B then closingByteFrom (b + 1) (depth + 1) xs
    else if x = 0x5D then
      if depth ≤ 1 then some b else closingByteFrom (b + 1) (depth - 1) xs
    else closingByteFrom (b + 1) depth xs

/-- The offset of the bracket that balances the one at an offset. -/
def closingByte? (t : Text) (b : Nat) : Option Nat := closingByteFrom b 0 (t.bytes.drop b)

/-- `piecesFrom` along bytes. -/
def piecesByteFrom (start b depth : Nat) (done : List Span) : List UInt8 → List Span
  | [] => (⟨start, b⟩ :: done).reverse
  | x :: xs =>
    if x = 0x5B then piecesByteFrom start (b + 1) (depth + 1) done xs
    else if x = 0x5D then piecesByteFrom start (b + 1) (depth - 1) done xs
    else if x = 0x3B && depth == 0 then piecesByteFrom (b + 1) (b + 1) depth (⟨start, b⟩ :: done) xs
    else piecesByteFrom start (b + 1) depth done xs

/-- The range without the blanks at its ends, if what is in it can be sliced. -/
def trimBytes? (t : Text) (r : Span) : Option Span := do
  let piece ← cut? t r
  let lead := byteLength piece - byteLength (Text.trimStart piece)
  let tail := byteLength piece - byteLength (Text.trimEnd piece)
  if lead = byteLength piece then return ⟨r.start, r.start⟩
  else return ⟨r.start + lead, r.stop - tail⟩

/-- The slots in a range, if all that is read of it can be sliced. -/
def slotBytes? (t : Text) (r : Span) : Option (List (Option Span)) := do
  let interior ← cut? t r
  let trimmed ← (piecesByteFrom r.start r.start 0 [] interior.bytes).mapM (trimBytes? t)
  return (dropEmptyLast trimmed).map fun p => if p.isEmpty then none else some p

/-- Bytes that are no brackets are passed over. -/
theorem closingByteFrom_append {xs : List UInt8} (h : ∀ x ∈ xs, x ≠ 0x5B ∧ x ≠ 0x5D) (b : Nat)
    (ys : List UInt8) :
    closingByteFrom b depth (xs ++ ys) = closingByteFrom (b + xs.length) depth ys := by
  induction xs generalizing b with
  | nil => rfl
  | cons x xs ih =>
    obtain ⟨hopen, hclose⟩ := h x List.mem_cons_self
    rw [List.cons_append, closingByteFrom, if_neg hopen, if_neg hclose,
      ih (fun y hy => h y (List.mem_cons_of_mem x hy)), List.length_cons, Nat.add_right_comm,
      Nat.add_assoc]

theorem closingByteFrom_bytes (before u : Text) (depth : Nat) :
    closingByteFrom (byteLength before) depth (bytes u) =
      (closingFrom before.length depth u).map (byteOffset (before ++ u)) := by
  induction u generalizing before depth with
  | nil => rfl
  | cons c u ih =>
    have hnext := ih (before ++ [c])
    rw [Text.byteLength_append, Text.byteLength_cons, Text.byteLength_nil, Nat.add_zero,
      List.length_append, List.append_assoc, List.singleton_append] at hnext
    rw [Text.bytes_cons, closingFrom]
    split
    · next hopen =>
      subst hopen
      exact hnext (depth + 1)
    · next hopen =>
      split
      · next hclose =>
        subst hclose
        change (if depth ≤ 1 then some (byteLength before) else _) = _
        split
        · rw [Option.map_some, Text.byteOffset_append_length]
        · exact hnext (depth - 1)
      · next hclose =>
        -- no byte of another character is one of the brackets
        have hother : ∀ x ∈ String.utf8EncodeChar c, x ≠ 0x5B ∧ x ≠ 0x5D := by
          intro x hx
          constructor
          · rintro rfl
            exact Text.not_mem_utf8EncodeChar (m := '[') rfl (by decide) hopen hx
          · rintro rfl
            exact Text.not_mem_utf8EncodeChar (m := ']') rfl (by decide) hclose hx
        rw [closingByteFrom_append hother, String.length_utf8EncodeChar]
        exact hnext depth

/-- The bracket is the one that is found by positions. -/
theorem closingByte?_byteOffset (hi : i ≤ t.length) :
    closingByte? t (byteOffset t i) = (closing? t i).map (byteOffset t) := by
  have hfrom := closingByteFrom_bytes (t.take i) (t.drop i) 0
  rwa [List.take_append_drop, List.length_take, Nat.min_eq_left hi, ← Text.drop_bytes] at hfrom

/-- Bytes that are no brackets and no semicolons are passed over. -/
theorem piecesByteFrom_append {xs : List UInt8}
    (h : ∀ x ∈ xs, x ≠ 0x5B ∧ x ≠ 0x5D ∧ x ≠ 0x3B) (start b : Nat) (done : List Span)
    (ys : List UInt8) :
    piecesByteFrom start b depth done (xs ++ ys) =
      piecesByteFrom start (b + xs.length) depth done ys := by
  induction xs generalizing b with
  | nil => rfl
  | cons x xs ih =>
    obtain ⟨hopen, hclose, hcut⟩ := h x List.mem_cons_self
    rw [List.cons_append, piecesByteFrom, if_neg hopen, if_neg hclose, decide_eq_false hcut,
      Bool.false_and, if_neg Bool.false_ne_true, ih (fun y hy => h y (List.mem_cons_of_mem x hy)),
      List.length_cons, Nat.add_right_comm, Nat.add_assoc]

/-- The pieces of a part of a text are those that are cut by positions. -/
theorem piecesByteFrom_bytes {before : Text} (ht : t = before ++ (u ++ behind)) (start depth : Nat)
    (done : List Span) :
    piecesByteFrom (byteOffset t start) (byteLength before) depth (done.map (inBytes t)) (bytes u) =
      (piecesFrom start before.length depth done u).map (inBytes t) := by
  have hoffset : byteOffset t before.length = byteLength before := by
    rw [ht, Text.byteOffset_append_length]
  induction u generalizing before start depth done with
  | nil =>
    rw [piecesFrom, List.map_reverse, List.map_cons, inBytes, hoffset]
    rfl
  | cons c u ih =>
    -- what is in front of the rest ends with this character
    have ht' : t = (before ++ [c]) ++ (u ++ behind) := by rw [ht]; simp
    have hnext := fun start depth done => ih ht' start depth done
      (by rw [ht', Text.byteOffset_append_length])
    rw [Text.byteLength_append, Text.byteLength_cons, Text.byteLength_nil, Nat.add_zero,
      List.length_append] at hnext
    rw [Text.bytes_cons, piecesFrom]
    split
    · next hopen =>
      subst hopen
      exact hnext start (depth + 1) done
    split
    · next hclose =>
      subst hclose
      exact hnext start (depth - 1) done
    next hopen hclose =>
    by_cases hcut : c = ';'
    · subst hcut
      change (if (decide ((0x3B : UInt8) = 0x3B) && depth == 0) = true then _ else _) = _
      rw [decide_eq_true rfl, decide_eq_true rfl]
      split
      -- a semicolon is one byte, so the next piece begins one offset further on
      · have hstart : byteOffset t (before.length + 1) = byteLength before + 1 := by
          rw [ht', ← List.length_singleton (a := ';'), ← List.length_append,
            Text.byteOffset_append_length, Text.byteLength_append]
          rfl
        have hrest := hnext (before.length + 1) depth (⟨start, before.length⟩ :: done)
        rw [hstart, List.map_cons, inBytes, hoffset] at hrest
        exact hrest
      · exact hnext start depth done
    -- no byte of another character is a bracket or a semicolon
    · have hother : ∀ x ∈ String.utf8EncodeChar c, x ≠ 0x5B ∧ x ≠ 0x5D ∧ x ≠ 0x3B := by
        intro x hx
        refine ⟨?_, ?_, ?_⟩
        · rintro rfl
          exact Text.not_mem_utf8EncodeChar (m := '[') rfl (by decide) hopen hx
        · rintro rfl
          exact Text.not_mem_utf8EncodeChar (m := ']') rfl (by decide) hclose hx
        · rintro rfl
          exact Text.not_mem_utf8EncodeChar (m := ';') rfl (by decide) hcut hx
      rw [decide_eq_false hcut, Bool.false_and, if_neg Bool.false_ne_true,
        piecesByteFrom_append hother, String.length_utf8EncodeChar]
      exact hnext start depth done

/-- Behind a text that stands at a position the offset is further by its bytes. -/
theorem byteOffset_add_length {u : Text} {n : Nat} (h : u <+: t.drop n) :
    byteOffset t (n + u.length) = byteOffset t n + byteLength u := by
  rw [Text.byteOffset_add, ← List.prefix_iff_eq_take.1 h]

/-- The blanks at the ends of a range are those at the ends of the span. -/
theorem trimBytes?_inBytes (hle : s.start ≤ s.stop) (hstop : s.stop ≤ t.length) :
    trimBytes? t (inBytes t s) = some (inBytes t (Text.trimSpan t s)) := by
  have hlen : (t.slice s).length = s.stop - s.start := Span.length_cut_of_le hstop
  obtain ⟨rest, hrest⟩ : ∃ rest, t.drop s.start = t.slice s ++ rest :=
    ⟨_, (List.take_append_drop _ _).symm⟩
  rw [trimBytes?, Text.cut?_inBytes hle hstop, Text.trimSpan]
  generalize t.slice s = piece at hlen hrest
  -- the piece is blanks and what is kept, from either end
  have hlead : piece.takeWhile isBlank ++ Text.trimStart piece = piece :=
    List.takeWhile_append_dropWhile
  have htail : Text.trimEnd piece ++ (piece.reverse.takeWhile isBlank).reverse = piece := by
    rw [Text.trimEnd, ← List.reverse_append, List.takeWhile_append_dropWhile, List.reverse_reverse]
  have hleadBytes : byteLength piece - byteLength (Text.trimStart piece) =
      byteLength (piece.takeWhile isBlank) := by
    have hsum := congrArg byteLength hlead
    rw [Text.byteLength_append] at hsum
    omega
  have htailBytes : byteLength piece - byteLength (Text.trimEnd piece) =
      byteLength (piece.reverse.takeWhile isBlank).reverse := by
    have hsum := congrArg byteLength htail
    rw [Text.byteLength_append] at hsum
    omega
  -- all of it is blank in bytes when it is in characters
  have hwhole : byteLength (piece.takeWhile isBlank) = byteLength piece ↔
      (piece.takeWhile isBlank).length = piece.length := by
    have hbytes := congrArg byteLength hlead
    have hchars := congrArg List.length hlead
    have hpos := Text.byteLength_pos_iff (t := Text.trimStart piece)
    rw [Text.byteLength_append] at hbytes
    rw [List.length_append] at hchars
    rw [Ne, ← List.length_eq_zero_iff] at hpos
    omega
  have hstart : byteOffset t (s.start + (piece.takeWhile isBlank).length) =
      byteOffset t s.start + byteLength (piece.takeWhile isBlank) := by
    refine byteOffset_add_length ?_
    rw [hrest]
    exact (List.takeWhile_prefix _).trans (List.prefix_append _ _)
  -- the blanks at the end stand where the span stops, less their bytes
  have hend : byteOffset t (s.stop - (piece.reverse.takeWhile isBlank).length) =
      byteOffset t s.stop - byteLength (piece.reverse.takeWhile isBlank).reverse := by
    have hbehind : (piece.reverse.takeWhile isBlank).reverse <+:
        t.drop (s.start + (Text.trimEnd piece).length) := by
      have hpiece : piece ++ rest =
          Text.trimEnd piece ++ ((piece.reverse.takeWhile isBlank).reverse ++ rest) := by
        rw [← List.append_assoc, htail]
      rw [← List.drop_drop, hrest, hpiece, List.drop_left]
      exact List.prefix_append _ _
    have hchars := congrArg List.length htail
    rw [List.length_append, List.length_reverse] at hchars
    have hoffset := byteOffset_add_length hbehind
    have hsum : s.start + (Text.trimEnd piece).length + (piece.reverse.takeWhile isBlank).length =
        s.stop := by omega
    rw [List.length_reverse, hsum] at hoffset
    rw [hoffset, Nat.add_sub_cancel, ← hsum, Nat.add_sub_cancel]
  have hspan : inBytes t ⟨s.start + (piece.takeWhile isBlank).length,
      s.stop - (piece.reverse.takeWhile isBlank).length⟩ =
      ⟨byteOffset t s.start + byteLength (piece.takeWhile isBlank),
        byteOffset t s.stop - byteLength (piece.reverse.takeWhile isBlank).reverse⟩ :=
    congrArg₂ Span.mk hstart hend
  simp only [Option.bind_eq_bind, Option.bind_some, hleadBytes, htailBytes]
  by_cases hblank : (piece.takeWhile isBlank).length = piece.length
  · rw [if_pos (hwhole.2 hblank), if_pos hblank]
    rfl
  · rw [if_neg (mt hwhole.1 hblank), if_neg hblank, hspan]
    rfl

/-- The slots are those that are cut by positions. -/
theorem slotBytes?_inBytes (hle : s.start ≤ s.stop) (hstop : s.stop ≤ t.length) :
    slotBytes? t (inBytes t s) = some ((slots t s).map (·.map (inBytes t))) := by
  -- the pieces are cut alike, since the text of the span stands at its offset
  have hpieces : piecesByteFrom (inBytes t s).start (inBytes t s).start 0 []
      (bytes (t.slice s)) = (pieces t s).map (inBytes t) := by
    have hsplit : t = t.take s.start ++ (t.slice s ++ t.drop s.stop) := by
      have hrest : t.drop s.stop = (t.drop s.start).drop (s.stop - s.start) := by
        rw [List.drop_drop, Nat.add_sub_cancel' hle]
      rw [Text.slice, hrest, List.take_append_drop, List.take_append_drop]
    have hlen : (t.take s.start).length = s.start := by
      rw [List.length_take, Nat.min_eq_left (hle.trans hstop)]
    have hfrom := piecesByteFrom_bytes hsplit s.start 0 []
    rwa [hlen] at hfrom
  -- every piece lies in the text, so it can be trimmed
  have hbounds : ∀ p ∈ pieces t s, p.start ≤ p.stop ∧ p.stop ≤ t.length := by
    intro p hp
    obtain ⟨-, hle', hstop'⟩ := (pieces_inOrder hle hstop).bounds hp
    exact ⟨hle', hstop'.trans hstop⟩
  have htrim : ((pieces t s).map (inBytes t)).mapM (trimBytes? t) =
      some (((pieces t s).map (Text.trimSpan t)).map (inBytes t)) := by
    generalize pieces t s = ps at hbounds
    induction ps with
    | nil => rfl
    | cons p ps ih =>
      obtain ⟨hle', hstop'⟩ := hbounds p List.mem_cons_self
      rw [List.map_cons, List.mapM_cons, trimBytes?_inBytes hle' hstop',
        ih fun q hq => hbounds q (List.mem_cons_of_mem p hq)]
      rfl
  have hempty : ∀ p ∈ (pieces t s).map (Text.trimSpan t), (inBytes t p).isEmpty = p.isEmpty := by
    intro p hp
    obtain ⟨q, hq, rfl⟩ := List.mem_map.1 hp
    obtain ⟨hle', hstop'⟩ := hbounds q hq
    obtain ⟨-, hle'', hstop''⟩ := Text.trimSpan_bounds t hle' hstop'
    exact Text.isEmpty_inBytes (by omega) (by omega)
  -- an empty last slot is dropped from both lists
  have hlast : ∀ ps : List Span, (∀ p ∈ ps, (inBytes t p).isEmpty = p.isEmpty) →
      dropEmptyLast (ps.map (inBytes t)) = (dropEmptyLast ps).map (inBytes t) := by
    intro ps hps
    rw [dropEmptyLast, dropEmptyLast, List.getLast?_map]
    cases hget : ps.getLast? with
    | none => rfl
    | some p =>
      simp only [Option.map_some]
      rw [hps p (List.mem_of_getLast? hget)]
      split
      · rw [List.map_dropLast]
      · rfl
  have hslots : ∀ p ∈ dropEmptyLast ((pieces t s).map (Text.trimSpan t)),
      (if (inBytes t p).isEmpty then none else some (inBytes t p)) =
        (if p.isEmpty then none else some p).map (inBytes t) := by
    intro p hp
    rw [hempty p ((dropEmptyLast_sublist _).subset hp)]
    split <;> rfl
  rw [slotBytes?, Text.cut?_inBytes hle hstop, slots]
  simp only [Option.bind_eq_bind, Option.bind_some]
  rw [hpieces, htrim, Option.bind_some, hlast _ hempty, List.map_map,
    List.map_map]
  exact congrArg some (List.map_congr_left hslots)

end Bracket

/-! ### Names -/

namespace Text

/-- The byte in lower case, if it is that of an ASCII letter. -/
def foldByte (x : UInt8) : UInt8 := if 0x41 ≤ x.toNat && x.toNat ≤ 0x5A then x + 0x20 else x

def sameByte (x y : UInt8) : Bool := foldByte x == foldByte y

/-- The bytes of a character in lower case are its bytes, each of them in lower case. -/
theorem map_foldByte_utf8EncodeChar (c : Char) :
    (String.utf8EncodeChar c).map foldByte = String.utf8EncodeChar c.toLower := by
  have hlower := toNat_toLower c
  rcases utf8EncodeChar_cases c with ⟨hc, heq⟩ | ⟨hc, first, rest, heq, hfirst, hrest⟩
  -- a character of one byte stays one in lower case
  · have hlt : c.toLower.toNat < 128 := by
      rw [hlower]
      split <;> omega
    rcases utf8EncodeChar_cases c.toLower with ⟨-, heq'⟩ | ⟨hlarge, -⟩
    · have hnat : (UInt8.ofNat c.toNat).toNat = c.toNat := by
        rw [UInt8.toNat_ofNat_of_lt' (by change c.toNat < 256; omega)]
      rw [heq, heq', List.map_singleton, foldByte, hnat, hlower]
      by_cases hupper : 65 ≤ c.toNat ∧ c.toNat ≤ 90
      · rw [if_pos hupper, if_pos (by simpa using hupper)]
        exact congrArg (fun x => [x]) (by simp)
      · rw [if_neg hupper, if_neg (by simpa using hupper)]
    · omega
  -- every other character has no lower case of its own
  · have hself : c.toLower = c := by
      refine Char.toNat_inj.1 ?_
      rw [hlower, if_neg (by omega)]
    have hid : ∀ x ∈ String.utf8EncodeChar c, foldByte x = x := by
      intro x hx
      rw [heq, List.mem_cons] at hx
      have hlarge : 128 ≤ x.toNat := by
        rcases hx with rfl | hx
        · omega
        · exact (hrest x hx).1
      rw [foldByte, if_neg (by simp; omega)]
    rw [hself, List.map_congr_left hid, List.map_id']

theorem map_foldByte_bytes (t : Text) : (bytes t).map foldByte = bytes (lowerAscii t) := by
  induction t with
  | nil => rfl
  | cons c t ih =>
    rw [bytes_cons, List.map_append, map_foldByte_utf8EncodeChar, ih, ← bytes_cons]
    rfl

theorem byteLength_lowerAscii (t : Text) : byteLength (lowerAscii t) = byteLength t := by
  rw [← length_bytes, ← map_foldByte_bytes, List.length_map, length_bytes]

/-- Bytes of a text begin with those of another one only where the text begins with that. -/
theorem bytes_prefix_iff {p t : Text} : bytes p <+: bytes t ↔ p <+: t := by
  constructor
  · intro h
    induction p generalizing t with
    | nil => exact List.nil_prefix
    | cons a p ih =>
      obtain ⟨rest, hrest⟩ := h
      cases t with
      | nil =>
        have hlen := congrArg List.length hrest
        have hpos := a.utf8Size_pos
        rw [bytes_cons, List.length_append, List.length_append, String.length_utf8EncodeChar] at hlen
        simp [bytes] at hlen
        omega
      | cons c t =>
        rw [bytes_cons, bytes_cons, List.append_assoc] at hrest
        -- both texts begin with the character that the bytes begin with
        have hfirst := ByteArray.utf8DecodeChar?_utf8EncodeChar_append
          (b := (bytes p ++ rest).toByteArray) (c := a)
        have hfirst' := ByteArray.utf8DecodeChar?_utf8EncodeChar_append
          (b := (bytes t).toByteArray) (c := c)
        rw [← List.toByteArray_append, hrest, List.toByteArray_append, hfirst'] at hfirst
        obtain rfl : c = a := Option.some.inj hfirst
        exact (List.prefix_cons_inj c).2 (ih ⟨rest, List.append_cancel_left hrest⟩)
  · rintro ⟨rest, rfl⟩
    rw [bytes_append]
    exact List.prefix_append _ _

/-- Compared byte by byte a text begins with a name if it does so letter by letter. -/
theorem startsBy_sameByte (name t : Text) :
    Search.startsBy sameByte (bytes name) (bytes t) = startsFolded name t := by
  -- each byte is compared alone, so it is the folded bytes that are compared
  have hprefix : ∀ p xs : List UInt8, Search.startsBy sameByte p xs = true ↔
      p.map foldByte <+: xs.map foldByte := by
    intro p xs
    induction p generalizing xs with
    | nil => simp [Search.startsBy]
    | cons x p ih =>
      cases xs with
      | nil => simp [Search.startsBy]
      | cons y xs =>
        rw [Search.startsBy, Bool.and_eq_true, ih, List.map_cons, List.map_cons, sameByte,
          beq_iff_eq, List.cons_prefix_cons]
  have hlen : (lowerAscii name).length = name.length := List.length_map _
  rw [Bool.eq_iff_iff, hprefix, map_foldByte_bytes, map_foldByte_bytes, bytes_prefix_iff,
    startsFolded_iff, List.prefix_iff_eq_take, hlen, lowerAscii, lowerAscii, lowerAscii,
    List.map_take, eq_comm]

end Text

namespace Ranged

/-- The first offset from `b` on at which a name begins in source text. -/
def findNameFrom (d : Ranged) (name : List UInt8) (b : Nat) : List UInt8 → Option Nat
  | [] => none
  | x :: xs =>
    if Search.startsBy Text.sameByte name (x :: xs) && !d.isLiteralAt b then some b
    else d.findNameFrom name (b + 1) xs

def findName? (d : Ranged) (name : Text) (start : Nat) : Option Nat :=
  d.findNameFrom (bytes name) start (d.text.bytes.drop start)

end Ranged

namespace Document

variable {d : Document} {name : Text}

/-- No name begins with a byte that goes on with a character. -/
theorem findNameFrom_append {r : Ranged} {stem : Text} {xs : List UInt8}
    (h : ∀ x ∈ xs, 128 ≤ x.toNat ∧ x.toNat < 192) (b : Nat) (ys : List UInt8) :
    r.findNameFrom (bytes ('$' :: stem)) b (xs ++ ys) =
      r.findNameFrom (bytes ('$' :: stem)) (b + xs.length) ys := by
  induction xs generalizing b with
  | nil => rfl
  | cons x xs ih =>
    have hx := h x List.mem_cons_self
    -- the byte is not that of `$`, nor is any other one folded to it
    have hno : Search.startsBy Text.sameByte (bytes ('$' :: stem)) (x :: (xs ++ ys)) = false := by
      have hfold : Text.foldByte x = x := by
        rw [Text.foldByte, if_neg (by simp; omega)]
      have hsame : Text.sameByte 0x24 x = false := by
        rw [Text.sameByte, hfold, beq_eq_false_iff_ne]
        rintro rfl
        exact absurd hx.1 (by decide)
      change (Text.sameByte 0x24 x && _) = false
      rw [hsame, Bool.false_and]
    rw [List.cons_append, Ranged.findNameFrom, hno, Bool.false_and, if_neg Bool.false_ne_true,
      ih (fun y hy => h y (List.mem_cons_of_mem x hy)), List.length_cons, Nat.add_right_comm,
      Nat.add_assoc]

/-- What stands at the first byte of a character is what the cells have there. -/
theorem startsBy_bytes_cons {before u : Text} {c : Char} (ht : d.text = before ++ c :: u) :
    (Search.startsBy Text.sameByte (bytes name) (bytes (c :: u)) &&
        !d.ranged.isLiteralAt (byteLength before)) =
      nameAtStart name (d.cells.drop before.length) := by
  have hlt : before.length < d.text.length := by
    rw [ht, List.length_append, List.length_cons]
    omega
  have hoffset : byteOffset d.text before.length = byteLength before := by
    rw [ht, Text.byteOffset_append_length]
  -- the byte at this offset belongs to the character at this position
  have hhold : Text.positionHolding d.text (byteLength before) = before.length := by
    refine Text.positionHolding_eq hlt hoffset.le ?_
    rw [← hoffset]
    exact Text.byteOffset_lt (Nat.lt_succ_self _) hlt
  have htext : (d.cells.drop before.length).map Prod.fst = c :: u := by
    rw [List.map_drop, map_fst_cells, ht, List.drop_left]
  rw [Text.startsBy_sameByte, ranged_isLiteralAt, hhold, isLiteralAt, Bool.not_not, nameAtStart,
    startsBy_cells, htext, Bool.and_comm]
  rfl

/-- A name that begins with `$` begins where a character does. -/
theorem findNameFrom_bytes (hname : name.head? = some '$') {before u : Text}
    (ht : d.text = before ++ u) :
    d.ranged.findNameFrom (bytes name) (byteLength before) (bytes u) =
      (Search.firstFrom (nameAtStart name) before.length (d.cells.drop before.length)).map
        (byteOffset d.text) := by
  obtain ⟨stem, rfl⟩ := List.head?_eq_some_iff.1 hname
  induction u generalizing before with
  | nil =>
    have hnil : d.cells.drop before.length = [] := by
      rw [List.drop_eq_nil_iff, length_cells, ht, List.append_nil]
    rw [hnil]
    rfl
  | cons c u ih =>
    have hnext := @ih (before ++ [c]) (by rw [ht]; simp)
    rw [Text.byteLength_append, Text.byteLength_cons, Text.byteLength_nil, Nat.add_zero,
      List.length_append, List.length_singleton] at hnext
    have hstands := @startsBy_bytes_cons d ('$' :: stem) _ _ _ ht
    obtain ⟨cell, hcells⟩ :
        ∃ cell, d.cells.drop before.length = cell :: d.cells.drop (before.length + 1) := by
      refine ⟨_, List.drop_eq_getElem_cons ?_⟩
      rw [length_cells, ht, List.length_append, List.length_cons]
      omega
    -- the first byte of the character is followed by bytes that begin no name
    obtain ⟨first, rest, hencode, hrest⟩ : ∃ first rest, String.utf8EncodeChar c = first :: rest ∧
        ∀ x ∈ rest, 128 ≤ x.toNat ∧ x.toNat < 192 := by
      rcases Text.utf8EncodeChar_cases c with ⟨-, heq⟩ | ⟨-, first, rest, heq, -, hrest⟩
      · exact ⟨_, [], heq, nofun⟩
      · exact ⟨first, rest, heq, hrest⟩
    have hsize : byteLength before + 1 + rest.length = byteLength before + c.utf8Size := by
      rw [← String.length_utf8EncodeChar, hencode, List.length_cons]
      omega
    rw [Text.bytes_cons c u, hencode, List.cons_append, hcells] at hstands
    rw [Text.bytes_cons c u, hencode, List.cons_append, hcells, Ranged.findNameFrom, hstands,
      Search.firstFrom]
    split
    · rw [Option.map_some, ht, Text.byteOffset_append_length]
    · rw [findNameFrom_append hrest, hsize]
      exact hnext

/-- The name is found where it is found by positions. -/
theorem ranged_findName? (hname : name.head? = some '$') (d : Document) :
    d.ranged.findName? name 0 = (d.findName? name 0).map (byteOffset d.text) := by
  have hfrom := @findNameFrom_bytes d name hname [] d.text (List.nil_append d.text).symm
  rw [findName?_eq, Search.firstAfter?_eq_ite, if_pos (Nat.zero_le _)]
  simpa [Ranged.findName?, ranged, Search.first?] using hfrom

end Document

/-! ### Call sites -/

namespace CallSite

variable {d : Document} {t name : Text} {nameEnd : Nat}

/-- The call site with its positions in byte offsets. -/
def inBytes (t : Text) : CallSite → CallSite
  | absent => absent
  | escaped position => escaped (byteOffset t position)
  | unterminated position => unterminated (byteOffset t position)
  | bare span => bare (Text.inBytes t span)
  | call span slots => call (Text.inBytes t span) (slots.map (·.map (Text.inBytes t)))

/-- The first occurrence of a name, if all that is read for it can be sliced. -/
def findByte? (d : Ranged) (name : Text) : Option CallSite :=
  match d.findName? name 0 with
  | none => some absent
  | some start => do
    let before ← cut? d.text ⟨0, start⟩
    if before.getLast? = some '$' then return escaped start
    let nameEnd := start + byteLength name
    let rest ← cut? d.text ⟨nameEnd, byteLength d.text⟩
    match (rest.findIdx? (· = '[')).map (nameEnd + byteOffset rest ·) with
    | none => return bare ⟨start, nameEnd⟩
    | some opening =>
      let between ← cut? d.text ⟨nameEnd, opening⟩
      if between.any isMarker then return bare ⟨start, nameEnd⟩
      match Bracket.closingByte? d.text opening with
      | none => return unterminated start
      | some closing =>
        let slots ← Bracket.slotBytes? d.text ⟨opening + 1, closing⟩
        return call ⟨start, closing + 1⟩ slots

/-- The next bracket opens the argument list, unless another marker comes first. -/
theorem listOpening?_eq_findIdx? (t : Text) (nameEnd : Nat) :
    listOpening? t nameEnd =
      (((t.drop nameEnd).findIdx? (· = '[')).filter
        fun n => !((t.drop nameEnd).take n).any isMarker).map (nameEnd + ·) := by
  refine Option.ext fun i => ?_
  rw [listOpening?_eq_some_iff, Option.map_eq_some_iff]
  -- the first opening bracket, with no marker in between
  constructor
  · rintro ⟨hle, hopen, hplain⟩
    obtain ⟨n, rfl⟩ := Nat.exists_eq_add_of_le hle
    have hopen' : (t.drop nameEnd)[n]? = some '[' := by rwa [List.getElem?_drop]
    obtain ⟨hlt, hget⟩ := List.getElem?_eq_some_iff.1 hopen'
    have hbefore : ∀ c ∈ (t.drop nameEnd).take n, isMarker c = false := by
      intro c hc
      obtain ⟨m, hm⟩ := List.mem_iff_getElem?.1 hc
      obtain ⟨hmn, -⟩ := List.getElem?_eq_some_iff.1 hm
      rw [List.length_take] at hmn
      rw [List.getElem?_take_of_lt (by omega), List.getElem?_drop] at hm
      exact hplain _ c (Nat.le_add_right _ _) (by omega) hm
    refine ⟨n, Option.filter_eq_some_iff.2 ⟨?_, ?_⟩, rfl⟩
    · rw [List.findIdx?_eq_some_iff_getElem]
      refine ⟨hlt, decide_eq_true hget, fun j hj => ?_⟩
      have hmem : (t.drop nameEnd)[j] ∈ (t.drop nameEnd).take n := by
        refine List.mem_of_getElem? (i := j) ?_
        rw [List.getElem?_take_of_lt hj, List.getElem?_eq_getElem]
      have hmark := hbefore _ hmem
      rw [decide_eq_true_eq]
      intro heq
      rw [heq] at hmark
      cases hmark
    · rw [Bool.not_eq_true', List.any_eq_false]
      intro c hc
      rw [hbefore c hc]
      exact Bool.false_ne_true
  -- and the other way around
  · rintro ⟨n, hn, rfl⟩
    obtain ⟨hfind, hplain⟩ := Option.filter_eq_some_iff.1 hn
    obtain ⟨hlt, hget, -⟩ := List.findIdx?_eq_some_iff_getElem.1 hfind
    rw [Bool.not_eq_true', List.any_eq_false] at hplain
    refine ⟨Nat.le_add_right _ _, ?_, fun m c hm hmn hc => ?_⟩
    · rw [← List.getElem?_drop, List.getElem?_eq_getElem hlt, of_decide_eq_true hget]
    · obtain ⟨j, rfl⟩ := Nat.exists_eq_add_of_le hm
      have hmem : c ∈ (t.drop nameEnd).take n := by
        rw [← List.getElem?_drop] at hc
        refine List.mem_of_getElem? (i := j) ?_
        rw [List.getElem?_take_of_lt (by omega), hc]
      exact Bool.eq_false_iff.2 (hplain c hmem)

/-- Whether a `$` stands right in front of a position. -/
theorem getLast?_take_iff {t : Text} {i : Nat} (hi : i ≤ t.length) :
    (t.take i).getLast? = some '$' ↔ (0 < i && t[i - 1]? == some '$') = true := by
  rw [List.getLast?_take, Bool.and_eq_true, decide_eq_true_eq, beq_iff_eq]
  split
  · next hzero => simp [hzero]
  · next hpos =>
    have hin : i - 1 < t.length := by omega
    rw [List.getElem?_eq_getElem hin]
    simp [Nat.pos_of_ne_zero hpos]

/-- What is read for a name that stands at a position can be sliced. -/
theorem findByte?_ofPosition {d : Ranged} {i : Nat} (hend : i + name.length ≤ d.text.length)
    (hstands : Text.startsFolded name (d.text.drop i) = true)
    (hfind : d.findName? name 0 = some (byteOffset d.text i)) :
    findByte? d name = some ((ofPosition d.text name i).inBytes d.text) := by
  -- the name has as many bytes as the text that is like it
  have hnameEnd : byteOffset d.text i + byteLength name = byteOffset d.text (i + name.length) := by
    rw [Text.byteOffset_add, ← Text.byteLength_lowerAscii name,
      ← Text.startsFolded_iff.1 hstands, Text.byteLength_lowerAscii]
  have hlast := getLast?_take_iff (t := d.text) (i := i) (by omega)
  have hbefore := Text.cut?_take (t := d.text) (i := i) (by omega)
  rw [findByte?, hfind, ofPosition]
  simp only [hbefore, hnameEnd, Text.cut?_drop hend, Option.bind_eq_bind, Option.bind_some]
  by_cases hescaped : (0 < i && d.text[i - 1]? == some '$') = true
  · rw [if_pos (hlast.2 hescaped), if_pos hescaped]
    rfl
  rw [if_neg (mt hlast.1 hescaped), if_neg hescaped, listOpening?_eq_findIdx?]
  cases hopen : (d.text.drop (i + name.length)).findIdx? (· = '[') with
  | none =>
    simp only [Option.map_none, Option.filter_none, inBytes, Text.inBytes]
    rfl
  | some n =>
    obtain ⟨hlt, hget, -⟩ := List.findIdx?_eq_some_iff_getElem.1 hopen
    have hbracket : d.text[i + name.length + n]? = some '[' := by
      rw [← List.getElem?_drop, List.getElem?_eq_getElem hlt, of_decide_eq_true hget]
    -- the bracket is found in what stands behind the name
    rw [List.length_drop] at hlt
    have hopening : byteOffset d.text (i + name.length) +
        byteOffset (d.text.drop (i + name.length)) n = byteOffset d.text (i + name.length + n) :=
      (Text.byteOffset_add _ _ _).symm
    -- what stands between the name and the bracket is looked at for markers
    have hbetween : cut? d.text ⟨byteOffset d.text (i + name.length),
        byteOffset d.text (i + name.length + n)⟩ = some ((d.text.drop (i + name.length)).take n) := by
      have hcut := Text.cut?_inBytes (t := d.text) (s := ⟨i + name.length, i + name.length + n⟩)
        (Nat.le_add_right _ _) (by simp only; omega)
      rwa [Text.inBytes, Text.slice, Nat.add_sub_cancel_left] at hcut
    have hclosing := Bracket.closingByte?_byteOffset (t := d.text) (i := i + name.length + n)
      (by omega)
    simp only [Option.map_some, hopening, hbetween, Option.bind_some, hclosing]
    cases hplain : ((d.text.drop (i + name.length)).take n).any isMarker with
    | true =>
      simp only [hplain, Option.filter_some, Bool.not_true, Bool.false_eq_true, if_false, if_true,
        Option.map_none, inBytes, Text.inBytes]
      rfl
    | false =>
      simp only [hplain, Option.filter_some, Bool.not_false, Bool.false_eq_true, if_false, if_true,
        Option.map_some]
      -- without a closing bracket there is no list
      cases hclose : Bracket.closing? d.text (i + name.length + n) with
      | none => rfl
      | some closing =>
        obtain ⟨-, hcloseAt⟩ := Bracket.getElem?_of_closing? hclose
        obtain ⟨hcloseLt, -⟩ := List.getElem?_eq_some_iff.1 hcloseAt
        have hslots := Bracket.slotBytes?_inBytes (t := d.text)
          (s := ⟨i + name.length + n + 1, closing⟩) (Bracket.lt_of_closing? hclose hbracket)
          hcloseLt.le
        rw [Text.inBytes, Text.byteOffset_succ hbracket (by decide)] at hslots
        have hstop := Text.byteOffset_succ hcloseAt (by decide)
        simp only [Option.map_some, hslots, Option.bind_some, inBytes, Text.inBytes, hstop]
        rfl

/-- Whatever the text is, the call can be read out of it, and it is the one found by positions. -/
theorem findByte?_eq (hname : name.head? = some '$') (d : Document) :
    findByte? d.ranged name = some ((find d name).inBytes d.text) := by
  have hranged := Document.ranged_findName? hname d
  rw [find]
  cases hfind : d.findName? name 0 with
  | none =>
    rw [hfind] at hranged
    rw [findByte?, hranged]
    rfl
  | some i =>
    rw [hfind] at hranged
    obtain ⟨-, -, hat, -⟩ := Document.findName?_eq_some_iff.1 hfind
    have hne : name ≠ [] := by
      rintro rfl
      cases hname
    exact findByte?_ofPosition (hat.add_length_le hne) hat.startsBy hranged

end CallSite

end Stencil
