import Mathlib.Data.Nat.Find
import Stencil.Keyword
import Stencil.Proofs.Span
import Stencil.Text.Escape
/-!
# Where keywords stand

`k.StandsAt t i` says that a keyword stands at a position of a text. The searches for keywords are
stated by it: `find?` gives the first such position from a start on, `findLast?` the last one, and
`findAll` lists them all in order. A keyword begins with its marker and ends inside the text.
-/

namespace Stencil

/-- What begins with a pattern has, place by place, an element like that of the pattern. -/
theorem Search.getElem?_of_startsBy {α β : Type} {alike : α → β → Bool} {p : List α} {t : List β}
    (h : Search.startsBy alike p t = true) {n : Nat} {a : α} (ha : p[n]? = some a) :
    ∃ b, t[n]? = some b ∧ alike a b = true := by
  induction p generalizing t n with
  | nil => cases ha
  | cons x p ih =>
    cases t with
    | nil => cases h
    | cons y t =>
      simp only [Search.startsBy, Bool.and_eq_true] at h
      cases n with
      | zero =>
        obtain rfl : x = a := by simpa using ha
        exact ⟨y, rfl, h.1⟩
      | succ n => exact ih h.2 ha

/-- What does not reach into the rest begins without it. -/
theorem Search.startsBy_append_of_le {α β : Type} {alike : α → β → Bool} {p : List α}
    {t rest : List β} (h : p.length ≤ t.length) :
    Search.startsBy alike p (t ++ rest) = Search.startsBy alike p t := by
  induction p generalizing t with
  | nil => rw [Search.startsBy, Search.startsBy]
  | cons a p ih =>
    cases t with
    | nil => cases h
    | cons b t =>
      rw [List.cons_append, Search.startsBy, Search.startsBy, ih (Nat.le_of_succ_le_succ h)]

theorem isMarker_iff {c : Char} : isMarker c = true ↔ c = '$' ∨ c = '[' ∨ c = ']' ∨ c = ';' := by
  simp [isMarker, or_assoc]

/-- Lowering, by the codes of characters. -/
theorem toNat_toLower (c : Char) :
    c.toLower.toNat = if 65 ≤ c.toNat ∧ c.toNat ≤ 90 then c.toNat + 32 else c.toNat := by
  unfold Char.toLower
  split
  · next hupper =>
    have hupper : 65 ≤ c.toNat ∧ c.toNat ≤ 90 := hupper
    have hadd : (c.val + 32).toNat = c.toNat + 32 := by
      rw [UInt32.toNat_add]
      exact Nat.mod_eq_of_lt (show c.toNat + 32 < 2 ^ 32 by omega)
    rw [if_pos hupper]
    exact hadd
  · next hupper =>
    have hupper : ¬ (65 ≤ c.toNat ∧ c.toNat ≤ 90) := hupper
    rw [if_neg hupper]

/-- What is no lower-case letter is the lower case of itself alone. -/
theorem eq_of_toLower_eq {c m : Char} (hm : ¬ (97 ≤ m.toNat ∧ m.toNat ≤ 122))
    (h : c.toLower = m) : c = m := by
  have hnat := toNat_toLower c
  rw [h] at hnat
  split at hnat
  · omega
  · exact Char.toNat_inj.1 hnat.symm

/-- A lowered character is lowered already. -/
theorem toLower_toLower (c : Char) : c.toLower.toLower = c.toLower := by
  have hnat := toNat_toLower c
  have hagain := toNat_toLower c.toLower
  refine Char.toNat_inj.1 ?_
  split at hnat <;> split at hagain <;> omega

/-- A marker is the lower case of itself alone. -/
theorem toLower_eq_iff {c m : Char} (hm : isMarker m = true) : c.toLower = m ↔ c = m := by
  -- no marker has the code of a letter in either case
  have hcode : m.val.toNat = 36 ∨ m.val.toNat = 91 ∨ m.val.toNat = 93 ∨ m.val.toNat = 59 := by
    rcases isMarker_iff.1 hm with rfl | rfl | rfl | rfl <;> decide
  unfold Char.toLower
  split
  · next h =>
    have hlo : 65 ≤ c.val.toNat := UInt32.le_iff_toNat_le.1 h.1
    have hhi : c.val.toNat ≤ 90 := UInt32.le_iff_toNat_le.1 h.2
    constructor
    · intro heq
      -- a letter does not become a marker
      have hval : (c.val + 32).toNat = m.val.toNat := congrArg (·.val.toNat) heq
      rw [UInt32.toNat_add] at hval
      have : (32 : UInt32).toNat = 32 := rfl
      omega
    · rintro rfl
      omega
  · rfl

namespace Keyword

/-- The keyword stands at a position of a text. -/
def StandsAt (k : Keyword) (t : Text) (i : Nat) : Prop := k.startsIn (t.drop i) = true

instance (k : Keyword) (t : Text) (i : Nat) : Decidable (k.StandsAt t i) :=
  inferInstanceAs (Decidable (_ = true))

/-- The length of a keyword, its marker included. -/
def size (k : Keyword) : Nat := k.text.length

@[simp] theorem size_ifOpen : ifOpen.size = 4 := rfl
@[simp] theorem size_elseIfOpen : elseIfOpen.size = 8 := rfl
@[simp] theorem size_otherwise : otherwise.size = 5 := rfl
@[simp] theorem size_endIf : endIf.size = 6 := rfl
@[simp] theorem size_endElseIf : endElseIf.size = 10 := rfl

@[simp] theorem spanAt_start (k : Keyword) (i : Nat) : (k.spanAt i).start = i := rfl
@[simp] theorem spanAt_stop (k : Keyword) (i : Nat) : (k.spanAt i).stop = i + k.size := rfl

/-- A marker stands for itself alone. -/
theorem foldLetter_eq_iff {c m : Char} (hm : isMarker m = true) : foldLetter c = m ↔ c = m := by
  unfold foldLetter
  split
  · next hc =>
    subst hc
    constructor
    · rintro rfl
      cases hm
    · rintro rfl
      cases hm
  · exact toLower_eq_iff hm

/-- A keyword is compared from its marker on, letter by letter. -/
theorem startsIn_eq (k : Keyword) (t : Text) :
    k.startsIn t = Search.startsBy (fun a c => a == foldLetter c) k.text t := by
  cases t with
  | nil => rfl
  | cons c cs =>
    by_cases hc : c = '$'
    · subst hc
      rfl
    -- a text without a `$` in front begins no keyword, whichever way it is compared
    · have hfold : ('$' == foldLetter c) = false := by
        rw [beq_eq_false_iff_ne, ne_comm, Ne, foldLetter_eq_iff rfl]
        exact hc
      have hno : k.startsIn (c :: cs) = false :=
        Bool.eq_false_iff.2 fun h => hc (eq_dollar_of_startsIn h)
      rw [hno, text, Search.startsBy, hfold, Bool.false_and]

/-! ### What stands at a position -/

variable {k : Keyword} {t : Text} {i : Nat}

/-- A keyword stands within the text. -/
theorem StandsAt.add_size_le (h : k.StandsAt t i) : i + k.size ≤ t.length := by
  rw [StandsAt, startsIn_eq] at h
  have hlen := Search.startsBy_length_le h
  have hpos : 0 < k.text.length := by simp [text]
  rw [List.length_drop] at hlen
  rw [size]
  omega

/-- A keyword begins with `$`. -/
theorem StandsAt.getElem?_start (h : k.StandsAt t i) : t[i]? = some '$' := by
  rw [StandsAt] at h
  cases hd : t.drop i with
  | nil =>
    rw [hd] at h
    cases h
  | cons c cs =>
    rw [hd] at h
    have hget : (t.drop i)[0]? = some '$' := by rw [hd, eq_dollar_of_startsIn h]; rfl
    rwa [List.getElem?_drop] at hget

/-- A keyword that ends with a bracket has it in the text. -/
theorem StandsAt.getElem?_bracket (h : k.StandsAt t i) (hk : k.text[k.size - 1]? = some '[') :
    t[i + (k.size - 1)]? = some '[' := by
  rw [StandsAt, startsIn_eq] at h
  obtain ⟨c, hget, hc⟩ := Search.getElem?_of_startsBy h hk
  rw [List.getElem?_drop] at hget
  have hbracket : foldLetter c = '[' := (beq_iff_eq.1 hc).symm
  rw [foldLetter_eq_iff rfl] at hbracket
  rw [hget, hbracket]

/-! ### The searches -/

/-- The first keyword from a start on is the one with no other between. -/
theorem find?_eq_some_iff {start : Nat} {s : Span} :
    k.find? t start = some s ↔
      ∃ i, s = k.spanAt i ∧ start ≤ i ∧ k.StandsAt t i ∧
        ∀ m, start ≤ m → m < i → ¬ k.StandsAt t m := by
  simp only [find?, Option.map_eq_some_iff, Search.firstAfter?_eq_some_iff]
  constructor
  · rintro ⟨i, ⟨hle, -, hp, hlt⟩, rfl⟩
    refine ⟨i, rfl, hle, hp, fun m hm hmi => ?_⟩
    simpa [StandsAt] using hlt m hm hmi
  · rintro ⟨i, rfl, hle, hp, hlt⟩
    have hin := hp.add_size_le
    refine ⟨i, ⟨hle, by omega, hp, fun m hm hmi => ?_⟩, rfl⟩
    simpa [StandsAt] using hlt m hm hmi

/-- A keyword is present where it stands somewhere. -/
theorem isPresent_iff : k.isPresent t = true ↔ ∃ i, k.StandsAt t i := by
  rw [isPresent, Option.isSome_iff_exists]
  constructor
  · rintro ⟨i, hi⟩
    exact ⟨i, (Search.first?_eq_some_iff.1 hi).2.1⟩
  · rintro ⟨i, hi⟩
    -- the least position at which it stands is the one that the search gives
    classical
    have hex : ∃ n, k.StandsAt t n := ⟨i, hi⟩
    refine ⟨Nat.find hex, Search.first?_eq_some_iff.2 ⟨?_, Nat.find_spec hex, fun m hm => ?_⟩⟩
    · have := (Nat.find_spec hex).add_size_le
      omega
    · simpa [StandsAt] using Nat.find_min hex hm

/-- All places are found, and only those, by induction on the text. -/
theorem mem_findAllFrom {s : Span} {n : Nat} :
    s ∈ k.findAllFrom n t ↔ ∃ i, k.StandsAt t i ∧ s = k.spanAt (n + i) := by
  induction t generalizing n with
  | nil =>
    have hno : ∀ i, ¬ k.StandsAt [] i := by
      intro i h
      rw [StandsAt, List.drop_nil] at h
      cases h
    simp [findAllFrom, hno]
  | cons c cs ih =>
    -- a position of the whole is the first one, or one of the rest moved by one
    have hzero : k.StandsAt (c :: cs) 0 ↔ k.startsIn (c :: cs) = true := Iff.rfl
    have hsucc : ∀ i, k.StandsAt (c :: cs) (i + 1) ↔ k.StandsAt cs i := fun i => Iff.rfl
    have hlater : s ∈ k.findAllFrom (n + 1) cs ↔
        ∃ i, k.StandsAt (c :: cs) (i + 1) ∧ s = k.spanAt (n + (i + 1)) := by
      rw [ih]
      simp only [hsucc, Nat.add_assoc, Nat.add_comm 1]
    rw [findAllFrom]
    split
    · next h =>
      rw [List.mem_cons, hlater]
      constructor
      · rintro (rfl | ⟨i, hi, rfl⟩)
        · exact ⟨0, h, rfl⟩
        · exact ⟨i + 1, hi, rfl⟩
      · rintro ⟨i, hi, rfl⟩
        cases i with
        | zero => exact .inl rfl
        | succ i => exact .inr ⟨i, hi, rfl⟩
    · next h =>
      rw [hlater]
      constructor
      · rintro ⟨i, hi, rfl⟩
        exact ⟨i + 1, hi, rfl⟩
      · rintro ⟨i, hi, rfl⟩
        cases i with
        | zero => exact absurd (hzero.1 hi) h
        | succ i => exact ⟨i, hi, rfl⟩

/-- All places of a text are found. -/
theorem mem_findAll {s : Span} : s ∈ k.findAll t ↔ ∃ i, k.StandsAt t i ∧ s = k.spanAt i := by
  simp only [findAll, mem_findAllFrom, Nat.zero_add]

/-- Nothing is found where the keyword stands nowhere. -/
theorem findAllFrom_eq_nil_iff {n : Nat} : k.findAllFrom n t = [] ↔ ∀ i, ¬ k.StandsAt t i := by
  simp only [List.eq_nil_iff_forall_not_mem, mem_findAllFrom, not_exists, not_and]
  constructor
  · exact fun h i hi => h _ i hi rfl
  · exact fun h s i hi => absurd hi (h i)

/-- The places are found in their order. -/
theorem findAllFrom_pairwise (n : Nat) : (k.findAllFrom n t).Pairwise (·.start < ·.start) := by
  induction t generalizing n with
  | nil => exact .nil
  | cons c cs ih =>
    rw [findAllFrom]
    split
    · refine .cons (fun s hs => ?_) (ih (n + 1))
      obtain ⟨i, -, rfl⟩ := mem_findAllFrom.1 hs
      simp only [spanAt_start]
      omega
    · exact ih (n + 1)

theorem findAll_pairwise : (k.findAll t).Pairwise (·.start < ·.start) := findAllFrom_pairwise 0

/-- The last keyword is the one with no other behind it. -/
theorem findLast?_eq_some_iff {s : Span} :
    k.findLast? t = some s ↔
      ∃ i, s = k.spanAt i ∧ k.StandsAt t i ∧ ∀ m, i < m → ¬ k.StandsAt t m := by
  rw [findLast?, List.getLast?_eq_some_iff]
  constructor
  · rintro ⟨earlier, hall⟩
    obtain ⟨i, hi, rfl⟩ : ∃ i, k.StandsAt t i ∧ s = k.spanAt i := by
      rw [← mem_findAll, hall]
      exact List.mem_append_right earlier List.mem_cons_self
    refine ⟨i, rfl, hi, fun m hm h => ?_⟩
    have hmem : k.spanAt m ∈ k.findAll t := mem_findAll.2 ⟨m, h, rfl⟩
    have hsorted := findAll_pairwise (k := k) (t := t)
    rw [hall] at hmem hsorted
    -- one that stands later would be listed before the last, but the list is sorted
    rcases List.mem_append.1 hmem with hmem | hmem
    · have := (List.pairwise_append.1 hsorted).2.2 _ hmem _ List.mem_cons_self
      simp only [spanAt_start] at this
      omega
    · have heq : k.spanAt m = k.spanAt i := by simpa using hmem
      have := congrArg Span.start heq
      simp only [spanAt_start] at this
      omega
  · rintro ⟨i, rfl, hi, hlast⟩
    obtain ⟨earlier, later, hall⟩ := List.append_of_mem (mem_findAll.2 ⟨i, hi, rfl⟩)
    -- nothing is listed behind it, for that would stand later
    have hnil : later = [] := by
      refine List.eq_nil_iff_forall_not_mem.2 fun s hs => ?_
      have hsorted := findAll_pairwise (k := k) (t := t)
      rw [hall] at hsorted
      have hlt := (List.pairwise_cons.1 (List.pairwise_append.1 hsorted).2.1).1 s hs
      obtain ⟨m, hm, rfl⟩ : ∃ m, k.StandsAt t m ∧ s = k.spanAt m := by
        rw [← mem_findAll, hall]
        exact List.mem_append_right earlier (List.mem_cons_of_mem _ hs)
      exact hlast m hlt hm
    exact ⟨earlier, by rw [hall, hnil]⟩

/-! ### Texts put together

A keyword that begins in one text does not reach over a `$` or a `]` at the start of the next one,
so keywords of the two texts together are those of either. -/

/-- A keyword stands where it did, whatever comes behind the text. -/
theorem StandsAt.append (h : k.StandsAt t i) (rest : Text) : k.StandsAt (t ++ rest) i := by
  have hsize : i ≤ t.length := by
    have := h.add_size_le
    omega
  rw [StandsAt, startsIn_eq] at h ⊢
  rw [List.drop_append_of_le_length hsize]
  exact Search.startsBy_append rest h

/-- In front of a position stand the keywords that end there or before. -/
theorem standsAt_take {n : Nat} : k.StandsAt (t.take n) i ↔ k.StandsAt t i ∧ i + k.size ≤ n := by
  constructor
  · intro h
    have hwhole := h.append (t.drop n)
    have hsize := h.add_size_le
    rw [List.take_append_drop] at hwhole
    rw [List.length_take] at hsize
    exact ⟨hwhole, hsize.trans (Nat.min_le_left _ _)⟩
  · rintro ⟨h, hn⟩
    have hsize := h.add_size_le
    have hi : i ≤ (t.take n).length := by
      rw [List.length_take]
      omega
    have hlen : k.text.length ≤ ((t.take n).drop i).length := by
      rw [List.length_drop, List.length_take, ← size]
      omega
    rw [StandsAt, startsIn_eq] at h ⊢
    rwa [← List.take_append_drop n t, List.drop_append_of_le_length hi,
      Search.startsBy_append_of_le hlen] at h

theorem standsAt_append_right {lead : Text} :
    k.StandsAt (lead ++ t) (lead.length + i) ↔ k.StandsAt t i := by
  rw [StandsAt, StandsAt, List.drop_length_add_append]

theorem standsAt_drop {n : Nat} : k.StandsAt (t.drop n) i ↔ k.StandsAt t (n + i) := by
  rw [StandsAt, StandsAt, List.drop_drop]

/-- What stands in a keyword behind its marker is one of its letters. -/
theorem StandsAt.mem_letters (h : k.StandsAt t i) {n : Nat} {c : Char} (hn : n + 1 < k.size)
    (hc : t[i + (n + 1)]? = some c) : foldLetter c ∈ k.letters := by
  have hm : n < k.letters.length := Nat.lt_of_succ_lt_succ hn
  rw [StandsAt, startsIn_eq] at h
  obtain ⟨x, hx, hlike⟩ := Search.getElem?_of_startsBy (n := n + 1) h
    (by rw [text, List.getElem?_cons_succ, List.getElem?_eq_getElem hm])
  rw [List.getElem?_drop, hc] at hx
  obtain rfl : c = x := Option.some.inj hx
  rw [← beq_iff_eq.1 hlike]
  exact List.getElem_mem hm

/-- Behind its marker a keyword has neither of the two. -/
theorem StandsAt.ne_of_inner (h : k.StandsAt t i) {n : Nat} {c : Char} (hpos : 0 < n)
    (hn : n < k.size) (hc : t[i + n]? = some c) : c ≠ '$' ∧ c ≠ ']' := by
  have hletters : ∀ a ∈ k.letters, a ≠ '$' ∧ a ≠ ']' := by
    cases k <;> simp [letters]
  obtain ⟨m, rfl⟩ : ∃ m, n = m + 1 := ⟨n - 1, by omega⟩
  have hletter := hletters _ (h.mem_letters hn hc)
  -- both markers are like themselves alone
  constructor
  · rintro rfl
    exact hletter.1 rfl
  · rintro rfl
    exact hletter.2 rfl

/-- A `$` that stands behind the beginning of a keyword stands behind the whole. -/
theorem StandsAt.add_size_le_of_dollar (h : k.StandsAt t i) {j : Nat} (hj : t[j]? = some '$')
    (hlt : i < j) : i + k.size ≤ j := by
  obtain ⟨n, rfl⟩ := Nat.exists_eq_add_of_lt hlt
  by_contra hin
  exact (h.ne_of_inner (Nat.succ_pos n) (by omega) hj).1 rfl

/-- A keyword in front of the text does not reach into it. -/
def Breaks (t : Text) : Prop := ∀ c ∈ t.head?, c = '$' ∨ c = ']'

/-- No keyword reaches over a closing bracket. -/
theorem breaks_closing (t : Text) : Breaks (']' :: t) := by
  intro c hc
  obtain rfl : ']' = c := by simpa using hc
  exact .inr rfl

/-- No keyword reaches into another one. -/
theorem breaks_text_append (k : Keyword) (t : Text) : Breaks (k.text ++ t) := by
  intro c hc
  obtain rfl : '$' = c := by simpa [text] using hc
  exact .inl rfl

/-- In front of a break, a keyword that begins in a text stands in it. -/
theorem StandsAt.of_append {rest : Text} (hbreak : Breaks rest) (h : k.StandsAt (t ++ rest) i)
    (hi : i < t.length) : k.StandsAt t i := by
  have hin : i + k.size ≤ t.length := by
    -- otherwise the first character of the rest is one of the keyword
    by_contra hover
    have hsize := h.add_size_le
    rw [List.length_append] at hsize
    cases rest with
    | nil => simp at hsize; omega
    | cons c rest =>
      have hget : (t ++ c :: rest)[i + (t.length - i)]? = some c := by
        rw [Nat.add_sub_cancel' hi.le, List.getElem?_append_right le_rfl, Nat.sub_self]
        rfl
      obtain ⟨hdollar, hclosing⟩ := h.ne_of_inner (by omega) (by omega) hget
      rcases hbreak c rfl with rfl | rfl
      · exact hdollar rfl
      · exact hclosing rfl
  rw [StandsAt, startsIn_eq] at h ⊢
  rw [List.drop_append_of_le_length hi.le] at h
  have hlen : k.text.length ≤ (t.drop i).length := by
    rw [List.length_drop, ← size]
    omega
  rwa [Search.startsBy_append_of_le hlen] at h

/-- In front of a break, the places in both parts are all there are. -/
theorem findAllFrom_append {rest : Text} (hbreak : Breaks rest) (n : Nat) (t : Text) :
    k.findAllFrom n (t ++ rest) = k.findAllFrom n t ++ k.findAllFrom (n + t.length) rest := by
  induction t generalizing n with
  | nil => rfl
  | cons c t ih =>
    have hhead : k.startsIn (c :: (t ++ rest)) = k.startsIn (c :: t) := by
      rw [Bool.eq_iff_iff]
      constructor
      · exact fun h => StandsAt.of_append (k := k) (t := c :: t) (i := 0) hbreak h (by simp)
      · exact fun h => StandsAt.append (k := k) (t := c :: t) (i := 0) h rest
    have hlen : n + (c :: t).length = n + 1 + t.length := by
      rw [List.length_cons]
      omega
    rw [List.cons_append, findAllFrom, findAllFrom, hhead, ih, hlen]
    split <;> rfl

/-- No keyword begins without a `$`. -/
theorem findAllFrom_of_not_mem (h : '$' ∉ t) (n : Nat) (rest : Text) :
    k.findAllFrom n (t ++ rest) = k.findAllFrom (n + t.length) rest := by
  induction t generalizing n with
  | nil => rfl
  | cons c t ih =>
    obtain ⟨hc, ht⟩ := not_or.1 (mt List.mem_cons.2 h)
    have hno : k.startsIn (c :: (t ++ rest)) = false :=
      Bool.eq_false_iff.2 fun hstarts => hc (eq_dollar_of_startsIn hstarts).symm
    have hlen : n + (c :: t).length = n + 1 + t.length := by
      rw [List.length_cons]
      omega
    rw [List.cons_append, findAllFrom, hno, if_neg Bool.false_ne_true, ih ht, hlen]

/-- The occurrences at or behind a position are those of the rest from there on. -/
theorem filter_findAllFrom {n m : Nat} (h : n ≤ m) (t : Text) :
    (k.findAllFrom n t).filter (m ≤ ·.start) = k.findAllFrom m (t.drop (m - n)) := by
  induction t generalizing n with
  | nil => simp [findAllFrom]
  | cons c t ih =>
    rcases Nat.eq_or_lt_of_le h with rfl | hlt
    -- from this position on nothing is left out
    · rw [Nat.sub_self, List.drop_zero, List.filter_eq_self]
      intro s hs
      obtain ⟨i, -, rfl⟩ := mem_findAllFrom.1 hs
      exact decide_eq_true (Nat.le_add_right _ _)
    · have hrest : (c :: t).drop (m - n) = t.drop (m - (n + 1)) := by
        have hm : m - n = m - (n + 1) + 1 := by omega
        rw [hm, List.drop_succ_cons]
      rw [findAllFrom, hrest, ← ih (by omega)]
      split
      -- what stands at the first character lies before the position
      · have hnot : decide (m ≤ n) = false := decide_eq_false (Nat.not_le_of_lt hlt)
        rw [List.filter_cons, spanAt_start, hnot, if_neg Bool.false_ne_true]
      · rfl

/-- The search gives the first of the occurrences. -/
theorem find?_eq_head? (start : Nat) :
    k.find? t start = (k.findAllFrom start (t.drop start)).head? := by
  have hfirst : ∀ (t : Text) n,
      (Search.firstFrom k.startsIn n t).map k.spanAt = (k.findAllFrom n t).head? := by
    intro t
    induction t with
    | nil => intro n; rfl
    | cons c t ih =>
      intro n
      rw [Search.firstFrom, findAllFrom]
      split
      · rfl
      · exact ih (n + 1)
  rw [← hfirst, find?, Search.firstAfter?_eq_ite, Search.firstFrom_eq_map]
  split
  · rfl
  -- nothing is left to search behind the end of the text
  · next hout =>
    rw [List.drop_of_length_le (by omega)]
    rfl

end Keyword

end Stencil
