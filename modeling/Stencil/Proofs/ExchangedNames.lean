import Stencil.Proofs.Exchange
import Stencil.Proofs.Worklist
/-!
# Names around an exchanged text

Where an exchange is `Steady`, the changed text has the worklist of the text, as long as both plain
texts break the line or neither does (`ofText_changed`). A name is found first where its first
occurrence has moved to (`findName?_changed`), and so is its call: bare where it was bare, with an
argument list where it had one (`movedSite_find`). The slots of the list are those that have moved,
unless what is exchanged is in the list.
-/

namespace Stencil

namespace WordAt

variable {names : List Text} {t : Text} {i j : Nat}

/-- A word moves with the text that it stands in. -/
theorem cons (h : WordAt names t i j) (c : Char) : WordAt names (c :: t) (i + 1) (j + 1) := by
  cases h with
  | @keyword k stands =>
    rw [Nat.add_right_comm]
    exact .keyword (k := k) stands
  | elseIf stands goesOn =>
    rw [Nat.add_right_comm]
    refine .elseIf stands ?_
    rwa [Nat.add_right_comm, List.drop_succ_cons]
  | name mem stands =>
    rw [Nat.add_right_comm]
    exact .name mem stands
  | blank mem stands blanks =>
    refine .blank mem stands ?_
    rwa [Text.slice, List.drop_succ_cons, Nat.add_sub_add_right]

end WordAt

/-- What begins behind the first character of a text begins in the text. -/
theorem Straddles.cons {names : List Text} {t behind : Text} (h : Straddles names t behind)
    (c : Char) : Straddles names (c :: t) behind := by
  obtain ⟨i, j, hi, hj, hword⟩ := h
  exact ⟨i + 1, j + 1, Nat.succ_lt_succ hi, Nat.succ_lt_succ hj, hword.cons c⟩

namespace Worklist

/-! ### Rows of a worklist -/

/-- The entries of each line of a text. -/
def rows (names : List Text) (t : Text) : List (List Text) :=
  (Text.split ['\n'] t).map (ofLine names)

variable {names : List Text} {t : Text} {c : Char}

/-- The worklist is made of the rows. -/
theorem flatten_rows (names : List Text) (t : Text) : (rows names t).flatten = ofText names t := rfl

/-- Even an empty text has one row. -/
theorem exists_rows_eq_cons (names : List Text) (t : Text) :
    ∃ row more, rows names t = row :: more := by
  obtain ⟨lines, hlines⟩ := Text.exists_split_eq_cons '\n' t
  exact ⟨_, _, by rw [rows, hlines, List.map_cons]⟩

/-- A line break begins a row of its own. -/
theorem rows_break (names : List Text) (t : Text) : rows names ('\n' :: t) = [] :: rows names t := by
  rw [rows, Text.split_cons, if_pos rfl]
  rfl

/-- What stands in front of the next `$` and of the end of the line. -/
def segment (t : Text) : Text := t.takeWhile fun c => c ≠ '$' && c ≠ '\n'

/-- The entry of a `$` comes behind those of the rest of its line. -/
theorem rows_dollar (names : List Text) (t : Text) :
    rows names ('$' :: t) =
      (rows names t).modifyHead (· ++ (nameBehind? names (segment t)).toList) := by
  obtain ⟨lines, hlines⟩ := Text.exists_split_eq_cons '\n' t
  obtain ⟨pieces, hpieces⟩ := Text.exists_split_eq_cons '$' (t.takeWhile (· ≠ '\n'))
  have hsegment : (t.takeWhile (· ≠ '\n')).takeWhile (· ≠ '$') = segment t := by
    rw [List.takeWhile_takeWhile, segment]
    -- a segment ends with the line or at the next `$`
    congr 1
    funext c
    simp
  rw [hsegment] at hpieces
  have hlast : [segment t].filterMap (nameBehind? names) =
      (nameBehind? names (segment t)).toList := by
    cases h : nameBehind? names (segment t) with
    | none => exact List.filterMap_cons_none h
    | some name => exact List.filterMap_cons_some h
  rw [rows, rows, Text.split_cons, if_neg (by decide), hlines, List.modifyHead_cons,
    List.map_cons, List.map_cons, List.modifyHead_cons, ofLine, ofLine, Text.split_cons, if_pos rfl,
    hpieces, List.drop_one, List.drop_one, List.tail_cons, List.tail_cons, List.reverse_cons,
    List.filterMap_append, hlast]

/-- Any other character is of no account. -/
theorem rows_cons (hline : c ≠ '\n') (hdollar : c ≠ '$') (names : List Text) (t : Text) :
    rows names (c :: t) = rows names t := by
  obtain ⟨lines, hlines⟩ := Text.exists_split_eq_cons '\n' t
  rw [rows, rows, Text.split_cons, if_neg (Ne.symm hline), hlines, List.modifyHead_cons,
    List.map_cons, List.map_cons, ofLine, ofLine, Text.split_cons, if_neg (Ne.symm hdollar)]
  cases Text.split ['$'] (t.takeWhile (· ≠ '\n')) <;> rfl

/-- A text without a `$` brings no entries to the line behind it. -/
theorem rows_append {t : Text} (h : '$' ∉ t) (hline : '\n' ∉ t) (rest : Text) :
    rows names (t ++ rest) = rows names rest := by
  induction t with
  | nil => rfl
  | cons c t ih =>
    obtain ⟨hc, ht⟩ := not_or.1 (mt List.mem_cons.2 h)
    obtain ⟨hc', ht'⟩ := not_or.1 (mt List.mem_cons.2 hline)
    rw [List.cons_append, rows_cons (Ne.symm hc') (Ne.symm hc), ih ht ht']

/-- With a line break it brings no entries to any line. -/
theorem rows_append_of_break {t : Text} (h : '$' ∉ t) (hline : '\n' ∈ t) (rest : Text) :
    (rows names (t ++ rest)).head? = some [] ∧
      (rows names (t ++ rest)).tail.flatten = (rows names rest).flatten := by
  induction t with
  | nil => cases hline
  | cons c t ih =>
    obtain ⟨hc, ht⟩ := not_or.1 (mt List.mem_cons.2 h)
    by_cases hbreak : c = '\n'
    · subst hbreak
      rw [List.cons_append, rows_break]
      refine ⟨rfl, ?_⟩
      rw [List.tail_cons]
      by_cases hmore : '\n' ∈ t
      · obtain ⟨hhead, htail⟩ := ih ht hmore
        obtain ⟨row, more, hrows⟩ := exists_rows_eq_cons names (t ++ rest)
        rw [hrows] at hhead htail ⊢
        cases hhead
        exact htail
      -- the last line break begins the row of what follows
      · rw [rows_append ht hmore]
    · have hmore := (List.mem_cons.1 hline).resolve_left (Ne.symm hbreak)
      rw [List.cons_append, rows_cons hbreak (Ne.symm hc)]
      exact ih ht hmore

/-- Two texts have the same entries in the line that they begin in, and the same ones behind it. -/
def SameRows (names : List Text) (t t' : Text) : Prop :=
  (rows names t).head? = (rows names t').head? ∧
    (rows names t).tail.flatten = (rows names t').tail.flatten

/-- Texts with the same rows have the same worklist. -/
theorem SameRows.ofText_eq {t t' : Text} (h : SameRows names t t') :
    ofText names t = ofText names t' := by
  obtain ⟨row, more, hrows⟩ := exists_rows_eq_cons names t
  obtain ⟨row', more', hrows'⟩ := exists_rows_eq_cons names t'
  obtain ⟨hhead, htail⟩ := h
  rw [hrows, hrows'] at hhead htail
  obtain rfl : row = row' := Option.some.inj hhead
  rw [← flatten_rows, ← flatten_rows, hrows, hrows', List.flatten_cons, List.flatten_cons]
  exact congrArg _ htail

/-! ### Entries -/

/-- Where no word reaches out of a text, the entry of a `$` does not depend on what is behind it. -/
theorem nameBehind?_append (hnames : ∀ name ∈ names, name ≠ []) {t rest : Text}
    (h : ¬ Straddles names ('$' :: t) rest) :
    nameBehind? names (segment (t ++ rest)) = nameBehind? names (segment t) := by
  rw [segment, segment, List.takeWhile_append]
  split
  · next hlen =>
    have hall := (List.takeWhile_prefix fun c => decide (c ≠ '$') && decide (c ≠ '\n')).eq_of_length
      hlen
    obtain ⟨more, hmore⟩ := List.takeWhile_prefix (l := rest)
      fun c => decide (c ≠ '$') && decide (c ≠ '\n')
    generalize rest.takeWhile (fun c => decide (c ≠ '$') && decide (c ≠ '\n')) = line at hmore ⊢
    subst hmore
    have hlongest : longestName? names ('$' :: (t ++ line)) = longestName? names ('$' :: t) := by
      refine longestName?_congr fun name hname => Bool.eq_iff_iff.2 ⟨fun hstands => ?_, fun hstands =>
        Search.startsBy_append (t := '$' :: t) line hstands⟩
      have hall : Text.startsFolded name ('$' :: t ++ (line ++ more)) = true := by
        rw [← List.append_assoc]
        exact Search.startsBy_append more hstands
      have hin : name.length ≤ ('$' :: t).length := Nat.le_of_not_lt fun hlt =>
        h ⟨0, 0 + name.length, Nat.succ_pos _, by rwa [Nat.zero_add], .name hname hall⟩
      rwa [Text.startsFolded, Search.startsBy_append_of_le hin] at hall
    rw [hall, nameBehind?_of_ne_nil hnames, nameBehind?_of_ne_nil hnames, hlongest]
    cases hfound : longestName? names ('$' :: t) with
    | none => rw [ite_self, ite_self]
    | some name =>
      -- a name with but blanks behind it would go on with what is behind the text
      have hblank : Text.isBlankText t = false := by
        by_contra hblank
        rw [Bool.not_eq_false] at hblank
        have hstands := Search.startsBy_append (line ++ more) (startsFolded_of_longestName? hfound)
        refine h ⟨0, t.length + 1 + 1, Nat.succ_pos _, Nat.lt_succ_self _,
          .blank (longestName?_mem hfound) hstands ?_⟩
        rw [Text.slice, List.cons_append, Nat.add_sub_cancel, List.drop_succ_cons, List.drop_zero,
          List.take_left]
        exact hblank
      have hblank' : Text.isBlankText (t ++ line) = false := by
        rw [Text.isBlankText, List.all_append, ← Text.isBlankText, hblank, Bool.false_and]
      rw [hblank, hblank']
  · rfl

/-- What stands before makes no difference, as long as no word reaches out of it. -/
theorem sameRows_append (hnames : ∀ name ∈ names, name ≠ []) {t rest rest' : Text}
    (hrest : SameRows names rest rest') (h : ¬ Straddles names t rest)
    (h' : ¬ Straddles names t rest') : SameRows names (t ++ rest) (t ++ rest') := by
  induction t with
  | nil => exact hrest
  | cons c t ih =>
    have hmore := ih (fun hin => h (hin.cons c)) fun hin => h' (hin.cons c)
    rw [List.cons_append, List.cons_append]
    by_cases hline : c = '\n'
    · subst hline
      rw [SameRows, rows_break, rows_break]
      exact ⟨rfl, hmore.ofText_eq⟩
    by_cases hdollar : c = '$'
    · subst hdollar
      rw [SameRows, rows_dollar, rows_dollar, nameBehind?_append hnames h,
        nameBehind?_append hnames h', List.head?_modifyHead, List.head?_modifyHead,
        List.tail_modifyHead, List.tail_modifyHead, hmore.1, hmore.2]
      exact ⟨rfl, rfl⟩
    · rw [SameRows, rows_cons hline hdollar, rows_cons hline hdollar]
      exact hmore

/-- Texts without a `$` bring the same entries if both break the line or neither does. -/
theorem sameRows_of_not_mem {t t' : Text} (h : '$' ∉ t) (h' : '$' ∉ t')
    (hlines : '\n' ∈ t ↔ '\n' ∈ t') (rest : Text) : SameRows names (t ++ rest) (t' ++ rest) := by
  by_cases hline : '\n' ∈ t
  · obtain ⟨hhead, htail⟩ := @rows_append_of_break names t h hline rest
    obtain ⟨hhead', htail'⟩ := @rows_append_of_break names t' h' (hlines.1 hline) rest
    exact ⟨hhead.trans hhead'.symm, htail.trans htail'.symm⟩
  · rw [SameRows, rows_append h hline, rows_append h' (mt hlines.2 hline)]
    exact ⟨rfl, rfl⟩

end Worklist

namespace Exchange

variable {x : Exchange} {names : List Text} {d d' : Document} {name : Text} {n i : Nat}

/-- The worklist of the changed text is that of the text. -/
theorem Steady.ofText_changed (hx : x.Steady names) (hnames : ∀ name ∈ names, name ≠ [])
    (hlines : '\n' ∈ x.old ↔ '\n' ∈ x.new) :
    Worklist.ofText names x.changed = Worklist.ofText names x.text :=
  (Worklist.sameRows_append hnames (Worklist.sameRows_of_not_mem (dollar_not_mem x.old_plain)
    (dollar_not_mem x.new_plain) hlines x.behind) hx.old hx.new).ofText_eq.symm

/-! ### Documents -/

/-- One document has the text, the other one the changed text, and what is exchanged is source text
in both. Everything else has the origin that it has in the other one. -/
def Holds (x : Exchange) (d d' : Document) : Prop :=
  ∃ front back : List Cell, front.map Prod.fst = x.before ∧ back.map Prod.fst = x.behind ∧
    d.cells = front ++ (x.old.map (·, Origin.source) ++ back) ∧
    d'.cells = front ++ (x.new.map (·, Origin.source) ++ back)

namespace Holds

variable (h : x.Holds d d')
include h

/-- The document is the text. -/
theorem text_eq : d.text = x.text := by
  obtain ⟨front, back, hfront, hback, hcells, -⟩ := h
  rw [← Document.map_fst_cells, hcells, List.map_append, List.map_append, hfront, hback,
    List.map_map]
  exact congrArg (x.before ++ · ) (congrArg (· ++ x.behind) (List.map_id _))

/-- The other document is the changed text. -/
theorem text_eq_changed : d'.text = x.changed := by
  obtain ⟨front, back, hfront, hback, -, hcells⟩ := h
  rw [← Document.map_fst_cells, hcells, List.map_append, List.map_append, hfront, hback,
    List.map_map]
  exact congrArg (x.before ++ · ) (congrArg (· ++ x.behind) (List.map_id _))

end Holds

/-! ### Names -/

/-- Where no word reaches out of a text, a name that begins in it is found without what is behind. -/
theorem nameAtStart_append {front rest : List Cell} (hname : name ∈ names)
    (h : ¬ Straddles names (front.map Prod.fst) (rest.map Prod.fst)) (hi : i < front.length) :
    Document.nameAtStart name ((front ++ rest).drop i) =
      Document.nameAtStart name (front.drop i) := by
  have hsource : ∀ cell cells, Document.startsInSource (cell :: cells ++ rest) =
      Document.startsInSource (cell :: cells) := by
    rintro ⟨c, origin⟩ cells
    cases origin <;> rfl
  obtain ⟨cell, cells, hdrop⟩ : ∃ cell cells, front.drop i = cell :: cells :=
    ⟨_, _, List.drop_eq_getElem_cons hi⟩
  rw [List.drop_append_of_le_length hi.le, Document.nameAtStart, Document.nameAtStart,
    Document.startsBy_cells, Document.startsBy_cells, List.map_append]
  rw [hdrop, hsource, ← hdrop]
  congr 1
  refine Bool.eq_iff_iff.2 ⟨fun hstands => ?_, Search.startsBy_append _⟩
  have hlen : (front.map Prod.fst).length = front.length := List.length_map _
  have hall : Text.startsFolded name ((front.map Prod.fst ++ rest.map Prod.fst).drop i) = true := by
    rwa [List.drop_append_of_le_length (by omega), ← List.map_drop]
  -- the name ends in the front, since it does not reach out of it
  have hin : i + name.length ≤ (front.map Prod.fst).length := Nat.le_of_not_lt fun hlt =>
    h ⟨i, i + name.length, by omega, hlt, .name hname hall⟩
  rwa [Search.startsBy_append_of_le] at hstands
  rw [List.length_map, List.length_drop]
  omega

section

variable (hx : x.Steady names)
include hx

/-- A name stands where it has moved to. -/
theorem Holds.nameAt_move (h : x.Holds d d') (hname : name ∈ names) (hi : x.Outside i) :
    d'.NameAt name (x.move i) ↔ d.NameAt name i := by
  have hfst : ∀ t : Text, (t.map (·, Origin.source)).map Prod.fst = t := fun t => by
    rw [List.map_map]
    exact List.map_id t
  obtain ⟨front, back, hfront, hback, hcells, hcells'⟩ := h
  have hlen : front.length = x.before.length := by rw [← hfront, List.length_map]
  rw [Document.NameAt, Document.NameAt, hcells, hcells']
  rcases hi with hi | hi
  · have hold : ¬ Straddles names (front.map Prod.fst)
        ((x.old.map (·, Origin.source) ++ back).map Prod.fst) := by
      rw [List.map_append, hfst, hfront, hback]
      exact hx.old
    have hnew : ¬ Straddles names (front.map Prod.fst)
        ((x.new.map (·, Origin.source) ++ back).map Prod.fst) := by
      rw [List.map_append, hfst, hfront, hback]
      exact hx.new
    rw [move_of_le hi.le, nameAtStart_append hname hold (by omega),
      nameAtStart_append hname hnew (by omega)]
  · obtain ⟨m, rfl⟩ := Nat.exists_eq_add_of_le hi
    -- behind what is exchanged both documents are the same
    have hdrop : ∀ t : Text, (front ++ (t.map (·, Origin.source) ++ back)).drop
        (x.before.length + t.length + m) = back.drop m := fun t => by
      have hsame : (t.map (·, Origin.source)).length = t.length := List.length_map _
      rw [← hlen, Nat.add_assoc, ← List.drop_drop, List.drop_left, ← List.drop_drop, ← hsame,
        List.drop_left]
    rw [move_add, hdrop, hdrop]

/-- A name is found where it has moved to. -/
theorem Holds.findName?_changed (h : x.Holds d d') (hname : name ∈ names)
    (hhead : name.head? = some '$') :
    d'.findName? name 0 = (d.findName? name 0).map x.move := by
  have houtside : ∀ i, d.NameAt name i → x.Outside i := fun i hi => by
    have hcell := hi.getElem?_start hhead
    have hget : x.text[i]? = some '$' := by
      rw [← h.text_eq, ← Document.map_fst_cells, List.getElem?_map, hcell]
      rfl
    exact outside_of_marker hget rfl
  -- a name in the changed text begins at a place that was moved there
  have hmoved : ∀ j, d'.NameAt name j → ∃ i, x.move i = j ∧ x.Outside i ∧ d.NameAt name i := by
    intro j hj
    have hcell := hj.getElem?_start hhead
    have hget : x.changed[j]? = some '$' := by
      rw [← h.text_eq_changed, ← Document.map_fst_cells, List.getElem?_map, hcell]
      rfl
    obtain ⟨i, hi, rfl⟩ := exists_move_of_marker hget rfl
    exact ⟨i, rfl, hi, (h.nameAt_move hx hname hi).1 hj⟩
  cases hfind : d.findName? name 0 with
  | none =>
    by_contra hne
    obtain ⟨j, hj⟩ := Option.ne_none_iff_exists'.1 hne
    obtain ⟨-, -, hat, -⟩ := Document.findName?_eq_some_iff.1 hj
    obtain ⟨i, -, -, hi⟩ := hmoved j hat
    obtain ⟨hlt, -⟩ := List.getElem?_eq_some_iff.1 (hi.getElem?_start hhead)
    rw [Document.length_cells] at hlt
    obtain ⟨m, hm⟩ := hi.exists_findName? hlt.le
    rw [hfind] at hm
    cases hm
  | some i =>
    obtain ⟨-, -, hat, hfirst⟩ := Document.findName?_eq_some_iff.1 hfind
    have hout := houtside i hat
    have hat' := (h.nameAt_move hx hname hout).2 hat
    obtain ⟨hlt, -⟩ := List.getElem?_eq_some_iff.1 (hat'.getElem?_start hhead)
    rw [Document.length_cells] at hlt
    -- an earlier one in the changed text would be an earlier one in the text
    refine Document.findName?_eq_some_iff.2 ⟨Nat.zero_le _, hlt.le, hat', fun j _ hj hj' => ?_⟩
    obtain ⟨m, rfl, hm, hmat⟩ := hmoved j hj'
    exact hfirst m (Nat.zero_le m) ((hm.move_lt_iff hout.clear).1 hj) hmat

end

/-! ### Argument lists -/

/-- An argument list opens where it has moved to. -/
theorem listOpening?_changed (hn : x.Clear n) :
    CallSite.listOpening? x.changed (x.move n) = (CallSite.listOpening? x.text n).map x.move := by
  cases hopening : CallSite.listOpening? x.text n with
  | none =>
    by_contra hne
    obtain ⟨j, hj⟩ := Option.ne_none_iff_exists'.1 hne
    obtain ⟨hle, hget, hfirst⟩ := CallSite.listOpening?_eq_some_iff.1 hj
    obtain ⟨i, hi, rfl⟩ := exists_move_of_marker hget rfl
    rw [getElem?_move hi] at hget
    -- a bracket that opens a list only in the changed text would open one in the text
    have hlist : CallSite.listOpening? x.text n = some i := by
      refine CallSite.listOpening?_eq_some_iff.2 ⟨(hn.move_le_iff hi).1 hle, hget, ?_⟩
      intro m c hm hmi hc
      by_contra hmark
      rw [Bool.not_eq_false] at hmark
      have hout := outside_of_marker hc hmark
      have := hfirst (x.move m) c ((hn.move_le_iff hout).2 hm) ((hout.move_lt_iff hi.clear).2 hmi)
        (by rw [getElem?_move hout, hc])
      rw [hmark] at this
      cases this
    rw [hopening] at hlist
    cases hlist
  | some i =>
    obtain ⟨hle, hget, hfirst⟩ := CallSite.listOpening?_eq_some_iff.1 hopening
    have hi := outside_of_marker hget rfl
    -- a marker in between in the changed text would be one in the text
    refine CallSite.listOpening?_eq_some_iff.2 ⟨(hn.move_le_iff hi).2 hle,
      by rw [getElem?_move hi, hget], fun j c hj hji hc => ?_⟩
    by_contra hmark
    rw [Bool.not_eq_false] at hmark
    obtain ⟨m, hm, rfl⟩ := exists_move_of_marker hc hmark
    rw [getElem?_move hm] at hc
    have := hfirst m c ((hn.move_le_iff hm).1 hj) ((hm.move_lt_iff hi.clear).1 hji) hc
    rw [hmark] at this
    cases this

/-- Moving every position by as much moves the pieces. -/
theorem piecesFrom_map {f : Nat → Nat} {start i depth : Nat} (done : List Span) {t : Text}
    (hf : ∀ n ≤ t.length, f (i + n) = f i + n) :
    Bracket.piecesFrom (f start) (f i) depth (done.map fun s => ⟨f s.start, f s.stop⟩) t =
      (Bracket.piecesFrom start i depth done t).map fun s => ⟨f s.start, f s.stop⟩ := by
  induction t generalizing start i depth done with
  | nil => simp only [Bracket.piecesFrom, List.reverse_cons, List.map_append, List.map_reverse,
      List.map_cons, List.map_nil]
  | cons c t ih =>
    have hnext : f i + 1 = f (i + 1) := (hf 1 (Nat.succ_pos _)).symm
    have hlater : ∀ n ≤ t.length, f (i + 1 + n) = f (i + 1) + n := fun n hn => by
      have := hf (n + 1) (Nat.succ_le_succ hn)
      rw [Nat.add_assoc, Nat.add_comm 1 n, this]
      omega
    simp only [Bracket.piecesFrom, hnext]
    split
    · exact ih done hlater
    · split
      · exact ih done hlater
      · split
        · exact ih (⟨start, i⟩ :: done) hlater
        · exact ih done hlater

/-- A slot beside the exchange is trimmed where it has moved to. -/
theorem Beside.trimSpan_moveSpan {s : Span} (hs : x.Beside s) (hle : s.start ≤ s.stop)
    (hin : s.stop ≤ x.text.length) :
    Text.trimSpan x.changed (x.moveSpan s) = x.moveSpan (Text.trimSpan x.text s) := by
  have hlen : (x.text.slice s).length = s.stop - s.start := Span.length_cut_of_le hin
  have hstop := hs.move_add (n := s.stop - s.start) (by omega)
  rw [Nat.add_sub_cancel' hle] at hstop
  rw [Text.trimSpan, Text.trimSpan, hs.slice_moveSpan hle]
  split
  · rfl
  · next hne =>
    have hshort := Text.length_takeWhile_add_reverse_le hne
    -- the blanks at its ends are beside the exchange as well
    have hlead := hs.move_add (n := ((x.text.slice s).takeWhile isBlank).length) (by omega)
    have htail := hs.move_add
      (n := s.stop - ((x.text.slice s).reverse.takeWhile isBlank).length - s.start) (by omega)
    rw [Nat.add_sub_cancel' (by omega)] at htail
    simp only [moveSpan, hlead, htail]
    congr 1
    omega

/-- And it is empty exactly when it was. -/
theorem Beside.isEmpty_moveSpan {s : Span} (hs : x.Beside s) (hle : s.start ≤ s.stop) :
    (x.moveSpan s).isEmpty = s.isEmpty := by
  have hstop := hs.move_add (n := s.stop - s.start) (by omega)
  rw [Nat.add_sub_cancel' hle] at hstop
  have hiff : x.move s.stop ≤ x.move s.start ↔ s.stop ≤ s.start := by omega
  exact decide_eq_decide.2 hiff

/-- The slots between two brackets move with them. -/
theorem Beside.slots_moveSpan {s : Span} (hs : x.Beside s) (hle : s.start ≤ s.stop)
    (hin : s.stop ≤ x.text.length) :
    Bracket.slots x.changed (x.moveSpan s) =
      (Bracket.slots x.text s).map (Option.map x.moveSpan) := by
  have hlen : (x.text.slice s).length = s.stop - s.start := Span.length_cut_of_le hin
  have horder := Bracket.pieces_inOrder hle hin
  have hpieces : Bracket.pieces x.changed (x.moveSpan s) =
      (Bracket.pieces x.text s).map x.moveSpan := by
    rw [Bracket.pieces, Bracket.pieces, hs.slice_moveSpan hle]
    exact piecesFrom_map [] fun n hn => hs.move_add (by omega)
  have htrim : ((Bracket.pieces x.text s).map x.moveSpan).map (Text.trimSpan x.changed) =
      ((Bracket.pieces x.text s).map (Text.trimSpan x.text)).map x.moveSpan := by
    rw [List.map_map, List.map_map]
    refine List.map_congr_left fun p hp => ?_
    obtain ⟨hstart, hple, hstop⟩ := horder.bounds hp
    exact (hs.mono hstart hstop).trimSpan_moveSpan hple (hstop.trans hin)
  -- a trimmed piece is empty where it was
  have hempty : ∀ p ∈ (Bracket.pieces x.text s).map (Text.trimSpan x.text),
      (x.moveSpan p).isEmpty = p.isEmpty := by
    intro p hp
    obtain ⟨q, hq, rfl⟩ := List.mem_map.1 hp
    obtain ⟨hstart, hqle, hstop⟩ := horder.bounds hq
    obtain ⟨h₁, h₂, h₃⟩ := Text.trimSpan_bounds x.text hqle (hstop.trans hin)
    exact (hs.mono (hstart.trans h₁) (h₃.trans hstop)).isEmpty_moveSpan h₂
  rw [Bracket.slots, Bracket.slots, hpieces, htrim]
  generalize (Bracket.pieces x.text s).map (Text.trimSpan x.text) = spans at hempty
  have hlast : Bracket.dropEmptyLast (spans.map x.moveSpan) =
      (Bracket.dropEmptyLast spans).map x.moveSpan := by
    rw [Bracket.dropEmptyLast, Bracket.dropEmptyLast, List.getLast?_map]
    cases hget : spans.getLast? with
    | none => rfl
    | some p =>
      simp only [Option.map_some, hempty p (List.mem_of_getLast? hget)]
      split
      · exact List.map_dropLast.symm
      · rfl
  rw [hlast, List.map_map, List.map_map]
  refine List.map_congr_left fun p hp => ?_
  have := hempty p ((Bracket.dropEmptyLast_sublist spans).subset hp)
  simp only [Function.comp_apply, this]
  split <;> rfl

/-! ### Call sites -/

def moveSlots (x : Exchange) (slots : List (Option Span)) : List (Option Span) :=
  slots.map (Option.map x.moveSpan)

/-- What is exchanged is not in an argument list in the span: no bracket opens there in front of
it. -/
def Spares (x : Exchange) (span : Span) : Prop :=
  x.before.length < span.stop →
    ∀ j, span.start ≤ j → j < x.before.length → x.text[j]? ≠ some '['

/-- A call site and where it has moved to. The slots have moved unless what is exchanged is among
them. -/
inductive MovedSite (x : Exchange) : CallSite → CallSite → Prop
  | absent : MovedSite x .absent .absent
  | escaped (i : Nat) : MovedSite x (.escaped i) (.escaped (x.move i))
  | unterminated (i : Nat) : MovedSite x (.unterminated i) (.unterminated (x.move i))
  | bare (span : Span) : MovedSite x (.bare span) (.bare (x.moveSpan span))
  | call {span : Span} {slots slots' : List (Option Span)}
      (moved : x.Spares span → slots' = x.moveSlots slots) :
      MovedSite x (.call span slots) (.call (x.moveSpan span) slots')

/-- Whether a `$` stands in front of a position does not depend on what is exchanged. -/
theorem Steady.escaped_move (hx : x.Steady names) (hi : x.Outside i) :
    (0 < x.move i && x.changed[x.move i - 1]? == some '$') =
      (0 < i && x.text[i - 1]? == some '$') := by
  rw [Bool.eq_iff_iff]
  simp only [Bool.and_eq_true, decide_eq_true_iff, beq_iff_eq]
  constructor
  · rintro ⟨hpos, hget⟩
    obtain ⟨m, hm, hmove⟩ := exists_move_of_marker hget rfl
    have hsucc : x.move (m + 1) = x.move i := by
      rw [hm.move_succ]
      omega
    have hle : m + 1 ≤ i := (hm.clear_succ.move_le_iff hi).1 hsucc.le
    rcases Nat.lt_or_eq_of_le hle with hlt | rfl
    -- the `$` would stand right in front of what is exchanged for nothing
    · have hlast : m + 1 = x.before.length ∧ x.new.length = 0 := by
        rcases hm.clear_succ.cases with hcases | hcases <;>
          rcases hi.cases with hcases' | hcases' <;> omega
      refine absurd ?_ (hx.dollar (List.length_eq_zero_iff.1 hlast.2))
      rw [← hmove, getElem?_move hm, text, List.getElem?_append_left (by omega)] at hget
      rwa [List.getLast?_eq_getElem?, ← hlast.1]
    · rw [Nat.add_sub_cancel, ← getElem?_move hm, hmove]
      exact ⟨Nat.succ_pos _, hget⟩
  · rintro ⟨hpos, hget⟩
    have hout := outside_of_marker hget rfl
    have hsucc := hout.move_succ
    rw [Nat.sub_add_cancel hpos] at hsucc
    rw [hsucc, Nat.add_sub_cancel, getElem?_move hout]
    exact ⟨Nat.succ_pos _, hget⟩

/-- The first occurrence of a name is found where it has moved to. -/
theorem Holds.movedSite_find (h : x.Holds d d') (hx : x.Steady names) (hname : name ∈ names)
    (hhead : name.head? = some '$') :
    x.MovedSite (CallSite.find d name) (CallSite.find d' name) := by
  rw [CallSite.find, CallSite.find, h.findName?_changed hx hname hhead]
  cases hfind : d.findName? name 0 with
  | none => exact .absent
  | some start =>
    obtain ⟨-, -, hat, -⟩ := Document.findName?_eq_some_iff.1 hfind
    have hstart : x.Outside start := by
      have hcell := hat.getElem?_start hhead
      refine outside_of_marker (c := '$') ?_ rfl
      rw [← h.text_eq, ← Document.map_fst_cells, List.getElem?_map, hcell]
      rfl
    have hstands := hat.startsBy
    rw [h.text_eq] at hstands
    have hin : start < x.before.length → start + name.length ≤ x.before.length := fun hlt =>
      Nat.le_of_not_lt fun hover => hx.old ⟨start, _, hlt, hover, .name hname hstands⟩
    have hstop := hstart.move_add hin
    simp only [Option.map_some, h.text_eq, h.text_eq_changed, CallSite.ofPosition,
      hx.escaped_move hstart, ← hstop, listOpening?_changed (hstart.clear_add hin)]
    split
    · exact .escaped start
    · cases hopening : CallSite.listOpening? x.text (start + name.length) with
      | none =>
        have hbare := MovedSite.bare (x := x) ⟨start, start + name.length⟩
        exact hbare
      | some opening =>
        obtain ⟨hle, hopen, -⟩ := CallSite.listOpening?_eq_some_iff.1 hopening
        have hout := outside_of_marker hopen rfl
        simp only [Option.map_some, closing?_move hout]
        cases hclosing : Bracket.closing? x.text opening with
        | none => exact .unterminated start
        | some closing =>
          have hlt := Bracket.lt_of_closing? hclosing hopen
          have hclose := (Bracket.getElem?_of_closing? hclosing).2
          have hcloseOut := outside_of_marker hclose rfl
          obtain ⟨hcloseLt, -⟩ := List.getElem?_eq_some_iff.1 hclose
          have hfirst := hout.move_succ
          have hlast := hcloseOut.move_succ
          simp only [Option.map_some, ← hlast, ← hfirst]
          refine @MovedSite.call x ⟨start, closing + 1⟩ _ _ fun hspares => ?_
          have hbeside : x.Beside ⟨opening + 1, closing⟩ := by
            rcases hout with hbefore | hbehind
            · rcases hcloseOut with hclosed | hclosed
              · exact .inl hclosed.le
              -- what is exchanged would stand between the brackets
              · have hover : x.before.length < closing + 1 := by omega
                have hfirst : start ≤ opening := by omega
                exact absurd hopen (hspares hover opening hfirst hbefore)
            · exact .inr (Nat.le_succ_of_le hbehind)
          exact hbeside.slots_moveSpan hlt hcloseLt.le

end Exchange

end Stencil
