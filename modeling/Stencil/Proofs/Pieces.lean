import Stencil.Proofs.Artifacts
import Stencil.Proofs.Calling
import Stencil.Proofs.Integer
import Stencil.Proofs.Separator
/-!
# Pieces of a text

A text is cut at a separator where the separator first stands, and what is behind it is cut again
(`Cut`). The pieces make up the text with the separator between them (`Cut.join_eq`) and none of
them holds it (`Cut.not_infix`). With something else between them they make up what is left when one
occurrence after the other is replaced, from left to right (`Cut.replaced`).

The standard functions that split, count, replace and join have this cut in common
(`split_and_replace_agree`).
-/

namespace Stencil

namespace Text

variable {sep old t piece : Text} {pieces : List Text}

/-! ### Cutting a text -/

/-- The pieces of a text at a separator that is looked for from left to right: an occurrence ends a
piece if no other one begins before it, be it that the two overlap. -/
inductive Cut (sep : Text) : Text → List Text → Prop
  | last {t : Text} (h : ¬ sep <:+: t) : Cut sep t [t]
  | piece {a rest : Text} {more : List Text} (h : ¬ sep <:+: a ++ sep.dropLast)
      (behind : Cut sep rest more) : Cut sep (a ++ (sep ++ rest)) (a :: more)

/-- The pieces of a cut are those that splitting gives. -/
theorem Cut.split_eq (h : Cut sep t pieces) (hne : sep ≠ []) : split sep t = pieces := by
  induction h with
  | last h => exact split_eq_singleton h
  | piece h _ ih => rw [split_append hne h, ih]

/-- By induction on the length, from the first occurrence to the text behind it. -/
theorem cut_split (hne : sep ≠ []) (t : Text) : Cut sep t (split sep t) := by
  generalize hn : t.length = n
  -- by strong induction on the length: what is behind the first separator is shorter
  induction n using Nat.strong_induction_on generalizing t with
  | _ n ih =>
    subst hn
    by_cases hin : sep <:+: t
    · obtain ⟨a, rest, rfl, hfirst⟩ := exists_first hin hne
      have hshorter : rest.length < (a ++ (sep ++ rest)).length := by
        have hpos := List.length_pos_of_ne_nil hne
        rw [List.length_append, List.length_append]
        omega
      rw [split_append hne hfirst]
      exact .piece hfirst (ih rest.length hshorter rest rfl)
    · rw [split_eq_singleton hin]
      exact .last hin

theorem Cut.ne_nil (h : Cut sep t pieces) : pieces ≠ [] := by
  cases h <;> exact List.cons_ne_nil _ _

/-- Pieces are joined by the separator in front of each but the first. -/
theorem join_cons {more : List Text} (hne : more ≠ []) (sep piece : Text) :
    join sep (piece :: more) = piece ++ (sep ++ join sep more) := by
  obtain ⟨next, more, rfl⟩ := List.exists_cons_of_ne_nil hne
  rw [join, List.intercalate_cons_cons, List.append_assoc]
  rfl

/-- The pieces make up the text again. -/
theorem Cut.join_eq (h : Cut sep t pieces) : join sep pieces = t := by
  induction h with
  | last _ => exact List.intercalate_singleton
  | piece _ behind ih => rw [join_cons behind.ne_nil, ih]

/-- What stands in a piece would stand in front of where the separator first stands. -/
theorem Cut.not_infix (h : Cut sep t pieces) (hpiece : piece ∈ pieces) : ¬ sep <:+: piece := by
  induction h with
  | last h => rwa [List.mem_singleton.1 hpiece]
  | piece h _ ih =>
    rcases List.mem_cons.1 hpiece with rfl | hmore
    · exact fun hin => h (hin.trans (List.prefix_append _ _).isInfix)
    · exact ih hmore

/-- Characters are joined to their text. -/
theorem join_characters (t : Text) : join [] (t.map ([·])) = t := by
  induction t with
  | nil => rfl
  | cons c t ih =>
    rw [List.map_cons]
    -- the last character has nothing behind it
    by_cases hne : t = []
    · rw [hne]
      rfl
    · rw [join_cons (mt List.map_eq_nil_iff.1 hne), ih]
      rfl

/-! ### Replacing a part -/

/-- A loop always gives the piece in progress at least. -/
theorem splitLoop_ne_nil (n : Nat) (piece : Text) (done : List Text) (t : Text) :
    splitLoop sep n piece done t ≠ [] := by
  induction t generalizing n piece done with
  | nil => simp [splitLoop]
  | cons c t ih =>
    cases n with
    | succ n => exact ih _ _ _
    | zero =>
      rw [splitLoop]
      split
      · exact ih _ _ _
      · exact ih _ _ _

/-- The replacement has written what the cut has cut off, joined, and behind it the piece that the cut
has begun. -/
theorem replaceLoop_eq (new : Text) (n : Nat) (piece done : Text) (t : Text) :
    replaceLoop old new n (piece ++ done) t =
      done.reverse ++ join new (splitLoop old n piece [] t) := by
  induction t generalizing n piece done with
  | nil =>
    rw [replaceLoop, splitLoop, List.reverse_append, join, List.reverse_singleton,
      List.intercalate_singleton]
  | cons c t ih =>
    cases n with
    | succ n => exact ih n piece done
    | zero =>
      rw [replaceLoop, splitLoop]
      split
      -- an occurrence ends the piece
      · have hrest := ih (old.length - 1) [] (new.reverse ++ (piece ++ done))
        rw [List.nil_append] at hrest
        rw [hrest, splitLoop_done _ _ [piece.reverse], List.reverse_singleton,
          List.singleton_append, join_cons (splitLoop_ne_nil _ _ _ _)]
        simp
      · exact ih 0 (c :: piece) done

/-- To replace a part is to cut the text at it and to join the pieces with what takes its place. -/
theorem replace_eq_join (old new t : Text) : replace old new t = join new (split old t) := by
  rw [replace, split]
  split
  · exact List.intercalate_singleton.symm
  · exact replaceLoop_eq new 0 [] [] t

/-- The second text is the first one with every occurrence of `old` replaced, from left to right. -/
inductive Replaced (old new : Text) : Text → Text → Prop
  | last {t : Text} (h : ¬ old <:+: t) : Replaced old new t t
  | occurrence {a rest u : Text} (h : ¬ old <:+: a ++ old.dropLast)
      (behind : Replaced old new rest u) : Replaced old new (a ++ (old ++ rest)) (a ++ (new ++ u))

/-- With something else between the pieces, every occurrence of the separator is replaced. -/
theorem Cut.replaced (h : Cut old t pieces) (new : Text) : Replaced old new t (join new pieces) := by
  induction h with
  | last h =>
    rw [join, List.intercalate_singleton]
    exact .last h
  | piece h behind ih =>
    rw [join_cons behind.ne_nil]
    exact .occurrence h ih

end Text

namespace Library

variable {ctx : CallContext} {args : List Arg} {s : ExecutionState} {a : Text} {i : Int}

/-! ### Calling standard functions -/

/-- What the standard function of a name answers, if there is one. The name goes without its `$`. -/
def answer? (name : String) (ctx : CallContext) (args : List Arg) (s : ExecutionState) :
    Option (Outcome × ExecutionState) :=
  (registry.get? ('$' :: name.toList)).map fun f => f.call ctx args s

/-- A standard function is found under its name. -/
theorem answer?_standard {name : String} {brackets : Bool} {params : List String} {body : Body}
    (h : standard name brackets params body ∈ functions) :
    answer? name ctx args s = some (body.call ctx args s) := by
  rw [← functions_registry] at h
  have hget : registry.get? ('$' :: name.toList) = some (standard name brackets params body) :=
    Registry.get?_of_mem h rfl (Text.sameFolded_iff.2 rfl)
  rw [answer?, hget]
  rfl

/-- Any text that writes an integer is an index, but only from 1 on. -/
theorem index_eq (harg : text? args 0 = some a) (hread : Numeral.integer? (Text.trim a) = some i) :
    index args 0 = if 1 ≤ i then .ok (i.toNat - 1) else .error (.outOfRange i) := by
  have hinteger : integer args 0 = .ok i := by
    have hbind : ∀ f : Text → Except Fault Int, (Except.ok a >>= f) = f a := fun _ => rfl
    rw [integer, text_eq_ok.2 harg, hbind]
    dsimp only
    rw [hread]
  rw [index, hinteger]
  rfl

/-- The pieces are counted from one; behind the last there is nothing, and before the first there
is an error. -/
theorem answer?_splitText (hread : Numeral.integer? (Text.trim a) = some i) :
    answer? "splitText" ctx [some a] s =
      some (if 1 ≤ i then (.text ((s.splits[i.toNat - 1]?).getD []), s)
        else (.failure ((Fault.outOfRange i).message ctx.function), s)) := by
  have hmem : standard "splitText" true ["index"] splitText ∈ functions := by
    simp [functions, variableFunctions]
  rw [answer?_standard hmem, Body.call, splitText, index_eq rfl hread]
  by_cases hpos : 1 ≤ i
  · rw [if_pos hpos, if_pos hpos]
    rfl
  · rw [if_neg hpos, if_neg hpos]
    rfl

/-- A number that a caller writes is read as that number. -/
theorem read_integerText (hlow : -Numeral.integerBound ≤ i) (hhigh : i < Numeral.integerBound) :
    Numeral.integer? (Text.trim (Numeral.integerText i)) = some i := by
  rw [Numeral.trim_integerText, Numeral.integer?_integerText hlow hhigh]

/-! ### Splitting, replacing and joining -/

/-- The pieces that a state holds are counted and read by their indexes, integers of 64 bits from 1
on. Behind the last piece the empty text is read, and to read in front of the first one fails. -/
structure HoldsPieces (s : ExecutionState) (pieces : List Text) : Prop where
  count : ∀ ctx args, answer? "splitCount" ctx args s =
    some (.text (Numeral.digits pieces.length), s)
  piece : ∀ ctx (i : Nat) (h : i < pieces.length), (i + 1 : Int) < Numeral.integerBound →
    answer? "splitText" ctx [some (Numeral.integerText (i + 1))] s = some (.text pieces[i], s)
  behind : ∀ ctx (i : Int), pieces.length < i → i < Numeral.integerBound →
    answer? "splitText" ctx [some (Numeral.integerText i)] s = some (.text [], s)
  before : ∀ ctx (i : Int), -Numeral.integerBound ≤ i → i < 1 →
    answer? "splitText" ctx [some (Numeral.integerText i)] s =
      some (.failure ((Fault.outOfRange i).message ctx.function), s)

/-- The list of pieces answers for itself: for how many there are, for each of them, and for the
numbers outside. -/
theorem holdsPieces_splits (s : ExecutionState) : HoldsPieces s s.splits where
  count ctx args := by
    have hmem : standard "splitCount" false [] splitCount ∈ functions := by
      simp [functions, variableFunctions]
    rw [answer?_standard hmem]
    rfl
  piece ctx i hi hhigh := by
    have hbound := Numeral.integerBound_pos
    have hlow : -Numeral.integerBound ≤ (i + 1 : Int) := by omega
    have hplace : (i + 1 : Int).toNat - 1 = i := by omega
    -- the first piece has number one
    rw [answer?_splitText (read_integerText hlow hhigh), if_pos (by omega), hplace,
      List.getElem?_eq_getElem hi]
    rfl
  behind ctx i hi hhigh := by
    have hbound := Numeral.integerBound_pos
    have hlow : -Numeral.integerBound ≤ i := by omega
    rw [answer?_splitText (read_integerText hlow hhigh), if_pos (by omega),
      List.getElem?_eq_none (by omega)]
    rfl
  before ctx i hlow hi := by
    have hhigh : i < Numeral.integerBound := by
      have hbound := Numeral.integerBound_pos
      omega
    rw [answer?_splitText (read_integerText hlow hhigh), if_neg (by omega)]

/-- Splitting keeps the pieces in the state. -/
theorem answer?_textSplit (ctx : CallContext) (t sep : Text) (s : ExecutionState) :
    answer? "textSplit" ctx [some t, some sep] s =
      some (.nothing, { s with splits := splitPieces sep t }) := by
  have hmem : standard "textSplit" true ["text", "separator"] textSplit ∈ functions := by
    simp [functions, variableFunctions]
  rw [answer?_standard hmem]
  rfl

/-- Replacing gives the pieces with the new text between them. -/
theorem answer?_replace (ctx : CallContext) (t sep r : Text) (s : ExecutionState) :
    answer? "replace" ctx [some t, some sep, some r] s =
      some (.text (Text.join r (Text.split sep t)), s) := by
  have hmem : standard "replace" true ["text", "from", "to"] replace ∈ functions := by
    simp [functions, textFunctions]
  rw [answer?_standard hmem, ← Text.replace_eq_join]
  rfl

/-- An array keeps its items as they are given. -/
theorem answer?_createArray (ctx : CallContext) (name : Text) (items : List Text)
    (s : ExecutionState) :
    answer? "createArray" ctx (some name :: items.map some) s =
      some (.nothing, s.setArray name items) := by
  have hmem : standard "createArray" true ["name", "item"] createArray ∈ functions := by
    simp [functions, variableFunctions]
  -- no item is missing
  have hitems : (items.map some).map (·.getD []) = items := by
    rw [List.map_map]
    exact List.map_id items
  rw [answer?_standard hmem]
  show some (Outcome.nothing, s.setArray name ((items.map some).map (·.getD []))) = _
  rw [hitems]

/-- The items of an array are joined in their order. -/
theorem answer?_arrayJoin (ctx : CallContext) (name r : Text) (items : List Text)
    (s : ExecutionState) :
    answer? "arrayJoin" ctx [some name, some r] (s.setArray name items) =
      some (.text (Text.join r items), s.setArray name items) := by
  have hmem : standard "arrayJoin" true ["name", "separator"] arrayJoin ∈ functions := by
    simp [functions, variableFunctions]
  -- the array that was just stored is the one that is found
  have hitems : (s.setArray name items).getArray name = some items := by
    rw [ExecutionState.getArray, ExecutionState.setArray, Table.get?_set, if_pos rfl]
  rw [answer?_standard hmem]
  show some (Outcome.text (Text.join r (((s.setArray name items).getArray name).getD [])), _) = _
  rw [hitems]
  rfl

/-- Splitting and replacing agree. The pieces that are held after a text is split are the text with
the separator between them, and none of them holds the separator. With another text between them they
are the text in which that replaces the separator, and what an array of them is joined to. The empty
separator splits a text into its characters. -/
theorem split_and_replace_agree (t sep : Text) (ctx : CallContext) (s : ExecutionState) :
    ∃ pieces after, answer? "textSplit" ctx [some t, some sep] s = some (.nothing, after) ∧
      HoldsPieces after pieces ∧ Text.join sep pieces = t ∧
      (sep = [] → pieces = t.map ([·])) ∧
      (sep ≠ [] → Text.Cut sep t pieces ∧ (∀ piece ∈ pieces, ¬ sep <:+: piece) ∧
        ∀ ctx r s, answer? "replace" ctx [some t, some sep, some r] s =
          some (.text (Text.join r pieces), s) ∧ Text.Replaced sep r t (Text.join r pieces)) ∧
      ∀ ctx name r s, ∃ s', answer? "createArray" ctx (some name :: pieces.map some) s =
          some (.nothing, s') ∧
        answer? "arrayJoin" ctx [some name, some r] s' = some (.text (Text.join r pieces), s') := by
  refine ⟨splitPieces sep t, _, answer?_textSplit ctx t sep s, holdsPieces_splits _, ?_, ?_, ?_,
    fun ctx name r s => ⟨_, answer?_createArray ctx name _ s, answer?_arrayJoin ctx name r _ s⟩⟩
  -- without a separator the pieces are the characters
  · by_cases hempty : sep = []
    · rw [hempty]
      exact Text.join_characters t
    · rw [splitPieces, if_neg (mt List.isEmpty_iff.1 hempty)]
      exact (Text.cut_split hempty t).join_eq
  · rintro rfl
    rfl
  -- with a separator splitting and replacing cut at the same places
  · intro hne
    have hcut := Text.cut_split hne t
    rw [splitPieces, if_neg (mt List.isEmpty_iff.1 hne)]
    exact ⟨hcut, fun piece hpiece => hcut.not_infix hpiece,
      fun ctx r s => ⟨answer?_replace ctx t sep r s, hcut.replaced r⟩⟩

theorem overlapping_separator_is_replaced :
    let ctx : CallContext := ⟨[], ⟨[], [], 0⟩, .empty, 0⟩
    let s := ExecutionState.initial
    ∃ after, answer? "textSplit" ctx [some "aaaab".toList, some "aaa".toList] s =
        some (.nothing, after) ∧
      answer? "splitText" ctx [some ['2']] after = some (.text "ab".toList, after) ∧
      answer? "splitText" ctx [some ['3']] after = some (.text [], after) ∧
      answer? "replace" ctx [some "aaaab".toList, some "aaa".toList, some ['-']] s =
        some (.text "-ab".toList, s) := by
  intro ctx s
  obtain ⟨pieces, after, hsplit, hholds, -, -, hreplace, -⟩ :=
    split_and_replace_agree "aaaab".toList "aaa".toList ctx s
  obtain ⟨hcut, -, hreplace⟩ := hreplace (by decide)
  obtain rfl : ["".toList, "ab".toList] = pieces :=
    Eq.trans (by decide +kernel) (hcut.split_eq (by decide))
  exact ⟨after, hsplit, hholds.piece ctx 1 (by decide) (by decide),
    hholds.behind ctx 3 (by decide) (by decide), (hreplace ctx ['-'] s).1⟩

end Library

end Stencil
