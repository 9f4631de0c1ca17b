import Stencil.Proofs.Settings
import Stencil.Proofs.Unescape
/-!
# Quoted values

A value is quoted by a backslash in front of every backslash and double quote in it, and double
quotes around. Unquoting takes off just that (`unquote_quote`), whatever the value is. So a line with
a key and a quoted value tries the setting of that key and value, no matter what the value looks like
(`quoted_setting_is_tried`).
-/

namespace Stencil

namespace Setting

variable {k v : Text}

/-! ### Quoting -/

/-- Whether a character needs a backslash in front of it between quotes. -/
def isQuoting (c : Char) : Bool := c = '\\' || c = '"'

def quoteChar (c : Char) : Text := if isQuoting c then ['\\', c] else [c]

/-- What is written between the quotes. -/
def quoteInner (v : Text) : Text := v.flatMap quoteChar

/-- The value in quotes. -/
def quote (v : Text) : Text := '"' :: (quoteInner v ++ ['"'])

theorem unquoteInner_backslash (c : Char) (t : Text) :
    unquoteInner ('\\' :: c :: t) = c :: unquoteInner t := rfl

/-- A character that is no backslash is read as itself. -/
theorem unquoteInner_cons {c : Char} (h : c ≠ '\\') (t : Text) :
    unquoteInner (c :: t) = c :: unquoteInner t := by
  rw [unquoteInner]
  · exact fun heq _ => h heq
  · exact fun _ _ heq _ => h heq

/-- What is quoted character by character is unquoted character by character. -/
theorem unquoteInner_quoteInner (v : Text) : unquoteInner (quoteInner v) = v := by
  induction v with
  | nil => rfl
  | cons c v ih =>
    have hcons : quoteInner (c :: v) = quoteChar c ++ quoteInner v := List.flatMap_cons
    rw [hcons, quoteChar]
    -- a backslash comes in front of those characters only that need one
    cases hquoting : isQuoting c with
    | true =>
      rw [if_pos rfl, List.cons_append, List.singleton_append, unquoteInner_backslash, ih]
    | false =>
      have hplain : c ≠ '\\' := by
        rintro rfl
        cases hquoting
      rw [if_neg Bool.false_ne_true, List.singleton_append, unquoteInner_cons hplain, ih]

/-- The quotes that are taken off are those that were put around. -/
theorem unquote_quote (v : Text) : unquote (quote v) = v := by
  rw [quote, unquote, List.getLast?_concat, if_pos rfl, List.dropLast_concat, unquoteInner_quoteInner]

/-- Quoting adds backslashes and quotes, so any other character is from the value. -/
theorem mem_of_mem_quote {c : Char} (h : c ∈ quote v) (hc : isQuoting c = false) : c ∈ v := by
  have hquote : c ≠ '"' := by
    rintro rfl
    cases hc
  have hbackslash : c ≠ '\\' := by
    rintro rfl
    cases hc
  have hinner : c ∈ quoteInner v := by
    simpa [quote, hquote] using h
  obtain ⟨x, hx, hmem⟩ := List.mem_flatMap.1 hinner
  unfold quoteChar at hmem
  split at hmem
  · obtain rfl : c = x := by simpa [hbackslash] using hmem
    exact hx
  · obtain rfl : c = x := by simpa using hmem
    exact hx

/-- A quoted value has no blanks around it: it begins and ends with a quote. -/
theorem trimmed_quote (v : Text) : (quote v).Trimmed where
  head c hc := by
    obtain rfl : '"' = c := Option.some.inj hc
    decide
  last c hc := by
    rw [quote, ← List.cons_append, List.getLast?_concat] at hc
    obtain rfl : '"' = c := Option.some.inj hc
    decide

/-! ### Lines with a key and a quoted value -/

/-- A text that a line can begin with as a key. -/
structure WrittenKey (k : Text) : Prop where
  ne_nil : k ≠ []
  trimmed : k.Trimmed
  no_equals : '=' ∉ k
  no_break : '\n' ∉ k
  no_comment : k.head? ≠ some ';'

theorem WrittenKey.ne_equals (hk : WrittenKey k) : ∀ c ∈ k, (c != '=') = true :=
  fun _ hc => bne_iff_ne.2 fun heq => hk.no_equals (heq ▸ hc)

/-- The line for a key and a value. -/
def quotedLine (k v : Text) : Text := k ++ (" = ".toList ++ quote v)

/-- Neither has the whole line. -/
theorem trimmed_quotedLine (hk : WrittenKey k) (v : Text) : (quotedLine k v).Trimmed where
  head c hc := by
    rw [quotedLine, List.head?_append_of_ne_nil _ hk.ne_nil] at hc
    exact hk.trimmed.head c hc
  last c hc := by
    have hne : quote v ≠ [] := List.cons_ne_nil _ _
    rw [quotedLine, ← List.append_assoc, List.getLast?_append_of_ne_nil _ hne] at hc
    exact (trimmed_quote v).last c hc

/-- Before the first equals sign stands the key with a blank, since the key has none in it. -/
theorem takeWhile_quotedLine (hk : WrittenKey k) (v : Text) :
    (quotedLine k v).takeWhile (· != '=') = k ++ [' '] := by
  rw [quotedLine, List.takeWhile_append_of_pos hk.ne_equals]
  rfl

/-- Behind it stands the quoted value, whatever equals signs are in that. -/
theorem dropWhile_quotedLine (hk : WrittenKey k) (v : Text) :
    (quotedLine k v).dropWhile (· != '=') = '=' :: ' ' :: quote v := by
  rw [quotedLine, List.dropWhile_append_of_pos hk.ne_equals]
  rfl

/-- The key ends at the first equals sign, and the value is all that stands behind it. -/
theorem ofLine_quotedLine (hk : WrittenKey k) (v : Text) :
    ofLine (quotedLine k v) = (parse (Text.lowerAscii k) v).map some := by
  have hblank : ∀ c ∈ [' '], isBlank c = true := List.forall_mem_singleton.2 (by decide)
  have hkey : Text.trim (k ++ [' ']) = k :=
    (Text.trim_blanks (List.forall_mem_nil _) hblank).trans hk.trimmed.trim_eq
  have hvalue : Text.trim (' ' :: quote v) = quote v := by
    have htrim := Text.trim_blanks (t := quote v) hblank (List.forall_mem_nil _)
    rw [List.append_nil] at htrim
    exact htrim.trans (trimmed_quote v).trim_eq
  -- the line is neither empty nor a comment
  have hstarts : ((quotedLine k v).isEmpty || (quotedLine k v).head? = some ';') = false := by
    have hhead : (quotedLine k v).head? = k.head? := List.head?_append_of_ne_nil _ hk.ne_nil
    have hne : quotedLine k v ≠ [] := List.append_ne_nil_of_left_ne_nil hk.ne_nil _
    rw [hhead, List.isEmpty_eq_false_iff.2 hne, Bool.false_or, decide_eq_false hk.no_comment]
  have hequals : '=' ∈ quotedLine k v := by simp [quotedLine]
  rw [ofLine, (trimmed_quotedLine hk v).trim_eq]
  dsimp only
  rw [hstarts, if_neg Bool.false_ne_true, if_pos hequals, takeWhile_quotedLine hk,
    dropWhile_quotedLine hk, hkey]
  show (parse (Text.lowerAscii k) (unquote (Text.trim (' ' :: quote v)))).map some = _
  rw [hvalue, unquote_quote]

end Setting

namespace Config

open Setting

variable {k v : Text}

/-- The line is one line: its key and its value hold no line break. -/
theorem lines_quotedLine (hk : WrittenKey k) (hv : '\n' ∉ v) :
    Text.lines (quotedLine k v) = [quotedLine k v] := by
  refine Text.lines_of_line (fun hbreak => ?_) (List.append_ne_nil_of_left_ne_nil hk.ne_nil _)
  rcases List.mem_append.1 hbreak with hin | hin
  · exact hk.no_break hin
  · rcases List.mem_append.1 hin with hin | hin
    · exact absurd hin (by decide)
    · exact hv (mem_of_mem_quote hin (by decide))

/-- A quoted value comes through. A text of one line with a key and a value in quotes makes the
configuration that setting the key to the value makes of the default one, or is reported for what is
wrong with the value. -/
theorem quoted_setting_is_tried (hk : WrittenKey k) (hv : '\n' ∉ v) :
    parse (quotedLine k v) =
      match default.set (Text.lowerAscii k) v with
      | .ok c => (c, [])
      | .error cause => (default, [⟨1, cause⟩]) := by
  rw [parse, lines_quotedLine hk hv, applyLines, ofLine_quotedLine hk, set]
  cases Setting.parse (Text.lowerAscii k) v <;> rfl

theorem quoted_timezone_is_set :
    let v : Text := "=;\"a\\".toList
    quotedLine "TimeZone".toList v = "TimeZone = \"=;\\\"a\\\\\"".toList ∧
      parse (quotedLine "TimeZone".toList v) = ({ default with timezone := v }, []) := by
  intro v
  have htrim : Text.trim "TimeZone".toList = "TimeZone".toList := by decide +kernel
  have hk : WrittenKey "TimeZone".toList :=
    ⟨by decide, htrim ▸ Text.trimmed_trim _, by decide, by decide, by decide⟩
  exact ⟨by decide, (quoted_setting_is_tried hk (by decide)).trans (by decide +kernel)⟩

end Config

end Stencil
