import Stencil.Text.Basic
/-!
# Escaped text

Four characters are markers: they structure a document. `escape` writes each of them, and the sign
`#` that begins every code, as a code; `unescape` reads the codes back. A text that a function
returns is escaped before it enters a document and therefore brings no marker with it.

`unescape` runs from left to right and copies a `#` that begins no code, so every text can be read.
`unescape_code_append` and `unescape_cons` are its two rules.
-/

namespace Stencil

/-- The characters that have a code: the four markers, and the sign that begins every code. -/
inductive Reserved where
  | dollar
  | opening
  | closing
  | semicolon
  | hash
deriving DecidableEq, Repr

namespace Reserved

/-- Every reserved character, in the order in which codes are tried. -/
def all : List Reserved := [dollar, opening, closing, semicolon, hash]

def char : Reserved → Char
  | dollar => '$'
  | opening => '['
  | closing => ']'
  | semicolon => ';'
  | hash => '#'

def code : Reserved → Text
  | dollar => ['#', 'C', 'H', 'A', 'R', '#']
  | opening => ['#', 'L', 'E', 'F', 'T', '#']
  | closing => ['#', 'R', 'I', 'G', 'H', 'T', '#']
  | semicolon => ['#', 'S', 'E', 'M', 'I', '#']
  | hash => ['#', 'H', 'A', 'S', 'H', '#']

/-- The reserved character that a character is, if any. -/
def ofChar? (c : Char) : Option Reserved := all.find? (·.char == c)

/-- The reserved character whose code begins the text, if any. -/
def ofCode? (t : Text) : Option Reserved := all.find? (·.code.isPrefixOf t)

/-- No code begins another, so a text that begins with a code is read as that code. -/
theorem ofCode?_code_append (r : Reserved) (t : Text) : ofCode? (r.code ++ t) = some r := by
  cases r <;> simp [ofCode?, all, code, List.isPrefixOf, List.find?]

theorem ofChar?_char (r : Reserved) : ofChar? r.char = some r := by
  cases r <;> rfl

theorem code_ne_nil (r : Reserved) : r.code ≠ [] := by
  cases r <;> simp [code]

end Reserved

/-- Whether a character structures documents. -/
def isMarker (c : Char) : Bool := c == '$' || c == '[' || c == ']' || c == ';'

namespace Text

/-- Whether some character of the text structures documents. -/
def hasMarker (t : Text) : Bool := t.any isMarker

def escapeChar (c : Char) : Text :=
  match Reserved.ofChar? c with
  | some r => r.code
  | none => [c]

/-- The text with every reserved character written as its code. -/
def escape (t : Text) : Text := t.flatMap escapeChar

/-- The reading in progress: characters of a code still to skip, and the characters read so far,
newest first. -/
def unescapeLoop (skip : Nat) (out : Text) : Text → Text
  | [] => out.reverse
  | c :: cs =>
    match skip with
    | n + 1 => unescapeLoop n out cs
    | 0 =>
      match Reserved.ofCode? (c :: cs) with
      | some r => unescapeLoop (r.code.length - 1) (r.char :: out) cs
      | none => unescapeLoop 0 (c :: out) cs

/-- The text with every code read as its character, from left to right. -/
def unescape (t : Text) : Text := unescapeLoop 0 [] t

/-! ### The rules of reading -/

/-- Characters to be skipped are those of a code that has been read. -/
theorem unescapeLoop_skip (n : Nat) (out t : Text) :
    unescapeLoop n out t = unescapeLoop 0 out (t.drop n) := by
  induction t generalizing n with
  | nil => simp [unescapeLoop]
  | cons c cs ih =>
    cases n with
    | zero => rfl
    | succ n => rw [unescapeLoop, ih, List.drop_succ_cons]

/-- What has been read so far stands in front. -/
theorem unescapeLoop_out (n : Nat) (out t : Text) :
    unescapeLoop n out t = out.reverse ++ unescapeLoop n [] t := by
  induction t generalizing n out with
  | nil => simp [unescapeLoop]
  | cons c cs ih =>
    cases n with
    | succ n => rw [unescapeLoop, unescapeLoop, ih]
    | zero =>
      simp only [unescapeLoop]
      split
      · next r _ => rw [ih, ih _ [r.char]]; simp
      · rw [ih, ih _ [c]]; simp

@[simp] theorem unescape_nil : unescape [] = [] := rfl

/-- A code at the start is read as its character. -/
theorem unescape_code_append (r : Reserved) (t : Text) :
    unescape (r.code ++ t) = r.char :: unescape t := by
  obtain ⟨c, cs, hc⟩ : ∃ c cs, r.code = c :: cs := List.exists_cons_of_ne_nil r.code_ne_nil
  have h := r.ofCode?_code_append t
  rw [hc, List.cons_append] at h
  unfold unescape
  rw [hc, List.cons_append, unescapeLoop]
  simp only [h]
  rw [unescapeLoop_skip, unescapeLoop_out, hc]
  simp

/-- A character that begins no code is copied. -/
theorem unescape_cons {c : Char} {t : Text} (h : Reserved.ofCode? (c :: t) = none) :
    unescape (c :: t) = c :: unescape t := by
  unfold unescape
  rw [unescapeLoop]
  simp only [h]
  rw [unescapeLoop_out]
  rfl

/-- A character other than the sign of codes begins no code. -/
theorem ofCode?_cons_of_ne {c : Char} (t : Text) (h : c ≠ '#') :
    Reserved.ofCode? (c :: t) = none := by
  have hc : ('#' == c) = false := beq_false_of_ne (Ne.symm h)
  simp [Reserved.ofCode?, Reserved.all, Reserved.code, List.isPrefixOf, List.find?, hc]

end Text

end Stencil
