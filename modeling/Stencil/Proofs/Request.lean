import Stencil.CommandLine
/-!
# Requests are written and read back

Every request can be written as a command line: first the option for logs, then the document, then
the configuration, and behind `--` the arguments of the document. Reading goes over one part after
the other, and what follows a part does not change what is read in it. Only `-f` without a file
looks at the next word, and that is the `--` (`words_end`). So the request is what was written
(`requests_are_read_back`).

The same goes for any other words. A word is refused or leads to a draft, whatever follows it
(`words_cons_cases`), so words that are accepted are read alike in front of `--`, and none of the
words behind it is read (`words_behind_are_passed_on`).
-/

namespace Stencil.CommandLine

/-! ### Writing a request -/

def Source.words : Source → List Text
  | .standardInput => []
  | .inline document => [['-', 'c'], document]
  | .file path => [path]

def ConfigChoice.words : ConfigChoice → List Text
  | .search => []
  | .skip => [['-', 'f']]
  | .file path => ['-' :: 'f' :: path]

namespace Request

def debugWords (debug : Bool) : List Text := if debug then [['-', 'd']] else []

/-- The words that make a request. -/
def words (r : Request) : List Text :=
  debugWords r.debug ++ (r.source.words ++ (r.config.words ++ ['-', '-'] :: r.args))

/-- The file of the configuration has a name, and that of the document has none that begins with a
dash. -/
structure Writable (r : Request) : Prop where
  config : ∀ path, r.config = .file path → path ≠ []
  source : ∀ path, r.source = .file path → path.head? ≠ some '-'

end Request

/-! ### Reading the parts -/

namespace Draft

variable {d d' : Draft} {expected : Expectation} {w : Text} {ws : List Text}

/-- The draft with a source that is named behind all others. -/
def withSource (d : Draft) : Source → Draft
  | .standardInput => d
  | .inline document => { d with inlined := some document }
  | .file path => { d with plain := path :: d.plain }

theorem words_document (d : Draft) (w : Text) (ws : List Text) :
    d.words .document (w :: ws) = { d with inlined := some w }.words .nothing ws := rfl

theorem words_cons (h : d.word w = .ok (d', expected)) (hw : w ≠ ['-', '-']) (ws : List Text) :
    d.words .nothing (w :: ws) = d'.words expected ws := by
  have hnone : ¬ (Expectation.nothing = .configFile ∧ w.head? ≠ some '-') := fun h => nomatch h.1
  rw [words, if_neg hnone, if_neg hw, h]
  exact nofun

/-- Behind `--` every word is an argument, also where a file could be named. -/
theorem words_end (d : Draft) (expected : Expectation) (hexpected : expected ≠ .document)
    (ws : List Text) : d.words expected (['-', '-'] :: ws) = .ok (d, ws) := by
  have hdash : ¬ (expected = .configFile ∧ ['-', '-'].head? ≠ some '-') := fun h => h.2 rfl
  rw [words, if_neg hdash, if_pos rfl]
  exact hexpected

theorem words_debugWords (d : Draft) (debug : Bool) (ws : List Text) :
    d.words .nothing (Request.debugWords debug ++ ws) =
      { d with debug := d.debug || debug }.words .nothing ws := by
  cases debug with
  | true =>
    rw [Bool.or_true]
    exact words_cons rfl (by decide) ws
  | false =>
    rw [Bool.or_false]
    rfl

theorem word_of_head?_ne (d : Draft) (h : w.head? ≠ some '-') :
    d.word w = .ok ({ d with plain := w :: d.plain }, .nothing) := by
  unfold word
  split
  · exact absurd rfl h
  · rfl

/-- An inline document is the whole word behind its option, whatever it looks like. -/
theorem words_source (d : Draft) {source : Source}
    (hsource : ∀ path, source = .file path → path.head? ≠ some '-') (ws : List Text) :
    d.words .nothing (source.words ++ ws) = (d.withSource source).words .nothing ws := by
  cases source with
  | standardInput => rfl
  | inline document =>
    have hoption : d.words .nothing (['-', 'c'] :: document :: ws) =
        d.words .document (document :: ws) := words_cons rfl (by decide) _
    exact hoption.trans (words_document d document ws)
  | file path =>
    have hplain := hsource path rfl
    have hword : path ≠ ['-', '-'] := by
      rintro rfl
      exact hplain rfl
    exact words_cons (word_of_head?_ne d hplain) hword ws

/-- The last option is read up to the `--` behind it. -/
theorem words_config_end {d : Draft} (hsearch : d.config = .search) {config : ConfigChoice}
    (hconfig : ∀ path, config = .file path → path ≠ []) (ws : List Text) :
    d.words .nothing (config.words ++ ['-', '-'] :: ws) = .ok ({ d with config := config }, ws) := by
  cases config with
  | search =>
    have hself : { d with config := .search } = d := by rw [← hsearch]
    rw [hself]
    exact words_end d .nothing (by decide) ws
  | skip =>
    have hoption : d.words .nothing (['-', 'f'] :: ['-', '-'] :: ws) =
        { d with config := .skip }.words .configFile (['-', '-'] :: ws) :=
      words_cons rfl (by decide) _
    exact hoption.trans (words_end _ .configFile (by decide) ws)
  | file path =>
    obtain ⟨c, cs, rfl⟩ := List.exists_cons_of_ne_nil (hconfig path rfl)
    have hoption : d.words .nothing (('-' :: 'f' :: c :: cs) :: ['-', '-'] :: ws) =
        { d with config := .file (c :: cs) }.words .nothing (['-', '-'] :: ws) :=
      words_cons rfl (by simp) _
    exact hoption.trans (words_end _ .nothing (by decide) ws)

/-- The first plain word names the document, unless it is a lone dash. -/
theorem request_of_plain {path : Text} (h : path ≠ ['-']) (config : ConfigChoice) (debug : Bool)
    (args : List Text) :
    request ⟨config, none, [path], debug⟩ args = ⟨config, .file path, args, debug⟩ := by
  unfold request
  rw [List.reverse_singleton]
  split
  · next heq => cases heq
  · next heq => cases heq
  · next heq => exact absurd (List.cons.inj heq).1 h
  · next heq =>
    obtain ⟨rfl, rfl⟩ := List.cons.inj heq
    rfl

theorem request_withSource {source : Source}
    (hsource : ∀ path, source = .file path → path.head? ≠ some '-') (config : ConfigChoice)
    (debug : Bool) (args : List Text) :
    request { withSource ⟨.search, none, [], debug⟩ source with config := config } args =
      ⟨config, source, args, debug⟩ := by
  cases source with
  | standardInput => rfl
  | inline document => rfl
  | file path =>
    have hdash : path ≠ ['-'] := by
      rintro rfl
      exact hsource _ rfl rfl
    exact request_of_plain hdash config debug args

end Draft

/-- Every request can be written and is read back: whether logs are wanted, which configuration is
chosen, where the document comes from, and any arguments, also those that look like options. -/
theorem requests_are_read_back {r : Request} (h : r.Writable) : parse r.words = .ok r := by
  have hsearch : (Draft.withSource ⟨.search, none, [], r.debug⟩ r.source).config = .search := by
    cases r.source <;> rfl
  have hwords : Draft.empty.words .nothing r.words =
      .ok ({ Draft.withSource ⟨.search, none, [], r.debug⟩ r.source with config := r.config },
        r.args) := by
    rw [Request.words, Draft.words_debugWords, Draft.words_source _ h.source]
    exact Draft.words_config_end hsearch h.config r.args
  rw [parse, hwords]
  exact congrArg Except.ok (Draft.request_withSource h.source r.config r.debug r.args)

theorem dashes_are_read_back :
    parse ["-d".toList, "-c".toList, "--".toList, "-f-".toList, "--".toList, "--".toList,
        "-c".toList, []] =
      .ok ⟨.file "-".toList, .inline "--".toList, ["--".toList, "-c".toList, []], true⟩ :=
  requests_are_read_back (r := ⟨.file "-".toList, .inline "--".toList,
    ["--".toList, "-c".toList, []], true⟩)
    ⟨fun _ heq => ConfigChoice.file.inj heq ▸ by decide, fun _ heq => nomatch heq⟩

/-! ### Words behind `--` -/

namespace Draft

variable {d d' : Draft} {expected : Expectation} {w : Text} {behind : List Text}

/-- A word is refused whatever follows it, or what follows it is read on from a draft and an
expectation that do not depend on it. -/
theorem words_cons_cases (d : Draft) (expected : Expectation) (hw : w ≠ ['-', '-']) :
    (∃ e, ∀ ws, d.words expected (w :: ws) = .error e) ∨
      ∃ (d' : Draft) (expected' : Expectation),
        ∀ ws, d.words expected (w :: ws) = d'.words expected' ws := by
  by_cases hdocument : expected = .document
  · subst hdocument
    exact .inr ⟨_, _, words_document d w⟩
  by_cases hfile : expected = .configFile ∧ w.head? ≠ some '-'
  · refine .inr ⟨{ d with config := .file w }, .nothing, fun ws => ?_⟩
    rw [words, if_pos hfile]
    exact hdocument
  -- what is left is an option or a plain word, and is read by itself
  cases hread : d.word w with
  | error e =>
    refine .inl ⟨e, fun ws => ?_⟩
    rw [words, if_neg hfile, if_neg hw, hread]
    exact hdocument
  | ok next =>
    refine .inr ⟨next.1, next.2, fun ws => ?_⟩
    rw [words, if_neg hfile, if_neg hw, hread]
    exact hdocument

/-- Words that are accepted are accepted in front of `--` as well, with the same draft. -/
theorem words_append_end {p : List Text} (hp : ['-', '-'] ∉ p)
    (h : d.words expected p = .ok (d', behind)) (ws : List Text) :
    behind = [] ∧ d.words expected (p ++ ['-', '-'] :: ws) = .ok (d', ws) := by
  induction p generalizing d expected with
  | nil =>
    have hexpected : expected ≠ .document := by
      rintro rfl
      cases h
    have hend : d.words expected [] = .ok (d, []) := by
      rw [words]
      exact hexpected
    obtain ⟨rfl, rfl⟩ := Prod.mk.inj (Except.ok.inj (hend.symm.trans h))
    exact ⟨rfl, words_end d expected hexpected ws⟩
  | cons w p ih =>
    obtain ⟨hw, hp⟩ := not_or.1 (mt List.mem_cons.2 hp)
    rcases words_cons_cases d expected (Ne.symm hw) with ⟨e, hrefused⟩ | ⟨d₁, expected₁, hleads⟩
    · rw [hrefused] at h
      cases h
    · rw [hleads] at h
      rw [List.cons_append, hleads]
      exact ih hp h

/-- The words behind the options come last among the arguments. The first of them does not name the
document, even if no other word does. -/
theorem request_append (d : Draft) (ws ws' : List Text) :
    d.request (ws ++ ws') = { d.request ws with args := (d.request ws).args ++ ws' } := by
  unfold request
  split <;> simp only [List.append_assoc]

end Draft

/-- Nothing behind `--` is interpreted: if the words in front of it make a request by themselves,
then so they do with any words behind it, and these follow its arguments as they are. -/
theorem words_behind_are_passed_on {p : List Text} {r : Request} (hp : ['-', '-'] ∉ p)
    (h : parse p = .ok r) (ws : List Text) :
    parse (p ++ ['-', '-'] :: ws) = .ok { r with args := r.args ++ ws } := by
  rw [parse] at h
  cases hread : Draft.empty.words .nothing p with
  | error e =>
    rw [hread] at h
    cases h
  | ok read =>
    obtain ⟨d, behind⟩ := read
    obtain ⟨rfl, hwords⟩ := Draft.words_append_end hp hread ws
    rw [hread] at h
    have hrequest : d.request [] = r := Except.ok.inj h
    rw [parse, hwords, ← hrequest, ← Draft.request_append]
    rfl

theorem document_is_passed_on :
    ['-', '-'] ∉ ["-df".toList] ∧
      parse ["-df".toList] = .ok ⟨.skip, .standardInput, [], true⟩ ∧
      parse (["-df".toList] ++ ['-', '-'] :: ["draft".toList, "-cx".toList, "--".toList]) =
        .ok ⟨.skip, .standardInput, ["draft".toList, "-cx".toList, "--".toList], true⟩ :=
  ⟨by decide, rfl,
    words_behind_are_passed_on (r := ⟨.skip, .standardInput, [], true⟩) (by decide) rfl _⟩

end Stencil.CommandLine
