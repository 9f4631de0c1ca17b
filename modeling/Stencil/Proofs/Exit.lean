import Stencil.Program
import Stencil.Proofs.Delivery
import Stencil.Proofs.Settings
/-!
# How the program exits

A run of the program is told without the program: from the files, the standard input and the command
line (`World`) follow the configuration file that counts, the settings in it, what it leaves of the
standard input, the document, and the evaluator. The evaluator has the functions of the library, the
limits and the strictness that the last settings for them name, and the words of the command line for
an invocation; the state that it starts from has their time zone. A failed read and an invalid line of
the configuration give no settings and do nothing else. Then the command line, the document and the
outcome of its evaluation decide the exit status and all that is written to the output
(`exit_follows_outcome`).
-/

namespace Stencil

open Evaluator (Evaluation)

/-- The lines that show an evaluation: its text unless that is empty, and a summary of its artifacts;
none where there is neither text nor an element nor an attachment. -/
def Evaluator.Evaluation.shownLines (e : Evaluation) : List Text :=
  if e.Shows then (if e.text = [] then [] else [e.text]) ++ e.artifacts.summary else []

/-! ### Reasons and settings -/

/-- A file of a tree is not read because a directory is in its place, or because nothing is there. -/
theorem FileTree.mayExist_of_follow {t : FileTree} {place rest : List Text} {e : ReadError}
    (h : t.follow place rest = .error e) : e.mayExist = decide (e = .isDirectory) := by
  induction rest generalizing place with
  | nil =>
    cases h
    rfl
  -- every other way to fail is that nothing is there
  | cons name rest ih =>
    simp only [follow] at h
    split at h
    · cases h
      rfl
    · split at h
      · exact ih h
      · split at h
        · cases h
          rfl
        · split at h
          · cases h
          · cases h
            rfl

/-- So it is with every path that is read. -/
theorem FileTree.mayExist_of_read {t : FileTree} {path : Text} {e : ReadError}
    (h : t.read path = .error e) : e.mayExist = decide (e = .isDirectory) := by
  unfold FileTree.read at h
  split at h
  · cases h
    rfl
  · split at h
    · cases h
      rfl
    · exact mayExist_of_follow h

/-- A part of a configuration that each setting replaces or keeps is, after several settings, what the
last one that names it says. By induction on the settings from the last one on. -/
theorem Config.foldl_apply {α : Type} (part : Config → α) {value? : Setting → Option α}
    (happly : ∀ c s, part (apply c s) = (value? s).getD (part c)) (c : Config)
    (settings : List Setting) :
    part (settings.foldl apply c) = (settings.filterMap value?).getLast?.getD (part c) := by
  induction settings using List.reverseRecOn with
  | nil => rfl
  | append_singleton settings s ih =>
    rw [List.foldl_append, List.foldl_cons, List.foldl_nil, happly, ih, List.filterMap_append]
    cases hvalue : value? s with
    | none => rw [List.filterMap_cons_none hvalue, List.filterMap_nil, List.append_nil]; rfl
    | some a => rw [List.filterMap_cons_some hvalue, List.filterMap_nil, List.getLast?_concat]; rfl

/-! ### What a run is given -/

/-- What a run of the program is given besides its command line. -/
structure World where
  tree : FileTree
  /-- The directory of the user's configuration, if there is one. -/
  configDirectory : Option Text
  seed : Nat
  /-- What comes in by the standard input. -/
  input : ByteArray

namespace World

variable {w : World} {words : List Text} {r : CommandLine.Request} {e : Evaluation} {text : Text}

def host (w : World) : Program.Host (StateM ByteArray) :=
  { Program.Host.ofTree w.tree w.configDirectory with seed := w.seed }

/-- How the program exits on a command line. -/
def exit (w : World) (words : List Text) : Program.Exit := (Program.run w.host words w.input).1

/-- What is read at a path. -/
def contents (w : World) (path : Text) : Except ReadError ByteArray :=
  match w.tree.read path with
  | .ok (.stored bytes) => .ok bytes
  | .ok .standardInput => .ok w.input
  | .error e => .error e

/-- The text at a path, if it can be read and is one. -/
def text? (w : World) (path : Text) : Option Text := (w.contents path).toOption.bind Utf8.decode?

/-- What is left when a path has been read: nothing of the standard input if that was there. -/
def behind (w : World) (path : Text) : World :=
  match w.tree.read path with
  | .ok .standardInput => { w with input := .empty }
  | _ => w

/-- There is a file or a directory at a path. -/
def hasPath (w : World) (path : Text) : Bool :=
  match w.tree.read path with
  | .ok _ => true
  | .error e => e = .isDirectory

/-- The paths at which a configuration is looked for: in the directory of the user's configuration, if
there is one, and where the program runs. -/
def searchPaths (w : World) : List Text :=
  match w.configDirectory with
  | some directory => [directory ++ "/tmacro.conf".toList, "./tmacro.conf".toList]
  | none => ["./tmacro.conf".toList]

/-- The path of the configuration file. -/
def configPath? (w : World) : CommandLine.ConfigChoice → Option Text
  | .skip => none
  | .file path => some path
  | .search => w.searchPaths.find? w.hasPath

/-- The settings of the configuration file; none if there is no file or it cannot be read. -/
def settings (w : World) (choice : CommandLine.ConfigChoice) : List Setting :=
  ((w.configPath? choice).bind w.text?).elim [] Config.settings

/-- The last of the values that the settings give, or the one that holds without a setting. -/
def lastValue {α : Type} (w : World) (choice : CommandLine.ConfigChoice)
    (value? : Setting → Option α) (otherwise : α) : α :=
  ((w.settings choice).filterMap value?).getLast?.getD otherwise

def maxDepth (w : World) (choice : CommandLine.ConfigChoice) : Nat :=
  w.lastValue choice (fun | .maxDepth n => some n | _ => none) 64

def maxInvocations (w : World) (choice : CommandLine.ConfigChoice) : Nat :=
  w.lastValue choice (fun | .maxInvocations n => some n | _ => none) 10000

def timezone (w : World) (choice : CommandLine.ConfigChoice) : Text :=
  w.lastValue choice (fun | .timezone zone => some zone | _ => none) ['U', 'T', 'C']

def requireEndElseIf (w : World) (choice : CommandLine.ConfigChoice) : Bool :=
  w.lastValue choice (fun | .requireEndElseIf on => some on | _ => none) false

/-- What is left when the configuration file has been read. -/
def behindConfig (w : World) (choice : CommandLine.ConfigChoice) : World :=
  (w.configPath? choice).elim w w.behind

/-- The text of a source, if it can be read and is one. -/
def sourceText? (w : World) : CommandLine.Source → Option Text
  | .standardInput => Utf8.decode? w.input
  | .inline t => some t
  | .file path => w.text? path

/-- The document that a request names. It is read behind the configuration file. -/
def document? (w : World) (r : CommandLine.Request) : Option Text :=
  (w.behindConfig r.config).sourceText? r.source

/-- What a document sees as the command: the path of a file, or the word that stands for another
source. -/
def command : CommandLine.Source → Text
  | .standardInput => "-".toList
  | .inline _ => "-c".toList
  | .file path => path

/-- The evaluator for a request: the functions of the library, the limits and the strictness of the
configuration file, and the command with the arguments behind it. -/
def evaluator (w : World) (r : CommandLine.Request) : Evaluator where
  registry := Library.registry
  limits := { depth := w.maxDepth r.config, invocations := w.maxInvocations r.config }
  strict := w.requireEndElseIf r.config
  invocation := { command := command r.source, args := r.args, seed := w.seed }

/-- The outcome of a document for a request. It is evaluated from a state in which there is nothing
but the time zone of the configuration file. -/
def outcome (w : World) (r : CommandLine.Request) (text : Text) : Except EvalError Evaluation :=
  ((w.evaluator r).evaluate text (.inTimezone (w.timezone r.config))).result

/-! ### Reading -/

/-- Reading a file takes nothing but the standard input away. -/
theorem host_behind (path : Text) : (w.behind path).host = w.host := by
  unfold behind
  split <;> rfl

/-- Neither does reading the configuration file. -/
theorem host_behindConfig (choice : CommandLine.ConfigChoice) :
    (w.behindConfig choice).host = w.host := by
  rw [behindConfig]
  cases w.configPath? choice with
  | none => rfl
  | some path => exact host_behind path

/-- A computation goes on with what its first part gives and leaves. -/
theorem bind_apply {σ α β : Type} {x : StateM σ α} {f : α → StateM σ β} {s s' : σ} {a : α}
    (h : x s = (a, s')) : (x >>= f) s = f a s' := by
  have hbind : (x >>= f) s = f (x s).1 (x s).2 := rfl
  rw [hbind, h]

/-- Reading a path gives its contents, and what is behind it. -/
theorem read_host (w : World) (path : Text) :
    w.host.read path w.input = (w.contents path, (w.behind path).input) := by
  simp only [host, Program.Host.ofTree, contents, behind]
  cases w.tree.read path with
  | error e => rfl
  | ok content => cases content <;> rfl

/-- There is something at a path if it is read, or if what keeps it from being read leaves that open.
-/
theorem hasPath_eq (w : World) (path : Text) :
    w.hasPath path = match w.contents path with
      | .ok _ => true
      | .error e => e.mayExist := by
  rw [hasPath, contents]
  cases hread : w.tree.read path with
  | error e => exact (FileTree.mayExist_of_read hread).symm
  | ok content => cases content <;> rfl

/-- Where nothing is there is nothing to take away. -/
theorem behind_of_not_hasPath {path : Text} (h : w.hasPath path = false) : w.behind path = w := by
  unfold behind
  split
  · next hread =>
    rw [hasPath, hread] at h
    cases h
  · rfl

/-- The program looks for its configuration where the world says. -/
theorem configPaths_host (w : World) : Program.configPaths w.host = w.searchPaths := by
  have hdirectory : w.host.configDirectory = w.configDirectory := rfl
  rw [Program.configPaths, searchPaths, hdirectory]
  cases w.configDirectory <;> rfl

/-- The search goes on where nothing is, and stops where something may be. -/
theorem firstExisting_host (w : World) (paths : List Text) :
    Program.firstExisting w.host paths w.input =
      ((paths.find? w.hasPath).map fun path => (path, w.contents path),
        ((paths.find? w.hasPath).elim w w.behind).input) := by
  induction paths with
  | nil => rfl
  | cons path paths ih =>
    have hread := read_host w path
    have hpath := hasPath_eq w path
    rw [Program.firstExisting, bind_apply hread]
    cases hexists : w.hasPath path with
    | true =>
      rw [List.find?_cons_of_pos hexists]
      cases hcontents : w.contents path with
      | ok bytes =>
        rw [Option.map_some, hcontents]
        rfl
      | error e =>
        rw [hexists, hcontents] at hpath
        simp only at hpath ⊢
        rw [if_pos hpath.symm, ← hcontents]
        rfl
    | false =>
      -- nothing is there, so the search goes on with the same input
      rw [List.find?_cons_of_neg (by rw [hexists]; exact Bool.false_ne_true), ← ih,
        behind_of_not_hasPath hexists]
      cases hcontents : w.contents path with
      | ok bytes =>
        rw [hexists, hcontents] at hpath
        cases hpath
      | error e =>
        rw [hexists, hcontents] at hpath
        simp only at hpath ⊢
        rw [← hpath]
        rfl

/-- The configuration file that the program reads is the one of the world. -/
theorem configFile_host (w : World) (choice : CommandLine.ConfigChoice) :
    Program.configFile w.host choice w.input =
      ((w.configPath? choice).map fun path => (path, w.contents path),
        (w.behindConfig choice).input) := by
  cases choice with
  | skip => rfl
  | file path => exact bind_apply (read_host w path)
  | search =>
    rw [Program.configFile, configPaths_host]
    exact firstExisting_host w _

/-- A file is decoded as UTF-8. -/
theorem toOption_decodeFile (bytes : ByteArray) :
    (decodeFile bytes).toOption = Utf8.decode? bytes := by
  rw [decodeFile]
  cases Utf8.decode? bytes <;> rfl

/-- So is the standard input. -/
theorem toOption_decodeStream (bytes : ByteArray) :
    (decodeStream bytes).toOption = Utf8.decode? bytes := by
  rw [decodeStream]
  cases Utf8.decode? bytes <;> rfl

/-- The configuration that the program works with, whatever it complains about. -/
theorem configOf_fst (w : World) (choice : CommandLine.ConfigChoice) :
    (Program.configOf ((w.configPath? choice).map fun path => (path, w.contents path))).1 =
      (w.settings choice).foldl Config.apply .default := by
  rw [settings]
  cases w.configPath? choice with
  | none => rfl
  | some path =>
    rw [Option.bind_some, text?, Option.map_some, Program.configOf]
    cases w.contents path with
    | error e => rfl
    | ok bytes =>
      -- a file that is no UTF-8 has no settings, nor has one that cannot be read
      have htext : (Except.ok bytes : Except ReadError ByteArray).toOption.bind Utf8.decode? =
          (decodeFile bytes).toOption := (toOption_decodeFile bytes).symm
      rw [htext, Except.bind]
      cases decodeFile bytes with
      | error e => rfl
      | ok t => exact Config.parse_fst t

/-- The document that the program reads is the one of the world. -/
theorem document_host (w : World) (source : CommandLine.Source) :
    (Program.document w.host source w.input).1.toOption = w.sourceText? source := by
  cases source with
  | inline t => rfl
  | standardInput =>
    have hread : w.host.standardInput w.input = (.ok w.input, .empty) := rfl
    rw [Program.document, bind_apply hread]
    exact toOption_decodeStream w.input
  | file path =>
    rw [Program.document, bind_apply (read_host w path), sourceText?, text?]
    cases w.contents path with
    | error e => rfl
    | ok bytes => exact toOption_decodeFile bytes

/-- So is the one that is read when the configuration file has been. -/
theorem document_behindConfig (w : World) (r : CommandLine.Request) :
    (Program.document w.host r.source (w.behindConfig r.config).input).1.toOption =
      w.document? r := by
  rw [document?, ← document_host (w.behindConfig r.config), host_behindConfig]

/-! ### Exits -/

/-- A document is named on the command line as it is labelled. -/
theorem label_eq (source : CommandLine.Source) : Program.label source = command source := by
  cases source <;> rfl

/-- The evaluator that the program works with has of each part what the last setting for it says. -/
theorem evaluator_eq (w : World) (r : CommandLine.Request) :
    Program.evaluator ((w.settings r.config).foldl Config.apply .default)
      ⟨Program.label r.source, r.args, w.seed⟩ = w.evaluator r := by
  have hdepth : ((w.settings r.config).foldl Config.apply .default).limits.depth =
      w.maxDepth r.config :=
    Config.foldl_apply (fun c => c.limits.depth) (fun c s => by cases s <;> rfl) _ _
  have hinvocations : ((w.settings r.config).foldl Config.apply .default).limits.invocations =
      w.maxInvocations r.config :=
    Config.foldl_apply (fun c => c.limits.invocations) (fun c s => by cases s <;> rfl) _ _
  have hstrict : ((w.settings r.config).foldl Config.apply .default).requireEndElseIf =
      w.requireEndElseIf r.config :=
    Config.foldl_apply (fun c => c.requireEndElseIf) (fun c s => by cases s <;> rfl) _ _
  rw [Program.evaluator, evaluator, ← hdepth, ← hinvocations, ← hstrict, label_eq]

/-- The time zone is the last one that the settings give. -/
theorem timezone_eq (w : World) (choice : CommandLine.ConfigChoice) :
    ((w.settings choice).foldl Config.apply .default).timezone = w.timezone choice :=
  Config.foldl_apply Config.timezone (fun c s => by cases s <;> rfl) _ _

/-- With the configuration that the settings make, the outcome of a document is delivered. -/
theorem evaluateOn_eq (w : World) (r : CommandLine.Request) (text : Text) (t : Terminal) :
    Program.evaluateOn ((w.settings r.config).foldl Config.apply .default)
      ⟨Program.label r.source, r.args, w.seed⟩ text t =
        ⟨if (Evaluator.deliver Terminal.sink (w.outcome r text) t).1.failed then 1 else 0,
          (Evaluator.deliver Terminal.sink (w.outcome r text) t).2⟩ := by
  rw [Program.evaluateOn, evaluator_eq, timezone_eq]
  rfl

/-- A request is answered in two steps: with the configuration read, the document is. -/
theorem runRequest_host (w : World) (r : CommandLine.Request) :
    ∃ complaints : List Text, (Program.runRequest w.host r w.input).1 =
      match (Program.document w.host r.source (w.behindConfig r.config).input).1 with
      | .error e =>
        ⟨2, (Terminal.empty.complain complaints).complain
          [Terminal.complaint (Program.label r.source ++ ": ".toList ++ e.message)]⟩
      | .ok text =>
        Program.evaluateOn ((w.settings r.config).foldl Config.apply .default)
          ⟨Program.label r.source, r.args, w.seed⟩ text (Terminal.empty.complain complaints) := by
  have hconfig := configOf_fst w r.config
  cases hfile : Program.configOf ((w.configPath? r.config).map fun path => (path, w.contents path))
    with
  | mk config complaints =>
    rw [hfile] at hconfig
    refine ⟨complaints, ?_⟩
    -- the configuration is read first, so its complaints come first
    rw [Program.runRequest, bind_apply (configFile_host w r.config), hfile, ← hconfig]
    cases hdocument : Program.document w.host r.source (w.behindConfig r.config).input with
    | mk document rest =>
      simp only
      rw [bind_apply hdocument]
      cases document <;> rfl

/-- An accepted command line is answered as the request that it makes. -/
theorem exit_of_parse (hparse : CommandLine.parse words = .ok r) :
    w.exit words = (Program.runRequest w.host r w.input).1 := by
  rw [exit, Program.run, hparse]

/-- Without a document there is nothing to evaluate. -/
theorem exit_of_unread (hparse : CommandLine.parse words = .ok r) (hnone : w.document? r = none) :
    (w.exit words).status = 2 ∧ (w.exit words).terminal.output = [] := by
  obtain ⟨complaints, hrun⟩ := runRequest_host w r
  have hdocument := document_behindConfig w r
  rw [exit_of_parse hparse, hrun]
  cases hread : (Program.document w.host r.source (w.behindConfig r.config).input).1 with
  | ok text =>
    rw [hread, hnone] at hdocument
    cases hdocument
  | error e => exact ⟨rfl, rfl⟩

/-- A document is evaluated whatever there is to complain about. -/
theorem exit_of_document (hparse : CommandLine.parse words = .ok r)
    (hdocument : w.document? r = some text) :
    ∃ t : Terminal, t.output = [] ∧ w.exit words =
      ⟨if (Evaluator.deliver Terminal.sink (w.outcome r text) t).1.failed then 1 else 0,
        (Evaluator.deliver Terminal.sink (w.outcome r text) t).2⟩ := by
  obtain ⟨complaints, hrun⟩ := runRequest_host w r
  have htext := document_behindConfig w r
  refine ⟨Terminal.empty.complain complaints, rfl, ?_⟩
  rw [exit_of_parse hparse, hrun]
  cases hread : (Program.document w.host r.source (w.behindConfig r.config).input).1 with
  | error e =>
    rw [hread, hdocument] at htext
    cases htext
  | ok found =>
    rw [hread, hdocument] at htext
    obtain rfl : found = text := Option.some.inj htext
    exact evaluateOn_eq w r found _

/-- A rejected command line exits with 2 and shows nothing. -/
theorem exit_of_rejected {e : CommandLine.UsageError} (hparse : CommandLine.parse words = .error e) :
    (w.exit words).status = 2 ∧ (w.exit words).terminal.output = [] := by
  rw [exit, Program.run, hparse]
  exact ⟨rfl, rfl⟩

/-- A failed evaluation exits with 1 and shows nothing. -/
theorem exit_of_error {e : EvalError} (hparse : CommandLine.parse words = .ok r)
    (hdocument : w.document? r = some text) (herror : w.outcome r text = .error e) :
    (w.exit words).status = 1 ∧ (w.exit words).terminal.output = [] := by
  obtain ⟨t, ht, hexit⟩ := exit_of_document hparse hdocument
  rw [hexit, herror]
  exact ⟨rfl, ht⟩

/-- A successful evaluation exits with 0 and shows its lines. -/
theorem exit_of_ok (hparse : CommandLine.parse words = .ok r)
    (hdocument : w.document? r = some text) (hok : w.outcome r text = .ok e) :
    (w.exit words).status = 0 ∧
      (w.exit words).terminal.output = e.shownLines.flatMap (· ++ ['\n']) := by
  obtain ⟨t, ht, hexit⟩ := exit_of_document hparse hdocument
  rw [hexit, hok, Evaluator.deliver, Evaluator.Evaluation.shownLines, e.render?_eq_ite]
  by_cases hshows : e.Shows
  -- the terminal has shown nothing yet, so the lines are all its output
  · rw [if_pos hshows, if_pos hshows]
    refine ⟨rfl, ?_⟩
    have houtput : t.output ++ Terminal.written (Terminal.renderLines e.shown) =
        Terminal.written ((if e.text = [] then [] else [e.text]) ++ e.artifacts.summary) := by
      rw [ht, List.nil_append, Terminal.renderLines, Evaluator.Evaluation.shown]
      split <;> rfl
    exact houtput
  · rw [if_neg hshows, if_neg hshows]
    exact ⟨rfl, ht⟩

/-- The cases of a run: a rejected command line, no document, and a failed or successful outcome. -/
theorem cases_exit (w : World) (words : List Text) :
    (∃ e, CommandLine.parse words = .error e) ∨
      ∃ r, CommandLine.parse words = .ok r ∧ (w.document? r = none ∨
        ∃ text, w.document? r = some text ∧
          ((∃ e, w.outcome r text = .error e) ∨ ∃ e, w.outcome r text = .ok e)) := by
  cases hparse : CommandLine.parse words with
  | error e => exact .inl ⟨e, rfl⟩
  | ok r =>
    refine .inr ⟨r, rfl, ?_⟩
    cases hdocument : w.document? r with
    | none => exact .inl rfl
    | some text =>
      refine .inr ⟨text, rfl, ?_⟩
      cases houtcome : w.outcome r text with
      | error e => exact .inl ⟨e, rfl⟩
      | ok e => exact .inr ⟨e, rfl⟩

/-- Runs with the same valid settings, document and invocation exit alike, whatever there is to
complain about. -/
theorem exit_congr {w' : World} {words' : List Text} {r' : CommandLine.Request}
    (hparse : CommandLine.parse words = .ok r) (hparse' : CommandLine.parse words' = .ok r')
    (hsettings : w.settings r.config = w'.settings r'.config) (hsource : r.source = r'.source)
    (hargs : r.args = r'.args) (hseed : w.seed = w'.seed)
    (hdocument : w.document? r = w'.document? r') :
    (w.exit words).status = (w'.exit words').status ∧
      (w.exit words).terminal.output = (w'.exit words').terminal.output := by
  -- the configuration follows from the settings, so the evaluations are the same
  have houtcome : ∀ text, w'.outcome r' text = w.outcome r text := by
    intro text
    have hlast : ∀ {α : Type} (value? : Setting → Option α) (otherwise : α),
        w'.lastValue r'.config value? otherwise = w.lastValue r.config value? otherwise := by
      intro α value? otherwise
      rw [lastValue, lastValue, hsettings]
    simp only [outcome, evaluator, maxDepth, maxInvocations, requireEndElseIf, timezone, hlast,
      hsource, hargs, hseed]
  cases htext : w.document? r with
  | none =>
    obtain ⟨hstatus, houtput⟩ := exit_of_unread hparse htext
    obtain ⟨hstatus', houtput'⟩ := exit_of_unread hparse' (hdocument.symm.trans htext)
    exact ⟨hstatus.trans hstatus'.symm, houtput.trans houtput'.symm⟩
  | some text =>
    have htext' := hdocument.symm.trans htext
    cases hresult : w.outcome r text with
    | error e =>
      obtain ⟨hstatus, houtput⟩ := exit_of_error hparse htext hresult
      obtain ⟨hstatus', houtput'⟩ := exit_of_error hparse' htext' ((houtcome text).trans hresult)
      exact ⟨hstatus.trans hstatus'.symm, houtput.trans houtput'.symm⟩
    | ok e =>
      obtain ⟨hstatus, houtput⟩ := exit_of_ok hparse htext hresult
      obtain ⟨hstatus', houtput'⟩ := exit_of_ok hparse' htext' ((houtcome text).trans hresult)
      exact ⟨hstatus.trans hstatus'.symm, houtput.trans houtput'.symm⟩

/-- The exit status and the output follow the evaluation. The program exits with 2 where the command
line is rejected or the document cannot be read as text, with 1 where the evaluation of the document
fails, each time without output, and otherwise with 0 and the lines of the evaluation. Errors in a
configuration do not come into it: only its valid settings matter. -/
theorem exit_follows_outcome (w : World) (words : List Text) :
    ((w.exit words).status = 2 ↔ (∃ e, CommandLine.parse words = .error e) ∨
      ∃ r, CommandLine.parse words = .ok r ∧ w.document? r = none) ∧
    ((w.exit words).status = 1 ↔ ∃ r text e, CommandLine.parse words = .ok r ∧
      w.document? r = some text ∧ w.outcome r text = .error e) ∧
    ((w.exit words).status ≠ 0 → (w.exit words).terminal.output = []) ∧
    (∀ r text e, CommandLine.parse words = .ok r → w.document? r = some text →
      w.outcome r text = .ok e → (w.exit words).status = 0 ∧
        (w.exit words).terminal.output = e.shownLines.flatMap (· ++ ['\n'])) ∧
    (∀ (w' : World) words' r r', CommandLine.parse words = .ok r →
      CommandLine.parse words' = .ok r' → w.settings r.config = w'.settings r'.config →
      r.source = r'.source → r.args = r'.args → w.seed = w'.seed →
      w.document? r = w'.document? r' → (w.exit words).status = (w'.exit words').status ∧
        (w.exit words).terminal.output = (w'.exit words').terminal.output) := by
  rw [← and_assoc, ← and_assoc]
  refine ⟨?_, fun r text e => exit_of_ok, fun w' words' r r' => exit_congr⟩
  -- the cases exclude each other, and each has a status of its own
  rcases w.cases_exit words with ⟨e, hparse⟩ | ⟨r, hparse, hnone | ⟨text, htext, ⟨e, he⟩ | ⟨e, he⟩⟩⟩
  · simp [exit_of_rejected hparse, hparse]
  · simp [exit_of_unread hparse hnone, hparse, hnone]
  · simp [exit_of_error hparse htext he, hparse, htext, he]
  · simp [exit_of_ok hparse htext he, hparse, htext, he]

/-- The configuration of a user who allows three calls, another one where the program runs, a letter,
and four calls on the standard input. -/
def threeCalls : World where
  tree :=
    { workingDirectory := ["home".toList]
      directories := [[], ["etc".toList], ["home".toList]]
      files :=
        [(["etc".toList, "tmacro.conf".toList],
            .stored "timezone = Europe/Paris\nmax_invocations = 9x\nmax_invocations = 3\n".toUTF8),
          (["home".toList, "tmacro.conf".toList],
            .stored "timezone = Asia/Tokyo\nmax_invocations = 5\n".toUTF8),
          (["home".toList, "letter".toList],
            .stored "$addElement[embed;$args[1]]$timezone".toUTF8)] }
  configDirectory := some "/etc".toList
  seed := 0
  input := "$version$version$version$version".toUTF8

/-- Three calls of library functions are shown. A fourth one is an error with the user's configuration
and none without it, and there is no document where a directory is. -/
theorem threeCalls_exits :
    threeCalls.settings .search = [.timezone "Europe/Paris".toList, .maxInvocations 3] ∧
    (threeCalls.exit ["letter".toList, ['a']]).status = 0 ∧
    (threeCalls.exit ["letter".toList, ['a']]).terminal.output =
      "Europe/Paris\n[embed] a\n".toList ∧
    (threeCalls.exit []).status = 1 ∧ (threeCalls.exit []).terminal.output = [] ∧
    (threeCalls.exit ["-f".toList, ['-']]).status = 0 ∧
    (threeCalls.exit ["-f".toList, ['-']]).terminal.output = "0.1.00.1.00.1.00.1.0\n".toList ∧
    (threeCalls.exit ["/etc".toList]).status = 2 ∧
    (threeCalls.exit ["/etc".toList]).terminal.output = [] := by
  -- what an evaluation shows is computed, and the theorem says that this is the output
  have hshown : ∀ words r lines, CommandLine.parse words = .ok r →
      ((threeCalls.document? r).bind fun text =>
        (threeCalls.outcome r text).toOption.map (·.shownLines)) = some lines →
      (threeCalls.exit words).status = 0 ∧
        (threeCalls.exit words).terminal.output = lines.flatMap (· ++ ['\n']) := by
    intro words r lines hparse hlines
    obtain ⟨text, htext, hresult⟩ := Option.bind_eq_some_iff.1 hlines
    cases houtcome : threeCalls.outcome r text with
    | error e =>
      rw [houtcome] at hresult
      cases hresult
    | ok e =>
      rw [houtcome] at hresult
      obtain rfl : e.shownLines = lines := Option.some.inj hresult
      exact (exit_follows_outcome threeCalls words).2.2.2.1 r text e hparse htext houtcome
  have hletter := hshown ["letter".toList, ['a']] ⟨.search, .file "letter".toList, [['a']], false⟩
    ["Europe/Paris".toList, "[embed] a".toList] rfl (by decide +kernel)
  have hskipped := hshown ["-f".toList, ['-']] ⟨.skip, .standardInput, [], false⟩
    ["0.1.00.1.00.1.00.1.0".toList] rfl (by decide +kernel)
  -- the fourth call exceeds the limit of the user's configuration
  have hfourth : (threeCalls.exit []).status = 1 := by
    have hfailed : (threeCalls.outcome ⟨.search, .standardInput, [], false⟩
        "$version$version$version$version".toList).toOption.isNone := by
      decide +kernel
    cases houtcome : threeCalls.outcome ⟨.search, .standardInput, [], false⟩
        "$version$version$version$version".toList with
    | error e =>
      exact (exit_follows_outcome threeCalls []).2.1.2
        ⟨_, _, e, rfl, by decide +kernel, houtcome⟩
    | ok e =>
      rw [houtcome] at hfailed
      cases hfailed
  have hdirectory : (threeCalls.exit ["/etc".toList]).status = 2 :=
    (exit_follows_outcome threeCalls _).1.2
      (.inr ⟨⟨.search, .file "/etc".toList, [], false⟩, rfl, by decide +kernel⟩)
  have hsilent := fun words => (exit_follows_outcome threeCalls words).2.2.1
  exact ⟨by decide +kernel, hletter.1, hletter.2, hfourth, hsilent _ (by rw [hfourth]; decide),
    hskipped.1, hskipped.2, hdirectory, hsilent _ (by rw [hdirectory]; decide)⟩

end World

end Stencil
