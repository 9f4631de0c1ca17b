import Stencil.Config
import Stencil.Proofs.Separator
import Stencil.Proofs.Worklist
/-!
# Settings line by line

A text is read line by line, and texts that end with their last line can be put in front of others:
the lines follow one another (`lines_append`). So do the settings that the lines make, of which the
last one under a key counts (`setting_foldl`), and the errors, which keep their distance from the
first line (`errorsFrom_append`). What two texts come to one behind the other follows
(`parse_append`).

Every setting that a line makes is sound, and so is every configuration that is read
(`sound_parse`).
-/

namespace Stencil

namespace Text

/-! ### Lines -/

/-- The text has no line that is still to be ended. -/
def Ended (t : Text) : Prop := t = [] ∨ t.getLast? = some '\n'

/-- A line without the carriage return at its end, if there is one. -/
def dropReturn (line : Text) : Text := if line.getLast? = some '\r' then line.dropLast else line

/-- The last piece is a line only if it has characters. -/
theorem lines_of_split {t last : Text} {front : List Text}
    (h : split ['\n'] t = front ++ [last]) :
    lines t = front.map dropReturn ++ if last = [] then [] else [last] := by
  rw [lines, h, List.getLast?_concat, List.dropLast_concat]
  cases last with
  | nil => exact (List.append_nil _).symm
  | cons c last => rfl

/-- A split has a last piece. -/
theorem exists_split_eq_concat (t : Text) : ∃ front last, split ['\n'] t = front ++ [last] := by
  obtain ⟨first, more, hsplit, -⟩ := split_singleton '\n' t
  rw [hsplit]
  exact ⟨_, _, (List.dropLast_concat_getLast (List.cons_ne_nil first more)).symm⟩

/-- A text that ends with a break has the pieces in front of the break as its lines. -/
theorem lines_concat (t : Text) : lines (t ++ ['\n']) = (split ['\n'] t).map dropReturn := by
  have hsplit : split ['\n'] (t ++ ['\n']) = split ['\n'] t ++ [[]] := split_append_cons '\n' t []
  rw [lines_of_split hsplit, if_pos rfl, List.append_nil]

/-- Lines of a file that ends with its last line come before those of the file below. -/
theorem lines_append {above : Text} (h : Ended above) (below : Text) :
    lines (above ++ below) = lines above ++ lines below := by
  rcases h with rfl | hlast
  · rfl
  -- the break at the end of the upper file makes a piece of its own
  obtain ⟨above, rfl⟩ := List.getLast?_eq_some_iff.1 hlast
  obtain ⟨front, last, hsplit⟩ := exists_split_eq_concat below
  have hpieces : split ['\n'] (above ++ ['\n'] ++ below) =
      (split ['\n'] above ++ front) ++ [last] := by
    rw [List.append_assoc, List.append_assoc, ← hsplit]
    exact split_append_cons '\n' above below
  rw [lines_of_split hpieces, lines_of_split hsplit, lines_concat, List.map_append,
    List.append_assoc]

/-- A line without a break in it is one piece. -/
theorem split_of_line {line : Text} (h : '\n' ∉ line) : split ['\n'] line = [line] :=
  split_eq_singleton fun hbreak => h (hbreak.subset List.mem_cons_self)

/-- So it is one line, if it is not empty. -/
theorem lines_of_line {line : Text} (h : '\n' ∉ line) (hne : line ≠ []) : lines line = [line] := by
  have hsplit : split ['\n'] line = [] ++ [line] := split_of_line h
  rw [lines_of_split hsplit, if_neg hne]
  rfl

/-- A line with a line break behind it is the first line. -/
theorem lines_line_append {line : Text} (h : '\n' ∉ line) (below : Text) :
    lines (line ++ '\n' :: below) = dropReturn line :: lines below := by
  have hended : Ended (line ++ ['\n']) := .inr List.getLast?_concat
  rw [List.append_cons, lines_append hended, lines_concat, split_of_line h]
  rfl

end Text

namespace Setting

/-- What a setting sets. -/
inductive Key where
  | maxDepth
  | maxInvocations
  | timezone
  | requireEndElseIf
  | color
deriving DecidableEq, Repr

def key : Setting → Key
  | maxDepth _ => .maxDepth
  | maxInvocations _ => .maxInvocations
  | timezone _ => .timezone
  | requireEndElseIf _ => .requireEndElseIf
  | color _ => .color

/-- Counts are at least one, and a time zone is not empty and has no blanks in it. -/
def Sound : Setting → Prop
  | maxDepth n => 1 ≤ n
  | maxInvocations n => 1 ≤ n
  | timezone zone => zone ≠ [] ∧ ∀ c ∈ zone, isBlank c = false
  | requireEndElseIf _ => True
  | color _ => True

variable {k value raw : Text} {s : Setting}

/-! ### Settings of lines -/

/-- A count that is accepted is not zero. -/
theorem one_le_of_parseCount {n : Nat} (h : parseCount k value = .ok n) : 1 ≤ n := by
  unfold parseCount at h
  split at h
  · cases h
  · cases h
  · next hzero _ =>
    cases h
    exact Nat.one_le_iff_ne_zero.2 hzero

/-- A time zone that is accepted is not empty and has no blanks. -/
theorem sound_of_parseTimezone {zone : Text} (h : parseTimezone value = .ok zone) :
    (timezone zone).Sound := by
  unfold parseTimezone at h
  split at h
  · cases h
  · next hvalid =>
    cases h
    rw [Bool.or_eq_true, not_or, List.isEmpty_iff, List.any_eq_true] at hvalid
    exact ⟨hvalid.1, fun c hc => Bool.eq_false_iff.2 fun hblank => hvalid.2 ⟨c, hc, hblank⟩⟩

theorem exists_of_map_eq_ok {ε α β : Type} {x : Except ε α} {f : α → β} {b : β}
    (h : x.map f = .ok b) : ∃ a, x = .ok a ∧ f a = b := by
  cases x with
  | error e => cases h
  | ok a => exact ⟨a, rfl, Except.ok.inj h⟩

/-- A setting that is accepted is sound, whatever its key. -/
theorem sound_of_parse (h : parse k value = .ok s) : s.Sound := by
  unfold parse at h
  split at h
  -- the two counts, the time zone, the two switches, and unknown keys
  · obtain ⟨n, hn, rfl⟩ := exists_of_map_eq_ok h
    exact one_le_of_parseCount hn
  · obtain ⟨n, hn, rfl⟩ := exists_of_map_eq_ok h
    exact one_le_of_parseCount hn
  · obtain ⟨zone, hzone, rfl⟩ := exists_of_map_eq_ok h
    exact sound_of_parseTimezone hzone
  · obtain ⟨on, -, rfl⟩ := exists_of_map_eq_ok h
    trivial
  · obtain ⟨on, -, rfl⟩ := exists_of_map_eq_ok h
    trivial
  · cases h

/-- A line makes sound settings only. -/
theorem sound_of_ofLine (h : ofLine raw = .ok (some s)) : s.Sound := by
  unfold ofLine at h
  dsimp only at h
  split at h
  · cases h
  · split at h
    · obtain ⟨s', hs', heq⟩ := exists_of_map_eq_ok h
      obtain rfl := Option.some.inj heq
      exact sound_of_parse hs'
    · cases h

end Setting

namespace ConfigError

/-- The error in a text that stands below some lines. -/
def below (lines : Nat) (e : ConfigError) : ConfigError := { e with line := e.line + lines }

/-- The error of a line with its number. -/
def ofLine? (line : Text × Nat) : Option ConfigError :=
  match Setting.ofLine line.1 with
  | .ok _ => none
  | .error cause => some ⟨line.2, cause⟩

/-- An error tells the number of its line and the cause of the rejection. -/
theorem ofLine?_eq_some_iff {line : Text × Nat} {e : ConfigError} :
    ofLine? line = some e ↔ Setting.ofLine line.1 = .error e.cause ∧ line.2 = e.line := by
  unfold ofLine?
  cases Setting.ofLine line.1 with
  | ok setting => exact ⟨nofun, fun h => nomatch h.1⟩
  | error cause =>
    obtain ⟨number, cause'⟩ := e
    simp [and_comm]

/-- The number of a line does not decide whether it is rejected. -/
theorem ofLine?_below (n number : Nat) (line : Text) :
    ofLine? (line, number + n) = (ofLine? (line, number)).map (below n) := by
  unfold ofLine?
  dsimp only
  cases Setting.ofLine line <;> rfl

end ConfigError

namespace Config

variable {t above b : Text} {c : Config} {s : Setting} {k : Setting.Key} {e : ConfigError}

/-- The settings that a text makes: those of its valid lines. -/
def settings (t : Text) : List Setting :=
  (Text.lines t).filterMap fun line => (Setting.ofLine line).toOption.join

/-- The errors in a text, each with the number of its line. -/
def errors (t : Text) : List ConfigError := ((Text.lines t).zipIdx 1).filterMap ConfigError.ofLine?

/-- A line makes a setting, or an error, or neither. -/
theorem applyLines_eq (c : Config) (found : List ConfigError) (number : Nat)
    (lines : List Text) :
    applyLines c found number lines =
      ((lines.filterMap fun line => (Setting.ofLine line).toOption.join).foldl apply c,
        ((lines.zipIdx number).filterMap ConfigError.ofLine?).reverse ++ found) := by
  induction lines generalizing c found number with
  | nil => rfl
  | cons line lines ih =>
    rw [applyLines, List.zipIdx_cons]
    cases hline : Setting.ofLine line with
    -- a rejected line adds an error and leaves the configuration
    | error cause =>
      have herror : ConfigError.ofLine? (line, number) = some ⟨number, cause⟩ :=
        ConfigError.ofLine?_eq_some_iff.2 ⟨hline, rfl⟩
      rw [List.filterMap_cons_none (by rw [hline]; rfl), List.filterMap_cons_some herror,
        List.reverse_cons, List.append_assoc]
      exact ih _ _ _
    | ok setting =>
      have hnone : ConfigError.ofLine? (line, number) = none := by
        rw [ConfigError.ofLine?, hline]
      rw [List.filterMap_cons_none hnone]
      -- an empty line, a comment, or a setting
      cases setting with
      | none => rw [List.filterMap_cons_none (by rw [hline]; rfl)]; exact ih _ _ _
      | some s => rw [List.filterMap_cons_some (by rw [hline]; rfl)]; exact ih _ _ _

/-- An invalid line makes no setting; the others count in their order. -/
theorem parse_fst (t : Text) : (parse t).1 = (settings t).foldl apply .default :=
  congrArg Prod.fst (applyLines_eq .default [] 1 (Text.lines t))

/-- The errors of a text are those of its lines, in their order. -/
theorem parse_snd (t : Text) : (parse t).2 = errors t := by
  show (applyLines .default [] 1 (Text.lines t)).2.reverse = errors t
  rw [applyLines_eq, List.append_nil, List.reverse_reverse]
  rfl

example : settings "max_depth = 0\nnothing\nmax_depth = 2\n".toList = [.maxDepth 2] := by
  decide +kernel

/-- A setting of a text is one of a line. -/
theorem mem_settings : s ∈ settings t ↔ ∃ line ∈ Text.lines t, Setting.ofLine line = .ok (some s) := by
  rw [settings, List.mem_filterMap]
  refine exists_congr fun line => and_congr_right fun _ => ?_
  cases Setting.ofLine line with
  | error cause => exact ⟨nofun, nofun⟩
  | ok setting => exact ⟨congrArg Except.ok, Except.ok.inj⟩

/-- The settings of two files are those of the upper one and then those of the lower one. -/
theorem settings_append (h : above.Ended) (b : Text) :
    settings (above ++ b) = settings above ++ settings b := by
  rw [settings, Text.lines_append h, List.filterMap_append]
  rfl

/-! ### The last setting counts -/

/-- What a configuration has under a key, as the setting that makes it so. -/
def setting (c : Config) : Setting.Key → Setting
  | .maxDepth => .maxDepth c.limits.depth
  | .maxInvocations => .maxInvocations c.limits.invocations
  | .timezone => .timezone c.timezone
  | .requireEndElseIf => .requireEndElseIf c.requireEndElseIf
  | .color => .color c.color

/-- A setting is seen under its own key only. -/
theorem setting_apply (c : Config) (s : Setting) (k : Setting.Key) :
    (c.apply s).setting k = if s.key = k then s else c.setting k := by
  cases s <;> cases k <;> rfl

/-- By induction on the settings from the last one on. -/
theorem setting_foldl (c : Config) (ss : List Setting) (k : Setting.Key) :
    (ss.foldl apply c).setting k = (ss.reverse.find? (·.key = k)).getD (c.setting k) := by
  induction ss using List.reverseRecOn with
  | nil => rfl
  | append_singleton ss s ih =>
    rw [List.foldl_append, List.foldl_cons, List.foldl_nil, setting_apply, ih,
      List.reverse_append, List.reverse_singleton, List.singleton_append, List.find?_cons]
    by_cases hkey : s.key = k <;> simp [hkey]

/-- Some line of the text is a valid setting for the key. -/
def Sets (t : Text) (k : Setting.Key) : Prop :=
  ∃ line ∈ Text.lines t, ∃ s, Setting.ofLine line = .ok (some s) ∧ s.key = k

/-- A file sets a key where one of its lines does. -/
theorem sets_iff : Sets t k ↔ ∃ s ∈ settings t, s.key = k := by
  simp only [Sets, mem_settings]
  exact ⟨fun ⟨line, hline, s, hs, hkey⟩ => ⟨s, ⟨line, hline, hs⟩, hkey⟩,
    fun ⟨s, ⟨line, hline, hs⟩, hkey⟩ => ⟨line, hline, s, hs, hkey⟩⟩

/-- A key that the lower file sets has the value from there, any other one that from the upper
file. -/
theorem setting_parse_append (h : above.Ended) (b : Text) (k : Setting.Key) :
    (Sets b k → (parse (above ++ b)).1.setting k = (parse b).1.setting k) ∧
      (¬ Sets b k → (parse (above ++ b)).1.setting k = (parse above).1.setting k) := by
  have hlast := fun c => setting_foldl c (settings b) k
  rw [parse_fst, parse_fst, parse_fst, settings_append h, List.foldl_append, hlast, hlast, sets_iff]
  constructor
  -- the last setting under the key is one of the lower file
  · rintro ⟨s, hs, hkey⟩
    have hfound : ((settings b).reverse.find? (·.key = k)).isSome := by
      rw [List.find?_isSome]
      exact ⟨s, List.mem_reverse.2 hs, decide_eq_true hkey⟩
    obtain ⟨last, heq⟩ := Option.isSome_iff_exists.1 hfound
    rw [heq]
    rfl
  · intro hnone
    -- there is none in the lower file, so the upper one decides
    have hmissing : (settings b).reverse.find? (·.key = k) = none := by
      rw [List.find?_eq_none]
      exact fun s hs hkey => hnone ⟨s, List.mem_reverse.1 hs, of_decide_eq_true hkey⟩
    rw [hmissing]
    rfl

/-! ### Errors -/

/-- The errors of a text that stands below others keep their distance from its first line. -/
theorem errors_append (h : above.Ended) (b : Text) :
    errors (above ++ b) = errors above ++ (errors b).map (·.below (Text.lines above).length) := by
  have hbelow : ((Text.lines b).zipIdx (1 + (Text.lines above).length)).filterMap
      ConfigError.ofLine? = (errors b).map (·.below (Text.lines above).length) := by
    rw [Nat.add_comm 1, ← List.map_snd_add_zipIdx_eq_zipIdx, List.filterMap_map, errors,
      List.map_filterMap]
    exact List.filterMap_congr fun line _ => ConfigError.ofLine?_below _ line.2 line.1
  rw [errors, Text.lines_append h, List.zipIdx_append, List.filterMap_append, hbelow]
  rfl

/-- An error is that of the line with its number. -/
theorem mem_errors : e ∈ errors t ↔ 1 ≤ e.line ∧ ∃ line, (Text.lines t)[e.line - 1]? = some line ∧
    Setting.ofLine line = .error e.cause := by
  rw [errors, List.mem_filterMap]
  constructor
  · rintro ⟨⟨line, number⟩, hmem, herror⟩
    obtain ⟨hcause, rfl⟩ := ConfigError.ofLine?_eq_some_iff.1 herror
    obtain ⟨hpos, hline⟩ := List.mk_mem_zipIdx_iff_le_and_getElem?_sub.1 hmem
    exact ⟨hpos, line, hline, hcause⟩
  · rintro ⟨hpos, line, hline, hcause⟩
    exact ⟨(line, e.line), List.mk_mem_zipIdx_iff_le_and_getElem?_sub.2 ⟨hpos, hline⟩,
      ConfigError.ofLine?_eq_some_iff.2 ⟨hcause, rfl⟩⟩

/-! ### Rejected lines -/

/-- A line that is not empty is the first one, whatever is below it. -/
theorem exists_lines_eq_cons {line rest : Text} (hline : '\n' ∉ line) (hne : line ≠ [])
    (hrest : rest = [] ∨ rest.head? = some '\n') :
    ∃ first, (Text.lines (line ++ rest)).head? = some first ∧
      settings (line ++ rest) = (Setting.ofLine first).toOption.join.toList ++ settings rest := by
  -- only the first line is in question; the others make the same settings
  have hsettings : ∀ {t first more}, Text.lines t = first :: more →
      settings t = (Setting.ofLine first).toOption.join.toList ++
        more.filterMap fun line => (Setting.ofLine line).toOption.join := by
    intro t first more hlines
    rw [settings, hlines, List.filterMap_cons]
    cases (Setting.ofLine first).toOption.join <;> rfl
  rcases hrest with rfl | hbreak
  · have hlines : Text.lines (line ++ []) = [line] := by
      rw [List.append_nil, Text.lines_of_line hline hne]
    exact ⟨line, by rw [hlines]; rfl, hsettings hlines⟩
  · obtain ⟨below, rfl⟩ := List.head?_eq_some_iff.1 hbreak
    have hlines := Text.lines_line_append hline below
    -- without the line an empty one is left
    have hempty : settings ('\n' :: below) = settings below :=
      hsettings (Text.lines_line_append List.not_mem_nil below)
    refine ⟨_, by rw [hlines]; rfl, ?_⟩
    rw [hsettings hlines, hempty]
    rfl

/-- A line that is rejected makes no setting. -/
theorem settings_of_rejected (h : above.Ended) {line rest : Text} (hline : '\n' ∉ line)
    (hrest : rest = [] ∨ rest.head? = some '\n') (he : e ∈ errors (above ++ (line ++ rest)))
    (hnumber : e.line = (Text.lines above).length + 1) :
    settings (above ++ (line ++ rest)) = settings (above ++ rest) := by
  by_cases hne : line = []
  · rw [hne, List.nil_append]
  obtain ⟨first, hfirst, hsettings⟩ := exists_lines_eq_cons hline hne hrest
  obtain ⟨-, found, hfound, herror⟩ := mem_errors.1 he
  -- the line of the error is the line in question
  obtain rfl : first = found := by
    rw [hnumber, Nat.add_sub_cancel, Text.lines_append h, List.getElem?_append_right le_rfl,
      Nat.sub_self, ← List.head?_eq_getElem?, hfirst] at hfound
    exact Option.some.inj hfound
  rw [settings_append h, settings_append h, hsettings, herror]
  rfl

/-! ### Sound configurations -/

/-- The defaults pass their own checks. -/
theorem sound_setting_default (k : Setting.Key) : (default.setting k).Sound := by
  cases k with
  | maxDepth => exact (by decide : 1 ≤ 64)
  | maxInvocations => exact (by decide : 1 ≤ 10000)
  | timezone => exact ⟨by decide, by simp [default, isBlank]⟩
  | requireEndElseIf => trivial
  | color => trivial

/-- Every setting of a configuration is sound: it is a default or that of a line. -/
theorem sound_parse (t : Text) (k : Setting.Key) : ((parse t).1.setting k).Sound := by
  rw [parse_fst, setting_foldl]
  cases hfound : (settings t).reverse.find? (·.key = k) with
  | none => exact sound_setting_default k
  | some s =>
    obtain ⟨line, -, hline⟩ := mem_settings.1 (List.mem_reverse.1 (List.mem_of_find?_eq_some hfound))
    exact Setting.sound_of_ofLine hline

/-- Files compose line by line. With one text above another the errors are those of the upper one and
then those of the lower one, with their lines counted on; what the lower one sets counts, and for the
rest what the upper one sets. A line that is rejected sets nothing: it might as well be empty. And
whatever a text says, its limits are at least one and its time zone is a word. -/
theorem files_compose (h : above.Ended) (b : Text) :
    (parse (above ++ b)).2 =
      (parse above).2 ++ (parse b).2.map (·.below (Text.lines above).length) ∧
    (∀ k, (Sets b k → (parse (above ++ b)).1.setting k = (parse b).1.setting k) ∧
      (¬ Sets b k → (parse (above ++ b)).1.setting k = (parse above).1.setting k)) ∧
    (∀ line rest, '\n' ∉ line → (rest = [] ∨ rest.head? = some '\n') →
      (∃ e ∈ (parse (above ++ (line ++ rest))).2, e.line = (Text.lines above).length + 1) →
      (parse (above ++ (line ++ rest))).1 = (parse (above ++ rest)).1) ∧
    ∀ t, 1 ≤ (parse t).1.limits.depth ∧ 1 ≤ (parse t).1.limits.invocations ∧
      (parse t).1.timezone ≠ [] ∧ ∀ c ∈ (parse t).1.timezone, isBlank c = false := by
  refine ⟨?_, setting_parse_append h b, ?_, fun t => ?_⟩
  · rw [parse_snd, parse_snd, parse_snd, errors_append h]
  · rintro line rest hline hrest ⟨e, he, hnumber⟩
    rw [parse_snd] at he
    rw [parse_fst, parse_fst, settings_of_rejected h hline hrest he hnumber]
  · exact ⟨sound_parse t .maxDepth, sound_parse t .maxInvocations, sound_parse t .timezone⟩

instance (t : Text) (k : Setting.Key) : Decidable (Sets t k) := decidable_of_iff _ sets_iff.symm

theorem lower_file_counts :
    let upper : Text := "; ours\nmax_depth = 3\ncolor = off\n".toList
    let lower : Text := "max_depth = 0\nMAX_DEPTH = \"5\"\r\ntimezone = a b".toList
    upper.Ended ∧ (parse (upper ++ lower)).2.map (·.line) = [4, 6] ∧
      (parse (upper ++ lower)).1.setting .maxDepth = .maxDepth 5 ∧
      (parse (upper ++ lower)).1.setting .color = .color false ∧
      (parse (upper ++ lower)).1 = (parse (upper ++ lower.drop 13)).1 := by
  intro upper lower
  have hended : upper.Ended := .inr (by decide)
  obtain ⟨herrors, hsettings, hrejected, -⟩ := files_compose hended lower
  have hreported : ∃ e ∈ (parse (upper ++ lower)).2, e.line = (Text.lines upper).length + 1 := by
    decide +kernel
  refine ⟨hended, ?_, ?_, ?_, ?_⟩
  · rw [herrors]
    decide +kernel
  · rw [(hsettings .maxDepth).1 (by decide +kernel)]
    decide +kernel
  · rw [(hsettings .color).2 (by decide +kernel)]
    decide +kernel
  · exact hrejected "max_depth = 0".toList (lower.drop 13) (by decide) (.inr rfl) hreported

end Config

end Stencil
