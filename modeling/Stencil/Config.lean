import Stencil.Evaluation.Session
import Stencil.Numeral.Integer
import Stencil.Text.Blank
/-!
# Configuration

A configuration file has one setting on a line, `key = value`. Lines that start with a semicolon are
comments. The value may stand in double quotes, inside of which a backslash makes the next character
stand for itself.

A line that is no valid setting is reported with its number and changes nothing; the other lines
still count, and of two settings for one key the later one.
-/

namespace Stencil

structure Config where
  limits : Limits
  timezone : Text
  /-- Whether every `$elseif` needs its `$endelseif`. -/
  requireEndElseIf : Bool
  /-- Whether a terminal shows diagnostics in red. -/
  color : Bool
deriving DecidableEq, Repr

inductive Setting where
  | maxDepth (n : Nat)
  | maxInvocations (n : Nat)
  | timezone (zone : Text)
  | requireEndElseIf (on : Bool)
  | color (on : Bool)
deriving DecidableEq, Repr

inductive SettingError where
  | noSetting (line : Text)
  | unknownKey (key : Text)
  | notNumber (key value : Text)
  | zero (key : Text)
  | badTimezone (value : Text)
  | notFlag (key value : Text)
deriving DecidableEq, Repr

def SettingError.message : SettingError → String
  | noSetting line => "expected `key = value`, got `" ++ line.string ++ "`"
  | unknownKey key => "unknown key `" ++ key.string ++ "`"
  | notNumber key value => key.string ++ ": expected a number, got `" ++ value.string ++ "`"
  | zero key => key.string ++ ": must be at least 1"
  | badTimezone value => "timezone: invalid value `" ++ value.string ++ "`"
  | notFlag key value => key.string ++ ": expected on or off, got `" ++ value.string ++ "`"

namespace Setting

/-- A count that is at least one. -/
def parseCount (key value : Text) : Except SettingError Nat :=
  match Numeral.count? value with
  | none => .error (.notNumber key value)
  | some 0 => .error (.zero key)
  | some n => .ok n

/-- A switch, in words or digits and either case. -/
def parseFlag (key value : Text) : Except SettingError Bool :=
  let word := (Text.lowerAscii value).string
  if word ∈ ["on", "yes", "true", "1"] then .ok true
  else if word ∈ ["off", "no", "false", "0"] then .ok false
  else .error (.notFlag key value)

/-- A time zone has no blanks in it and is not empty. -/
def parseTimezone (value : Text) : Except SettingError Text :=
  if value.isEmpty || value.any isBlank then .error (.badTimezone value) else .ok value

def parse (key value : Text) : Except SettingError Setting :=
  match key.string with
  | "max_depth" => (parseCount key value).map maxDepth
  | "max_invocations" => (parseCount key value).map maxInvocations
  | "timezone" => (parseTimezone value).map timezone
  | "require_endelseif" => (parseFlag key value).map requireEndElseIf
  | "color" => (parseFlag key value).map color
  | _ => .error (.unknownKey key)

/-- The characters inside of quotes; a backslash is dropped and the next character taken as it is.
-/
def unquoteInner : Text → Text
  | [] => []
  | '\\' :: [] => []
  | '\\' :: c :: cs => c :: unquoteInner cs
  | c :: cs => c :: unquoteInner cs

/-- A value without the double quotes around it, if it has them. -/
def unquote (value : Text) : Text :=
  match value with
  | '"' :: rest => if rest.getLast? = some '"' then unquoteInner rest.dropLast else value
  | _ => value

/-- The setting on a line, `none` for a blank line or a comment. -/
def ofLine (raw : Text) : Except SettingError (Option Setting) :=
  let line := Text.trim raw
  if line.isEmpty || line.head? = some ';' then .ok none
  else if '=' ∈ line then
    let key := Text.lowerAscii (Text.trim (line.takeWhile (· != '=')))
    let value := unquote (Text.trim ((line.dropWhile (· != '=')).drop 1))
    (parse key value).map some
  else .error (.noSetting line)

end Setting

structure ConfigError where
  line : Nat
  cause : SettingError
deriving DecidableEq, Repr

namespace ConfigError

def message (e : ConfigError) : String := e.cause.message

def text (e : ConfigError) : String := s!"line {e.line}: " ++ e.message

end ConfigError

namespace Config

def default : Config := ⟨.default, ['U', 'T', 'C'], false, true⟩

def apply (c : Config) : Setting → Config
  | .maxDepth n => { c with limits := { c.limits with depth := n } }
  | .maxInvocations n => { c with limits := { c.limits with invocations := n } }
  | .timezone zone => { c with timezone := zone }
  | .requireEndElseIf on => { c with requireEndElseIf := on }
  | .color on => { c with color := on }

def set (c : Config) (key value : Text) : Except SettingError Config :=
  (Setting.parse key value).map c.apply

/-- The configuration after further lines, and the errors in them, the latest first. -/
def applyLines (c : Config) (errors : List ConfigError) (number : Nat) :
    List Text → Config × List ConfigError
  | [] => (c, errors)
  | line :: rest =>
    match Setting.ofLine line with
    | .ok none => applyLines c errors (number + 1) rest
    | .ok (some s) => applyLines (c.apply s) errors (number + 1) rest
    | .error cause => applyLines c (⟨number, cause⟩ :: errors) (number + 1) rest

/-- The configuration that a file writes, and the errors in it. -/
def parse (t : Text) : Config × List ConfigError :=
  let (c, errors) := applyLines .default [] 1 (Text.lines t)
  (c, errors.reverse)

end Config

end Stencil
