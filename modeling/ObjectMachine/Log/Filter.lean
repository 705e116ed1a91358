import ObjectMachine.Log.Basic
import ObjectMachine.Text.Blank
import ObjectMachine.Text.Pattern.Read

namespace ObjectMachine

/-- A limit on lines. Without a name it is meant for every origin, and without a level it lets
nothing pass. -/
structure LogDirective where
  name : Option String := none
  limit : Option LogLevel := none
  deriving DecidableEq, Inhabited

inductive LogFilterError where
  | part (text : String)
  | slashes (text : String)
  | pattern (text : String)
  deriving DecidableEq

def LogFilterError.message : LogFilterError → String
  | .part text => s!"invalid logging spec '{text}'"
  | .slashes text => s!"invalid logging spec '{text}' (too many '/'s)"
  | .pattern text => s!"invalid regex filter - {text}"

namespace LogDirective

/-- The level of a name, in capitals or not. The inner option is empty for the name that turns
the log off. -/
def limit? (name : String) : Option (Option LogLevel) :=
  if name.toUpper = "OFF" then some none
  else (LogLevel.all.find? (·.name == name.toUpper)).map some

/-- Reads a directive: a level, a name, or both around an equals sign. A name alone lets
everything pass. -/
def parse (text : String) : Except LogFilterError LogDirective :=
  match text.splitOn "=" with
  | [part] =>
    match limit? part with
    | some limit => .ok { limit }
    | none => .ok { name := part, limit := some .trace }
  | [name, limit] =>
    let limit := Text.trimmed limit
    if limit.isEmpty then .ok { name, limit := some .trace }
    else
      match limit? limit with
      | some limit => .ok { name, limit }
      | none => .error (.part limit)
  | _ => .error (.part text)

def appliesTo (d : LogDirective) (origin : LogOrigin) : Bool :=
  match d.name with
  | some name => name.toList.isPrefixOf origin.path.toList
  | none => true

def nameLength (d : LogDirective) : Nat := (d.name.map String.length).getD 0

/-- Adds a directive; it takes the place of one of the same name. -/
def addTo (d : LogDirective) : List LogDirective → List LogDirective
  | [] => [d]
  | e :: es => if e.name = d.name then d :: es else e :: addTo d es

/-- The directive that decides about an origin: the one of the longest name, and of several the
last. -/
def deciding? (origin : LogOrigin) : List LogDirective → Option LogDirective
  | [] => none
  | d :: ds =>
    match deciding? origin ds with
    | some e => if d.appliesTo origin && e.nameLength < d.nameLength then some d else some e
    | none => if d.appliesTo origin then some d else none

end LogDirective

structure LogFilter where
  directives : List LogDirective
  pattern : Option Text.Pattern := none

namespace LogFilter

/-- Lets nothing pass. -/
def silent : LogFilter := { directives := [{}] }

/-- Adds directives; those that are not understood are left out. -/
def addAll (directives : List LogDirective) :
    List String → List LogDirective × List LogFilterError
  | [] => (directives, [])
  | part :: parts =>
    let text := Text.trimmed part
    if text.isEmpty then addAll directives parts
    else
      match LogDirective.parse text with
      | .ok d => addAll (d.addTo directives) parts
      | .error e =>
        let (directives, errors) := addAll directives parts
        (directives, e :: errors)

/-- Reads directives between commas, and a pattern after a slash. What is not understood is left
out and reported. -/
def adjust (f : LogFilter) (text : String) : LogFilter × List LogFilterError :=
  match text.splitOn "/" with
  | [parts] =>
    let (directives, errors) := addAll f.directives (parts.splitOn ",")
    ({ directives }, errors)
  | [parts, pattern] =>
    let (directives, errors) := addAll f.directives (parts.splitOn ",")
    match Text.Pattern.parse? pattern with
    | some p => ({ directives, pattern := some p }, errors)
    | none => ({ directives }, errors ++ [.pattern pattern])
  | _ => ({ directives := f.directives }, [.slashes text])

/-- Whether lines of a level and an origin pass, as far as their text allows it. -/
def admits (f : LogFilter) (level : LogLevel) (origin : LogOrigin) : Bool :=
  match (LogDirective.deciding? origin f.directives).bind (·.limit) with
  | some limit => decide (level.rank ≤ limit.rank)
  | none => false

def passes (f : LogFilter) (e : LogEntry) : Bool :=
  f.admits e.level e.origin && f.pattern.all (·.occursIn e.text)

def render (f : LogFilter) (entries : List LogEntry) : String :=
  String.join ((entries.filter f.passes).map (·.render))

end LogFilter

end ObjectMachine
