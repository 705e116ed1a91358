import ObjectMachine.Demo
import ObjectMachine.Log.Watch

namespace ObjectMachine.CommandLine

/-- Options that take a value. -/
inductive Setting where
  | timeSlice
  | arenaWords
  | logLevel
  deriving DecidableEq

structure Options where
  demos : List String := []
  list : Bool := false
  disassemble : Bool := false
  quiet : Bool := false
  timeSlice : Option Nat := none
  arenaWords : Option Nat := none
  logLevel : Option String := none

inductive Request where
  | run (options : Options)
  | version
  | help
  | refused

/-- A decimal number of at most 64 bits, with or without a plus sign. -/
def parseNumber (s : String) : Option Nat :=
  let digits := match s.toList with
    | '+' :: rest => rest
    | cs => cs
  if digits.isEmpty || !digits.all Char.isDigit then none
  else
    let n := digits.foldl (fun acc c => acc * 10 + (c.toNat - '0'.toNat)) 0
    if n < wordModulus then some n else none

/-- Gives an option its value. No option may be given twice. -/
def assign (o : Options) (value : String) : Setting → Option Options
  | .timeSlice => do
    guard o.timeSlice.isNone
    return { o with timeSlice := some (← parseNumber value) }
  | .arenaWords => do
    guard o.arenaWords.isNone
    return { o with arenaWords := some (← parseNumber value) }
  | .logLevel => do
    guard o.logLevel.isNone
    return { o with logLevel := some value }

inductive LongOption where
  | switched (options : Options)
  | setting (setting : Setting)
  | version
  | help

def longOption (o : Options) : String → Option LongOption
  | "list" => if o.list then none else some (.switched { o with list := true })
  | "disassemble" =>
    if o.disassemble then none else some (.switched { o with disassemble := true })
  | "quiet" => if o.quiet then none else some (.switched { o with quiet := true })
  | "time-slice-ms" => some (.setting .timeSlice)
  | "arena-words" => some (.setting .arenaWords)
  | "log-level" => some (.setting .logLevel)
  | "version" => some .version
  | "help" => some .help
  | _ => none

/-- Reads one-letter options that stand together. -/
def shortOptions (o : Options) : List Char → Request
  | [] => .run o
  | 'q' :: rest => if o.quiet then .refused else shortOptions { o with quiet := true } rest
  | 'V' :: _ => .version
  | 'h' :: _ => .help
  | _ => .refused

/-- Whether an argument looks like an option. -/
def isOption (s : String) : Bool :=
  match s.toList with
  | '-' :: _ :: _ => true
  | _ => false

/-- Splits a long option at its equals sign. -/
def splitValue (cs : List Char) : String × Option String :=
  match cs.span (· != '=') with
  | (name, _ :: value) => (String.ofList name, some (String.ofList value))
  | (name, []) => (String.ofList name, none)

/-- Reads the arguments from left to right; `pending` is an option that waits for its value. -/
def parse (o : Options) (pending : Option Setting) : List String → Request
  | [] => if pending.isSome then .refused else .run o
  | arg :: rest =>
    match pending with
    | some s =>
      if isOption arg then .refused
      else match assign o arg s with
        | some o => parse o none rest
        | none => .refused
    | none =>
      match arg.toList with
      | ['-', '-'] => .run { o with demos := o.demos ++ rest }
      | '-' :: '-' :: name =>
        let (name, value) := splitValue name
        match longOption o name, value with
        | some (.switched o), none => parse o none rest
        | some (.setting s), none => parse o (some s) rest
        | some (.setting s), some value =>
          match assign o value s with
          | some o => parse o none rest
          | none => .refused
        | some .version, none => .version
        | some .help, none => .help
        | _, _ => .refused
      | '-' :: c :: cs =>
        match shortOptions o (c :: cs) with
        | .run o => parse o none rest
        | other => other
      | _ => parse { o with demos := o.demos ++ [arg] } none rest

/-- What a run prints, and its exit status. -/
structure Output where
  stdout : String := ""
  stderr : String := ""
  status : Nat := 0

def versionText : String := "talc 0.1.0\n"

def usage : String :=
  "Usage: talc [--list] [--disassemble] [--time-slice-ms N] [--arena-words N] " ++
    "[--log-level L] [-q] [DEMO]...\n"

/-- A text filled with blanks up to a width. -/
def padded (width : Nat) (s : String) : String :=
  s ++ String.ofList (List.replicate (width - s.length) ' ')

def listing : String :=
  String.join (Demo.all.map fun d =>
    (if d.byDefault then " " else "*") ++ " " ++ padded 12 d.name ++ " " ++ d.about ++ "\n")

abbrev instructionsPerMillisecond : Nat := 10000

def timerOf (milliseconds : Nat) : Timer :=
  if milliseconds = 0 then .never else .every (milliseconds * instructionsPerMillisecond)

/-- The filter of the log. Without one of its own nothing is told. -/
def Options.logFilter (o : Options) : LogFilter × List LogFilterError :=
  match o.logLevel with
  | some text => LogFilter.silent.adjust text
  | none => (.silent, [])

/-- What is said about parts of the filter that are not understood. -/
def Options.warnings (o : Options) : String :=
  String.join (o.logFilter.2.map fun e => "warning: " ++ e.message ++ ", ignoring it\n")

def Options.slice (o : Options) : Nat := o.timeSlice.getD 10

structure DemoRun where
  shown : String := ""
  log : List LogEntry := []
  failure : Option (Stop RuntimeError) := none

/-- The wording of what stopped a demo. -/
def stopText : Stop RuntimeError → String
  | .failure e => e.message
  | .fault f => f.message?.getD "fault"

/-- The lines that a program showed. -/
def transcriptText (o : Options) (w : World) : String :=
  if o.quiet then "" else String.join (w.image.transcript.toList.map (· ++ "\n"))

def resultText (w : World) (ids : List Nat) : String :=
  String.join (ids.map fun id =>
    match w.schedule.result? id with
    | some v =>
      match w.image.printString v with
      | .ok text => "=> " ++ text ++ "\n"
      | .error _ => ""
    | none => "")

def runProgram (o : Options) (fuel : Nat) (p : Program) (w : World) : DemoRun :=
  match p.load w with
  | .error e w => { log := Log.ofLoading p w, failure := some e }
  | .ok ids w =>
    let loading := Log.ofLoading p w
    let filter := o.logFilter.1
    let run := Watch.runQueue filter (timerOf o.slice) fuel fuel
    match Watch.withTimer filter o.slice run ⟨w, #[]⟩ with
    | .ok _ ⟨w, log⟩ =>
      { shown := transcriptText o w ++ resultText w ids
        log := loading ++ log.toList ++ [Log.ofTotals w.image.heap] }
    | .error e ⟨w, log⟩ =>
      { shown := transcriptText o w
        log := loading ++ log.toList
        failure := some e }

def runOn (o : Options) (fuel : Nat) (d : Demo) (image : Image) : DemoRun :=
  let head := "== " ++ d.name ++ " ==\n"
  if o.disassemble then
    match d.program.listing image with
    | .ok text => { shown := head ++ text }
    | .error e => { shown := head, failure := some (e.map .compile) }
  else
    let run := runProgram o fuel d.program { image }
    { run with shown := head ++ run.shown }

def runDemo (o : Options) (fuel : Nat) (d : Demo) : DemoRun :=
  let defaults : HeapSettings := {}
  let settings := { defaults with arenaWords := o.arenaWords.getD defaults.arenaWords }
  match Image.blank settings with
  | .error e => { failure := some e }
  | .ok image =>
    match Image.setUp image with
    | .error e image => { log := Log.ofBoot image false, failure := some e }
    | .ok _ image =>
      let log := Log.ofBoot image true
      let run := runOn o fuel d image
      { run with log := log ++ run.log }

def runDemos (o : Options) (fuel : Nat) : List Demo → Output
  | [] => {}
  | d :: ds =>
    let run := runDemo o fuel d
    let log := o.logFilter.1.render run.log
    match run.failure with
    | none =>
      let rest := runDemos o fuel ds
      { stdout := run.shown ++ rest.stdout
        stderr := log ++ rest.stderr
        status := rest.status }
    | some e =>
      { stdout := run.shown
        stderr := log ++ "Error in demo " ++ d.name ++ ": " ++ stopText e ++ "\n"
        status := 1 }

/-- The demos of the given names, or the first name that belongs to none. -/
def select : List String → Except String (List Demo)
  | [] => .ok []
  | name :: names =>
    match Demo.find? name with
    | some d => return d :: (← select names)
    | none => .error name

def runSelected (o : Options) (fuel : Nat) : Output :=
  let selected :=
    if o.demos.isEmpty then .ok (Demo.all.filter (·.byDefault)) else select o.demos
  match selected with
  | .error name => { stderr := s!"Unknown demo '{name}', try --list\n", status := 1 }
  | .ok demos => runDemos o fuel demos

def run (fuel : Nat) (args : List String) : Output :=
  match parse {} none args with
  | .refused => { stderr := usage, status := 2 }
  | .version => { stdout := versionText }
  | .help => { stdout := usage }
  | .run o =>
    let out := if o.list then { stdout := listing } else runSelected o fuel
    { out with stderr := o.warnings ++ out.stderr }

end ObjectMachine.CommandLine
