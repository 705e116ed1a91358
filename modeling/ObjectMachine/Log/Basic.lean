namespace ObjectMachine

/-- How much a line of the log matters. -/
inductive LogLevel where
  | error
  | warn
  | info
  | debug
  | trace
  deriving DecidableEq, Inhabited

namespace LogLevel

def all : List LogLevel := [.error, .warn, .info, .debug, .trace]

def name : LogLevel → String
  | .error => "ERROR"
  | .warn => "WARN"
  | .info => "INFO"
  | .debug => "DEBUG"
  | .trace => "TRACE"

/-- Zero for what matters most. -/
def rank : LogLevel → Nat
  | .error => 0
  | .warn => 1
  | .info => 2
  | .debug => 3
  | .trace => 4

end LogLevel

inductive LogOrigin where
  | commandLine
  | image
  | kernel
  | memory
  | machine
  | scheduler
  | timer
  deriving DecidableEq, Inhabited

/-- The name by which filters know an origin. -/
def LogOrigin.path : LogOrigin → String
  | .commandLine => "talc"
  | .image => "talc::runtime"
  | .kernel => "talc::kernel"
  | .memory => "talc::heap"
  | .machine => "talc::interpreter"
  | .scheduler => "talc::scheduler"
  | .timer => "talc::interrupt"

structure LogEntry where
  level : LogLevel
  origin : LogOrigin
  text : String
  deriving DecidableEq, Inhabited

def LogEntry.render (e : LogEntry) : String :=
  "[" ++ e.level.name ++ " " ++ e.origin.path ++ "] " ++ e.text ++ "\n"

end ObjectMachine
