import ObjectMachine.Code.Listing
import ObjectMachine.Image.Boot
import ObjectMachine.Scheduling.Run

namespace ObjectMachine

structure DoIt where
  name : String
  temps : List String := []
  body : List Expr
  deriving Inhabited

structure Program where
  classes : List ClassDefinition := []
  doIts : List DoIt
  deriving Inhabited

namespace Program

def loadClasses : List ClassDefinition → WorldAction Unit
  | [] => return
  | d :: ds => do
    let _ ← World.onImage (Image.loadClass d)
    loadClasses ds

def spawnAll : List DoIt → WorldAction (List Nat)
  | [] => return []
  | d :: ds => do
    let method ← World.onImage (Image.compileDoIt d.temps d.body)
    let id ← World.spawnMethod method .nil d.name
    return id :: (← spawnAll ds)

/-- Makes the classes and a process for each statement list; the numbers of the processes are
answered. -/
def load (p : Program) : WorldAction (List Nat) := do
  loadClasses p.classes
  spawnAll p.doIts

/-- The instance variables that a class of this program has, or else one of the image. A class
of the program is looked up by its first definition, and at most the given number of times. -/
def variablesOf (p : Program) (i : Image) : Nat → String → Except Fault (List String)
  | fuel, name =>
    match p.classes.find? (·.name == name) with
    | some d =>
      match fuel with
      | 0 => .error .endless
      | fuel + 1 => return (← p.variablesOf i fuel d.superclass) ++ d.instanceVariables
    | none => do
      match ← i.global? name with
      | some cls => i.heap.instanceVariables cls
      | none => return []

def compiledListing (r : Except (Stop CompileError) CodeTemplate) (head : String → String) :
    Except (Stop CompileError) String :=
  match r with
  | .error e => .error e
  | .ok t =>
    match t.listing with
    | .ok text => .ok (head t.selector ++ text)
    | .error e => .error (.failure (.listing e.message))

def sideListing (className side : String) (vars : List String) :
    List Method → Except (Stop CompileError) String
  | [] => return ""
  | m :: ms => do
    let text ← compiledListing (m.compile vars) fun selector =>
      className ++ side ++ ">>" ++ selector ++ "\n"
    return text ++ (← sideListing className side vars ms)

def classListings (p : Program) (i : Image) :
    List ClassDefinition → Except (Stop CompileError) String
  | [] => return ""
  | d :: ds => do
    let vars ← match p.variablesOf i p.classes.length d.name with
      | .ok names => pure names
      | .error f => throw (.fault f)
    let instanceSide ← sideListing d.name "" vars d.methods
    let classSide ← sideListing d.name " class" KernelClass.classVariables d.classMethods
    return instanceSide ++ classSide ++ (← classListings p i ds)

def doItListings : List DoIt → Except (Stop CompileError) String
  | [] => return ""
  | d :: ds => do
    let text ← compiledListing ((Image.doItMethod d.temps d.body).compile []) fun _ =>
      d.name ++ "\n"
    return text ++ (← doItListings ds)

/-- Lists every method and statement list without making anything. -/
def listing (p : Program) (i : Image) : Except (Stop CompileError) String := do
  return (← classListings p i p.classes) ++ (← doItListings p.doIts)

end Program

end ObjectMachine
