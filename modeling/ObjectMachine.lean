import ObjectMachine.Code.Assembler
import ObjectMachine.Code.Compile
import ObjectMachine.Code.Decode
import ObjectMachine.Code.Instruction
import ObjectMachine.Code.Listing
import ObjectMachine.Code.Opcode
import ObjectMachine.Code.Primitive
import ObjectMachine.Code.Template
import ObjectMachine.CommandLine
import ObjectMachine.Demo
import ObjectMachine.Image.Basic
import ObjectMachine.Image.Boot
import ObjectMachine.Image.Context
import ObjectMachine.Image.Define
import ObjectMachine.Image.Kernel
import ObjectMachine.Image.Load
import ObjectMachine.Image.Print
import ObjectMachine.Language.CompileError
import ObjectMachine.Language.Resolve
import ObjectMachine.Language.Scope
import ObjectMachine.Language.Tree
import ObjectMachine.Log.Basic
import ObjectMachine.Log.Faithful
import ObjectMachine.Log.Filter
import ObjectMachine.Log.Making
import ObjectMachine.Log.Watch
import ObjectMachine.Machine.Activation
import ObjectMachine.Machine.Basic
import ObjectMachine.Machine.Primitive
import ObjectMachine.Machine.Run
import ObjectMachine.Main
import ObjectMachine.Memory.Arena
import ObjectMachine.Memory.Census
import ObjectMachine.Memory.Collect
import ObjectMachine.Memory.Fault
import ObjectMachine.Memory.Header
import ObjectMachine.Memory.Heap
import ObjectMachine.Memory.Value
import ObjectMachine.Object.Class
import ObjectMachine.Object.Dictionary
import ObjectMachine.Object.Layout
import ObjectMachine.Object.Queue
import ObjectMachine.Object.Symbol
import ObjectMachine.Program
import ObjectMachine.Proofs.Action
import ObjectMachine.Proofs.Code.Assembling
import ObjectMachine.Proofs.Code.Bracketing
import ObjectMachine.Proofs.Code.Branching
import ObjectMachine.Proofs.Code.Compilation
import ObjectMachine.Proofs.Code.Composition
import ObjectMachine.Proofs.Code.Decoding
import ObjectMachine.Proofs.Code.Emission
import ObjectMachine.Proofs.Code.Encoding
import ObjectMachine.Proofs.Code.FirstOrder
import ObjectMachine.Proofs.Code.Sending
import ObjectMachine.Proofs.Code.Tending
import ObjectMachine.Proofs.Code.WellFormed
import ObjectMachine.Proofs.Image.Additions
import ObjectMachine.Proofs.Image.Annals
import ObjectMachine.Proofs.Image.Calling
import ObjectMachine.Proofs.Image.Charting
import ObjectMachine.Proofs.Image.Defining
import ObjectMachine.Proofs.Image.Evolution
import ObjectMachine.Proofs.Image.Heeding
import ObjectMachine.Proofs.Image.Hierarchy
import ObjectMachine.Proofs.Image.Loading
import ObjectMachine.Proofs.Image.Nesting
import ObjectMachine.Proofs.Image.Origin
import ObjectMachine.Proofs.Image.Provision
import ObjectMachine.Proofs.Image.Reading
import ObjectMachine.Proofs.Image.Registry
import ObjectMachine.Proofs.Image.Stability
import ObjectMachine.Proofs.Language.Capturing
import ObjectMachine.Proofs.Language.Declaration
import ObjectMachine.Proofs.Language.Evaluation
import ObjectMachine.Proofs.Language.FirstPass
import ObjectMachine.Proofs.Language.Footprint
import ObjectMachine.Proofs.Language.Growth
import ObjectMachine.Proofs.Language.Indexing
import ObjectMachine.Proofs.Language.Lexical
import ObjectMachine.Proofs.Language.Lookup
import ObjectMachine.Proofs.Language.Plain
import ObjectMachine.Proofs.Language.Resolution
import ObjectMachine.Proofs.Language.Storage
import ObjectMachine.Proofs.Language.Visibility
import ObjectMachine.Proofs.Machine.Belonging
import ObjectMachine.Proofs.Machine.Chaining
import ObjectMachine.Proofs.Machine.Entering
import ObjectMachine.Proofs.Machine.Escaping
import ObjectMachine.Proofs.Machine.Execution
import ObjectMachine.Proofs.Machine.Footprint
import ObjectMachine.Proofs.Machine.Framing
import ObjectMachine.Proofs.Machine.Heeding
import ObjectMachine.Proofs.Machine.Integrity
import ObjectMachine.Proofs.Machine.Linking
import ObjectMachine.Proofs.Machine.Pausing
import ObjectMachine.Proofs.Machine.Performance
import ObjectMachine.Proofs.Machine.Primitives
import ObjectMachine.Proofs.Machine.Realization
import ObjectMachine.Proofs.Machine.Reconciliation
import ObjectMachine.Proofs.Machine.Simulation
import ObjectMachine.Proofs.Machine.Stability
import ObjectMachine.Proofs.Machine.Stacking
import ObjectMachine.Proofs.Machine.Transparency
import ObjectMachine.Proofs.Machine.Unwinding
import ObjectMachine.Proofs.Machine.Variables
import ObjectMachine.Proofs.Machine.Window
import ObjectMachine.Proofs.Memory.Cells
import ObjectMachine.Proofs.Memory.Collection
import ObjectMachine.Proofs.Memory.Copying
import ObjectMachine.Proofs.Memory.Evolution
import ObjectMachine.Proofs.Memory.Extension
import ObjectMachine.Proofs.Memory.Integrity
import ObjectMachine.Proofs.Memory.Inventory
import ObjectMachine.Proofs.Memory.Layout
import ObjectMachine.Proofs.Memory.Objects
import ObjectMachine.Proofs.Memory.Reachability
import ObjectMachine.Proofs.Memory.Retention
import ObjectMachine.Proofs.Memory.Scanning
import ObjectMachine.Proofs.Memory.Soundness
import ObjectMachine.Proofs.Memory.Tracking
import ObjectMachine.Proofs.Memory.Verification
import ObjectMachine.Proofs.Memory.Words
import ObjectMachine.Proofs.Object.Classes
import ObjectMachine.Proofs.Object.Dictionaries
import ObjectMachine.Proofs.Object.Filing
import ObjectMachine.Proofs.Object.Inheriting
import ObjectMachine.Proofs.Object.Interning
import ObjectMachine.Proofs.Object.Resolving
import ObjectMachine.Proofs.Object.Shelving
import ObjectMachine.Proofs.Object.Stability
import ObjectMachine.Proofs.Scheduling.Accounts
import ObjectMachine.Proofs.Scheduling.Answering
import ObjectMachine.Proofs.Scheduling.Belonging
import ObjectMachine.Proofs.Scheduling.Capturing
import ObjectMachine.Proofs.Scheduling.Conservation
import ObjectMachine.Proofs.Scheduling.Descending
import ObjectMachine.Proofs.Scheduling.Enlisting
import ObjectMachine.Proofs.Scheduling.FirstInFirstOut
import ObjectMachine.Proofs.Scheduling.Footprint
import ObjectMachine.Proofs.Scheduling.History
import ObjectMachine.Proofs.Scheduling.Partition
import ObjectMachine.Proofs.Scheduling.Preemption
import ObjectMachine.Proofs.Scheduling.Queueing
import ObjectMachine.Proofs.Scheduling.Reading
import ObjectMachine.Proofs.Scheduling.Returning
import ObjectMachine.Proofs.Scheduling.RoundRobin
import ObjectMachine.Proofs.Scheduling.Script
import ObjectMachine.Proofs.Scheduling.Session
import ObjectMachine.Proofs.Scheduling.Sharing
import ObjectMachine.Proofs.Stability
import ObjectMachine.Scheduling.Interrupts
import ObjectMachine.Scheduling.Run
import ObjectMachine.Scheduling.Schedule
import ObjectMachine.Text.Blank
import ObjectMachine.Text.CharSet
import ObjectMachine.Text.Letter
import ObjectMachine.Text.Lossy
import ObjectMachine.Text.Pattern
import ObjectMachine.Text.Pattern.Bracket
import ObjectMachine.Text.Pattern.Escape
import ObjectMachine.Text.Pattern.Flags
import ObjectMachine.Text.Pattern.Read
import ObjectMachine.Text.Pattern.Weight
import ObjectMachine.Text.Printable
import ObjectMachine.Text.Quoted
import ObjectMachine.Proofs.Memory.Checking
import ObjectMachine.Proofs.Memory.Accounting
import ObjectMachine.Proofs.Memory.Mirroring
import ObjectMachine.Proofs.Memory.Sizing
import ObjectMachine.Proofs.Code.Arguments
import ObjectMachine.Proofs.Machine.Arithmetic
import ObjectMachine.Proofs.Scheduling.Interrupting
import ObjectMachine.Proofs.Scheduling.Fetching
import ObjectMachine.Proofs.Image.Retention
import ObjectMachine.Proofs.Machine.Readiness
import ObjectMachine.Proofs.Machine.Activating
import ObjectMachine.Proofs.Machine.Engaging
import ObjectMachine.Proofs.Machine.Activations
import ObjectMachine.Proofs.Memory.Packing
import ObjectMachine.Proofs.Memory.Hashing
import ObjectMachine.Proofs.Memory.Visiting
import ObjectMachine.Proofs.Image.Naming
import ObjectMachine.Proofs.Image.Installing
import ObjectMachine.Proofs.Image.Listing
import ObjectMachine.Proofs.Code.Comparing
import ObjectMachine.Proofs.Machine.Counting
import ObjectMachine.Proofs.Machine.Departing
import ObjectMachine.Proofs.Scheduling.Positions
import ObjectMachine.Proofs.Scheduling.Keeping
import ObjectMachine.Proofs.Scheduling.Passing
