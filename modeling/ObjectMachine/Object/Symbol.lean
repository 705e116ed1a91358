import Std.Data.HashMap
import ObjectMachine.Memory.Collect

namespace ObjectMachine

/-- One byte object for each spelling, so that symbols are compared by identity. -/
structure SymbolTable where
  symbols : Std.HashMap String Value := {}
  deriving Inhabited

namespace SymbolTable

def lookup (t : SymbolTable) (name : String) : Option Value := t.symbols[name]?

def size (t : SymbolTable) : Nat := t.symbols.size

def insert (t : SymbolTable) (name : String) (symbol : Value) : SymbolTable :=
  ⟨t.symbols.insert name symbol⟩

def roots (t : SymbolTable) : List Value := t.symbols.toList.map (·.2)

/-- The same spellings with the symbols at their new places. -/
def withRoots (t : SymbolTable) (symbols : List Value) : SymbolTable :=
  ⟨.ofList (t.symbols.toList.zipWith (fun e v => (e.1, v)) symbols)⟩

/-- The symbol spelled `name`, made on first use. -/
def intern (t : SymbolTable) (symbolClass : Value) (name : String) :
    Action HeapError Heap (Value × SymbolTable) :=
  match t.lookup name with
  | some symbol => return (symbol, t)
  | none => do
    let symbol ← Heap.allocateBytes symbolClass (Text.toBytes name)
    return (symbol, t.insert name symbol)

end SymbolTable

end ObjectMachine
