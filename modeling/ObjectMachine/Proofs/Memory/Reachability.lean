import Mathlib.Data.Set.Function
import ObjectMachine.Proofs.Memory.Layout

namespace ObjectMachine

/-- The value that stands for the same object after every object moved as `f` says. Nil and
integers stay. -/
def Value.relocate (f : Address → Address) (v : Value) : Value :=
  match v.address? with
  | some loc => .ofAddress (f loc)
  | none => v

theorem Value.relocate_ofNat (f : Address → Address) (n : Nat) :
    (Value.ofNat n).relocate f = .ofNat n := by
  rw [relocate, address?_ofNat]

namespace Arenas

/-- The object at an address holds a value: as its class, or in a slot if it has slots. -/
def Refers (a : Arenas) (loc : Address) (v : Value) : Prop :=
  ∃ h, a.header loc = .ok h ∧
    (v = h.isa ∨ h.kind = .pointers ∧
      ∃ i < h.size.toNat, a.word loc.arena (loc.word + headerWords + i) = .ok v.raw)

def Sane (a : Arenas) (v : Value) : Prop :=
  v.isNil ∨ v.isInteger ∨ ∃ loc, v.address? = some loc ∧ a.Allocated loc

/-- No object holds anything but nil, integers and addresses of objects. -/
def Closed (a : Arenas) : Prop := ∀ loc, a.Allocated loc → ∀ v, a.Refers loc v → a.Sane v

inductive Reachable (a : Arenas) (roots : List Value) : Address → Prop where
  | root {v : Value} {loc : Address} : v ∈ roots → v.address? = some loc → a.Reachable roots loc
  | held {loc : Address} {v : Value} {target : Address} :
    a.Reachable roots loc → a.Refers loc v → v.address? = some target → a.Reachable roots target

theorem Sane.allocated {a : Arenas} {v : Value} {loc : Address} (hs : a.Sane v)
    (hv : v.address? = some loc) : a.Allocated loc := by
  have href : v.isReference = true := by
    simp only [Value.address?, Option.ite_none_right_eq_some] at hv
    exact hv.1
  rcases hs with hnil | hint | ⟨loc', hloc, ha⟩
  · simp [Value.isReference, beq_iff_eq.mp hnil] at href
  · simp [Value.isReference, beq_iff_eq.mp hint] at href
  · rwa [Option.some.inj (hv.symm.trans hloc)]

theorem Reachable.allocated {a : Arenas} {roots : List Value} {loc : Address} (closed : a.Closed)
    (hr : ∀ v ∈ roots, a.Sane v) (h : a.Reachable roots loc) : a.Allocated loc := by
  induction h with
  | root hmem hv => exact (hr _ hmem).allocated hv
  | held _ href hv ih => exact (closed _ ih _ href).allocated hv

end Arenas

namespace Heap

/-- What every heap keeps to: its arenas are laid out, and use no more words than they may. -/
structure Sound (h : Heap) : Prop where
  laid : h.arenas.Laid
  fits : ∀ id, h.used id ≤ h.capacity
  small : h.capacity < 0x100000000

/-- `f` takes the objects of `h` that the roots reach, one to one, to all objects of `h'`. Copies
keep arena, kind, hash, size and bytes, and hold the images of what the originals held. -/
structure Moved (h h' : Heap) (roots : List Value) (f : Address → Address) : Prop where
  bijective : Set.BijOn f {loc | h.arenas.Reachable roots loc} {loc | h'.arenas.Allocated loc}
  arena : ∀ loc, h.arenas.Reachable roots loc → (f loc).arena = loc.arena
  header : ∀ loc, h.arenas.Reachable roots loc → ∃ header,
    h.header (.ofAddress loc) = .ok header ∧
      h'.header (.ofAddress (f loc)) = .ok { header with isa := header.isa.relocate f }
  slot : ∀ loc, h.arenas.Reachable roots loc → ∀ i,
    h'.slot (.ofAddress (f loc)) i = (h.slot (.ofAddress loc) i).map (Value.relocate f)
  bytes : ∀ loc, h.arenas.Reachable roots loc → loc.arena = .leaf → ∃ bytes,
    h.bytes (.ofAddress loc) = .ok bytes ∧ h'.bytes (.ofAddress (f loc)) = .ok bytes

end Heap

end ObjectMachine
