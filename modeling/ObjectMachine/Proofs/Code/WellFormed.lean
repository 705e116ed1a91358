import ObjectMachine.Code.Compile
import ObjectMachine.Proofs.Code.Branching

namespace ObjectMachine

/-- What the operands of an instruction may name: registers, heap variables of the activation and
of its parent, and constants. -/
structure Frame where
  registers : Nat
  own : Nat
  parent : Nat
  literals : List Constant

/-- A number of the primitive table whose entry has the given arity. -/
def Primitive.Numbered (index : UInt8) (arity : Arity) : Prop :=
  ∃ p, Primitive.ofIndex? index.toNat = some p ∧ p.arity = arity

def Frame.NamesSymbol (f : Frame) (index : UInt8) : Prop :=
  ∃ name, f.literals[index.toNat]? = some (.symbol name)

/-- All operands of an instruction are in range, and constants are of the kind that it needs. -/
def Instruction.Fits (f : Frame) : Instruction → Prop
  | .loadNil | .loadTrue | .loadFalse | .loadThisContext | .loadGlobals | .loadInstVar _
  | .storeInstVar _ | .jump _ | .branchIfFalse _ | .branchIfTrue _ | .return_ | .returnSelf => True
  | .loadLiteral index => ∃ c, f.literals[index.toNat]? = some c ∧ c.isBlock = false
  | .loadOwn slot | .storeOwn slot => slot.toNat < f.own
  | .loadParent slot | .storeParent slot => slot.toNat < f.parent
  | .loadGlobal index | .storeGlobal index => f.NamesSymbol index
  | .loadRegister reg | .storeRegister reg => reg.toNat < f.registers
  | .promote own parent | .restore parent own => own.toNat < f.own ∧ parent.toNat < f.parent
  | .sync own parent reg =>
    own.toNat < f.own ∧ parent.toNat < f.parent ∧ reg.toNat < f.registers
  | .binaryOp reg _ => reg.toNat < f.registers
  | .send selector args | .sendSuper selector args =>
    f.NamesSymbol selector ∧ ∀ reg ∈ args.regs, reg.toNat < f.registers
  | .copyBlock index => ∃ t, f.literals[index.toNat]? = some (.block t)
  | .primitive0 index => Primitive.Numbered index (.fixed 0)
  | .primitive1 index => Primitive.Numbered index (.fixed 1)
  | .primitive2 index reg => Primitive.Numbered index (.fixed 2) ∧ reg.toNat < f.registers
  | .primitive3 index reg₁ reg₂ => Primitive.Numbered index (.fixed 3) ∧
    reg₁.toNat < f.registers ∧ reg₂.toNat < f.registers
  | .primitiveV index first count => Primitive.Numbered index .variadic ∧
    ∀ k < count.toNat, first.toNat + k < f.registers

namespace CodeTemplate

/-- What an activation of some code has, if the code around it has `outer` heap variables. -/
def frame (t : CodeTemplate) (outer : Nat) : Frame where
  registers := 1 + t.args + t.temps + t.stack
  own := t.heapVars
  parent := outer
  literals := t.literals

def items (t : CodeTemplate) : List (Nat × Instruction) := (Code.decodeAll t.bytecode).1

/-- Code that decodes to the end into instructions whose operands fit, whose branches lead to
instructions of it, and of which the last returns. -/
structure Runnable (outer : Nat) (t : CodeTemplate) : Prop where
  decodes : (Code.decodeAll t.bytecode).2 = none
  fits : ∀ pc i, (pc, i) ∈ t.items → i.Fits (t.frame outer)
  lands : ∀ pc i offset, (pc, i) ∈ t.items → i.offset? = some offset →
    ∃ target j, (target, j) ∈ t.items ∧ (target : Int) = pc + i.length + offset.toInt
  returns : ∃ pc i, t.items.getLast? = some (pc, i) ∧ (i = .return_ ∨ i = .returnSelf)

inductive WellFormed : Nat → CodeTemplate → Prop where
  | intro {outer : Nat} {t : CodeTemplate} : t.Runnable outer →
    (∀ b, .block b ∈ t.literals → WellFormed t.heapVars b) → WellFormed outer t

end CodeTemplate

theorem getLast?_positioned (pc : Nat) (code : List Instruction) (i : Instruction) :
    (positioned pc (code ++ [i])).getLast? = some (pc + codeLength code, i) := by
  rw [positioned_append, positioned, positioned, List.getLast?_append, List.getLast?_singleton,
    Option.some_or]

/-- Code that ends with a return and whose branches lead to boundaries before the return. -/
theorem CodeTemplate.runnable_of_code {t : CodeTemplate} {outer : Nat} {code : List Instruction}
    {last : Instruction} (hcode : t.bytecode = (encodeAll (code ++ [last])).toArray)
    (hlast : last = .return_ ∨ last = .returnSelf) (hbranches : Branches code)
    (hfits : ∀ i ∈ code, i.Fits (t.frame outer)) : t.Runnable outer := by
  have hdecode := decodeAll_encodeAll (code ++ [last])
  rw [← hcode] at hdecode
  have hitems : t.items = positioned 0 (code ++ [last]) := by rw [items, hdecode]
  have hnone : last.offset? = none := by rcases hlast with rfl | rfl <;> rfl
  refine ⟨by rw [hdecode], fun pc i hmem => ?_, fun pc i offset hmem hoffset => ?_, ?_⟩
  · rw [hitems] at hmem
    rcases List.mem_append.mp (mem_of_mem_positioned hmem) with h | h
    · exact hfits i h
    · rw [List.mem_singleton.mp h]
      rcases hlast with rfl | rfl <;> exact trivial
  · rw [hitems, positioned_append, List.mem_append] at hmem
    rcases hmem with h | h
    · obtain ⟨pre, post, rfl, htarget⟩ := hbranches pc i offset h hoffset
      -- the end of the code before the return is where the return starts
      obtain ⟨j, rest, hj⟩ : ∃ j rest, post ++ [last] = j :: rest :=
        List.exists_cons_of_ne_nil (by simp)
      refine ⟨codeLength pre, j, ?_, htarget.symm⟩
      rw [hitems, List.append_assoc, hj, positioned_append, Nat.zero_add]
      exact List.mem_append_right _ (.head _)
    · have hi := List.mem_singleton.mp (mem_of_mem_positioned h)
      rw [hi, hnone] at hoffset
      cases hoffset
  · exact ⟨_, last, hitems ▸ getLast?_positioned 0 code last, hlast⟩

end ObjectMachine
