import Mathlib.Tactic.Common
import ObjectMachine.Code.Decode

namespace ObjectMachine

theorem Opcode.ofByte?_byte (op : Opcode) : Opcode.ofByte? op.byte = some op := by
  cases op <;> rfl

theorem BinaryOp.ofByte?_byte (op : BinaryOp) : BinaryOp.ofByte? op.byte = some op := by
  cases op <;> rfl

theorem offsetOfBytes_offsetBytes (offset : Int16) :
    offsetOfBytes (offset.toUInt16 / 256).toUInt8 offset.toUInt16.toUInt8 = offset := by
  have hword : ((offset.toUInt16 / 256).toUInt8.toUInt16 * 256 + offset.toUInt16.toUInt8.toUInt16)
      = offset.toUInt16 := by
    apply UInt16.toNat_inj.mp
    have := offset.toUInt16.toNat_lt
    simp only [UInt16.toNat_add, UInt16.toNat_mul, UInt8.toNat_toUInt16, UInt16.toNat_toUInt8,
      UInt16.toNat_div]
    have h256 : UInt16.toNat 256 = 256 := rfl
    rw [h256]
    omega
  rw [offsetOfBytes, hword]
  rfl

namespace Instruction

theorem length_encode (i : Instruction) : i.encode.length = i.length := by
  rw [encode, length, List.length_cons, Nat.add_comm]

theorem length_pos (i : Instruction) : 0 < i.length := by
  rw [length]
  omega

end Instruction

theorem length_encodeAll (code : List Instruction) : (encodeAll code).length = codeLength code := by
  induction code with
  | nil => rfl
  | cons i rest ih =>
    rw [codeLength, ← ih, encodeAll, List.flatMap_cons, List.length_append,
      Instruction.length_encode, encodeAll]

@[simp]
theorem codeLength_append (code code' : List Instruction) :
    codeLength (code ++ code') = codeLength code + codeLength code' := by
  induction code with
  | nil => simp [codeLength]
  | cons i rest ih => simp [codeLength, ih, Nat.add_assoc]

theorem encodeAll_append (code code' : List Instruction) :
    encodeAll (code ++ code') = encodeAll code ++ encodeAll code' :=
  List.flatMap_append

namespace Code

variable {code : Array UInt8} {pc : Nat}

def Spells (code : Array UInt8) (pc : Nat) (bytes : List UInt8) : Prop :=
  ∀ (k : Nat) (b : UInt8), bytes[k]? = some b → code[pc + k]? = some b

theorem spells_append (pre bytes post : List UInt8) :
    Spells (pre ++ (bytes ++ post)).toArray pre.length bytes := by
  intro k b h
  have hk := (List.getElem?_eq_some_iff.mp h).1
  rw [List.getElem?_toArray, List.getElem?_append_right (by omega), Nat.add_sub_cancel_left,
    List.getElem?_append_left hk]
  exact h

theorem operand_spells {bytes : List UInt8} {k : Nat} {b : UInt8} (h : Spells code pc bytes)
    (hk : bytes[k]? = some b) : operand code pc k = .ok b := by
  rw [Code.operand, h k b hk]

theorem operandOffset_spells {offset : Int16} {op : UInt8}
    (h : Spells code pc (op :: offsetBytes offset)) : operandOffset code pc = .ok offset := by
  have hhigh : operand code pc 1 = .ok (offset.toUInt16 / 256).toUInt8 := operand_spells h rfl
  have hlow : operand code pc 2 = .ok offset.toUInt16.toUInt8 := operand_spells h rfl
  rw [Code.operandOffset, hhigh, hlow]
  exact congrArg Except.ok (offsetOfBytes_offsetBytes offset)

theorem operandArgs_spells {args : ArgRegisters} {op selector : UInt8}
    (h : Spells code pc (op :: selector :: args.regs.length.toUInt8 :: args.regs)) :
    operandArgs code pc = .ok args := by
  have hcount : operand code pc 2 = .ok args.regs.length.toUInt8 := operand_spells h rfl
  have hlength : args.regs.length.toUInt8.toNat = args.regs.length :=
    Nat.mod_eq_of_lt (Nat.lt_of_le_of_lt args.bound (by decide))
  have hregs : ∀ k (hk : k < args.regs.length), code[pc + 3 + k]? = some (args.regs[k]) := by
    intro k hk
    have := h (k + 3) args.regs[k] (by simp)
    rwa [Nat.add_comm k 3, ← Nat.add_assoc] at this
  have hsize : args.regs.length = 0 ∨ pc + 3 + args.regs.length ≤ code.size := by
    rcases Nat.eq_zero_or_pos args.regs.length with hzero | hpos
    · exact .inl hzero
    · have := (Array.getElem?_eq_some_iff.mp (hregs (args.regs.length - 1) (by omega))).1
      exact .inr (by omega)
  have hhead := (Array.getElem?_eq_some_iff.mp (h 2 args.regs.length.toUInt8 rfl)).1
  have hle : pc + 3 + args.regs.length ≤ code.size := by omega
  have hextract : (code.extract (pc + 3) (pc + 3 + args.regs.length)).toList = args.regs := by
    apply List.ext_getElem?
    intro k
    rw [Array.getElem?_toList, Array.getElem?_extract]
    split
    · rename_i hk
      rw [hregs k (by omega), List.getElem?_eq_getElem (by omega)]
    · exact (List.getElem?_eq_none (by omega)).symm
  rw [Code.operandArgs, hcount]
  simp only [bind, Except.bind, hlength, if_pos hle, hextract, ArgRegisters.ofList?,
    dif_pos args.bound]
  rfl

theorem operandsOf_spells {i : Instruction} (h : Spells code pc i.encode) :
    operandsOf code pc i.opcode = .ok i := by
  have hoperand : ∀ {k : Nat} {b : UInt8}, i.operands[k]? = some b →
      operand code pc (k + 1) = .ok b := fun hk => operand_spells h hk
  cases i with
  | loadNil | loadTrue | loadFalse | loadThisContext | loadGlobals | return_ | returnSelf => rfl
  | loadInstVar a | loadLiteral a | loadOwn a | loadParent a | loadGlobal a | loadRegister a
  | storeInstVar a | storeOwn a | storeParent a | storeGlobal a | storeRegister a | copyBlock a
  | primitive0 a | primitive1 a =>
    have ha : operand code pc 1 = .ok a := hoperand rfl
    simp only [Instruction.opcode, Code.operandsOf, ha]
    rfl
  | promote a b | restore a b | primitive2 a b =>
    have ha : operand code pc 1 = .ok a := hoperand rfl
    have hb : operand code pc 2 = .ok b := hoperand rfl
    simp only [Instruction.opcode, Code.operandsOf, ha, hb]
    rfl
  | sync a b c | primitive3 a b c | primitiveV a b c =>
    have ha : operand code pc 1 = .ok a := hoperand rfl
    have hb : operand code pc 2 = .ok b := hoperand rfl
    have hc : operand code pc 3 = .ok c := hoperand rfl
    simp only [Instruction.opcode, Code.operandsOf, ha, hb, hc]
    rfl
  | jump offset | branchIfFalse offset | branchIfTrue offset =>
    simp only [Instruction.opcode, Code.operandsOf, operandOffset_spells h]
    rfl
  | binaryOp reg op =>
    have hreg : operand code pc 1 = .ok reg := hoperand rfl
    have hop : operand code pc 2 = .ok op.byte := hoperand rfl
    simp only [Instruction.opcode, Code.operandsOf, hreg, hop, bind, Except.bind,
      BinaryOp.ofByte?_byte]
    rfl
  | send selector args | sendSuper selector args =>
    have hselector : operand code pc 1 = .ok selector := hoperand rfl
    simp only [Instruction.opcode, Code.operandsOf, operandArgs_spells h, hselector]
    rfl

/-- An instruction is read back from its bytes. -/
theorem decodeAt_spells {i : Instruction} (h : Spells code pc i.encode) :
    decodeAt code pc = .ok (i, pc + i.length) := by
  have hop : operand code pc 0 = .ok i.opcode.byte := operand_spells h rfl
  rw [decodeAt, hop]
  simp only [bind, Except.bind, Opcode.ofByte?_byte, operandsOf_spells h]
  rfl

theorem decodeAt_append (pre post : List Instruction) (i : Instruction) :
    decodeAt (encodeAll (pre ++ i :: post)).toArray (codeLength pre) =
      .ok (i, codeLength pre + i.length) := by
  rw [encodeAll_append, ← length_encodeAll pre]
  exact decodeAt_spells (spells_append (encodeAll pre) i.encode (encodeAll post))

end Code

def positioned (pc : Nat) : List Instruction → List (Nat × Instruction)
  | [] => []
  | i :: rest => (pc, i) :: positioned (pc + i.length) rest

theorem decodeFrom_append (pre code : List Instruction) :
    Code.decodeFrom (encodeAll (pre ++ code)).toArray (codeLength pre) =
      (positioned (codeLength pre) code, none) := by
  induction code generalizing pre with
  | nil =>
    rw [Code.decodeFrom, if_neg]
    · rfl
    · simp [length_encodeAll]
  | cons i rest ih =>
    have hrest := ih (pre ++ [i])
    have hpre : codeLength (pre ++ [i]) = codeLength pre + i.length := by simp [codeLength]
    rw [hpre, List.append_assoc, List.singleton_append] at hrest
    have hlt : codeLength pre < (encodeAll (pre ++ i :: rest)).toArray.size := by
      simp only [List.size_toArray, length_encodeAll, codeLength_append, codeLength]
      have := i.length_pos
      omega
    rw [Code.decodeFrom, if_pos hlt, Code.decodeAt_append]
    simp only [hrest]
    rfl

/-- Code made of whole instructions decodes to them. -/
theorem decodeAll_encodeAll (code : List Instruction) :
    Code.decodeAll (encodeAll code).toArray = (positioned 0 code, none) :=
  decodeFrom_append [] code

end ObjectMachine
