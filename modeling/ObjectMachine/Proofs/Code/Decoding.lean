import Mathlib.Algebra.GroupWithZero.Nat
import ObjectMachine.Proofs.Action
import ObjectMachine.Proofs.Code.Encoding

namespace ObjectMachine

theorem Opcode.byte_of_ofByte? {b : UInt8} {op : Opcode} (h : Opcode.ofByte? b = some op) :
    op.byte = b := by
  obtain ⟨hlt, hop⟩ := Array.getElem?_eq_some_iff.mp h
  have hbyte : ∀ k (hk : k < Opcode.all.size), (Opcode.all[k]).byte.toNat = k := by decide
  exact UInt8.toNat_inj.mp (hop ▸ hbyte b.toNat hlt)

theorem BinaryOp.byte_of_ofByte? {b : UInt8} {op : BinaryOp} (h : BinaryOp.ofByte? b = some op) :
    op.byte = b := by
  obtain ⟨hlt, hop⟩ := Array.getElem?_eq_some_iff.mp h
  have hbyte : ∀ k (hk : k < BinaryOp.all.size), (BinaryOp.all[k]).byte.toNat = k := by decide
  exact UInt8.toNat_inj.mp (hop ▸ hbyte b.toNat hlt)

theorem offsetBytes_offsetOfBytes (high low : UInt8) :
    offsetBytes (offsetOfBytes high low) = [high, low] := by
  have hword : (offsetOfBytes high low).toUInt16.toNat = high.toNat * 256 + low.toNat := by
    have hhigh := high.toNat_lt
    have hlow := low.toNat_lt
    change (high.toUInt16 * 256 + low.toUInt16).toNat = _
    rw [UInt16.toNat_add, UInt16.toNat_mul, UInt8.toNat_toUInt16, UInt8.toNat_toUInt16]
    change (high.toNat * 256 % 2 ^ 16 + low.toNat) % 2 ^ 16 = _
    omega
  have hlow := low.toNat_lt
  have hfirst : ((offsetOfBytes high low).toUInt16 / 256).toUInt8 = high := by
    apply UInt8.toNat_inj.mp
    have hhigh := high.toNat_lt
    rw [UInt16.toNat_toUInt8, UInt16.toNat_div, hword]
    change (high.toNat * 256 + low.toNat) / 256 % 2 ^ 8 = _
    omega
  have hsecond : (offsetOfBytes high low).toUInt16.toUInt8 = low := by
    apply UInt8.toNat_inj.mp
    rw [UInt16.toNat_toUInt8, hword]
    omega
  rw [offsetBytes, hfirst, hsecond]

namespace Code

variable {code : Array UInt8} {pc next : Nat} {i : Instruction}

theorem operand_eq_ok {k : Nat} {b : UInt8} (h : operand code pc k = .ok b) :
    code[pc + k]? = some b := by
  rw [operand] at h
  split at h
  · cases h
    assumption
  · cases h

theorem spells_cons {b : UInt8} {bytes : List UInt8} :
    Spells code pc (b :: bytes) ↔ code[pc]? = some b ∧ Spells code (pc + 1) bytes := by
  refine ⟨fun h => ⟨h 0 b rfl, fun k c hk => ?_⟩, ?_⟩
  · rw [Nat.add_assoc, Nat.add_comm 1]
    exact h (k + 1) c hk
  · rintro ⟨hb, h⟩ k c hk
    cases k with
    | zero =>
      cases hk
      exact hb
    | succ k =>
      rw [Nat.add_comm k, ← Nat.add_assoc]
      exact h k c hk

theorem spells_nil : Spells code pc [] := fun _ _ hk => nomatch hk

theorem operandOffset_eq_ok {offset : Int16} (h : operandOffset code pc = .ok offset) :
    Spells code (pc + 1) (offsetBytes offset) := by
  obtain ⟨high, hhigh, h⟩ := except_bind_eq_ok.mp h
  obtain ⟨low, hlow, h⟩ := except_bind_eq_ok.mp h
  cases h
  have hfirst := operand_eq_ok hhigh
  have hsecond := operand_eq_ok hlow
  rw [offsetBytes_offsetOfBytes, spells_cons, spells_cons]
  exact ⟨hfirst, hsecond, spells_nil⟩

theorem spells_extract (code : Array UInt8) (pc stop : Nat) :
    Spells code pc (code.extract pc stop).toList := by
  intro k b hk
  rw [Array.getElem?_toList, Array.getElem?_extract] at hk
  split at hk
  · exact hk
  · cases hk

theorem operandArgs_eq_ok {args : ArgRegisters} (h : operandArgs code pc = .ok args) :
    Spells code (pc + 2) (args.regs.length.toUInt8 :: args.regs) := by
  obtain ⟨count, hcount, h⟩ := except_bind_eq_ok.mp h
  have hbyte := operand_eq_ok hcount
  split at h
  case isFalse => cases h
  case isTrue hsize =>
    rw [ArgRegisters.ofList?] at h
    split at h
    case h_2 => cases h
    case h_1 found hfound =>
      cases h
      split at hfound
      case isFalse => cases hfound
      case isTrue hbound =>
        cases hfound
        have hlength : (code.extract (pc + 3) (pc + 3 + count.toNat)).toList.length =
            count.toNat := by
          rw [Array.length_toList, Array.size_extract]
          omega
        refine spells_cons.mpr ⟨?_, spells_extract code (pc + 3) _⟩
        rw [hlength, hbyte]
        exact congrArg some (UInt8.toNat_inj.mp (by simp))

/-- An instruction whose operands could be read stands where they were read. -/
theorem spells_of_operandsOf {op : Opcode} (hop : code[pc]? = some op.byte)
    (h : operandsOf code pc op = .ok i) : i.opcode = op ∧ Spells code pc i.encode := by
  cases op with
  | loadNil | loadTrue | loadFalse | loadThisContext | loadGlobals | return_ | returnSelf =>
    cases h
    exact ⟨rfl, spells_cons.mpr ⟨hop, spells_nil⟩⟩
  | loadInstVar | loadLiteral | loadOwn | loadParent | loadGlobal | loadRegister
  | storeInstVar | storeOwn | storeParent | storeGlobal | storeRegister | copyBlock
  | primitive0 | primitive1 =>
    obtain ⟨a, ha, h⟩ := except_bind_eq_ok.mp h
    cases h
    exact ⟨rfl, spells_cons.mpr ⟨hop, spells_cons.mpr ⟨operand_eq_ok ha, spells_nil⟩⟩⟩
  | promote | restore | primitive2 =>
    obtain ⟨a, ha, h⟩ := except_bind_eq_ok.mp h
    obtain ⟨b, hb, h⟩ := except_bind_eq_ok.mp h
    cases h
    have hsecond := operand_eq_ok hb
    exact ⟨rfl, spells_cons.mpr ⟨hop, spells_cons.mpr ⟨operand_eq_ok ha,
      spells_cons.mpr ⟨hsecond, spells_nil⟩⟩⟩⟩
  | sync | primitive3 | primitiveV =>
    obtain ⟨a, ha, h⟩ := except_bind_eq_ok.mp h
    obtain ⟨b, hb, h⟩ := except_bind_eq_ok.mp h
    obtain ⟨c, hc, h⟩ := except_bind_eq_ok.mp h
    cases h
    have hsecond := operand_eq_ok hb
    have hthird := operand_eq_ok hc
    exact ⟨rfl, spells_cons.mpr ⟨hop, spells_cons.mpr ⟨operand_eq_ok ha,
      spells_cons.mpr ⟨hsecond, spells_cons.mpr ⟨hthird, spells_nil⟩⟩⟩⟩⟩
  | jump | branchIfFalse | branchIfTrue =>
    obtain ⟨offset, hoffset, h⟩ := except_bind_eq_ok.mp h
    cases h
    exact ⟨rfl, spells_cons.mpr ⟨hop, operandOffset_eq_ok hoffset⟩⟩
  | binaryOp =>
    obtain ⟨b, hb, h⟩ := except_bind_eq_ok.mp h
    split at h
    case h_2 => cases h
    case h_1 binary hbinary =>
      obtain ⟨a, ha, h⟩ := except_bind_eq_ok.mp h
      cases h
      have hsecond := operand_eq_ok hb
      rw [← BinaryOp.byte_of_ofByte? hbinary] at hsecond
      exact ⟨rfl, spells_cons.mpr ⟨hop, spells_cons.mpr ⟨operand_eq_ok ha,
        spells_cons.mpr ⟨hsecond, spells_nil⟩⟩⟩⟩
  | send | sendSuper =>
    obtain ⟨args, hargs, h⟩ := except_bind_eq_ok.mp h
    obtain ⟨a, ha, h⟩ := except_bind_eq_ok.mp h
    cases h
    exact ⟨rfl, spells_cons.mpr ⟨hop, spells_cons.mpr ⟨operand_eq_ok ha,
      operandArgs_eq_ok hargs⟩⟩⟩

/-- An instruction is read exactly where its bytes stand. -/
theorem decodeAt_eq_ok_iff :
    decodeAt code pc = .ok (i, next) ↔ Spells code pc i.encode ∧ next = pc + i.length := by
  refine ⟨fun h => ?_, ?_⟩
  · obtain ⟨byte, hbyte, h⟩ := except_bind_eq_ok.mp h
    split at h
    case h_2 => cases h
    case h_1 op hop =>
      obtain ⟨j, hj, h⟩ := except_bind_eq_ok.mp h
      cases h
      have hfirst := operand_eq_ok hbyte
      rw [← Opcode.byte_of_ofByte? hop] at hfirst
      exact ⟨(spells_of_operandsOf hfirst hj).2, rfl⟩
  · rintro ⟨h, rfl⟩
    exact decodeAt_spells h

/-- Bytes stand in some code exactly if they are a part of it. -/
theorem spells_iff_extract {bytes : List UInt8} :
    Spells code pc bytes ↔ (code.extract pc (pc + bytes.length)).toList = bytes := by
  refine ⟨fun h => List.ext_getElem? fun k => ?_, fun h => h ▸ spells_extract code pc _⟩
  rw [Array.getElem?_toList, Array.getElem?_extract]
  by_cases hk : k < bytes.length
  · have hbyte := h k bytes[k] (List.getElem?_eq_getElem hk)
    have hsize := (Array.getElem?_eq_some_iff.mp hbyte).1
    rw [if_pos (by omega), hbyte, List.getElem?_eq_getElem hk]
  · rw [if_neg (by omega), List.getElem?_eq_none (by omega)]

/-- Some code from where certain bytes stand on. -/
theorem Spells.drop_eq {bytes : List UInt8} (h : Spells code pc bytes) :
    code.toList.drop pc = bytes ++ code.toList.drop (pc + bytes.length) := by
  have hpart := spells_iff_extract.mp h
  rw [Array.toList_extract, List.extract_eq_take_drop, Nat.add_sub_cancel_left] at hpart
  calc code.toList.drop pc
      = (code.toList.drop pc).take bytes.length ++ (code.toList.drop pc).drop bytes.length :=
        (List.take_append_drop ..).symm
    _ = bytes ++ code.toList.drop (pc + bytes.length) := by rw [hpart, List.drop_drop]

/-- The reading comes to the end of the code exactly if what was read are all its bytes. -/
theorem decodeFrom_eq_none_iff (code : Array UInt8) (pc : Nat) :
    (decodeFrom code pc).2 = none ↔
      encodeAll ((decodeFrom code pc).1.map (·.2)) = code.toList.drop pc := by
  fun_induction decodeFrom code pc with
  | case1 pc hlt e herror =>
    have hrest : code.toList.drop pc ≠ [] := by simpa using hlt
    simpa [encodeAll] using hrest.symm
  | case2 pc hlt i next hread rest ih =>
    have hspells := (decodeAt_eq_ok_iff.mp hread).1
    rw [hspells.drop_eq, i.length_encode]
    change rest.2 = none ↔ i.encode ++ encodeAll (rest.1.map (·.2)) = _
    rw [List.append_cancel_left_eq]
    exact ih
  | case3 pc hend =>
    have hrest : code.toList.drop pc = [] := by simpa using hend
    simp [encodeAll, hrest]

end Code

/-- Positions count the bytes of the instructions before. -/
theorem positioned_eq_mapIdx (pc : Nat) (code : List Instruction) :
    positioned pc code =
      code.mapIdx fun k i => (pc + ((code.take k).map fun j => j.encode.length).sum, i) := by
  induction code generalizing pc with
  | nil => rfl
  | cons i rest ih =>
    rw [positioned, ih, List.mapIdx_cons]
    simp [Instruction.length_encode, Nat.add_assoc]

/-- Decoding undoes encoding: a list of instructions is read back from its bytes, each instruction
at the sum of the lengths before it, and one instruction is read back from whatever surrounds its
bytes. Conversely an instruction that was read is written as the bytes that it was read from, at
least one of them, and some code can be read to its end exactly if writing what was read gives it
back. -/
theorem decode_encode_inverse :
    (∀ code : List Instruction, Code.decodeAll (encodeAll code).toArray =
      (code.mapIdx fun k i => (((code.take k).map fun j => j.encode.length).sum, i), none)) ∧
    (∀ (before : List UInt8) (i : Instruction) (after : List UInt8),
      Code.decodeAt (before ++ i.encode ++ after).toArray before.length =
        .ok (i, before.length + i.encode.length)) ∧
    (∀ (code : Array UInt8) (pc next : Nat) (i : Instruction),
      Code.decodeAt code pc = .ok (i, next) ↔
        pc < next ∧ next ≤ code.size ∧ (code.extract pc next).toList = i.encode) ∧
    ∀ code : Array UInt8, (Code.decodeAll code).2 = none ↔
      encodeAll ((Code.decodeAll code).1.map (·.2)) = code.toList := by
  refine ⟨fun code => ?_, fun before i after => ?_, fun code pc next i => ?_, fun code => ?_⟩
  · rw [decodeAll_encodeAll, positioned_eq_mapIdx]
    simp
  · rw [List.append_assoc, i.length_encode]
    exact Code.decodeAt_spells (Code.spells_append before i.encode after)
  · rw [Code.decodeAt_eq_ok_iff, Code.spells_iff_extract, i.length_encode]
    have hpos := i.length_pos
    refine ⟨?_, fun ⟨hlt, hle, hpart⟩ => ?_⟩
    · rintro ⟨hpart, rfl⟩
      have hlength := congrArg List.length hpart
      rw [Array.length_toList, Array.size_extract, i.length_encode] at hlength
      exact ⟨by omega, by omega, hpart⟩
    · have hlength := congrArg List.length hpart
      rw [Array.length_toList, Array.size_extract, i.length_encode] at hlength
      obtain rfl : next = pc + i.length := by omega
      exact ⟨hpart, rfl⟩
  · exact Code.decodeFrom_eq_none_iff code 0

end ObjectMachine
