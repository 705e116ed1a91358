import ObjectMachine.Code.Assembler
import ObjectMachine.Proofs.Code.Encoding

namespace ObjectMachine

theorem offsetOf_eq_ok {delta : Int} {offset : Int16} (h : offsetOf delta = .ok offset) :
    offset.toInt = delta := by
  rw [offsetOf] at h
  split at h
  · cases h
    exact Int16.toInt_ofInt_of_le (by omega) (by omega)
  · cases h

theorem Instruction.length_of_offset {i : Instruction} {offset : Int16}
    (h : i.offset? = some offset) : i.length = 3 := by
  cases i with
  | jump | branchIfFalse | branchIfTrue => rfl
  | _ => cases h

theorem positioned_append (pc : Nat) (code code' : List Instruction) :
    positioned pc (code ++ code') =
      positioned pc code ++ positioned (pc + codeLength code) code' := by
  induction code generalizing pc with
  | nil => rfl
  | cons i rest ih =>
    simp only [List.cons_append, positioned, codeLength, ih, Nat.add_assoc]

theorem mem_of_mem_positioned {pc start : Nat} {i : Instruction} {code : List Instruction}
    (h : (start, i) ∈ positioned pc code) : i ∈ code := by
  induction code generalizing pc with
  | nil => cases h
  | cons j rest ih =>
    rw [positioned, List.mem_cons] at h
    rcases h with heq | hmem
    · cases heq
      exact .head _
    · exact .tail _ (ih hmem)

/-- A position of some code at which an instruction starts, or the end of the code. -/
def Boundary (code : List Instruction) (pc : Int) : Prop :=
  ∃ pre post, code = pre ++ post ∧ pc = codeLength pre

def LandIn (whole : List Instruction) (pc : Nat) (code : List Instruction) : Prop :=
  ∀ (start : Nat) (i : Instruction) (offset : Int16), (start, i) ∈ positioned pc code →
    i.offset? = some offset → Boundary whole (start + i.length + offset.toInt)

def Branches (code : List Instruction) : Prop := LandIn code 0 code

theorem Boundary.shift {code : List Instruction} {pc : Int} (h : Boundary code pc)
    (pre post : List Instruction) : Boundary (pre ++ code ++ post) (codeLength pre + pc) := by
  obtain ⟨first, rest, rfl, rfl⟩ := h
  refine ⟨pre ++ first, rest ++ post, by simp, by simp⟩

theorem branches_of_offset_none {code : List Instruction} (h : ∀ i ∈ code, i.offset? = none) :
    Branches code := by
  intro start i offset hmem hoffset
  rw [h i (mem_of_mem_positioned hmem)] at hoffset
  cases hoffset

theorem mem_positioned_add {start base pc : Nat} {i : Instruction} {code : List Instruction}
    (h : (start, i) ∈ positioned (base + pc) code) :
    ∃ start', start = base + start' ∧ (start', i) ∈ positioned pc code := by
  induction code generalizing pc with
  | nil => cases h
  | cons j rest ih =>
    rw [positioned, List.mem_cons] at h
    rcases h with heq | hmem
    · cases heq
      exact ⟨pc, rfl, .head _⟩
    · rw [Nat.add_assoc] at hmem
      obtain ⟨start', rfl, hmem'⟩ := ih hmem
      exact ⟨start', rfl, .tail _ hmem'⟩

/-- A position of some code where one of its pieces starts, or the end of the code. -/
def Joint (pieces : List (List Instruction)) (pc : Int) : Prop :=
  ∃ before after, pieces = before ++ after ∧ pc = codeLength before.flatten

/-- Pieces of code, the first of which starts at `pc`, in a row of pieces: each keeps its branches
to itself or is one instruction, which leads to where a piece starts or to the end. -/
def WovenIn (whole : List (List Instruction)) : Nat → List (List Instruction) → Prop
  | _, [] => True
  | pc, piece :: rest =>
    (Branches piece ∨ ∃ i, piece = [i] ∧ ∀ offset : Int16, i.offset? = some offset →
      Joint whole (pc + i.length + offset.toInt)) ∧
    WovenIn whole (pc + codeLength piece) rest

def Woven (pieces : List (List Instruction)) : Prop := WovenIn pieces 0 pieces

section Pieces

variable {pieces whole : List (List Instruction)} {pc start : Nat} {i : Instruction}

theorem wovenIn_of_branches (h : ∀ piece ∈ pieces, Branches piece) : WovenIn whole pc pieces := by
  induction pieces generalizing pc with
  | nil => trivial
  | cons piece rest ih =>
    exact ⟨.inl (h piece (.head _)), ih fun piece hmem => h piece (.tail _ hmem)⟩

theorem woven_of_branches (h : ∀ piece ∈ pieces, Branches piece) : Woven pieces :=
  wovenIn_of_branches h

theorem WovenIn.split {pre post : List (List Instruction)} {piece : List Instruction}
    (h : WovenIn whole pc (pre ++ piece :: post)) :
    Branches piece ∨ ∃ i, piece = [i] ∧ ∀ offset : Int16, i.offset? = some offset →
      Joint whole (pc + codeLength pre.flatten + i.length + offset.toInt) := by
  induction pre generalizing pc with
  | nil => simpa [codeLength] using h.1
  | cons first pre ih =>
    have := ih h.2
    simpa [Int.add_assoc] using this

theorem Joint.boundary {pc : Int} (h : Joint pieces pc) : Boundary pieces.flatten pc := by
  obtain ⟨before, after, rfl, rfl⟩ := h
  exact ⟨_, _, List.flatten_append, rfl⟩

/-- An instruction of code in pieces stands in one of them. -/
theorem mem_positioned_flatten (h : (start, i) ∈ positioned pc pieces.flatten) :
    ∃ pre piece post start', pieces = pre ++ piece :: post ∧
      start = pc + codeLength pre.flatten + start' ∧ (start', i) ∈ positioned 0 piece := by
  induction pieces generalizing pc with
  | nil => cases h
  | cons piece rest ih =>
    rw [List.flatten_cons, positioned_append, List.mem_append] at h
    rcases h with hfirst | hrest
    · have hzero : (start, i) ∈ positioned (pc + 0) piece := hfirst
      obtain ⟨start', hstart, hmem⟩ := mem_positioned_add hzero
      exact ⟨[], piece, rest, start', rfl, hstart, hmem⟩
    · obtain ⟨pre, piece', post, start', rfl, hstart, hmem⟩ := ih hrest
      exact ⟨piece :: pre, piece', post, start', rfl, by simp [hstart, Nat.add_assoc], hmem⟩

theorem Woven.branches (h : Woven pieces) : Branches pieces.flatten := by
  intro start i offset hmem hoffset
  obtain ⟨pre, piece, post, start', rfl, rfl, hmem'⟩ := mem_positioned_flatten hmem
  rcases WovenIn.split h with hpiece | ⟨j, rfl, hjoint⟩
  · have hshift := (hpiece start' i offset hmem' hoffset).shift pre.flatten post.flatten
    simpa [Int.add_assoc] using hshift
  · simp only [positioned, List.mem_singleton, Prod.mk.injEq] at hmem'
    obtain ⟨rfl, rfl⟩ := hmem'
    simpa using (hjoint offset hoffset).boundary

theorem Branches.append {code code' : List Instruction} (h : Branches code)
    (h' : Branches code') : Branches (code ++ code') := by
  have hwoven : Woven [code, code'] := woven_of_branches (by simp [h, h'])
  simpa using hwoven.branches

end Pieces

section Control

variable {i : Instruction} {a b c : List Instruction} {past out : Int16}

/-- A condition, and code that is left out unless the condition holds. -/
theorem woven_guarded (ha : Branches a) (hb : Branches b) (hi : i.offset? = some past)
    (hpast : past.toInt = codeLength b) : Woven [a, [i], b] := by
  have hlength := Instruction.length_of_offset hi
  refine ⟨.inl ha, .inr ⟨i, rfl, fun offset hoffset => ?_⟩, .inl hb, trivial⟩
  obtain rfl := Option.some.inj (hi.symm.trans hoffset)
  refine ⟨[a, [i], b], [], rfl, ?_⟩
  simp [codeLength, hlength, hpast]
  omega

/-- A condition, and code for either case. -/
theorem woven_either (ha : Branches a) (hb : Branches b) (hc : Branches c)
    (hi : i.offset? = some past) (hpast : past.toInt = codeLength b + 3)
    (hout : out.toInt = codeLength c) : Woven [a, [i], b, [.jump out], c] := by
  have hlength := Instruction.length_of_offset hi
  have hjump : (Instruction.jump out).length = 3 := rfl
  refine ⟨.inl ha, .inr ⟨i, rfl, fun offset hoffset => ?_⟩, .inl hb,
    .inr ⟨_, rfl, fun offset hoffset => ?_⟩, .inl hc, trivial⟩
  · obtain rfl := Option.some.inj (hi.symm.trans hoffset)
    refine ⟨[a, [i], b, [.jump out]], [c], rfl, ?_⟩
    simp [codeLength, hlength, hjump, hpast]
    omega
  · obtain rfl := Option.some.inj hoffset
    refine ⟨[a, [i], b, [.jump out], c], [], rfl, ?_⟩
    simp [codeLength, hlength, hjump, hout]
    omega

/-- A condition and a body, over and over. -/
theorem woven_loop (ha : Branches a) (hb : Branches b) (hi : i.offset? = some past)
    (hpast : past.toInt = codeLength b + 3)
    (hout : out.toInt = -(codeLength a + 3 + codeLength b + 3)) :
    Woven [a, [i], b, [.jump out], [.loadNil]] := by
  have hlength := Instruction.length_of_offset hi
  have hjump : (Instruction.jump out).length = 3 := rfl
  refine ⟨.inl ha, .inr ⟨i, rfl, fun offset hoffset => ?_⟩, .inl hb,
    .inr ⟨_, rfl, fun offset hoffset => ?_⟩, .inr ⟨_, rfl, nofun⟩, trivial⟩
  · obtain rfl := Option.some.inj (hi.symm.trans hoffset)
    refine ⟨[a, [i], b, [.jump out]], [[.loadNil]], rfl, ?_⟩
    simp [codeLength, hlength, hjump, hpast]
    omega
  · obtain rfl := Option.some.inj hoffset
    refine ⟨[], _, rfl, ?_⟩
    simp only [List.flatten_nil, codeLength, hlength, hjump, hout, Nat.zero_add, Nat.add_zero,
      Int.natCast_add, Int.cast_ofNat_Int]
    omega

theorem woven_until (ha : Branches a) (hi : i.offset? = some past)
    (hpast : past.toInt = -(codeLength a + 3)) : Woven [a, [i], [.loadNil]] := by
  have hlength := Instruction.length_of_offset hi
  refine ⟨.inl ha, .inr ⟨i, rfl, fun offset hoffset => ?_⟩, .inr ⟨_, rfl, nofun⟩, trivial⟩
  obtain rfl := Option.some.inj (hi.symm.trans hoffset)
  refine ⟨[], _, rfl, ?_⟩
  simp only [List.flatten_nil, codeLength, hlength, hpast, Nat.zero_add, Int.cast_ofNat_Int]
  omega

theorem branches_guarded (ha : Branches a) (hb : Branches b) (hi : i.offset? = some past)
    (hpast : past.toInt = codeLength b) : Branches (a ++ [i] ++ b) := by
  simpa using (woven_guarded ha hb hi hpast).branches

theorem branches_either (ha : Branches a) (hb : Branches b) (hc : Branches c)
    (hi : i.offset? = some past) (hpast : past.toInt = codeLength b + 3)
    (hout : out.toInt = codeLength c) : Branches (a ++ [i] ++ b ++ [.jump out] ++ c) := by
  simpa using (woven_either ha hb hc hi hpast hout).branches

theorem branches_loop (ha : Branches a) (hb : Branches b) (hi : i.offset? = some past)
    (hpast : past.toInt = codeLength b + 3)
    (hout : out.toInt = -(codeLength a + 3 + codeLength b + 3)) :
    Branches (a ++ [i] ++ b ++ [.jump out] ++ [.loadNil]) := by
  simpa using (woven_loop ha hb hi hpast hout).branches

theorem branches_until (ha : Branches a) (hi : i.offset? = some past)
    (hpast : past.toInt = -(codeLength a + 3)) : Branches (a ++ [i] ++ [.loadNil]) := by
  simpa using (woven_until ha hi hpast).branches

end Control

end ObjectMachine
