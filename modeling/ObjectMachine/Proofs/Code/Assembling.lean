import Mathlib.Algebra.GroupWithZero.Nat
import ObjectMachine.Machine.Basic
import ObjectMachine.Proofs.Code.Branching

namespace ObjectMachine

namespace Opcode

def branch : Opcode → Int16 → Instruction
  | .branchIfFalse, offset => .branchIfFalse offset
  | .branchIfTrue, offset => .branchIfTrue offset
  | _, offset => .jump offset

variable {op : Opcode}

theorem encode_branch (h : op.isBranch) (offset : Int16) :
    (op.branch offset).encode = op.byte :: offsetBytes offset := by
  cases op with
  | jump | branchIfFalse | branchIfTrue => rfl
  | _ => cases h

theorem length_branch (op : Opcode) (offset : Int16) : (op.branch offset).length = 3 := by
  cases op <;> rfl

end Opcode

def way (start target : Nat) : Int := ((target : Int) - start).bmod wordModulus

/-- Among the positions that some code can have, the way is the difference. -/
theorem way_eq_sub {start target : Nat} (hstart : start < 0x8000000000000000)
    (htarget : target < 0x8000000000000000) : way start target = target - start := by
  refine Int.bmod_eq_of_le ?_ ?_ <;> simp only [wordModulus] <;> omega

/-- A branch leads where its offset tells, also from the first word back to the last. -/
theorem jumped_of_way {start target : Nat} {offset : Int16} (h : offset.toInt = way start target)
    (htarget : target < wordModulus) : Machine.jumped start offset = target := by
  have hmod : ((start : Int) + way start target) % wordModulus = target := by
    rw [way, Int.add_emod, Int.bmod_emod, ← Int.add_emod, Int.add_comm, Int.sub_add_cancel]
    exact Int.emod_eq_of_lt (by omega) (by exact_mod_cast htarget)
  rw [Machine.jumped, h, hmod, Int.toNat_natCast]

/-- Whether an offset leads from one position to another. -/
def Reaches (start target : Nat) : Prop := -0x8000 ≤ way start target ∧ way start target < 0x8000

instance (start target : Nat) : Decidable (Reaches start target) :=
  inferInstanceAs (Decidable (_ ∧ _))

theorem branchOffset_of_reaches {start target : Nat} (h : Reaches start target) :
    ∃ offset, branchOffset start target = .ok offset ∧ offset.toInt = way start target := by
  have hoffset : branchOffset start target = .ok (.ofInt (way start target)) := if_pos h
  exact ⟨_, hoffset, offsetOf_eq_ok hoffset⟩

theorem branchOffset_of_not_reaches {start target : Nat} (h : ¬Reaches start target) :
    branchOffset start target = .error (.branchTooFar (way start target)) := if_neg h

/-- An assembler and the labels that its forward branches left behind. -/
structure Assembly where
  assembler : Assembler := {}
  labels : List Label := []

namespace Assembly

/-- What an assembler is asked for. Labels are numbered in the order in which they were left
behind. -/
inductive Request where
  | emit (i : Instruction)
  | branchForward (op : Opcode) (branch : op.isBranch)
  | bind (label : Nat)
  | branchBack (op : Opcode) (branch : op.isBranch) (target : UInt64)

/-- Serves a request, or tells why it is refused. There is nothing to do for a label that was never
left behind. -/
def serve (a : Assembly) : Request → Assembly × Option CompileError
  | .emit i => ({ a with assembler := a.assembler.emit i }, none)
  | .branchForward op _ =>
    (⟨(a.assembler.branchForward op).2, a.labels ++ [(a.assembler.branchForward op).1]⟩, none)
  | .bind n =>
    match a.labels[n]?.map a.assembler.bind with
    | none => (a, none)
    | some (.ok (_, assembler)) => ({ a with assembler }, none)
    | some (.error e) => (a, some e)
  | .branchBack op _ target =>
    match a.assembler.branchBack op target.toNat with
    | .ok assembler => ({ a with assembler }, none)
    | .error e => (a, some e)

def serveAll (a : Assembly) : List Request → Assembly × List (Option CompileError)
  | [] => (a, [])
  | r :: rs => (((a.serve r).1.serveAll rs).1, (a.serve r).2 :: ((a.serve r).1.serveAll rs).2)

end Assembly

inductive Line where
  | plain (i : Instruction)
  | forward (op : Opcode) (bound : Option Nat)
  | back (op : Opcode) (target : Nat)

def Line.extent : Line → Nat
  | .plain i => i.length
  | .forward .. | .back .. => 3

abbrev Draft := List Line

namespace Draft

def extent (d : Draft) : Nat := (d.map Line.extent).sum

def bases (pc : Nat) : Draft → List Nat
  | [] => []
  | .forward .. :: d => (pc + 3) :: bases (pc + 3) d
  | line :: d => bases (pc + line.extent) d

/-- The draft in which the forward branch of the given number leads to `target`. -/
def settle (target : Nat) : Nat → Draft → Draft
  | _, [] => []
  | 0, .forward op _ :: d => .forward op (some target) :: d
  | n + 1, .forward op bound :: d => .forward op bound :: settle target n d
  | n, line :: d => line :: settle target n d

/-- What becomes of a draft, and what is refused: ways that no offset can tell. -/
def serve (d : Draft) : Assembly.Request → Draft × Option CompileError
  | .emit i => (d ++ [.plain i], none)
  | .branchForward op _ => (d ++ [.forward op none], none)
  | .bind n =>
    match (d.bases 0)[n]? with
    | none => (d, none)
    | some base =>
      if Reaches base d.extent then (d.settle d.extent n, none)
      else (d, some (.branchTooFar (way base d.extent)))
  | .branchBack op _ target =>
    if Reaches (d.extent + 3) target.toNat then (d ++ [.back op target.toNat], none)
    else (d, some (.branchTooFar (way (d.extent + 3) target.toNat)))

def serveAll (d : Draft) : List Assembly.Request → Draft × List (Option CompileError)
  | [] => (d, [])
  | r :: rs => ((serveAll (d.serve r).1 rs).1, (d.serve r).2 :: (serveAll (d.serve r).1 rs).2)

end Draft

def Line.Reads (pc : Nat) (i : Instruction) : Line → Prop
  | .plain j => i = j
  | .forward op none => i = op.branch 0
  | .forward op (some target) =>
    ∃ offset, i = op.branch offset ∧ (pc : Int) + 3 + offset.toInt = target
  | .back op target => ∃ offset, i = op.branch offset ∧ Machine.jumped (pc + 3) offset = target

section Writing

def Line.Spells (pc : Nat) (i : Instruction) : Line → Prop
  | .plain j => i = j
  | .forward op none => op.isBranch ∧ i = op.branch 0
  | .forward op (some target) | .back op target =>
    op.isBranch ∧ ∃ offset, i = op.branch offset ∧ offset.toInt = way (pc + 3) target

/-- Instructions from a position on go the ways that the lines of a draft ask for. -/
inductive Draft.Writes : Nat → Draft → List Instruction → Prop where
  | nil {pc : Nat} : Writes pc [] []
  | cons {pc : Nat} {line : Line} {i : Instruction} {d : Draft} {code : List Instruction} :
    line.Spells pc i → Writes (pc + line.extent) d code → Writes pc (line :: d) (i :: code)

theorem Line.Spells.length_eq {pc : Nat} {i : Instruction} {line : Line} (h : line.Spells pc i) :
    i.length = line.extent := by
  cases line with
  | plain j => exact congrArg Instruction.length h
  | forward op bound =>
    cases bound with
    | none => rw [h.2, op.length_branch, Line.extent]
    | some target =>
      obtain ⟨-, offset, rfl, -⟩ := h
      rw [op.length_branch, Line.extent]
  | back op target =>
    obtain ⟨-, offset, rfl, -⟩ := h
    rw [op.length_branch, Line.extent]

theorem Line.Spells.forward {pc : Nat} {i : Instruction} {op : Opcode} {bound : Option Nat}
    (h : (Line.forward op bound).Spells pc i) : op.isBranch ∧ ∃ offset, i = op.branch offset := by
  cases bound with
  | none => exact ⟨h.1, 0, h.2⟩
  | some target =>
    obtain ⟨hop, offset, hi, -⟩ := h
    exact ⟨hop, offset, hi⟩

namespace Draft

variable {pc n base target : Nat} {d d' : Draft} {code code' : List Instruction}

theorem extent_cons (line : Line) (d : Draft) : extent (line :: d) = line.extent + d.extent := rfl

theorem extent_append (d d' : Draft) : extent (d ++ d') = extent d + extent d' := by
  rw [extent, List.map_append, List.sum_append, extent, extent]

namespace Writes

theorem length_eq (h : Writes pc d code) : codeLength code = d.extent := by
  induction h with
  | nil => rfl
  | cons hline _ ih => rw [codeLength, ih, hline.length_eq, extent_cons]

theorem append (h : Writes pc d code) (h' : Writes (pc + d.extent) d' code') :
    Writes pc (d ++ d') (code ++ code') := by
  induction h with
  | nil => exact h'
  | cons hline _ ih =>
    refine .cons hline (ih ?_)
    rwa [Nat.add_assoc, ← extent_cons]

theorem split (h : Writes pc (d ++ d') code) : ∃ first rest, code = first ++ rest ∧
    Writes pc d first ∧ Writes (pc + d.extent) d' rest := by
  induction d generalizing pc code with
  | nil => exact ⟨[], code, rfl, .nil, h⟩
  | cons line d ih =>
    cases h with
    | cons hline hrest =>
      obtain ⟨first, rest, rfl, hfirst, hrest⟩ := ih hrest
      refine ⟨_ :: first, rest, rfl, .cons hline hfirst, ?_⟩
      rwa [extent_cons, ← Nat.add_assoc]

end Writes

theorem bases_append (pc : Nat) (d d' : Draft) :
    bases pc (d ++ d') = bases pc d ++ bases (pc + d.extent) d' := by
  induction d generalizing pc with
  | nil => rfl
  | cons line d ih =>
    cases line <;> simp [bases, ih, extent_cons, Line.extent, Nat.add_assoc]

/-- A label stands for one of the forward branches. -/
theorem split_at_base (h : (bases pc d)[n]? = some base) :
    ∃ (before : Draft) (op : Opcode) (bound : Option Nat) (after : Draft),
      d = before ++ .forward op bound :: after ∧
      base = pc + before.extent + 3 ∧
      ∀ target, settle target n d = before ++ .forward op (some target) :: after := by
  induction d generalizing pc n with
  | nil => cases h
  | cons line d ih =>
    have later {n : Nat} (hn : (bases (pc + line.extent) d)[n]? = some base) :
        ∃ (before : Draft) (op : Opcode) (bound : Option Nat) (after : Draft),
          line :: d = line :: before ++ .forward op bound :: after ∧
          base = pc + extent (line :: before) + 3 ∧
          ∀ target, line :: settle target n d =
            line :: before ++ .forward op (some target) :: after := by
      obtain ⟨before, op, bound, after, rfl, rfl, hsettle⟩ := ih hn
      refine ⟨before, op, bound, after, rfl, ?_, fun target => ?_⟩
      · rw [extent_cons, ← Nat.add_assoc pc]
      · rw [hsettle, List.cons_append]
    cases line with
    | plain | back =>
      obtain ⟨before, op, bound, after, hd, hbase, hsettle⟩ := later h
      exact ⟨_ :: before, op, bound, after, hd, hbase, fun target => hsettle target⟩
    | forward op bound =>
      cases n with
      | zero => exact ⟨[], op, bound, d, rfl, (Option.some.inj h).symm, fun _ => rfl⟩
      | succ n =>
        obtain ⟨before, op', bound', after, hd, hbase, hsettle⟩ := later h
        exact ⟨_ :: before, op', bound', after, hd, hbase, fun target => hsettle target⟩

end Draft

/-- The offset of a branch is replaced in the middle of some code. -/
theorem patch_branch {op : Opcode} (hop : op.isBranch) (old new : Int16)
    (before after : List Instruction) :
    (match offsetBytes new with
      | [high, low] =>
        ((encodeAll (before ++ op.branch old :: after)).toArray.setIfInBounds
          (codeLength before + 1) high).setIfInBounds (codeLength before + 1 + 1) low
      | _ => (encodeAll (before ++ op.branch old :: after)).toArray) =
      (encodeAll (before ++ op.branch new :: after)).toArray := by
  have hcode : ∀ offset, encodeAll (before ++ op.branch offset :: after) =
      encodeAll before ++ op.byte :: (offsetBytes offset ++ encodeAll after) := by
    intro offset
    simp [encodeAll, Opcode.encode_branch hop]
  rw [hcode, hcode, ← length_encodeAll]
  simp only [offsetBytes, List.setIfInBounds_toArray, Nat.add_assoc]
  rw [List.set_append_right _ _ (Nat.le_add_right _ _), Nat.add_sub_cancel_left,
    List.set_append_right _ _ (Nat.le_add_right _ _), Nat.add_sub_cancel_left]
  rfl

/-- Labels are bound to positions up to the end of the code, and targets are words. -/
def Line.Within (stop : Nat) : Line → Prop
  | .plain _ | .forward _ none => True
  | .forward _ (some target) => target ≤ stop
  | .back _ target => target < wordModulus

theorem Line.Within.mono {line : Line} {stop stop' : Nat} (h : line.Within stop)
    (hle : stop ≤ stop') : line.Within stop' := by
  cases line with
  | plain => trivial
  | forward op bound =>
    cases bound with
    | none => trivial
    | some target => exact Nat.le_trans h hle
  | back => exact h

structure Assembly.Follows (a : Assembly) (d : Draft) : Prop where
  code : ∃ code, d.Writes 0 code ∧ a.assembler.code = (encodeAll code).toArray
  labels : a.labels.map Label.base = d.bases 0
  within : ∀ line ∈ d, line.Within d.extent

namespace Assembly.Follows

variable {a : Assembly} {d : Draft}

theorem position (h : a.Follows d) : a.assembler.position = d.extent := by
  obtain ⟨code, hwrites, hcode⟩ := h.code
  rw [Assembler.position, hcode, List.size_toArray, length_encodeAll, hwrites.length_eq]

theorem snoc {line : Line} {i : Instruction} {code : Array UInt8} {labels : List Label}
    (h : a.Follows d) (hline : line.Spells d.extent i)
    (hcode : code = a.assembler.code ++ i.encode.toArray)
    (hlabels : labels.map Label.base = a.labels.map Label.base ++ Draft.bases d.extent [line])
    (hwithin : line.Within d.extent) : Assembly.Follows ⟨⟨code⟩, labels⟩ (d ++ [line]) := by
  obtain ⟨written, hwrites, hwritten⟩ := h.code
  refine ⟨⟨written ++ [i], hwrites.append ?_, ?_⟩, ?_, fun line' hmem => ?_⟩
  · rw [Nat.zero_add]
    exact .cons hline .nil
  · rw [hcode, hwritten, encodeAll_append]
    simp [encodeAll]
  · rw [hlabels, h.labels, Draft.bases_append, Nat.zero_add]
  · have hle : d.extent ≤ Draft.extent (d ++ [line]) := by
      rw [Draft.extent_append]
      exact Nat.le_add_right ..
    rcases List.mem_append.mp hmem with hold | hnew
    · exact (h.within line' hold).mono hle
    · exact (List.mem_singleton.mp hnew ▸ hwithin).mono hle

theorem emit (h : a.Follows d) (i : Instruction) :
    Assembly.Follows { a with assembler := a.assembler.emit i } (d ++ [.plain i]) :=
  h.snoc rfl rfl (List.append_nil _).symm trivial

theorem branchForward (h : a.Follows d) {op : Opcode} (hop : op.isBranch) :
    Assembly.Follows ⟨(a.assembler.branchForward op).2,
      a.labels ++ [(a.assembler.branchForward op).1]⟩ (d ++ [.forward op none]) := by
  have hbase : (a.assembler.branchForward op).1.base = d.extent + 3 := by
    rw [← h.position]
    rfl
  refine h.snoc (i := op.branch 0) ⟨hop, rfl⟩ ?_ ?_ trivial
  · rw [Opcode.encode_branch hop]
    rfl
  · rw [List.map_append, List.map_singleton, hbase]
    rfl

theorem branchBack (h : a.Follows d) {op : Opcode} (hop : op.isBranch) {target : Nat}
    (htarget : target < wordModulus) (hreaches : Reaches (d.extent + 3) target) :
    ∃ assembler, a.assembler.branchBack op target = .ok assembler ∧
      Assembly.Follows { a with assembler } (d ++ [.back op target]) := by
  obtain ⟨offset, hoffset, hway⟩ := branchOffset_of_reaches hreaches
  rw [Assembler.branchBack, h.position, hoffset]
  refine ⟨_, rfl, h.snoc (i := op.branch offset) ⟨hop, offset, rfl, hway⟩ ?_
    (List.append_nil _).symm htarget⟩
  rw [Opcode.encode_branch hop]

theorem branchBack_refused (h : a.Follows d) (op : Opcode) {target : Nat}
    (hreaches : ¬Reaches (d.extent + 3) target) : a.assembler.branchBack op target =
      .error (.branchTooFar (way (d.extent + 3) target)) := by
  rw [Assembler.branchBack, h.position, branchOffset_of_not_reaches hreaches]
  rfl

theorem bind (h : a.Follows d) {n : Nat} {label : Label} (hlabel : a.labels[n]? = some label)
    (hreaches : Reaches label.base d.extent) :
    ∃ assembler, a.assembler.bind label = .ok (d.extent, assembler) ∧
      Assembly.Follows { a with assembler } (d.settle d.extent n) := by
  obtain ⟨offset, hoffset, hway⟩ := branchOffset_of_reaches hreaches
  have hbase : (d.bases 0)[n]? = some label.base := by
    rw [← h.labels, List.getElem?_map, hlabel, Option.map_some]
  obtain ⟨before, op, bound, after, hd, hplace, hsettle⟩ := Draft.split_at_base hbase
  have hextent : (d.settle d.extent n).extent = d.extent := by
    nth_rewrite 3 [hd]
    rw [hsettle, Draft.extent_append, Draft.extent_append, Draft.extent_cons, Draft.extent_cons]
    rfl
  obtain ⟨code, hwrites, hcode⟩ := h.code
  rw [hd] at hwrites
  obtain ⟨first, rest, rfl, hfirst, hrest⟩ := hwrites.split
  cases hrest with
  | @cons _ _ i _ rest hline hrest =>
    obtain ⟨hop, old, rfl⟩ := hline.forward
    have hat : label.offsetAt = codeLength first + 1 := by
      rw [Label.base] at hplace
      rw [hfirst.length_eq]
      omega
    rw [Assembler.bind, h.position, hoffset]
    refine ⟨_, rfl, ⟨⟨first ++ op.branch offset :: rest, ?_, ?_⟩, ?_, fun line hmem => ?_⟩⟩
    · rw [hsettle]
      exact hfirst.append (.cons ⟨hop, offset, rfl, by rw [hway, hplace]⟩ hrest)
    · rw [hcode, hat]
      exact patch_branch hop old offset first rest
    · rw [h.labels, hsettle, Draft.bases_append]
      nth_rewrite 1 [hd]
      rw [Draft.bases_append]
      rfl
    · rw [hextent]
      rw [hsettle] at hmem
      rcases List.mem_append.mp hmem with hold | hmem
      · exact h.within line (hd ▸ List.mem_append_left _ hold)
      · rcases List.mem_cons.mp hmem with rfl | hold
        · exact Nat.le_refl _
        · exact h.within line (hd ▸ List.mem_append_right _ (List.mem_cons_of_mem _ hold))

theorem bind_refused (h : a.Follows d) {label : Label} (hreaches : ¬Reaches label.base d.extent) :
    a.assembler.bind label = .error (.branchTooFar (way label.base d.extent)) := by
  rw [Assembler.bind, h.position, branchOffset_of_not_reaches hreaches]
  rfl

theorem serve (h : a.Follows d) (r : Assembly.Request) :
    (a.serve r).2 = (d.serve r).2 ∧ (a.serve r).1.Follows (d.serve r).1 := by
  cases r with
  | emit i => exact ⟨rfl, h.emit i⟩
  | branchForward op hop => exact ⟨rfl, h.branchForward hop⟩
  | bind n =>
    rw [Assembly.serve, Draft.serve, ← h.labels, List.getElem?_map]
    cases hlabel : a.labels[n]? with
    | none => exact ⟨rfl, h⟩
    | some label =>
      simp only [Option.map_some]
      by_cases hreaches : Reaches label.base d.extent
      · obtain ⟨assembler, hok, hfollows⟩ := h.bind hlabel hreaches
        rw [hok, if_pos hreaches]
        exact ⟨rfl, hfollows⟩
      · rw [h.bind_refused hreaches, if_neg hreaches]
        exact ⟨rfl, h⟩
  | branchBack op hop target =>
    rw [Assembly.serve, Draft.serve]
    by_cases hreaches : Reaches (d.extent + 3) target.toNat
    · obtain ⟨assembler, hok, hfollows⟩ := h.branchBack hop target.toNat_lt hreaches
      rw [hok, if_pos hreaches]
      exact ⟨rfl, hfollows⟩
    · rw [h.branchBack_refused op hreaches, if_neg hreaches]
      exact ⟨rfl, h⟩

theorem serveAll (h : a.Follows d) (rs : List Assembly.Request) :
    (a.serveAll rs).2 = (d.serveAll rs).2 ∧ (a.serveAll rs).1.Follows (d.serveAll rs).1 := by
  induction rs generalizing a d with
  | nil => exact ⟨rfl, h⟩
  | cons r rs ih =>
    obtain ⟨hfirst, hfollows⟩ := h.serve r
    obtain ⟨hrest, hfollows'⟩ := ih hfollows
    exact ⟨congrArg₂ List.cons hfirst hrest, hfollows'⟩

end Assembly.Follows

end Writing

section Reading

/-- What was written for a line reads as the line, if the code is of a size that there is. -/
theorem Line.Spells.reads {pc stop : Nat} {i : Instruction} {line : Line} (h : line.Spells pc i)
    (hwithin : line.Within stop) (hpc : pc + line.extent ≤ stop)
    (hstop : stop < 0x8000000000000000) : line.Reads pc i := by
  cases line with
  | plain j => exact h
  | forward op bound =>
    cases bound with
    | none => exact h.2
    | some target =>
      obtain ⟨-, offset, hi, hway⟩ := h
      have hbase : pc + 3 < 0x8000000000000000 := Nat.lt_of_le_of_lt hpc hstop
      rw [way_eq_sub hbase (Nat.lt_of_le_of_lt hwithin hstop)] at hway
      exact ⟨offset, hi, by omega⟩
  | back op target =>
    obtain ⟨-, offset, hi, hway⟩ := h
    exact ⟨offset, hi, jumped_of_way hway hwithin⟩

theorem Draft.Writes.reads {pc stop : Nat} {d : Draft} {code : List Instruction}
    (h : d.Writes pc code) (hwithin : ∀ line ∈ d, line.Within stop) (hpc : pc + d.extent ≤ stop)
    (hstop : stop < 0x8000000000000000) :
    List.Forall₂ (fun line e => line.Reads e.1 e.2) d (positioned pc code) := by
  induction h with
  | nil => exact .nil
  | @cons pc line i d code hline _ ih =>
    rw [extent_cons, ← Nat.add_assoc] at hpc
    refine .cons (hline.reads (hwithin line List.mem_cons_self) (by omega) hstop) ?_
    rw [hline.length_eq]
    exact ih (fun line hmem => hwithin line (.tail _ hmem)) hpc

/-- A request that is refused leaves everything as it was. -/
theorem Assembly.refused_unchanged {a : Assembly} {r : Assembly.Request}
    (h : (a.serve r).2.isSome) : (a.serve r).1 = a := by
  cases r with
  | emit | branchForward => cases h
  | bind n =>
    rw [serve] at h ⊢
    split at h
    · rfl
    · cases h
    · rfl
  | branchBack op hop target =>
    rw [serve] at h ⊢
    split at h
    · cases h
    · rfl

/-- Assembled code is what was asked for. Whatever is asked for, in whatever order labels are bound,
the same requests are refused and for the same reason as in the draft, where a branch is refused
exactly if the way to its target, as a signed word, does not fit its offset. The code decodes to the
draft, line by line: emitted instructions as they are, branches that were bound to offsets that lead
to where they were bound, branches back to offsets that lead to their targets, and branches that
were not bound to offset zero. A request that is refused leaves everything as it was. -/
theorem Assembly.serveAll_follows_draft (rs : List Assembly.Request)
    (hsize : (({} : Assembly).serveAll rs).1.assembler.code.size < 0x8000000000000000) :
    (({} : Assembly).serveAll rs).2 = (Draft.serveAll [] rs).2 ∧
    (∃ read, Code.decodeAll (({} : Assembly).serveAll rs).1.assembler.code = (read, none) ∧
      List.Forall₂ (fun line e => line.Reads e.1 e.2) (Draft.serveAll [] rs).1 read) ∧
    (∀ (a : Assembly) (r : Assembly.Request), (a.serve r).2.isSome → (a.serve r).1 = a) ∧
    ∀ start target, start < 0x8000000000000000 → target < 0x8000000000000000 →
      way start target = target - start := by
  have hstart : Assembly.Follows {} [] := ⟨⟨[], .nil, rfl⟩, rfl, nofun⟩
  obtain ⟨hrefused, hfollows⟩ := hstart.serveAll rs
  have hextent : _ = Draft.extent _ := hfollows.position
  obtain ⟨code, hwrites, hcode⟩ := hfollows.code
  refine ⟨hrefused, ⟨positioned 0 code, ?_, ?_⟩, fun _ _ => refused_unchanged,
    fun _ _ => way_eq_sub⟩
  · rw [hcode, decodeAll_encodeAll]
  · refine hwrites.reads hfollows.within (Nat.le_of_eq (Nat.zero_add _)) ?_
    rw [← hextent]
    exact hsize

/-- Two branches whose labels are bound in the other order, one that is never bound, one back, and
one too far. -/
def crossing : List Assembly.Request :=
  [.branchForward .jump rfl, .branchForward .branchIfFalse rfl, .bind 1, .emit .loadNil, .bind 0,
    .branchForward .branchIfTrue rfl, .branchBack .jump rfl 3, .branchBack .jump rfl 40000]

def crossed : Draft :=
  [.forward .jump (some 7), .forward .branchIfFalse (some 6), .plain .loadNil,
    .forward .branchIfTrue none, .back .jump 3]

theorem serveAll_follows_draft_crossing :
    (({} : Assembly).serveAll crossing).1.assembler.code.size < 0x8000000000000000 ∧
    (({} : Assembly).serveAll crossing).2 =
      [none, none, none, none, none, none, none, some (.branchTooFar 39984)] ∧
    ∃ read, Code.decodeAll (({} : Assembly).serveAll crossing).1.assembler.code = (read, none) ∧
      List.Forall₂ (fun line e => line.Reads e.1 e.2) crossed read := by
  have hsize : (({} : Assembly).serveAll crossing).1.assembler.code.size < 0x8000000000000000 := by
    decide
  obtain ⟨hrefused, hread, -, -⟩ := Assembly.serveAll_follows_draft crossing hsize
  exact ⟨hsize, hrefused, hread⟩

/-- From the first position the last word is reached backwards, far away as it is. -/
theorem last_word_reached :
    ¬∀ target : UInt64, ((({} : Assembly).serve (.branchBack .jump rfl target)).2.isSome ↔
      ¬(-0x8000 ≤ (target.toNat : Int) - 3 ∧ (target.toNat : Int) - 3 < 0x8000)) := by
  intro h
  exact absurd ((h 0xffffffffffffffff).mpr (by decide)) (by decide)

end Reading

end ObjectMachine
