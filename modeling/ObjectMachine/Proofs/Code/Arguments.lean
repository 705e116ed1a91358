import ObjectMachine.Proofs.Code.Bracketing
import ObjectMachine.Proofs.Code.Decoding
import ObjectMachine.Proofs.Code.Sending
import ObjectMachine.Proofs.Machine.Performance

namespace ObjectMachine

namespace Instruction

def isPrimitive : Instruction → Bool
  | .primitive0 _ | .primitive1 _ | .primitive2 .. | .primitive3 .. | .primitiveV .. => true
  | _ => false

def LeadsTo (i : Instruction) (pc next : Nat) : Prop :=
  next = pc + i.length ∨
    ∃ offset, i.offset? = some offset ∧ (next : Int) = pc + i.length + offset.toInt

end Instruction

/-- No branch leads from outside of a stretch of code into it, but to its start. -/
def Shut (code : List Instruction) (start stop : Nat) : Prop :=
  ∀ pc i offset, (pc, i) ∈ positioned 0 code → i.offset? = some offset → pc < start ∨ stop ≤ pc →
    (pc + i.length + offset.toInt : Int) ≤ start ∨ (stop : Int) ≤ pc + i.length + offset.toInt

section Pieces

variable {pieces pre post before after : List (List Instruction)} {piece code : List Instruction}

/-- A joint of some pieces is not inside of any of them. -/
theorem joint_outside (h : pre ++ piece :: post = before ++ after) :
    codeLength before.flatten ≤ codeLength pre.flatten ∨
      codeLength pre.flatten + codeLength piece ≤ codeLength before.flatten := by
  rcases List.append_eq_append_iff.mp h with ⟨mid, rfl, hmid⟩ | ⟨mid, rfl, -⟩
  · cases mid with
    | nil => exact .inl (by simp)
    | cons first mid =>
      obtain ⟨rfl, -⟩ := List.cons.inj hmid
      exact .inr (by simp)
  · exact .inl (by simp)

/-- A branch of a piece of woven code stays in the piece, or leads to a joint. -/
theorem Woven.target (h : Woven (pre ++ piece :: post)) {pc : Nat} {i : Instruction}
    {offset : Int16} (hmem : (pc, i) ∈ positioned 0 piece) (hoffset : i.offset? = some offset) :
    (∃ target : Nat, target ≤ codeLength piece ∧ (pc + i.length + offset.toInt : Int) = target) ∨
      Joint (pre ++ piece :: post)
        (codeLength pre.flatten + pc + i.length + offset.toInt) := by
  rcases WovenIn.split h with hbranches | ⟨j, rfl, hjoint⟩
  · obtain ⟨front, rest, rfl, htarget⟩ := hbranches pc i offset hmem hoffset
    exact .inl ⟨codeLength front, by simp, htarget⟩
  · simp only [positioned, List.mem_singleton, Prod.mk.injEq] at hmem
    obtain ⟨rfl, rfl⟩ := hmem
    exact .inr (by simpa using hjoint offset hoffset)

theorem Woven.shut {start stop : Nat} (h : Woven (pre ++ piece :: post))
    (hstop : stop ≤ codeLength piece) (hpiece : Shut piece start stop) :
    Shut (pre ++ piece :: post).flatten (codeLength pre.flatten + start)
      (codeLength pre.flatten + stop) := by
  intro pc i offset hmem hoffset hpc
  obtain ⟨pre', piece', post', pc', heq, rfl, hmem'⟩ := mem_positioned_flatten hmem
  have hjoint : ∀ {target : Int}, Joint (pre ++ piece :: post) target →
      target ≤ codeLength pre.flatten ∨
        (codeLength pre.flatten + codeLength piece : Int) ≤ target := by
    rintro _ ⟨before, after, hsplit, rfl⟩
    have := joint_outside hsplit
    omega
  have htarget := Woven.target (heq ▸ h) hmem' hoffset
  rw [← heq] at htarget
  rcases htarget with ⟨target, hin, htarget⟩ | htarget
  · rcases List.append_eq_append_iff.mp heq with ⟨mid, rfl, hmid⟩ | ⟨mid, rfl, hmid⟩
    · cases mid with
      | nil =>
        obtain ⟨rfl, rfl⟩ := List.cons.inj hmid
        have := hpiece pc' i offset hmem' hoffset (by simp at hpc; omega)
        simp
        omega
      | cons first mid =>
        obtain ⟨rfl, rfl⟩ := List.cons.inj hmid
        simp
        omega
    · cases mid with
      | nil =>
        obtain ⟨rfl, rfl⟩ := List.cons.inj hmid
        have := hpiece pc' i offset hmem' hoffset (by simp at hpc; omega)
        simp
        omega
      | cons first mid =>
        obtain ⟨rfl, rfl⟩ := List.cons.inj hmid
        simp
        omega
  · have := hjoint htarget
    simp
    omega

end Pieces

theorem mem_positioned_iff {code : List Instruction} {pc : Nat} {i : Instruction} :
    (pc, i) ∈ positioned 0 code ↔
      ∃ before after, code = before ++ i :: after ∧ pc = codeLength before := by
  constructor
  · intro h
    induction code using List.reverseRecOn with
    | nil => cases h
    | append_singleton code j ih =>
      rw [positioned_append, List.mem_append] at h
      rcases h with h | h
      · obtain ⟨before, after, rfl, hpc⟩ := ih h
        exact ⟨before, after ++ [j], by simp, hpc⟩
      · simp only [positioned, List.mem_singleton, Prod.mk.injEq] at h
        obtain ⟨rfl, rfl⟩ := h
        exact ⟨code, [], rfl, Nat.zero_add _⟩
  · rintro ⟨before, after, rfl, rfl⟩
    rw [positioned_append, Nat.zero_add]
    exact List.mem_append_right _ (.head _)

theorem mem_positioned_zero {code : List Instruction} {base pc : Nat} {i : Instruction}
    (h : (pc, i) ∈ positioned base code) :
    ∃ pc', pc = base + pc' ∧ (pc', i) ∈ positioned 0 code := by
  have hzero : (pc, i) ∈ positioned (base + 0) code := h
  exact mem_positioned_add hzero

theorem bounds_of_mem_positioned {code : List Instruction} {base pc : Nat} {i : Instruction}
    (h : (pc, i) ∈ positioned base code) :
    base ≤ pc ∧ pc + i.length ≤ base + codeLength code := by
  obtain ⟨pc', rfl, h'⟩ := mem_positioned_zero h
  obtain ⟨before, after, rfl, rfl⟩ := mem_positioned_iff.mp h'
  simp [codeLength]
  omega

/-- At the start of an instruction, that instruction is read. -/
theorem Code.positioned_of_decodeAt {code : List Instruction} {pc next : Nat} {i : Instruction}
    (hpc : Boundary code pc) (h : Code.decodeAt (encodeAll code).toArray pc = .ok (i, next)) :
    (pc, i) ∈ positioned 0 code ∧ next = pc + i.length := by
  obtain ⟨before, after, rfl, hbefore⟩ := hpc
  obtain rfl := Int.ofNat.inj hbefore
  cases after with
  | nil =>
    obtain ⟨byte, hbyte, -⟩ := except_bind_eq_ok.mp h
    have hlt := (Array.getElem?_eq_some_iff.mp (Code.operand_eq_ok hbyte)).1
    simp [length_encodeAll] at hlt
  | cons j after =>
    obtain ⟨rfl, rfl⟩ := Prod.mk.inj
      (Except.ok.inj ((Code.decodeAt_append before after j).symm.trans h))
    exact ⟨mem_positioned_iff.mpr ⟨before, after, rfl, rfl⟩, rfl⟩

/-- Instructions lead from where one starts to where one starts, or to the end. -/
theorem Instruction.LeadsTo.boundary {code : List Instruction} {pc next : Nat} {i : Instruction}
    (h : i.LeadsTo pc next) (hbranches : Branches code) (hmem : (pc, i) ∈ positioned 0 code) :
    Boundary code next := by
  rcases h with rfl | ⟨offset, hoffset, htarget⟩
  · obtain ⟨before, after, rfl, rfl⟩ := mem_positioned_iff.mp hmem
    exact ⟨before ++ [i], after, by simp, by simp [codeLength]⟩
  · rw [htarget]
    exact hbranches pc i offset hmem hoffset

theorem Boundary.le_codeLength {code : List Instruction} {pc : Nat} (h : Boundary code pc) :
    pc ≤ codeLength code := by
  obtain ⟨before, after, rfl, hbefore⟩ := h
  rw [codeLength_append]
  omega

/-- Whatever leads between two positions from outside, goes by the first of them. -/
def Gate (code : List Instruction) (start stop : Nat) : Prop :=
  ∀ pc i next, (pc, i) ∈ positioned 0 code → i.LeadsTo pc next → start < next → next < stop →
    start ≤ pc ∧ pc < stop

/-- The way into the rest of a stretch that is shut, behind code that does not branch out of
itself. -/
theorem Shut.gate {front first second rest : List Instruction} (hfirst : Branches first)
    (h : Shut (front ++ (first ++ second) ++ rest) (codeLength front)
      (codeLength (front ++ (first ++ second)))) :
    Gate (front ++ (first ++ second) ++ rest) (codeLength (front ++ first))
      (codeLength (front ++ (first ++ second))) := by
  intro pc i next hmem hleads hstart hstop
  have hpos := i.length_pos
  have houtside := h pc i
  simp only [codeLength_append] at hstart hstop houtside ⊢
  have hmem' := hmem
  simp only [positioned_append, List.mem_append, Nat.zero_add, codeLength_append] at hmem'
  rcases hmem' with (hfront | hin | hin) | hrest
  · have hbound := bounds_of_mem_positioned hfront
    rcases hleads with rfl | ⟨offset, hoffset, htarget⟩
    · omega
    · have := houtside offset hmem hoffset (by omega)
      omega
  · have hbound := bounds_of_mem_positioned hin
    rcases hleads with rfl | ⟨offset, hoffset, htarget⟩
    · omega
    · obtain ⟨pc', rfl, hin'⟩ := mem_positioned_zero hin
      obtain ⟨pre, post, rfl, hend⟩ := hfirst pc' i offset hin' hoffset
      rw [codeLength_append] at hstart
      omega
  · have hbound := bounds_of_mem_positioned hin
    omega
  · have hbound := bounds_of_mem_positioned hrest
    rcases hleads with rfl | ⟨offset, hoffset, htarget⟩
    · omega
    · have := houtside offset hmem hoffset (by omega)
      omega

/-- The positions of something that moves through some code from its start: it stays, it goes back
to the start, or an instruction leads it on. -/
structure Strides (code : List Instruction) (pc : Nat → Nat) (last : Nat) : Prop where
  start : pc 0 = 0
  moves : ∀ j < last, pc (j + 1) = pc j ∨ pc (j + 1) = 0 ∨
    ∃ i, (pc j, i) ∈ positioned 0 code ∧ i.LeadsTo (pc j) (pc (j + 1))

/-- To get behind a gate one goes by it, and then stays there. -/
theorem Strides.exists_passing {code : List Instruction} {pc : Nat → Nat} {last start stop : Nat}
    (h : Strides code pc last) (hgate : Gate code start stop) (hstart : start ≤ pc last)
    (hstop : pc last < stop) :
    ∃ j ≤ last, pc j = start ∧ ∀ k, j < k → k ≤ last → start < pc k ∧ pc k < stop := by
  induction last with
  | zero =>
    have hzero := h.start
    exact ⟨0, Nat.le_refl _, by omega, by omega⟩
  | succ last ih =>
    by_cases heq : pc (last + 1) = start
    · exact ⟨last + 1, Nat.le_refl _, heq, fun k hk hlast => by omega⟩
    -- Whatever came behind the gate just now was there before, or at the gate.
    have hbefore : start ≤ pc last ∧ pc last < stop := by
      rcases h.moves last (Nat.lt_succ_self last) with hsame | hzero | ⟨i, hmem, hleads⟩
      · omega
      · omega
      · exact hgate _ i _ hmem hleads (by omega) hstop
    obtain ⟨j, hj, hat, hpassing⟩ :=
      ih ⟨h.start, fun k hk => h.moves k (Nat.lt_succ_of_lt hk)⟩ hbefore.1 hbefore.2
    refine ⟨j, Nat.le_succ_of_le hj, hat, fun k hk hlast => ?_⟩
    rcases Nat.eq_or_lt_of_le hlast with rfl | hlt
    · omega
    · exact hpassing k hk (Nat.le_of_lt_succ hlt)

/-- The call of a primitive: the code of the arguments that go to registers, from `next` on, that of
the argument that stays in the accumulator, if one does, and the instruction. -/
structure CallSite where
  next : Nat
  stored : List (List Instruction)
  kept : Option (List Instruction)
  call : Instruction

def stashed (next : Nat) : List (List Instruction) → List Instruction
  | [] => []
  | code :: rest => code ++ [.storeRegister next.toUInt8] ++ stashed (next + 1) rest

theorem stashed_append (next : Nat) (a b : List (List Instruction)) :
    stashed next (a ++ b) = stashed next a ++ stashed (next + a.length) b := by
  induction a generalizing next with
  | nil => rfl
  | cons code rest ih =>
    simp only [List.cons_append, stashed, ih, List.length_cons, List.append_assoc, Nat.add_assoc,
      Nat.add_comm 1]

namespace CallSite

def values (s : CallSite) : List (List Instruction) := s.stored ++ s.kept.toList

def evaluation (s : CallSite) : List Instruction :=
  stashed s.next s.stored ++ s.kept.getD []

def registers (s : CallSite) : List UInt8 :=
  (List.range' s.next s.stored.length).map Nat.toUInt8

def code (u : CodeUnit) (s : CallSite) : List Instruction := s.evaluation ++ u.call s.call

/-- How far the code has come when it has the value of an argument in the accumulator. -/
def done (s : CallSite) (k : Nat) : Nat :=
  codeLength (stashed s.next (s.stored.take k)) + codeLength (s.values.getD k [])

end CallSite

namespace CodeUnit

variable {u : CodeUnit} {id next next' : Nat} {p p₁ p₂ p₃ p' : Pool}
    {literals literals' : List Constant}
  {R : String → List Expr → Prop} {code a b : List Instruction} {i : Instruction}

/-- An instruction leaves the registers below `next` alone in which values wait. -/
def Respects (u : CodeUnit) (next : Nat) (i : Instruction) : Prop :=
  ∀ r, Machine.setRegister? i = some r → r.toNat < u.firstTemp ∨ next ≤ r.toNat

structure Supplies (u : CodeUnit) (literals : List Constant) (next : Nat) (es : List Expr)
    (codes : List (List Instruction)) : Prop where
  count : codes.length = es.length
  yields : ∀ k e, es[k]? = some e → ∃ code, codes[k]? = some code ∧
    u.Yields literals (next + k) e code
  branches : ∀ code ∈ codes, Branches code
  respects : ∀ k code, codes[k]? = some code → ∀ i ∈ code, u.Respects (next + k) i

structure Passes (u : CodeUnit) (literals : List Constant) (name : String) (args : List Expr)
    (prim : Primitive) (s : CallSite) : Prop where
  named : Primitive.ofName? name = some prim
  supplies : u.Supplies literals s.next args s.values
  low : u.firstTemp ≤ s.next
  room : s.stored ≠ [] → s.next + s.stored.length ≤ maxRegisters
  synced : ∀ x ∈ u.syncs, x.reg.toNat < u.firstTemp
  call : prim.arity = .fixed args.length ∧ (s.kept = none → args = []) ∧
      s.call = Emit.directCall prim.index.toUInt8 args.length s.registers ∨
    prim.arity = .variadic ∧ s.kept = none ∧ args.length ≤ maxArgs ∧
      s.call = .primitiveV prim.index.toUInt8 s.next.toUInt8 args.length.toUInt8

/-- An instruction of some code, behind what comes before it, is a call of a primitive that the
source has. -/
def Sited (u : CodeUnit) (R : String → List Expr → Prop) (literals : List Constant)
    (code before : List Instruction) (i : Instruction) : Prop :=
  ∃ name args prim s front rest, R name args ∧ u.Passes literals name args prim s ∧ s.call = i ∧
    code = front ++ s.code u ++ rest ∧ before = front ++ s.evaluation ++ u.sync ∧
    Shut code (codeLength front) (codeLength (front ++ s.code u))

def Sites (u : CodeUnit) (R : String → List Expr → Prop) (literals : List Constant)
    (code : List Instruction) : Prop :=
  ∀ before i after, code = before ++ i :: after → i.isPrimitive = true →
    u.Sited R literals code before i

end CodeUnit

/-- Every call of a primitive in some code, and in the blocks among its constants, is one that the
source has. -/
inductive CodeTemplate.Sited (R : String → List Expr → Prop) : CodeTemplate → Prop where
  | intro {t : CodeTemplate} {u : CodeUnit} {code : List Instruction} :
    t.bytecode = (encodeAll code).toArray → Branches code → u.Sites R t.literals code →
    (∀ b, .block b ∈ t.literals → Sited R b) → Sited R t

/-- An element of some lists in a row is in one of them. -/
theorem flatten_eq_split {α : Type} {lists : List (List α)} {before after : List α} {x : α}
    (h : lists.flatten = before ++ x :: after) :
    ∃ pre l post front back, lists = pre ++ l :: post ∧ l = front ++ x :: back ∧
      before = pre.flatten ++ front := by
  induction lists generalizing before with
  | nil => simp at h
  | cons l lists ih =>
    rw [List.flatten_cons] at h
    rcases append_eq_split h with ⟨mid, rfl, -⟩ | ⟨mid, rfl, hlater⟩
    · exact ⟨[], _, lists, before, mid, rfl, rfl, rfl⟩
    · obtain ⟨pre, l', post, front, back, rfl, hl', rfl⟩ := ih hlater
      exact ⟨l :: pre, l', post, front, back, rfl, hl', by simp⟩

namespace CodeUnit

variable {u : CodeUnit} {id next next' : Nat} {p p₁ p₂ p₃ p' : Pool}
    {literals literals' : List Constant}
  {R : String → List Expr → Prop} {code a b : List Instruction} {i : Instruction}

theorem Supplies.mono {es : List Expr} {codes : List (List Instruction)}
    (hg : literals <+: literals') (h : u.Supplies literals next es codes) :
    u.Supplies literals' next es codes :=
  { h with yields := fun k e he =>
      let ⟨code, hcode, hyields⟩ := h.yields k e he
      ⟨code, hcode, hyields.mono hg⟩ }

theorem Sites.mono (hg : literals <+: literals') (h : u.Sites R literals code) :
    u.Sites R literals' code := by
  intro before i after heq hi
  obtain ⟨name, args, prim, s, front, rest, hR, hpasses, hrest⟩ := h before i after heq hi
  exact ⟨name, args, prim, s, front, rest, hR,
    { hpasses with supplies := hpasses.supplies.mono hg }, hrest⟩

/-- A call in a piece is a call in the code that is woven of it and others. -/
theorem Sited.within {pre post : List (List Instruction)} {piece before : List Instruction}
    (hwoven : Woven (pre ++ piece :: post)) (h : u.Sited R literals piece before i) :
    u.Sited R literals (pre ++ piece :: post).flatten (pre.flatten ++ before) i := by
  obtain ⟨name, args, prim, s, front, rest, hR, hpasses, hcall, rfl, rfl, hshut⟩ := h
  have hshut' := hwoven.shut (by simp) hshut
  exact ⟨name, args, prim, s, pre.flatten ++ front, rest ++ post.flatten, hR, hpasses, hcall,
    by simp, by simp, by simpa using hshut'⟩

theorem Sites.woven {pieces : List (List Instruction)} (hwoven : Woven pieces)
    (h : ∀ piece ∈ pieces, u.Sites R literals piece) : u.Sites R literals pieces.flatten := by
  intro before i after heq hi
  obtain ⟨pre, piece, post, front, back, rfl, hpiece, rfl⟩ := flatten_eq_split heq
  exact .within hwoven (h piece (by simp) front i back hpiece hi)

theorem sites_of_none (h : ∀ i ∈ code, i.isPrimitive = false) : u.Sites R literals code := by
  intro before i after heq hi
  rw [h i (heq ▸ by simp)] at hi
  cases hi

structure Passive (u : CodeUnit) (next : Nat) (i : Instruction) : Prop where
  straight : i.offset? = none
  quiet : i.isPrimitive = false
  respects : u.Respects next i

/-- Code that was emitted for registers from `next` on: what calls primitives in it is in the
source, and so it is in all blocks that came to the constants. -/
structure Hosts (u : CodeUnit) (R : String → List Expr → Prop) (next : Nat) (p : Pool)
    (code : List Instruction) (p' : Pool) : Prop where
  branches : Branches code
  grows : p.Grows p'
  sites : u.Sites R p'.literals.toList code
  respects : ∀ i ∈ code, u.Respects next i
  blocks : ∀ t, .block t ∈ p'.literals.toList → .block t ∈ p.literals.toList ∨ t.Sited R

namespace Hosts

theorem weaken (hnext : next ≤ next') (h : u.Hosts R next' p code p') :
    u.Hosts R next p code p' :=
  { h with respects := fun i hi r hr => (h.respects i hi r hr).imp_right hnext.trans }

theorem of_passive (hg : p.Grows p')
    (hblocks : ∀ t, .block t ∈ p'.literals.toList → .block t ∈ p.literals.toList)
    (h : ∀ i ∈ code, u.Passive next i) : u.Hosts R next p code p' where
  branches := branches_of_offset_none fun i hi => (h i hi).straight
  grows := hg
  sites := sites_of_none fun i hi => (h i hi).quiet
  respects i hi := (h i hi).respects
  blocks t ht := .inl (hblocks t ht)

theorem passive (h : ∀ i ∈ code, u.Passive next i) : u.Hosts R next p code p :=
  of_passive (.refl p) (fun _ ht => ht) h

theorem passive_singleton (h : u.Passive next i) : u.Hosts R next p [i] p :=
  passive (List.forall_mem_singleton.mpr h)

end Hosts

/-- Pieces of code that were emitted one after the other, with single instructions between them that
may branch from one to another. -/
inductive Parts (u : CodeUnit) (R : String → List Expr → Prop) (next : Nat) :
    Pool → List (List Instruction) → Pool → Prop where
  | nil {p : Pool} : Parts u R next p [] p
  | part {p p₁ p' : Pool} {code : List Instruction} {rest : List (List Instruction)} :
    u.Hosts R next p code p₁ → Parts u R next p₁ rest p' → Parts u R next p (code :: rest) p'
  | glue {p p' : Pool} {i : Instruction} {rest : List (List Instruction)} :
    i.isPrimitive = false → Machine.setRegister? i = none → Parts u R next p rest p' →
    Parts u R next p ([i] :: rest) p'

namespace Parts

variable {pieces : List (List Instruction)}

theorem grows (h : u.Parts R next p pieces p') : p.Grows p' := by
  induction h with
  | nil => exact .refl _
  | part hcode _ ih => exact hcode.grows.trans ih
  | glue _ _ _ ih => exact ih

/-- What holds of the pieces holds of the code that is woven of them. -/
theorem hosts (hwoven : Woven pieces) (h : u.Parts R next p pieces p') :
    u.Hosts R next p pieces.flatten p' := by
  have hpieces : ∀ piece ∈ pieces, u.Sites R p'.literals.toList piece ∧
      ∀ i ∈ piece, u.Respects next i := by
    clear hwoven
    induction h with
    | nil => exact nofun
    | part hcode hrest ih =>
      exact List.forall_mem_cons.mpr ⟨⟨hcode.sites.mono hrest.grows.literals, hcode.respects⟩, ih⟩
    | glue hquiet hnone _ ih =>
      refine List.forall_mem_cons.mpr
        ⟨⟨sites_of_none (List.forall_mem_singleton.mpr hquiet), ?_⟩, ih⟩
      exact List.forall_mem_singleton.mpr fun r hr => nomatch hnone.symm.trans hr
  refine ⟨hwoven.branches, h.grows, .woven hwoven fun piece hmem => (hpieces piece hmem).1,
    fun i hi => ?_, ?_⟩
  · obtain ⟨piece, hmem, hi⟩ := List.mem_flatten.mp hi
    exact (hpieces piece hmem).2 i hi
  · clear hwoven hpieces
    induction h with
    | nil => exact fun t ht => .inl ht
    | part hcode _ ih => exact fun t ht => (ih t ht).elim (hcode.blocks t) .inr
    | glue _ _ _ ih => exact ih

end Parts

/-- Code in two parts, of which the second was emitted later. -/
theorem Hosts.append (ha : u.Hosts R next p a p₁) (hb : u.Hosts R next p₁ b p') :
    u.Hosts R next p (a ++ b) p' := by
  have hwoven : Woven [a, b] := woven_of_branches (by simp [ha.branches, hb.branches])
  simpa using Parts.hosts hwoven (.part ha (.part hb .nil))

/-- An instruction that branches calls no primitive and sets no register. -/
theorem passive_of_offset {past : Int16} (hi : i.offset? = some past) :
    i.isPrimitive = false ∧ Machine.setRegister? i = none := by
  cases i with
  | jump | branchIfFalse | branchIfTrue => exact ⟨rfl, rfl⟩
  | _ => cases hi

namespace Hosts

variable {past out : Int16}

theorem guarded (ha : u.Hosts R next p a p₁) (hb : u.Hosts R next p₁ b p')
    (hi : i.offset? = some past) (hpast : past.toInt = codeLength b) :
    u.Hosts R next p (a ++ [i] ++ b) p' := by
  obtain ⟨hquiet, hset⟩ := passive_of_offset hi
  simpa using Parts.hosts (woven_guarded ha.branches hb.branches hi hpast)
    (.part ha (.glue hquiet hset (.part hb .nil)))

theorem either {c : List Instruction} (ha : u.Hosts R next p a p₁) (hb : u.Hosts R next p₁ b p₂)
    (hc : u.Hosts R next p₂ c p') (hi : i.offset? = some past)
    (hpast : past.toInt = codeLength b + 3) (hout : out.toInt = codeLength c) :
    u.Hosts R next p (a ++ [i] ++ b ++ [.jump out] ++ c) p' := by
  obtain ⟨hquiet, hset⟩ := passive_of_offset hi
  simpa using Parts.hosts (woven_either ha.branches hb.branches hc.branches hi hpast hout)
    (.part ha (.glue hquiet hset (.part hb (.glue rfl rfl (.part hc .nil)))))

theorem loop (ha : u.Hosts R next p a p₁) (hb : u.Hosts R next p₁ b p')
    (hi : i.offset? = some past) (hpast : past.toInt = codeLength b + 3)
    (hout : out.toInt = -(codeLength a + 3 + codeLength b + 3)) :
    u.Hosts R next p (a ++ [i] ++ b ++ [.jump out] ++ [.loadNil]) p' := by
  obtain ⟨hquiet, hset⟩ := passive_of_offset hi
  simpa using Parts.hosts (woven_loop ha.branches hb.branches hi hpast hout)
    (.part ha (.glue hquiet hset (.part hb (.glue rfl rfl (.glue rfl rfl .nil)))))

theorem repeated (ha : u.Hosts R next p a p') (hi : i.offset? = some past)
    (hpast : past.toInt = -(codeLength a + 3)) :
    u.Hosts R next p (a ++ [i] ++ [.loadNil]) p' := by
  obtain ⟨hquiet, hset⟩ := passive_of_offset hi
  simpa using Parts.hosts (woven_until ha.branches hi hpast)
    (.part ha (.glue hquiet hset (.glue rfl rfl .nil)))

end Hosts

end CodeUnit

namespace Emit

variable {u : CodeUnit} {p p₁ p₂ p' : Pool} {id next : Nat} {env : Env}
  {R : String → List Expr → Prop} {i : Instruction} {code rest : List Instruction}

theorem symbol_hosts {name : String} {index : UInt8} (h : symbol name p = .ok index p') :
    u.Hosts R next p [] p' := by
  obtain ⟨hg, hadds⟩ := literal_adds h
  exact .of_passive hg (fun t ht => (hadds t ht).resolve_right nofun) nofun

/-- A register that is taken for a value that waits. -/
theorem allocTemp_hosts {reg : UInt8} (h : allocTemp next p = .ok reg p') :
    next < maxRegisters ∧ reg = next.toUInt8 ∧ u.Hosts R next p [.storeRegister reg] p' := by
  simp only [allocTemp, ite_eq_ok, bind_eq_ok, fail_eq_ok, false_and, exists_false, and_false,
    false_or, pure_eq_ok, modify_eq_ok] at h
  obtain ⟨hroom, -, _, rfl, rfl, rfl⟩ := h
  have hlt := Nat.not_le.mp hroom
  have hstore : u.Respects next (.storeRegister next.toUInt8) := by
    intro r hr
    cases hr
    rw [ScopeTree.toNat_size_toUInt8 hlt]
    exact .inr (Nat.le_refl _)
  exact ⟨hlt, rfl, .of_passive ⟨List.prefix_rfl, Nat.le_max_left ..⟩ (fun _ ht => ht)
    (List.forall_mem_singleton.mpr ⟨rfl, rfl, hstore⟩)⟩

/-- The instruction that reads or writes a variable. -/
theorem access_hosts {b : Binding} {name : String} (hb : u.Reaches b)
    (h : load b name p = .ok i p' ∨ store b name p = .ok i p') : u.Hosts R next p [i] p' := by
  cases b with
  | global =>
    simp only [load, store, bind_eq_ok, pure_eq_ok] at h
    obtain ⟨index, _, hsymbol, rfl, rfl⟩ | ⟨index, _, hsymbol, rfl, rfl⟩ := h <;>
      exact (symbol_hosts hsymbol).append (.passive_singleton ⟨rfl, rfl, by rintro _ ⟨⟩⟩)
  | register reg =>
    simp only [load, store, pure_eq_ok] at h
    obtain ⟨rfl, rfl⟩ | ⟨rfl, rfl⟩ := h
    · exact .passive_singleton ⟨rfl, rfl, by rintro _ ⟨⟩⟩
    · exact .passive_singleton ⟨rfl, rfl, fun r hr => .inl (Option.some.inj hr ▸ hb)⟩
  | own slot | parent slot | instanceVariable i =>
    simp only [load, store, pure_eq_ok] at h
    obtain ⟨rfl, rfl⟩ | ⟨rfl, rfl⟩ := h <;>
      exact .passive_singleton ⟨rfl, rfl, by rintro _ ⟨⟩⟩

theorem clearTemps_hosts {temps : List (String × Binding)}
    (htemps : ∀ temp ∈ temps, u.Reaches temp.2) (h : clearTemps temps p = .ok code p') :
    u.Hosts R next p code p' := by
  induction temps generalizing p code with
  | nil =>
    obtain ⟨rfl, rfl⟩ := pure_eq_ok.mp h
    exact .passive nofun
  | cons temp rest ih =>
    obtain ⟨name, b⟩ := temp
    simp only [clearTemps, bind_eq_ok, pure_eq_ok] at h
    obtain ⟨i, p₁, hstore, code', p₂, hrest, rfl, rfl⟩ := h
    have hnil : u.Hosts R next p [.loadNil] p :=
      .passive_singleton ⟨rfl, rfl, by rintro _ ⟨⟩⟩
    exact (hnil.append (access_hosts (htemps _ (.head _)) (.inr hstore))).append
      (ih (fun temp hmem => htemps temp (.tail _ hmem)) hrest)

theorem sync_hosts (hu : u.Covers id) : u.Hosts R next p u.sync p := by
  refine .passive fun i hi => ?_
  obtain ⟨s, hs, rfl⟩ := List.mem_map.mp hi
  exact ⟨rfl, rfl, fun r hr => .inl (Option.some.inj hr ▸ (hu.synced s hs).2.2)⟩

theorem restores_hosts : u.Hosts R next p u.restores p := by
  refine .passive fun i hi => ?_
  obtain ⟨s, -, rfl⟩ := List.mem_map.mp hi
  exact ⟨rfl, rfl, nofun⟩

theorem prologue_hosts : u.Hosts R next p u.prologue p := by
  refine .passive fun i hi => ?_
  rcases List.mem_append.mp hi with hi | hi
  · obtain ⟨s, -, rfl⟩ := List.mem_map.mp hi
    exact ⟨rfl, rfl, nofun⟩
  · obtain ⟨⟨origin, slot⟩, -, hi⟩ := List.mem_flatMap.mp hi
    cases origin with
    | argument reg =>
      simp only [List.mem_cons, List.not_mem_nil, or_false] at hi
      rcases hi with rfl | rfl <;> exact ⟨rfl, rfl, nofun⟩
    | «local» | chained => cases hi

/-- A call of something other than a primitive. -/
theorem call_hosts (hu : u.Covers id) (hi : u.Passive next i) : u.Hosts R next p (u.call i) p :=
  ((sync_hosts hu).append (.passive_singleton hi)).append (sync_hosts hu)

theorem hosts_or_nil (body : List (Node Binding)) (h : u.Hosts R next p code p') :
    u.Hosts R next p (if body.isEmpty then [.loadNil] else code) p' := by
  split
  · exact { h with
      branches := branches_of_offset_none (List.forall_mem_singleton.mpr rfl)
      sites := CodeUnit.sites_of_none (List.forall_mem_singleton.mpr rfl)
      respects := List.forall_mem_singleton.mpr nofun }
  · exact h

/-- Code that evaluates expressions, with all values in registers or the last in the accumulator. -/
structure Arranges (u : CodeUnit) (R : String → List Expr → Prop) (next : Nat) (es : List Expr)
    (p : Pool) (code : List Instruction) (regs : List UInt8) (p' : Pool)
    (stored : List (List Instruction)) (kept : Option (List Instruction)) : Prop where
  hosts : u.Hosts R next p code p'
  code : code = stashed next stored ++ kept.getD []
  regs : regs = (List.range' next stored.length).map Nat.toUInt8
  room : stored ≠ [] → next + stored.length ≤ maxRegisters
  supplies : u.Supplies p'.literals.toList next es (stored ++ kept.toList)

theorem Arranges.nil : Arranges u R next [] p [] [] p [] none where
  hosts := .passive nofun
  code := rfl
  regs := rfl
  room h := absurd rfl h
  supplies := ⟨rfl, nofun, nofun, nofun⟩

theorem Arranges.single {e : Expr} (h : u.Hosts R next p code p')
    (hyields : u.Yields p'.literals.toList next e code) :
    Arranges u R next [e] p code [] p' [] (some code) where
  hosts := h
  code := rfl
  regs := rfl
  room h := absurd rfl h
  supplies := by
    refine ⟨rfl, fun k e' he => ?_, List.forall_mem_singleton.mpr h.branches, fun k c hc => ?_⟩
    · cases k with
      | zero =>
        cases he
        exact ⟨code, rfl, hyields⟩
      | succ k => cases he
    · cases k with
      | zero =>
        cases hc
        exact h.respects
      | succ k => cases hc

/-- A value that is put into the next register, and those after it. -/
theorem Arranges.cons {e : Expr} {es : List Expr} {reg : UInt8} {regs : List UInt8}
    {stored : List (List Instruction)} {kept : Option (List Instruction)}
    (h : u.Hosts R next p code p₁) (hyields : u.Yields p₁.literals.toList next e code)
    (hreg : allocTemp next p₁ = .ok reg p₂)
    (hrest : Arranges u R (next + 1) es p₂ rest regs p' stored kept) :
    Arranges u R next (e :: es) p (code ++ [.storeRegister reg] ++ rest) (reg :: regs) p'
      (code :: stored) kept := by
  obtain ⟨hroom, rfl, htemp⟩ := allocTemp_hosts (u := u) (R := R) hreg
  have hlater := hrest.hosts.weaken (Nat.le_succ next)
  have hg := htemp.grows.trans hlater.grows
  refine ⟨(h.append htemp).append hlater, ?_, ?_, fun _ => ?_, ?_, fun k e' he => ?_, ?_,
    fun k c hc => ?_⟩
  · rw [hrest.code, stashed, List.append_assoc _ (stashed ..)]
  · rw [hrest.regs]
    rfl
  · rw [List.length_cons]
    cases stored with
    | nil => exact hroom
    | cons => have := hrest.room (by simp); omega
  · exact congrArg (· + 1) hrest.supplies.count
  · cases k with
    | zero =>
      cases he
      exact ⟨code, rfl, hyields.mono hg.literals⟩
    | succ k =>
      obtain ⟨c, hc, hc'⟩ := hrest.supplies.yields k e' he
      exact ⟨c, hc, by rwa [Nat.add_comm k, ← Nat.add_assoc]⟩
  · exact List.forall_mem_cons.mpr ⟨h.branches, hrest.supplies.branches⟩
  · cases k with
    | zero =>
      cases hc
      exact h.respects
    | succ k =>
      have := hrest.supplies.respects k c hc
      rwa [Nat.add_assoc, Nat.add_comm 1] at this

theorem quiet_sync : ∀ i ∈ u.sync, i.isPrimitive = false := by
  intro i hi
  obtain ⟨x, -, rfl⟩ := List.mem_map.mp hi
  rfl

theorem straight_call (hi : i.offset? = none) : ∀ j ∈ u.call i, j.offset? = none := by
  intro j hj
  simp only [CodeUnit.call, CodeUnit.sync, List.mem_append, List.mem_map, List.mem_singleton] at hj
  rcases hj with (⟨x, -, rfl⟩ | rfl) | ⟨x, -, rfl⟩
  · rfl
  · exact hi
  · rfl

theorem Arranges.called {name : String} {es : List Expr} {prim : Primitive} {regs : List UInt8}
    {stored : List (List Instruction)} {kept : Option (List Instruction)} (hu : u.Covers id)
    (h : Arranges u R next es p code regs p' stored kept)
    (hpasses : u.Passes p'.literals.toList name es prim ⟨next, stored, kept, i⟩) (hR : R name es)
    (hi : i.offset? = none) (hset : Machine.setRegister? i = none) :
    u.Hosts R next p (code ++ u.call i) p' := by
  have hbranches : Branches (u.call i) := branches_of_offset_none (straight_call hi)
  have hwoven : Woven [code, u.call i] := woven_of_branches (by simp [h.hosts.branches, hbranches])
  refine { h.hosts with
    branches := h.hosts.branches.append hbranches
    sites := fun before j after heq hj => ?_
    respects := List.forall_mem_append.mpr ⟨h.hosts.respects, fun j hj r hr => ?_⟩ }
  · rcases append_eq_split heq with ⟨mid, hcode, -⟩ | ⟨mid, rfl, hcall⟩
    · have hwoven' : Woven ([] ++ code :: [u.call i]) := hwoven
      have hsited := (h.hosts.sites before j mid hcode hj).within hwoven'
      simpa using hsited
    · -- the only primitive behind the arguments is the one that is called
      have hquiet : ∀ l : List Instruction, (∀ k ∈ l, k.isPrimitive = false) → j ∉ l := by
        intro l hl hmem
        rw [hl j hmem] at hj
        cases hj
      rw [CodeUnit.call, List.append_assoc, List.singleton_append,
        List.append_cons_inj_of_notMem (hquiet _ quiet_sync) (hquiet _ quiet_sync)] at hcall
      obtain ⟨rfl, rfl, -⟩ := hcall
      refine ⟨name, es, prim, _, [], [], hR, hpasses, rfl, ?_, ?_, fun pc k offset hmem _ hpc => ?_⟩
      · simp [CallSite.code, CallSite.evaluation, h.code]
      · simp [CallSite.evaluation, h.code]
      · have := bounds_of_mem_positioned hmem
        have hpos := k.length_pos
        simp [CallSite.code, CallSite.evaluation, h.code, codeLength] at this hpc
        omega
  · rcases List.mem_append.mp hj with hj | hj
    · rcases List.mem_append.mp hj with hj | hj
      · exact (sync_hosts (R := R) (p := p) hu).respects j hj r hr
      · rw [List.mem_singleton.mp hj, hset] at hr
        cases hr
    · exact (sync_hosts (R := R) (p := p) hu).respects j hj r hr

theorem length_of_bindsAll {place : Bool} {es : List Expr} {ns : List (Node Binding)}
    (hb : u.scopes.BindsAll id place env es ns) : ns.length = es.length := by
  induction ns generalizing es with
  | nil =>
    cases hb
    rfl
  | cons n ns ih =>
    cases hb with
    | cons _ hns => rw [List.length_cons, List.length_cons, ih hns]

theorem offset?_of_isCall (hi : i.isCall = true) : i.offset? = none := by
  cases i with
  | jump | branchIfFalse | branchIfTrue => cases hi
  | _ => rfl

theorem setRegister?_of_isCall (hi : i.isCall = true) : Machine.setRegister? i = none := by
  cases i with
  | storeRegister | sync => cases hi
  | _ => rfl

theorem findPrimitive_named {name : String} {count : Nat} {prim : Primitive}
    (h : findPrimitive name count p = .ok prim p') :
    p = p' ∧ Primitive.ofName? name = some prim ∧
      (prim.arity = .fixed count ∨ prim.arity = .variadic) := by
  obtain ⟨rfl, harity⟩ := findPrimitive_eq_ok h
  refine ⟨rfl, ?_, harity⟩
  rw [findPrimitive] at h
  cases hname : Primitive.ofName? name with
  | none => simp only [hname, fail_eq_ok] at h
  | some found =>
    cases hfound : found.arity with
    | fixed expected =>
      simp only [hname, hfound, ite_eq_ok, bind_eq_ok, fail_eq_ok, false_and, exists_false,
        and_false, false_or, pure_eq_ok] at h
      rw [h.2.1]
    | variadic =>
      simp only [hname, hfound, pure_eq_ok] at h
      rw [h.1]

mutual

theorem expr_hosts {u : CodeUnit} {p p' : Pool} {id next : Nat} {place : Bool} {env : Env}
    {R : String → List Expr → Prop} {e : Expr} {code : List Instruction} (hu : u.Covers id)
    (hnext : u.firstTemp ≤ next) (n : Node Binding) (hb : u.scopes.Binds id place env e n)
    (hR : ∀ name args, e.Reaches (.primitive name args) → R name args)
    (h : expr u next n p = .ok code p') : u.Hosts R next p code p' := by
  match n, hb with
  | .literal value, _ =>
    simp only [expr, bind_eq_ok, pure_eq_ok, ofExcept_eq_ok] at h
    obtain ⟨c, _, ⟨hc, rfl⟩, index, _, hindex, rfl, rfl⟩ := h
    have hkind := Constant.isBlock_ofLiteral hc
    obtain ⟨hg, hadds⟩ := literal_adds hindex
    refine .of_passive hg (fun t ht => (hadds t ht).resolve_right fun heq => ?_)
      (List.forall_mem_singleton.mpr ⟨rfl, rfl, nofun⟩)
    rw [heq] at hkind
    cases hkind
  | .pseudo which, _ =>
    simp only [expr, pure_eq_ok] at h
    obtain ⟨rfl, rfl⟩ := h
    cases which <;> exact .passive_singleton ⟨rfl, rfl, nofun⟩
  | .variable name b, .variable ho =>
    simp only [expr, bind_eq_ok, pure_eq_ok] at h
    obtain ⟨i, _, hload, rfl, rfl⟩ := h
    exact access_hosts (hu.reaches ho) (.inl hload)
  | .assign name b value, .assign hv ho =>
    simp only [expr, bind_eq_ok, pure_eq_ok] at h
    obtain ⟨code', p₁, hvalue, i, _, hstore, rfl, rfl⟩ := h
    have hcode := expr_hosts hu hnext value hv (fun name args hq => hR name args
      (.of_mem (.head _) hq)) hvalue
    exact hcode.append (access_hosts (hu.reaches ho) (.inr hstore))
  | .send receiver selector args, .send hnone hr hargs =>
    rename_i e' es
    have hparts := Expr.parts_of_plain hnone
    have hfirst' : ∀ name args, e'.Reaches (.primitive name args) → R name args :=
      fun name args hq => hR name args (.of_mem (hparts ▸ .head _) hq)
    have hlater : ∀ e ∈ es, ∀ name args, e.Reaches (.primitive name args) → R name args :=
      fun e he name args hq => hR name args (.of_mem (hparts ▸ .tail _ he) hq)
    obtain ⟨first, p₁, hfirst, ⟨op, reg, p₂, rest, regs, -, -, hreg, hrest, rfl⟩ |
      ⟨regs, p₂, index, hlength, hregs, hindex, rfl⟩ |
      ⟨reg, p₂, rest, regs, p₃, args', p₄, index, -, hreg, hrest, hregs, hindex, rfl⟩⟩ :=
        expr_send_cases h
    all_goals
      have hcode := expr_hosts hu hnext receiver hr hfirst' hfirst
    · obtain ⟨-, -, htemp⟩ := allocTemp_hosts (u := u) (R := R) hreg
      obtain ⟨stored, kept, hops, -⟩ := operands_hosts hu (Nat.le_succ_of_le hnext) args hargs
        hlater hrest
      exact ((hcode.append htemp).append (hops.hosts.weaken (Nat.le_succ next))).append
        (call_hosts hu ⟨rfl, rfl, nofun⟩)
    · obtain ⟨-, rfl⟩ := argRegisters_eq_ok hregs
      exact hcode.append ((symbol_hosts hindex).append (call_hosts hu ⟨rfl, rfl, nofun⟩))
    · obtain ⟨-, -, htemp⟩ := allocTemp_hosts (u := u) (R := R) hreg
      obtain ⟨stored, hops⟩ := stashAll_hosts hu (Nat.le_succ_of_le hnext) args hargs hlater hrest
      obtain ⟨-, rfl⟩ := argRegisters_eq_ok hregs
      have hload : u.Hosts R next p₃ [.loadRegister reg] p₃ :=
        .passive_singleton ⟨rfl, rfl, nofun⟩
      exact (((hcode.append htemp).append (hops.hosts.weaken (Nat.le_succ next))).append
        hload).append ((symbol_hosts hindex).append (call_hosts hu ⟨rfl, rfl, nofun⟩))
  | .superSend selector args, .superSend hargs =>
    simp only [expr, ite_eq_ok, bind_eq_ok, fail_eq_ok, false_and, exists_false, and_false,
      false_or, pure_eq_ok] at h
    obtain ⟨-, ⟨rest, regs⟩, p₁, hrest, args', p₂, hregs, index, _, hindex, rfl, rfl⟩ := h
    obtain ⟨stored, hops⟩ := stashAll_hosts hu hnext args hargs (fun e he name args hq =>
      hR name args (.of_mem he hq)) hrest
    obtain ⟨-, rfl⟩ : args'.regs = regs ∧ p₁ = p₂ := argRegisters_eq_ok hregs
    have hload : u.Hosts R next p₁ [.loadRegister 0] p₁ := .passive_singleton ⟨rfl, rfl, nofun⟩
    exact (hops.hosts.append hload).append
      ((symbol_hosts hindex).append (call_hosts hu ⟨rfl, rfl, nofun⟩))
  | .closure scope params temps body, .closure ho ht hbody =>
    simp only [expr, bind_eq_ok, ofExcept_eq_ok, get_eq_ok, set_eq_ok, pure_eq_ok] at h
    obtain ⟨inner, _, ⟨hinner, rfl⟩, _, _, ⟨rfl, rfl⟩, -, _, rfl, code', pool, hcode', _, _,
      ⟨rfl, rfl⟩, -, _, rfl, index, p₁, hindex, rfl, rfl⟩ := h
    obtain ⟨hcovers, hscopes, hscope⟩ := CodeUnit.create_spec hu.coherent ho.found hinner
    have hbody' := statements_hosts hcovers (Nat.le_refl _) body (hscopes ▸ hbody)
      (fun e he name args hq => hR name args (.of_mem he hq)) hcode'
    have hreturn : inner.Hosts R inner.firstTemp pool [.return_] pool :=
      .passive_singleton ⟨rfl, rfl, nofun⟩
    have hwhole := ((prologue_hosts.append (hosts_or_nil body hbody')).append restores_hosts).append
      hreturn
    obtain ⟨hg, hadds⟩ := literal_adds hindex
    refine ⟨branches_of_offset_none (List.forall_mem_singleton.mpr rfl), hg,
      CodeUnit.sites_of_none (List.forall_mem_singleton.mpr rfl),
      List.forall_mem_singleton.mpr nofun, fun t ht => (hadds t ht).imp_right fun heq => ?_⟩
    obtain rfl := Constant.block.inj heq
    exact .intro rfl hwhole.branches hwhole.sites fun b hb =>
      (hwhole.blocks b hb).resolve_left (by simp)
  | .inlined first temps body, .inlined .. =>
    simp only [expr, fail_eq_ok] at h
  | .ret value, .ret hv =>
    simp only [expr, bind_eq_ok] at h
    obtain ⟨code', p₁, hvalue, h⟩ := h
    have hcode := expr_hosts hu hnext value hv (fun name args hq => hR name args
      (.of_mem (.head _) hq)) hvalue
    cases hkind : u.scope.kind with
    | method =>
      simp only [hkind, pure_eq_ok] at h
      obtain ⟨rfl, rfl⟩ := h
      exact hcode.append (.passive_singleton ⟨rfl, rfl, nofun⟩)
    | block =>
      simp only [hkind, bind_eq_ok, pure_eq_ok] at h
      obtain ⟨reg, p₂, hreg, index, p₃, hindex, regs, _, hregs, rfl, rfl⟩ := h
      obtain ⟨-, -, htemp⟩ := allocTemp_hosts (u := u) (R := R) hreg
      obtain ⟨-, rfl⟩ := argRegisters_eq_ok hregs
      have hleave : u.Hosts R next p₃ [.loadThisContext, .send index regs] p₃ :=
        .passive (List.forall_mem_cons.mpr ⟨⟨rfl, rfl, nofun⟩,
          List.forall_mem_singleton.mpr ⟨rfl, rfl, nofun⟩⟩)
      exact ((hcode.append htemp).append restores_hosts).append
        ((symbol_hosts hindex).append hleave)
  | .primitive name args, .primitive hargs =>
    rename_i es
    have hself : R name es := hR name es .refl
    have hlater : ∀ e ∈ es, ∀ name args, e.Reaches (.primitive name args) → R name args :=
      fun e he name args hq => hR name args (.of_mem he hq)
    have hlength := length_of_bindsAll hargs
    simp only [expr, bind_eq_ok] at h
    obtain ⟨prim, p₁, hprim, h⟩ := h
    obtain ⟨rfl, hname, harity⟩ := findPrimitive_named hprim
    simp only [ite_eq_ok, bind_eq_ok, fail_eq_ok, false_and, exists_false, and_false, false_or,
      pure_eq_ok] at h
    rcases h with ⟨⟨hfixed, -⟩, ⟨rest, regs⟩, _, hrest, rfl, rfl⟩ |
      ⟨hmany, hcount, ⟨rest, regs⟩, _, hrest, rfl, rfl⟩
    · obtain ⟨stored, kept, hops, hkept⟩ := operands_hosts hu hnext args hargs hlater hrest
      have hcall := isCall_directCall prim.index.toUInt8 args.length regs
      refine hops.called hu ⟨hname, hops.supplies, hnext, hops.room,
        fun x hx => (hu.synced x hx).2.2, .inl ⟨?_, hkept, ?_⟩⟩ hself (offset?_of_isCall hcall)
        (setRegister?_of_isCall hcall)
      · rw [← hlength]
        exact harity.resolve_right hfixed
      · rw [← hlength, hops.regs]
        rfl
    · obtain ⟨stored, hops⟩ := stashAll_hosts hu hnext args hargs hlater hrest
      have hvariadic : prim.arity = .variadic := by
        rcases harity with hfixed | hvariadic
        · have hsmall := Primitive.arity_le_three hfixed
          simp only [hfixed, ne_eq, reduceCtorEq, not_false_eq_true, true_and] at hmany
          exact absurd hsmall hmany
        · exact hvariadic
      have hregs : regs.length = es.length := by
        have hcodes := hops.supplies.count
        rw [Option.toList_none, List.append_nil] at hcodes
        rw [hops.regs, List.length_map, List.length_range', hcodes]
      refine hops.called hu ⟨hname, hops.supplies, hnext, hops.room,
        fun x hx => (hu.synced x hx).2.2, .inr ⟨hvariadic, rfl, ?_, ?_⟩⟩ hself rfl rfl
      · rw [← hlength]
        exact Nat.not_lt.mp hcount
      · rw [hregs]
  | .control form receiver args, .control hform hr hargs =>
    rename_i e' _ es
    have hparts := Expr.parts_of_control hform
    have hfirst' : ∀ name args, e'.Reaches (.primitive name args) → R name args :=
      fun name args hq => hR name args (.of_mem (hparts ▸ .head _) hq)
    have hlater : ∀ {index e}, index < form.blocks → es[index]? = some e →
        ∀ name args, e.Reaches (.primitive name args) → R name args := by
      intro index e hindex he name args hq
      refine hR name args (.of_mem (hparts ▸ .tail _ ?_) hq)
      exact List.mem_of_getElem? ((List.getElem?_take_of_lt hindex).trans he)
    cases form with
    | ifTrue | ifFalse =>
      simp only [expr, bind_eq_ok, pure_eq_ok] at h
      obtain ⟨first, p₁, hfirst, body, p₂, hbody, past, _, hpast, rfl, rfl⟩ := h
      obtain ⟨hpast, rfl⟩ := skip_eq_ok hpast
      have hcode := expr_hosts hu hnext receiver hr hfirst' hfirst
      have harm := arm_hosts hu hnext args hargs (fun e he => hlater (by decide) he) hbody
      have hnil : u.Hosts R next p₂ [.loadNil] p₂ := .passive_singleton ⟨rfl, rfl, nofun⟩
      rw [List.append_cons]
      exact hcode.either harm hnil (offset?_leaving ..) (by omega) rfl
    | ifTrueIfFalse | ifFalseIfTrue =>
      simp only [expr, bind_eq_ok, pure_eq_ok] at h
      obtain ⟨first, p₁, hfirst, yes, p₂, hyes, past, _, hpast, no, p₃, hno, out, _, hout, rfl,
        rfl⟩ := h
      obtain ⟨hpast, rfl⟩ := skip_eq_ok hpast
      obtain ⟨hout, rfl⟩ := skip_eq_ok hout
      have hcode := expr_hosts hu hnext receiver hr hfirst' hfirst
      have hthen := arm_hosts hu hnext args hargs (fun e he => hlater (by decide) he) hyes
      have helse := arm_hosts hu hnext args hargs (fun e he => hlater (by decide) he) hno
      exact hcode.either hthen helse (offset?_leaving ..) (by omega) (by omega)
    | and =>
      simp only [expr, bind_eq_ok, pure_eq_ok] at h
      obtain ⟨first, p₁, hfirst, body, p₂, hbody, past, _, hpast, rfl, rfl⟩ := h
      obtain ⟨hpast, rfl⟩ := skip_eq_ok hpast
      have hcode := expr_hosts hu hnext receiver hr hfirst' hfirst
      have harm := arm_hosts hu hnext args hargs (fun e he => hlater (by decide) he) hbody
      exact hcode.guarded harm (offset?_leaving ..) (by omega)
    | whileTrueDo | whileFalseDo =>
      simp only [expr, bind_eq_ok, pure_eq_ok] at h
      obtain ⟨first, p₁, hfirst, body, p₂, hbody, again, _, hagain, out, _, hout, rfl, rfl⟩ := h
      obtain ⟨hagain, rfl⟩ := back_eq_ok hagain
      obtain ⟨hout, rfl⟩ := skip_eq_ok hout
      have hcode := inPlace_hosts hu hnext receiver hr hfirst' hfirst
      have harm := arm_hosts hu hnext args hargs (fun e he => hlater (by decide) he) hbody
      rw [List.append_cons]
      exact hcode.loop harm (offset?_leaving ..) (by omega) (by omega)
    | whileTrue | whileFalse =>
      simp only [expr, bind_eq_ok, pure_eq_ok] at h
      obtain ⟨first, p₁, hfirst, again, _, hagain, rfl, rfl⟩ := h
      obtain ⟨hagain, rfl⟩ := back_eq_ok hagain
      rw [List.append_cons]
      exact (inPlace_hosts hu hnext receiver hr hfirst' hfirst).repeated rfl (by omega)
termination_by structural n

theorem statements_hosts {u : CodeUnit} {p p' : Pool} {id next : Nat} {env : Env}
    {R : String → List Expr → Prop} {es : List Expr} {code : List Instruction} (hu : u.Covers id)
    (hnext : u.firstTemp ≤ next) (ns : List (Node Binding))
    (hb : u.scopes.BindsAll id false env es ns)
    (hR : ∀ e ∈ es, ∀ name args, e.Reaches (.primitive name args) → R name args)
    (h : statements u next ns p = .ok code p') : u.Hosts R next p code p' := by
  match ns, hb with
  | [], _ =>
    simp only [statements, pure_eq_ok] at h
    obtain ⟨rfl, rfl⟩ := h
    exact .passive nofun
  | n :: ns, .cons hn hns =>
    simp only [statements, bind_eq_ok, pure_eq_ok] at h
    obtain ⟨code', p₁, hfirst, code'', _, hrest, rfl, rfl⟩ := h
    exact (expr_hosts hu hnext n hn (hR _ (.head _)) hfirst).append
      (statements_hosts hu hnext ns hns (fun e he => hR e (.tail _ he)) hrest)
termination_by structural ns

theorem stashAll_hosts {u : CodeUnit} {p p' : Pool} {id next : Nat} {env : Env}
    {R : String → List Expr → Prop} {es : List Expr} {code : List Instruction} {regs : List UInt8}
    (hu : u.Covers id) (hnext : u.firstTemp ≤ next) (ns : List (Node Binding))
    (hb : u.scopes.BindsAll id false env es ns)
    (hR : ∀ e ∈ es, ∀ name args, e.Reaches (.primitive name args) → R name args)
    (h : stashAll u next ns p = .ok (code, regs) p') :
    ∃ stored, Arranges u R next es p code regs p' stored none := by
  match ns, hb with
  | [], .nil =>
    simp only [stashAll, pure_eq_ok, Prod.mk.injEq] at h
    obtain ⟨⟨rfl, rfl⟩, rfl⟩ := h
    exact ⟨[], .nil⟩
  | n :: ns, .cons hn hns =>
    simp only [stashAll, bind_eq_ok, pure_eq_ok] at h
    obtain ⟨code', p₁, hfirst, reg, p₂, hreg, ⟨rest, regs'⟩, _, hrest, heq, rfl⟩ := h
    cases heq
    obtain ⟨stored, hlater⟩ := stashAll_hosts hu (Nat.le_succ_of_le hnext) ns hns
      (fun e he => hR e (.tail _ he)) hrest
    exact ⟨_, .cons (expr_hosts hu hnext n hn (hR _ (.head _)) hfirst)
      (.value hn hfirst List.prefix_rfl) hreg hlater⟩
termination_by structural ns

theorem operands_hosts {u : CodeUnit} {p p' : Pool} {id next : Nat} {env : Env}
    {R : String → List Expr → Prop} {es : List Expr} {code : List Instruction} {regs : List UInt8}
    (hu : u.Covers id) (hnext : u.firstTemp ≤ next) (ns : List (Node Binding))
    (hb : u.scopes.BindsAll id false env es ns)
    (hR : ∀ e ∈ es, ∀ name args, e.Reaches (.primitive name args) → R name args)
    (h : operands u next ns p = .ok (code, regs) p') :
    ∃ stored kept, Arranges u R next es p code regs p' stored kept ∧ (kept = none → es = []) := by
  match ns, hb with
  | [], .nil =>
    simp only [operands, pure_eq_ok, Prod.mk.injEq] at h
    obtain ⟨⟨rfl, rfl⟩, rfl⟩ := h
    exact ⟨[], none, .nil, fun _ => rfl⟩
  | n :: ns, .cons hn hns =>
    rw [operands] at h
    simp only [bind_eq_ok, ite_eq_ok, pure_eq_ok] at h
    obtain ⟨code', p₁, hfirst, ⟨hlast, heq, rfl⟩ |
      ⟨hmore, reg, p₂, hreg, ⟨rest, regs'⟩, _, hrest, heq, rfl⟩⟩ := h <;> cases heq
    · rw [List.isEmpty_iff] at hlast
      subst hlast
      cases hns
      exact ⟨[], some _, .single (expr_hosts hu hnext n hn (hR _ (.head _)) hfirst)
        (.value hn hfirst List.prefix_rfl), nofun⟩
    · obtain ⟨stored, kept, hlater, hkept⟩ := operands_hosts hu (Nat.le_succ_of_le hnext) ns hns
        (fun e he => hR e (.tail _ he)) hrest
      refine ⟨_, kept, .cons (expr_hosts hu hnext n hn (hR _ (.head _)) hfirst)
        (.value hn hfirst List.prefix_rfl) hreg hlater, fun hnone => ?_⟩
      obtain rfl := hkept hnone
      cases hns
      exact absurd rfl hmore
termination_by structural ns

theorem arm_hosts {u : CodeUnit} {p p' : Pool} {id next index : Nat} {env : Env}
    {R : String → List Expr → Prop} {es : List Expr} {code : List Instruction} (hu : u.Covers id)
    (hnext : u.firstTemp ≤ next) (ns : List (Node Binding))
    (hb : u.scopes.BindsAll id true env es ns)
    (hR : ∀ e, es[index]? = some e → ∀ name args, e.Reaches (.primitive name args) → R name args)
    (h : arm u next index ns p = .ok code p') : u.Hosts R next p code p' := by
  match ns, hb with
  | [], _ => simp only [arm, fault_eq_ok] at h
  | n :: ns, .cons hn hns =>
    simp only [arm, ite_eq_ok] at h
    rcases h with ⟨rfl, h⟩ | ⟨hindex, h⟩
    · exact inPlace_hosts hu hnext n hn (hR _ rfl) h
    · obtain ⟨k, rfl⟩ := Nat.exists_eq_succ_of_ne_zero hindex
      exact arm_hosts hu hnext ns hns hR h
termination_by structural ns

theorem inPlace_hosts {u : CodeUnit} {p p' : Pool} {id next : Nat} {place : Bool} {env : Env}
    {R : String → List Expr → Prop} {e : Expr} {code : List Instruction} (hu : u.Covers id)
    (hnext : u.firstTemp ≤ next) (n : Node Binding) (hb : u.scopes.Binds id place env e n)
    (hR : ∀ name args, e.Reaches (.primitive name args) → R name args)
    (h : Emit.inPlace u next n p = .ok code p') : u.Hosts R next p code p' := by
  match n, hb with
  | .inlined first temps body, .inlined hi ht hbody =>
    simp only [Emit.inPlace, bind_eq_ok, pure_eq_ok] at h
    obtain ⟨clear, p₁, hclear, code', _, hcode', rfl, rfl⟩ := h
    have hcleared : u.Hosts R next p clear p₁ := clearTemps_hosts (fun temp hmem => by
      obtain ⟨i, hi⟩ := List.getElem?_of_mem hmem
      exact hu.reaches_of_denotes (ht.2 i temp.1 temp.2 hi)) hclear
    exact hcleared.append (hosts_or_nil body (statements_hosts hu hnext body hbody
      (fun e he name args hq => hR name args (.of_mem he hq)) hcode'))
  | .literal _, _ | .pseudo _, _ | .variable .., _ | .assign .., _ | .send .., _ | .control .., _
  | .superSend .., _ | .closure .., _ | .ret _, _ | .primitive .., _ =>
    simp only [Emit.inPlace, fail_eq_ok] at h
termination_by structural n

end

end Emit

theorem CodeTemplate.Sited.houses {R : String → List Expr → Prop} {t b : CodeTemplate}
    (h : t.Sited R) (hb : t.Houses b) : b.Sited R := by
  induction hb with
  | here hmem =>
    cases h with
    | intro _ _ _ hblocks => exact hblocks _ hmem
  | inside hmem _ ih =>
    cases h with
    | intro _ _ _ hblocks => exact ih (hblocks _ hmem)

/-- Every call of a primitive in a compiled method, and in its blocks, is one that the compiler came
to in the method. -/
theorem Method.compile_sited {m : Method} {instanceVariables : List String} {t : CodeTemplate}
    (h : m.compile instanceVariables = .ok t) :
    t.Sited fun name args => m.Keeps (.primitive name args) := by
  obtain ⟨r, hr, hcompile⟩ := resolve_of_compile h
  obtain ⟨s, hf⟩ := resolve_follows hr
  rw [ResolvedMethod.compile] at hcompile
  cases hu : CodeUnit.create r.scopes 0 r.selector with
  | error e => simp [hu] at hcompile
  | ok u =>
    obtain ⟨hcovers, hscopes, -⟩ := CodeUnit.create_spec hf.coherent hf.found hu
    have hbody := hf.body
    rw [← hscopes] at hbody
    cases hcode : Emit.statements u u.firstTemp r.body { high := u.firstTemp } with
    | error e p => simp [hu, hcode] at hcompile
    | ok code p =>
      simp only [hu, hcode, Except.ok.injEq] at hcompile
      subst hcompile
      have hstatements := Emit.statements_hosts
        (R := fun name args => m.Keeps (.primitive name args))
        hcovers (Nat.le_refl _) r.body hbody (fun e he name args hq => ⟨e, he, hq⟩) hcode
      have hend : u.Hosts (fun name args => m.Keeps (.primitive name args)) u.firstTemp p
          (if r.endsWithReturn then [] else [.returnSelf]) p := by
        split
        · exact .passive (List.forall_mem_nil _)
        · exact .passive_singleton ⟨rfl, rfl, fun r hr => by cases hr⟩
      have hwhole := (Emit.prologue_hosts.append hstatements).append hend
      exact .intro rfl hwhole.branches hwhole.sites fun b hb =>
        (hwhole.blocks b hb).resolve_left (by simp)

end ObjectMachine
