import ObjectMachine.Proofs.Code.Decoding
import ObjectMachine.Proofs.Machine.Entering
import ObjectMachine.Proofs.Machine.Transparency

namespace ObjectMachine

def Value.IsLeaf (v : Value) : Prop := ∃ word, v.address? = some ⟨.leaf, word⟩

/-- Only so many bytes have a size that a header can tell. -/
theorem Heap.Spells.size_lt {h : Heap} {v : Value} {content : Array UInt8}
    (hs : h.Spells v content) : content.size < 0x100000000 := by
  obtain ⟨⟨word, hv⟩, hbytes⟩ := hs
  obtain ⟨header, -, -, rfl⟩ := (bytes_eq_ok_iff hv).mp hbytes
  have hsize := header.size.toNat_lt
  rw [unpack, Array.take_eq_extract, Array.size_extract]
  omega

/-- An instruction starts within the code. -/
theorem Code.lt_size_of_decodeAt {code : Array UInt8} {pc next : Nat} {i : Instruction}
    (h : decodeAt code pc = .ok (i, next)) : pc < code.size := by
  obtain ⟨byte, hbyte, -⟩ := except_bind_eq_ok.mp h
  exact (Array.getElem?_eq_some_iff.mp (operand_eq_ok hbyte)).1

namespace Machine

variable {m m' m₁ : Machine}

section Landing

/-- Where a step of the machine ends: where it began, or with the loading of a frame, or with a
value that is returned from the outermost context. -/
inductive Lands (m m' : Machine) : Prop where
  | stays : (∀ R [Passive R], R m m') → m.Lands m'
  | loads {m₁ : Machine} {context : Value} : (∀ R [Passive R], R m m₁) →
    loadFrame { m₁ with context } = .ok () m' → m.Lands m'
  | returns {m₁ : Machine} {value : Value} : (∀ R [Passive R], R m m₁) →
    m' = { m₁ with accumulator := value, stop := some (.returned value) } → m.Lands m'

theorem Lands.after (hl : m₁.Lands m') (h : ∀ R [Passive R], R m m₁) : m.Lands m' := by
  cases hl with
  | stays h' => exact .stays fun R _ => Undisturbed.trans (h R) (h' R)
  | loads h' hload => exact .loads (fun R _ => Undisturbed.trans (h R) (h' R)) hload
  | returns h' hend => exact .returns (fun R _ => Undisturbed.trans (h R) (h' R)) hend

theorem Lands.of_stays {α : Type} {act : MachineAction α} {a : α}
    (hact : ∀ R [Passive R], Stays R act) (heq : act m = .ok a m') : m.Lands m' :=
  .stays fun R _ => hact R _ _ _ heq

theorem activate_lands {code receiver parent : Value} {args : List Value} {home : Option Value}
    (heq : activate code receiver args parent home m = .ok () m') : m.Lands m' := by
  rw [activate, get_bind] at heq
  obtain ⟨_, m₁, hset, hmake⟩ := bind_eq_ok.mp heq
  obtain ⟨context, m₂, hmake, henter⟩ := bind_eq_ok.mp hmake
  obtain ⟨_, m₃, henter, hload⟩ := bind_eq_ok.mp henter
  obtain rfl := modify_eq_ok.mp henter
  exact .loads (fun R _ => Undisturbed.trans (setSlot_stays _ _ _ _ _ _ hset)
    (Stays.onImage _ _ _ _ hmake)) hload

theorem dispatch_lands {selector receiver cls : Value} {args : List Value}
    (heq : dispatch selector receiver args cls m = .ok () m') : m.Lands m' := by
  obtain ⟨found, -, hfollow⟩ := query_bind_eq_ok.mp heq
  cases found with
  | none =>
    obtain ⟨_, _, -, hfollow⟩ := bind_eq_ok.mp hfollow
    obtain ⟨_, _, -, hfollow⟩ := bind_eq_ok.mp hfollow
    obtain ⟨_, _, -, hfollow⟩ := bind_eq_ok.mp hfollow
    exact nomatch fail_eq_ok.mp hfollow
  | some found => exact activate_lands hfollow

theorem invokeBlock_lands {block : Value} {args : List Value}
    (heq : invokeBlock block args m = .ok () m') : m.Lands m' := by
  obtain ⟨isBlock, -, hgo⟩ := query_bind_eq_ok.mp heq
  rcases ite_eq_ok.mp hgo with ⟨-, hgo⟩ | ⟨-, hgo⟩
  · exact .of_stays (fun R _ => setAccumulator_stays _) hgo
  obtain ⟨shape, -, hgo⟩ := query_bind_eq_ok.mp hgo
  rcases ite_eq_ok.mp hgo with ⟨-, hgo⟩ | ⟨-, hgo⟩
  · exact .of_stays (fun R _ => setAccumulator_stays _) hgo
  obtain ⟨receiver, -, hgo⟩ := query_bind_eq_ok.mp hgo
  obtain ⟨parent, -, hgo⟩ := query_bind_eq_ok.mp hgo
  obtain ⟨home, -, hgo⟩ := query_bind_eq_ok.mp hgo
  exact activate_lands hgo

theorem continueIn_lands {target value : Value} (heq : continueIn target value m = .ok () m') :
    m.Lands m' := by
  obtain ⟨_, m₁, hset, hgo⟩ := bind_eq_ok.mp heq
  obtain rfl := modify_eq_ok.mp hset
  rcases ite_eq_ok.mp hgo with ⟨-, hgo⟩ | ⟨-, hgo⟩
  · obtain rfl := modify_eq_ok.mp hgo
    exact .returns (fun R _ => Undisturbed.refl m) rfl
  · obtain ⟨pc, -, hgo⟩ := query_bind_eq_ok.mp hgo
    obtain ⟨-, hgo⟩ := check_eq_ok hgo
    obtain ⟨_, m₃, henter, hload⟩ := bind_eq_ok.mp hgo
    obtain rfl := modify_eq_ok.mp henter
    exact .loads (fun R _ => Undisturbed.accumulator m value) hload

theorem returnValue_lands {value : Value} (heq : returnValue value m = .ok () m') :
    m.Lands m' := by
  rw [returnValue, get_bind] at heq
  obtain ⟨_, m₁, hset, hgo⟩ := bind_eq_ok.mp heq
  obtain ⟨previous, -, hgo⟩ := query_bind_eq_ok.mp hgo
  exact (continueIn_lands hgo).after fun R _ => setSlot_stays _ _ _ _ _ _ hset

theorem returnInto_lands {target value : Value} (heq : returnInto target value m = .ok () m') :
    m.Lands m' := by
  obtain ⟨isContext, -, hgo⟩ := query_bind_eq_ok.mp heq
  rcases ite_eq_ok.mp hgo with ⟨-, hgo⟩ | ⟨-, hgo⟩
  · exact .of_stays (fun R _ => setAccumulator_stays _) hgo
  · exact continueIn_lands hgo

theorem nonLocalReturn_lands {source value : Value}
    (heq : nonLocalReturn source value m = .ok () m') : m.Lands m' := by
  obtain ⟨isContext, -, hgo⟩ := query_bind_eq_ok.mp heq
  rcases ite_eq_ok.mp hgo with ⟨-, hgo⟩ | ⟨-, hgo⟩
  · exact .of_stays (fun R _ => setAccumulator_stays _) hgo
  obtain ⟨home, -, hgo⟩ := query_bind_eq_ok.mp hgo
  obtain ⟨-, hgo⟩ := check_eq_ok hgo
  obtain ⟨pc, -, hgo⟩ := query_bind_eq_ok.mp hgo
  obtain ⟨-, hgo⟩ := check_eq_ok hgo
  obtain ⟨chain, -, hgo⟩ := query_bind_eq_ok.mp hgo
  cases chain with
  | none =>
    obtain ⟨_, _, -, hgo⟩ := bind_eq_ok.mp hgo
    exact nomatch fail_eq_ok.mp hgo
  | some contexts =>
    obtain ⟨_, m₅, hunwind, hgo⟩ := bind_eq_ok.mp hgo
    obtain ⟨previous, -, hgo⟩ := query_bind_eq_ok.mp hgo
    exact (continueIn_lands hgo).after fun R _ => unwindAll_stays _ _ _ _ hunwind

theorem runPrimitive_lands {prim : Primitive} {args : List Value} {result : Value}
    (heq : runPrimitive prim args m = .ok result m') : m.Lands m' := by
  cases hprim : prim.switchesContext with
  | false => exact .of_stays (fun R _ => runPrimitive_stays hprim args) heq
  | true =>
    have hfirst : ∀ {act : MachineAction Unit}, (act >>= fun _ => pure .nil) m = .ok result m' →
        act m = .ok () m' := by
      intro act hact
      obtain ⟨_, m₁, hdone, hpure⟩ := bind_eq_ok.mp hact
      obtain ⟨-, rfl⟩ := pure_eq_ok.mp hpure
      exact hdone
    unfold runPrimitive at heq
    split at heq
    case h_30 => exact invokeBlock_lands (hfirst heq)
    case h_31 => exact nonLocalReturn_lands (hfirst heq)
    case h_32 => exact returnInto_lands (hfirst heq)
    case h_33 | h_34 | h_35 => exact .of_stays (fun R _ => setAccumulator_stays _) (hfirst heq)
    case h_43 => exact .of_stays (fun R _ => Stays.pure _) heq
    all_goals cases hprim

/-- Where an instruction ends, seen from the machine that paused for it. -/
theorem execute_lands {i : Instruction} (hp : m.Pause i m₁) (heq : execute i m = .ok () m') :
    m₁.Lands m' := by
  cases execute_acts hp heq with
  | stays _ h => exact .stays fun R _ => h R
  | jumps _ h => exact .stays fun R _ => Passive.of_jumped h
  | return_ _ hreturn => exact returnValue_lands hreturn
  | returnSelf _ _ hreturn => exact returnValue_lands hreturn
  | sends _ _ hdispatch => exact dispatch_lands hdispatch
  | @calls prim _ result m₂ _ hrun hend =>
    have hlands := runPrimitive_lands hrun
    cases hswitches : prim.switchesContext with
    | true =>
      rw [if_pos hswitches] at hend
      exact hend ▸ hlands
    | false =>
      rw [if_neg (by simp [hswitches])] at hend
      refine hend ▸ .stays fun R _ => Undisturbed.trans ?_ (Undisturbed.accumulator _ _)
      exact runPrimitive_stays hswitches _ _ _ _ hrun

end Landing

section Frames

structure Framed (m : Machine) : Prop where
  method : m.image.heap.Holds ⟨m.context, Slot.Context.method⟩ m.method
  literals : m.image.heap.Holds ⟨m.method, Slot.Code.literals⟩ m.literals
  code : ∃ bytes, m.image.heap.Holds ⟨m.method, Slot.Code.bytecode⟩ bytes ∧
    (bytes.IsLeaf → m.image.heap.Spells bytes m.code)

/-- The frame is that of the context, and its code is remembered since the last collection. -/
structure Loaded (m : Machine) : Prop where
  framed : m.Framed
  current : m.epoch = m.image.heap.stats.collections
  remembered : ∃ bytes, m.image.heap.Holds ⟨m.method, Slot.Code.bytecode⟩ bytes ∧
    m.cache[bytes]? = some m.code

inductive Frames (m : Machine) : Cell → Prop where
  | method : m.Frames ⟨m.context, Slot.Context.method⟩
  | literals : m.Frames ⟨m.method, Slot.Code.literals⟩
  | bytecode : m.Frames ⟨m.method, Slot.Code.bytecode⟩

/-- What is remembered of code is right, unless it is from before the last collection. -/
structure Recalls (m : Machine) : Prop where
  epoch : m.epoch ≤ m.image.heap.stats.collections
  cache : ∀ {bytes code}, m.epoch = m.image.heap.stats.collections →
    m.cache[bytes]? = some code → bytes.IsLeaf → m.image.heap.Spells bytes code

theorem recalls_of_cache (hcache : m.cache = {}) (hepoch : m.epoch = 0) : m.Recalls where
  epoch := hepoch ▸ Nat.zero_le _
  cache _ hcode _ := by simp [hcache] at hcode

/-- Nothing that is remembered is forgotten or found wrong as long as only cells change. -/
theorem Recalls.of_preserves (hr : m.Recalls) (hp : m.image.heap.Preserves m'.image.heap)
    (hcache : m'.cache = m.cache) (hepoch : m'.epoch = m.epoch) : m'.Recalls where
  epoch := by rw [hepoch, hp.collections]; exact hr.epoch
  cache hsame hcode hleaf := by
    rw [hepoch, hp.collections] at hsame
    exact hp.spells (hr.cache hsame (hcache ▸ hcode) hleaf)

theorem refreshed_current (m : Machine) :
    m.refreshed.epoch = m.refreshed.image.heap.stats.collections := by
  rw [refreshed]
  split
  · rfl
  · rename_i hepoch
    exact (not_not.mp hepoch).symm

theorem Recalls.refreshed (hr : m.Recalls) : m.refreshed.Recalls := by
  rw [Machine.refreshed]
  split
  · exact ⟨le_refl _, fun _ hcode _ => by simp at hcode⟩
  · exact hr

theorem fetchCode_recalls {bytes : Value} {code : Array UInt8} (hr : m.Recalls)
    (heq : fetchCode bytes m = .ok code m') :
    m'.Recalls ∧ (bytes.IsLeaf → m'.image.heap.Spells bytes code) := by
  have hfresh := hr.refreshed
  have hepoch := refreshed_current m
  rw [fetchCode_eq] at heq
  split at heq
  · rename_i hcode
    cases heq
    exact ⟨hfresh, hfresh.cache hepoch hcode⟩
  · split at heq
    · rename_i hread
      cases heq
      refine ⟨⟨hfresh.epoch, fun {bytes' code'} _ hcode' hleaf => ?_⟩, fun hleaf => ⟨hleaf, hread⟩⟩
      rw [Std.HashMap.getElem?_insert] at hcode'
      split at hcode'
      · rename_i hsame
        obtain rfl := eq_of_beq hsame
        exact Option.some.inj hcode' ▸ ⟨hleaf, hread⟩
      · exact hfresh.cache hepoch hcode' hleaf
    · cases heq

/-- What was just read is remembered. -/
theorem fetchCode_remembers {bytes : Value} {code : Array UInt8}
    (heq : fetchCode bytes m = .ok code m') :
    m'.epoch = m'.image.heap.stats.collections ∧ m'.cache[bytes]? = some code := by
  rw [fetchCode_eq] at heq
  split at heq
  · rename_i hcode
    cases heq
    exact ⟨refreshed_current m, hcode⟩
  · split at heq
    · cases heq
      exact ⟨refreshed_current m, Std.HashMap.getElem?_insert_self⟩
    · cases heq

theorem loadFrame_loaded (hm : Intact m') (hr : m.Recalls) (heq : loadFrame m = .ok () m') :
    m'.Loaded ∧ m'.Recalls := by
  have hquiet := loadFrame_quiet.ok heq
  rw [loadFrame, get_bind] at heq
  obtain ⟨method, hmethod, heq⟩ := query_bind_eq_ok.mp heq
  obtain ⟨literals, hliterals, heq⟩ := query_bind_eq_ok.mp heq
  obtain ⟨pc, -, heq⟩ := query_bind_eq_ok.mp heq
  obtain ⟨bytes, hbytes, heq⟩ := query_bind_eq_ok.mp heq
  obtain ⟨code, m₁, hfetch, heq⟩ := bind_eq_ok.mp heq
  obtain ⟨hr₁, hcode⟩ := fetchCode_recalls hr hfetch
  obtain ⟨hepoch, hcache⟩ := fetchCode_remembers hfetch
  obtain ⟨cache, epoch, rfl⟩ := fetchCode_eq_ok hfetch
  obtain rfl := modify_eq_ok.mp heq
  have hcontext : m.image.heap.arenas.Sane m.context := hm.held m.context (by simp)
  have hsane : m.image.heap.arenas.Sane method := hm.held method (by simp)
  exact ⟨⟨⟨⟨hcontext, hmethod⟩, ⟨hsane, hliterals⟩, bytes, ⟨hsane, hbytes⟩, hcode⟩, hepoch, bytes,
    ⟨hsane, hbytes⟩, hcache⟩, hr₁.epoch, hr₁.cache⟩

theorem unspill_loaded (hm : Intact m') (hr : m.Recalls) (heq : unspill m = .ok () m') :
    m'.Loaded ∧ m'.Recalls := by
  rw [unspill, get_bind] at heq
  obtain ⟨context, -, heq⟩ := query_bind_eq_ok.mp heq
  obtain ⟨accumulator, -, heq⟩ := query_bind_eq_ok.mp heq
  rw [modify_bind] at heq
  have hr₁ : Recalls { m with process := m.schedule.current, context, accumulator } :=
    ⟨hr.epoch, hr.cache⟩
  exact loadFrame_loaded hm hr₁ heq

/-- A pause at which garbage is collected has the frame loaded anew. -/
theorem safepoint_reloads (hm : Intact m) (hm' : Intact m') (hr : m.Recalls)
    (heq : safepoint m = .ok () m') : m'.Recalls ∧ (m' = m ∨ m'.Loaded) := by
  by_cases hneeds : m.image.heap.needsCollection
  · obtain ⟨m₀, live, schedule, image, hspill, hcollect, hunspill⟩ :=
      safepoint_collects hneeds heq
    have hspills := spills_of_eq_ok hm hspill
    obtain ⟨_, _, _, _, hcollect', -, -, -, -, hcount⟩ :=
      Image.exists_moved (intact_image hspills.intact) (schedule_roots_sane hspills.intact)
    obtain ⟨-, rfl, rfl⟩ : _ ∧ schedule = _ ∧ image = _ := by
      simpa using hcollect.symm.trans hcollect'
    -- Nothing that was remembered is from after the collection.
    have hold : m₀.epoch < image.heap.stats.collections := by
      have hsame : m₀.image.heap.stats.collections = m.image.heap.stats.collections :=
        hspills.preserves.collections
      rw [hcount, hsame, hspills.registers]
      exact Nat.lt_succ_of_le hr.epoch
    have hr₁ : Recalls { m₀ with image, schedule } :=
      ⟨hold.le, fun hsame => absurd hsame hold.ne⟩
    obtain ⟨hl, hr'⟩ := unspill_loaded hm' hr₁ hunspill
    exact ⟨hr', .inr hl⟩
  · rw [safepoint, get_bind, if_neg hneeds] at heq
    obtain ⟨-, rfl⟩ := pure_eq_ok.mp heq
    exact ⟨hr, .inl rfl⟩

theorem Pause.reloads {i : Instruction} (hp : m.Pause i m₁) (hm : Intact m) (hm₁ : Intact m₁)
    (hr : m.Recalls) : m₁.Recalls ∧ (m₁ = m ∨ m₁.Loaded) := by
  rcases hp with ⟨-, hsafe⟩ | ⟨-, rfl⟩
  · exact safepoint_reloads hm hm₁ hr hsafe
  · exact ⟨hr, .inl rfl⟩

/-- The registers that a frame is kept in, and what goes with them, are the same. -/
structure SameFrame (m m' : Machine) : Prop where
  context : m'.context = m.context
  method : m'.method = m.method
  literals : m'.literals = m.literals
  code : m'.code = m.code
  cache : m'.cache = m.cache
  epoch : m'.epoch = m.epoch

instance : Passive SameFrame where
  refl _ := ⟨rfl, rfl, rfl, rfl, rfl, rfl⟩
  trans h h' := ⟨h'.context.trans h.context, h'.method.trans h.method,
    h'.literals.trans h.literals, h'.code.trans h.code, h'.cache.trans h.cache,
    h'.epoch.trans h.epoch⟩
  image _ _ := ⟨rfl, rfl, rfl, rfl, rfl, rfl⟩
  schedule _ _ := ⟨rfl, rfl, rfl, rfl, rfl, rfl⟩
  interrupts _ _ := ⟨rfl, rfl, rfl, rfl, rfl, rfl⟩
  accumulator _ _ := ⟨rfl, rfl, rfl, rfl, rfl, rfl⟩
  pc _ _ := ⟨rfl, rfl, rfl, rfl, rfl, rfl⟩
  stop _ _ _ := ⟨rfl, rfl, rfl, rfl, rfl, rfl⟩

variable {W : Licence} {F : Value → Prop} {K : Array Value} {S : Schedule → Prop} {p : Value}

/-- The frame in the registers is the same, and so is what it comes from where nothing is written.
-/
structure Retains (W : Licence) (m m' : Machine) : Prop where
  same : SameFrame m m'
  holds : ∀ {c x}, (∀ y, ¬W c y) → m.image.heap.Holds c x → m'.image.heap.Holds c x
  spells : ∀ {v content}, m.image.heap.Spells v content → m'.image.heap.Spells v content
  collections : m'.image.heap.stats.collections = m.image.heap.stats.collections

theorem SameFrame.retains (hsame : SameFrame m m') (hm' : Within W F K S p m.image.heap m') :
    Retains W m m' where
  same := hsame
  holds hfree hx := hm'.evolves.holds hx fun y hy => absurd hy (hfree y)
  spells := hm'.preserves.spells
  collections := hm'.preserves.collections

/-- A frame in registers stays that of the context, unless something is stored over it. -/
theorem Retains.framed (h : Retains W m m') (hf : m.Framed) (hkept : ∀ c x, m.Frames c → ¬W c x) :
    m'.Framed := by
  obtain ⟨bytes, hbytes, hcode⟩ := hf.code
  refine ⟨?_, ?_, bytes, ?_, fun hleaf => ?_⟩
  · rw [h.same.context, h.same.method]
    exact h.holds (fun y => hkept _ y .method) hf.method
  · rw [h.same.method, h.same.literals]
    exact h.holds (fun y => hkept _ y .literals) hf.literals
  · rw [h.same.method]
    exact h.holds (fun y => hkept _ y .bytecode) hbytes
  · rw [h.same.code]
    exact h.spells (hcode hleaf)

/-- Wherever a step of the machine ends, its frame was loaded there or is the one it had. -/
theorem Lands.reloads (hl : m.Lands m') (hm' : Within W F K S p m.image.heap m') (hr : m.Recalls) :
    m'.Recalls ∧ (Retains W m m' ∨ m'.Loaded) := by
  cases hl with
  | stays h =>
    have hsame := h SameFrame
    exact ⟨hr.of_preserves hm'.preserves hsame.cache hsame.epoch, .inl (hsame.retains hm')⟩
  | @loads m₁ context h hload =>
    have hsame := h SameFrame
    have hquiet := loadFrame_quiet.ok hload
    have hr₁ : Recalls { m₁ with context } := by
      refine hr.of_preserves ?_ hsame.cache hsame.epoch
      rw [← hquiet.heap]
      exact hm'.preserves
    obtain ⟨hl, hr'⟩ := loadFrame_loaded hm'.intact hr₁ hload
    exact ⟨hr', .inr hl⟩
  | @returns m₁ value h hend =>
    subst hend
    have hsame : SameFrame m { m₁ with accumulator := value, stop := some (.returned value) } := by
      obtain ⟨hcontext, hmethod, hliterals, hcode, hcache, hepoch⟩ := h SameFrame
      exact ⟨hcontext, hmethod, hliterals, hcode, hcache, hepoch⟩
    exact ⟨hr.of_preserves hm'.preserves hsame.cache hsame.epoch, .inl (hsame.retains hm')⟩

end Frames

end Machine

end ObjectMachine
