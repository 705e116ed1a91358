import ObjectMachine.Proofs.Machine.Stability

namespace ObjectMachine

variable {known : List Value}

theorem Primitive.yields_arithmetic {h : Heap} (args : List Value)
    (op : Int → Int → Except Fault (Option Int)) : Yields h (arithmetic args op) := by
  rw [arithmetic]
  split
  · refine .bind_any fun n => .pure ?_
    cases heq : n.bind Value.ofInt? with
    | none => simpa using Arenas.sane_nil _
    | some v =>
      obtain ⟨n, -, hn⟩ := Option.bind_eq_some_iff.mp heq
      have htrusted : Trusted [] v := Heap.trusted_ofInt? hn
      have hsane : h.arenas.Sane v := htrusted.sane (s := h) (List.forall_mem_nil _)
      simpa using hsane
  · exact .pure (by simpa using Arenas.sane_nil _)

theorem Primitive.comparison_mem_values (i : Image) (args : List Value) (op : Int → Int → Bool) :
    comparison i args op ∈ i.values := by
  rw [comparison]
  split
  · simp
  · simp [Image.values]

namespace Machine

section Reads

variable {i : Image} {v x : Value}

theorem yields_elementAt (hi : Intact i) (hv : Sane i v) (index : Value) :
    Yields i.heap (elementAt i v index) := by
  refine .bind_any fun shape => ?_
  cases shape with
  | none => exact .pure (by simpa using Arenas.sane_nil _)
  | some shape =>
    refine .bind_any fun size => ?_
    split
    · exact .pure (by simpa using Arenas.sane_nil _)
    · cases shape with
      | array => exact hi.whole.yields_slot hv _
      | bytes => exact .bind_any fun byte => .pure (by simp [Arenas.Sane])

theorem yields_elementCount : Yields i.heap (elementCount i v) := by
  refine .bind_any fun shape => ?_
  cases shape with
  | none => exact .pure (by simpa using Arenas.sane_nil _)
  | some shape => exact .bind_any fun size => .pure (by simp [Arenas.Sane])

theorem yields_stringEqual (hi : Intact i) (a b : Value) : Yields i.heap (stringEqual i a b) := by
  refine .bind_any fun texts => ?_
  split <;> exact .pure fun v hv => hi.held v (by simp_all)

theorem yields_dictionaryAt (hi : Intact i) {d : Value} (hd : Sane i d) (key : Value) :
    Yields i.heap (dictionaryAt i d key) := by
  refine .bind_any fun isDictionary => ?_
  split
  · refine .bind (hi.whole.yields_dictionaryAt hd key) fun found hfound => .pure ?_
    cases found with
    | none => simpa using Arenas.sane_nil _
    | some value => simpa using hfound
  · exact .pure (by simpa using Arenas.sane_nil _)

end Reads

theorem firstArg_stable {args : List Value} (hargs : ∀ v ∈ args, Trusted known v) :
    Stable known (firstArg args) := by
  cases args with
  | nil => exact .fault _
  | cons v rest => exact .pure (by simp [hargs v])

theorem elementAtPut_stable {receiver index value : Value} (hreceiver : Trusted known receiver)
    (hvalue : Trusted known value) : Stable known (elementAtPut receiver index value) := by
  refine .bind (.inspect fun _ => by simp) fun shape => ?_
  split
  · refine .bind (.inspect fun _ => rfl) fun size => ?_
    split
    · refine .bind (setSlot_stable (by simp [hreceiver]) _ (by simp [hvalue])) fun _ => ?_
      exact .pure (by simp [hvalue])
    · exact .pure (by simp)
  · exact .pure (by simp)

theorem arrayNew_stable {cls size : Value} (hcls : Trusted known cls) :
    Stable known (arrayNew cls size) := by
  rw [arrayNew]
  split
  · exact .pure (by simp)
  · refine .bind (.inspect fun _ => rfl) fun isArray => ?_
    split
    · exact .pure (by simp)
    · refine .bind .get fun m => ?_
      split
      · exact .pure (by simp)
      · exact onHeap_stable (Heap.allocatePointers_stable (by simp [hcls]) _)

theorem basicNew_stable {cls : Value} (hcls : Trusted known cls) : Stable known (basicNew cls) := by
  refine .bind (.inspect fun _ => rfl) fun isClass => ?_
  split
  · exact .pure (by simp)
  · refine .bind (.inspect fun _ => rfl) fun size => ?_
    exact onHeap_stable (Heap.allocatePointers_stable (by simp [hcls]) _)

theorem stringConcat_stable (a b : Value) : Stable known (stringConcat a b) := by
  refine .bind (.inspect fun _ => by simp) fun texts => ?_
  split
  · exact onImage_stable (Image.newString_stable _)
  · exact .pure (by simp)

theorem dictionaryNew_stable {cls : Value} (hcls : Trusted known cls) :
    Stable known (dictionaryNew cls) := by
  refine .bind (.inspect fun _ => rfl) fun isDictionary => ?_
  split
  · exact onHeap_stable (Heap.newDictionary_stable (by simp [hcls]) _)
  · exact .pure (by simp)

theorem dictionaryAtPut_stable {d key value : Value} (hd : Trusted known d)
    (hkey : Trusted known key) (hvalue : Trusted known value) :
    Stable known (dictionaryAtPut d key value) := by
  refine .bind (.inspect fun _ => rfl) fun isDictionary => ?_
  split
  · refine .bind .get fun m => ?_
    refine .bind (onHeap_stable (Heap.dictionaryPut_stable (by simp) (by simp [hd]) (by simp [hkey])
      (by simp [hvalue]))) fun _ => ?_
    exact .pure (by simp [hvalue])
  · exact .pure (by simp)

theorem fork_stable {block name : Value} (hblock : Trusted known block)
    (hname : Trusted known name) : Stable known (fork block name) := by
  refine .bind (isInstance_stable _ _) fun isBlock => ?_
  split
  · exact .pure (by simp)
  · refine .bind (onImage_stable (Image.blockContext?_stable (by simp [hblock]) nofun (by simp)))
      fun context => ?_
    cases context with
    | none => exact .pure (by simp)
    | some context =>
      exact onSchedule_stable fun hmono hs =>
        Schedule.spawn_stable hs (hmono _ (by simp)) (hmono _ (by simp [hname]))

theorem suspend_stable {target : Value} (htarget : Trusted known target) :
    Stable known (suspend target) := by
  refine .bind (isInstance_stable _ _) fun isProcess => ?_
  split
  · exact .pure (by simp)
  · refine .bind .get fun m => ?_
    dsimp only
    split
    · exact .bind (request_stable nofun) fun _ => .pure (by simp [htarget])
    · refine .bind (onSchedule_stable fun hmono hs =>
        Schedule.suspend_stable hs (hmono target (by simp [htarget]))) fun _ => ?_
      exact .pure (by simp [htarget])

theorem resume_stable {target : Value} (htarget : Trusted known target) :
    Stable known (resume target) := by
  refine .bind (isInstance_stable _ _) fun isProcess => ?_
  split
  · exact .pure (by simp)
  · refine .bind (onSchedule_stable fun hmono hs =>
      Schedule.resume_stable hs (hmono target (by simp [htarget]))) fun _ => ?_
    exact .pure (by simp [htarget])

theorem runPrimitive_stable (p : Primitive) {args : List Value}
    (hargs : ∀ v ∈ args, Trusted known v) : Stable known (runPrimitive p args) := by
  unfold runPrimitive
  split
  case h_1 => exact .bind .get fun m => .pure (by simp)
  case h_2 | h_3 | h_4 | h_5 | h_6 =>
    exact .query fun _ _ _ => Primitive.yields_arithmetic _ _
  case h_7 | h_8 | h_9 | h_10 | h_11 | h_12 =>
    exact .bind .get fun m => .pure (by simp [Primitive.comparison_mem_values])
  case h_13 => exact .bind (firstArg_stable hargs) fun v => classOf_stable (by simp)
  case h_14 =>
    refine .bind (firstArg_stable hargs) fun v => ?_
    exact .bind (.inspect fun _ => rfl) fun hash => .pure (by simp)
  case h_15 | h_16 =>
    refine .bind (firstArg_stable hargs) fun v => ?_
    exact .bind (.inspect fun _ => rfl) fun text => onImage_stable (Image.newString_stable text)
  case h_17 =>
    refine .bind (firstArg_stable hargs) fun v => ?_
    refine .bind (.inspect fun _ => rfl) fun line => ?_
    exact .bind (.modify (fun _ => rfl) fun _ _ hv => .inl hv) fun _ => .pure (by simp)
  case h_18 => exact .bind (firstArg_stable hargs) fun v => basicNew_stable (by simp)
  case h_19 => exact arrayNew_stable (hargs _ (by simp))
  case h_20 =>
    exact .bind (firstArg_stable hargs) fun v => .query fun _ _ _ => yields_elementCount
  case h_21 =>
    exact .query fun _ hm hknown =>
      yields_elementAt (intact_image hm) ((hargs _ (by simp)).sane hknown) _
  case h_22 => exact elementAtPut_stable (hargs _ (by simp)) (hargs _ (by simp))
  case h_23 => exact stringConcat_stable _ _
  case h_24 => exact .query fun _ hm _ => yields_stringEqual (intact_image hm) _ _
  case h_25 =>
    refine .bind (firstArg_stable hargs) fun v => ?_
    refine .bind (.inspect fun _ => by simp) fun text => ?_
    cases text with
    | none => exact .pure (by simp)
    | some text => exact onImage_stable (Image.newString_stable text)
  case h_26 =>
    refine .bind (firstArg_stable hargs) fun v => ?_
    refine .bind (.inspect fun _ => by simp) fun text => ?_
    cases text with
    | none => exact .pure (by simp)
    | some text => exact onImage_stable (Image.intern_stable text)
  case h_27 => exact .bind (firstArg_stable hargs) fun v => dictionaryNew_stable (by simp)
  case h_28 =>
    exact .query fun _ hm hknown =>
      yields_dictionaryAt (intact_image hm) ((hargs _ (by simp)).sane hknown) _
  case h_29 =>
    exact dictionaryAtPut_stable (hargs _ (by simp)) (hargs _ (by simp)) (hargs _ (by simp))
  case h_30 =>
    refine .bind (invokeBlock_stable (hargs _ (by simp)) fun v hv => ?_) fun _ => .pure (by simp)
    exact hargs v (List.mem_cons_of_mem _ hv)
  case h_31 =>
    exact .bind (nonLocalReturn_stable (hargs _ (by simp)) (hargs _ (by simp))) fun _ =>
      .pure (by simp)
  case h_32 =>
    exact .bind (returnInto_stable (hargs _ (by simp)) (hargs _ (by simp))) fun _ =>
      .pure (by simp)
  case h_33 | h_34 | h_35 =>
    exact .bind (setAccumulator_stable (by simp)) fun _ => .pure (by simp)
  case h_36 => exact fork_stable (hargs _ (by simp)) (hargs _ (by simp))
  case h_37 => exact .bind .get fun m => .pure (by simp)
  case h_38 => exact .bind (request_stable nofun) fun _ => .pure (by simp)
  case h_39 => exact .bind (firstArg_stable hargs) fun v => suspend_stable (by simp)
  case h_40 => exact .bind (firstArg_stable hargs) fun v => resume_stable (by simp)
  case h_41 | h_42 =>
    exact .bind (.modify (fun _ => rfl) fun _ _ hv => .inl hv) fun _ => .pure (by simp)
  case h_43 => exact .pure (by simp)

end Machine

end ObjectMachine
