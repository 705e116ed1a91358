import Mathlib.Logic.Function.Basic
import ObjectMachine.Proofs.Image.Hierarchy
import ObjectMachine.Proofs.Image.Nesting

namespace ObjectMachine

namespace Image

variable {i i' : Image} {ws : List Wiring} {os : List Outfit} {ts : List Filing} {o : Outfit}
  {g : String → Option Value}

def Means (i : Image) (g : String → Option Value) : Prop := ∀ name, i.global? name = .ok (g name)

theorem compiled_eq_ok {r : Except (Stop CompileError) CodeTemplate} {t : CodeTemplate}
    (heq : compiled r i = .ok t i') : r = .ok t ∧ i = i' := by
  cases r with
  | error e => cases heq
  | ok t' =>
    obtain ⟨rfl, rfl⟩ := pure_eq_ok.mp heq
    exact ⟨rfl, rfl⟩

theorem symbol_of_lookup (hi : Intact i) (hs : i.Spelled) {name : String} {v : Value}
    (hname : i.symbols.lookup name = some v) : Sane i v ∧ i.Symbolizes name v :=
  ⟨hi.held v (by simp [values, roots, SymbolTable.mem_roots_iff.mpr ⟨name, hname⟩]),
    hname, hs hname⟩

theorem lookup_injective (hs : i.Spelled) {name name' : String} {v : Value}
    (hname : i.symbols.lookup name = some v) (hname' : i.symbols.lookup name' = some v) :
    name = name' :=
  Symbolizes.unique ⟨hname, hs hname⟩ ⟨hname', hs hname'⟩

/-- On record every name can be looked up. -/
theorem Registers.means (hr : i.Registers ws os ts) : ∃ g, i.Means g := by
  have hread : ∀ name, ∃ r, i.global? name = .ok r := by
    intro name
    obtain ⟨t, ht, hglobals⟩ := hr.globals
    rw [global?, ← hglobals]
    cases hname : i.symbols.lookup name with
    | none => exact ⟨none, rfl⟩
    | some symbol =>
      have hsane := (symbol_of_lookup hr.intact hr.spelled hname).1
      exact ⟨_, (hr.shelves.files t ht).dictionaryAt hr.intact.whole hsane⟩
  choose g hg using hread
  exact ⟨g, hg⟩

/-- A collection takes the globals along. -/
theorem Registers.global_taken (hr : i.Registers ws os ts) {name : String} {v : Value}
    (hname : i.global? name = .ok (some v)) (s : Schedule) :
    i.heap.Taken (i.roots ++ s.roots) v := by
  obtain ⟨t, ht, hglobals⟩ := hr.globals
  have hf := hr.shelves.files t ht
  have hwhole : i.heap.Whole := hr.intact.whole
  rw [global?, ← hglobals] at hname
  cases hlookup : i.symbols.lookup name with
  | none =>
    rw [hlookup] at hname
    cases hname
  | some symbol =>
    have hsane := (symbol_of_lookup hr.intact hr.spelled hlookup).1
    rw [hlookup] at hname
    simp only [hf.dictionaryAt hwhole hsane, Except.ok.injEq] at hname
    obtain ⟨e, he, rfl, rfl⟩ := (hf.latest symbol v).mp hname
    have hd : i.heap.Taken (i.roots ++ s.roots) t.ledger.object :=
      hglobals ▸ taken_of_values hr.intact (by simp)
    exact (hf.entry_taken hwhole hd he).1.value hwhole (hf.entry he).2

theorem Means.kept {t : Filing} {written : Cell → Prop} (hm : i.Means g)
    (hr : i.Registers ws os ts) (ht : t ∈ ts) (hglobals : t.ledger.object = i.globals)
    (ha : Adds written i i') (hw : ∀ c : Cell, c.object ∈ t.parts → ¬written c) : i'.Means g := by
  intro name
  have hf := hr.shelves.files t ht
  have hf' := hf.frame hr.intact.whole ha.heap.toExtends hw
  have hglobals' : t.ledger.object = i'.globals := hglobals.trans ha.globals.symm
  rw [← hm name, global?, global?, ← hglobals, ← hglobals']
  cases hold : i.symbols.lookup name with
  | some symbol =>
    have hsane := (symbol_of_lookup hr.intact hr.spelled hold).1
    simp only [ha.symbols hold]
    rw [hf.dictionaryAt hr.intact.whole hsane,
      hf'.dictionaryAt ha.intact.whole (ha.sane hsane)]
  | none =>
    cases hnew : i'.symbols.lookup name with
    | none => rfl
    | some symbol =>
      have hsane := (symbol_of_lookup ha.intact ha.spelled hnew).1
      simp only
      rw [hf'.dictionaryAt ha.intact.whole hsane]
      cases hx : t.ledger.puts.lookup symbol with
      | none => rfl
      | some x =>
        -- What is filed is filed under the symbol of a name that there was before.
        obtain ⟨name', hname'⟩ := hr.named t ht hglobals symbol x hx
        obtain rfl := lookup_injective ha.spelled hnew (ha.symbols hname')
        exact absurd (hold.symm.trans hname') (Option.some_ne_none _).symm

theorem Means.adds (hm : i.Means g) (hr : i.Registers ws os ts)
    (ha : Adds (fun _ => False) i i') : i'.Means g := by
  obtain ⟨t, ht, hglobals⟩ := hr.globals
  exact hm.kept hr ht hglobals ha fun _ _ => id

/-- A put into a dictionary of the record that succeeded. -/
theorem Registers.put_adds {t : Filing} {k x link : Value} (hr : i.Registers ws os ts)
    (ht : t ∈ ts) (hk : Sane i k) (hx : Sane i x)
    (heq : onHeap (Heap.dictionaryPut (i.kernelClass .link) t.ledger.object k x) i = .ok link i') :
    Adds (fun c => c.object ∈ t.parts) i i' ∧ i'.symbols = i.symbols ∧
      ∃ t', t'.ledger = t.ledger.note k x ∧ i'.heap.Files t' := by
  have hclass : Sane i (i.kernelClass .link) := hr.intact.held _ (i.kernelClass_mem_values .link)
  have hsane : ∀ v ∈ [i.kernelClass .link, t.ledger.object, k, x], Sane i.heap v := by
    simp only [List.forall_mem_cons]
    exact ⟨hclass, (hr.shelves.files t ht).sane, hk, hx, List.forall_mem_nil _⟩
  obtain ⟨heap, hput, rfl⟩ := onHeap_eq_ok.mp heq
  have hputs := (hr.shelves.files t ht).put hr.intact.whole hclass hk hx
  have hupholds : Upholds (Heap.Builds (fun _ => True) i.heap)
      [i.kernelClass .link, t.ledger.object, k, x]
      (Heap.dictionaryPut (i.kernelClass .link) t.ledger.object k x) :=
    Heap.dictionaryPut_builds (by simp) (by simp) (by simp) (by simp)
  have hbuilds := hupholds i.heap (.refl hr.intact.whole) hsane
  rw [hput] at hputs hbuilds
  cases hputs with
  | @done t' _ _ hledger hfiles hext hparts hlink hreuse =>
    exact ⟨⟨⟨hext.whole, fun v hv => hext.grows v (hr.intact.held v hv)⟩,
      fun hname => hbuilds.1.spells (hr.spelled hname), ⟨hext, hbuilds.1.spells⟩, rfl, id⟩, rfl,
      t', hledger, hfiles⟩

theorem Means.setGlobal (hm : i.Means g) (hr : i.Registers ws os ts) {name : String} {v : Value}
    {u : Unit} (hv : Sane i v) (heq : setGlobal name v i = .ok u i') :
    i'.Means (Function.update g name (some v)) := by
  obtain ⟨symbol, i₁, hintern, heq⟩ := bind_eq_ok.mp heq
  obtain ⟨ha, hsymbol, hname⟩ := intern_eq_ok hr.intact hr.spelled hintern
  obtain ⟨_, _, hget, heq⟩ := bind_eq_ok.mp heq
  cases hget
  obtain ⟨link, i₂, hput, hdone⟩ := bind_eq_ok.mp heq
  obtain ⟨-, rfl⟩ := pure_eq_ok.mp hdone
  have hr₁ := hr.adds ha
  have hm₁ := hm.adds hr ha
  obtain ⟨t, ht, hglobals⟩ := hr₁.globals
  rw [← hglobals] at hput
  obtain ⟨ha', hsymbols, t', hledger, hfiles⟩ := hr₁.put_adds ht hsymbol (ha.sane hv) hput
  have hglobals' : i₂.globals = t'.ledger.object := by rw [ha'.globals, ← hglobals, hledger]; rfl
  intro name'
  rw [global?, hglobals', hsymbols]
  have hold := hm₁ name'
  rw [global?, ← hglobals] at hold
  cases hlookup : i₁.symbols.lookup name' with
  | none =>
    have hne : name' ≠ name := by
      rintro rfl
      exact absurd (hlookup.symm.trans hname) (Option.some_ne_none _).symm
    rw [hlookup] at hold
    rw [Function.update_of_ne hne]
    exact hold
  | some symbol' =>
    have hsane := (symbol_of_lookup hr₁.intact hr₁.spelled hlookup).1
    rw [hlookup] at hold
    simp only at hold ⊢
    rw [(hr₁.shelves.files t ht).dictionaryAt hr₁.intact.whole hsane] at hold
    rw [hfiles.dictionaryAt ha'.intact.whole (ha'.sane hsane), hledger, Ledger.note,
      List.lookup_cons]
    by_cases hsame : name' = name
    · subst hsame
      obtain rfl := Option.some.inj (hlookup.symm.trans hname)
      simp
    · have hne : symbol' ≠ symbol := by
        rintro rfl
        exact hsame (lookup_injective hr₁.spelled hlookup hname)
      rw [beq_eq_false_iff_ne.mpr hne, Function.update_of_ne hsame]
      exact hold

/-- Methods go to dictionaries of their own. -/
theorem Means.install (hm : i.Means g) (hr : i.Registers ws os ts) (ho : o ∈ os)
    {selector : String} {method : Value} {u : Unit} (hmethod : Sane i method)
    (heq : install o.object selector method i = .ok u i') : i'.Means g := by
  obtain ⟨symbol, i₁, hintern, heq⟩ := bind_eq_ok.mp heq
  obtain ⟨ha, hsymbol, -⟩ := intern_eq_ok hr.intact hr.spelled hintern
  obtain ⟨_, _, hget, heq⟩ := bind_eq_ok.mp heq
  cases hget
  obtain ⟨heap, hinstall, rfl⟩ := onHeap_eq_ok.mp heq
  have hr₁ := hr.adds ha
  obtain ⟨methods, hread, hentered⟩ := query_bind_eq_ok.mp hinstall
  obtain rfl := Except.ok.inj ((hr₁.fitted o ho).methods.slot.symm.trans hread)
  obtain ⟨link, _, hput, hdone⟩ := bind_eq_ok.mp hentered
  obtain ⟨-, rfl⟩ := pure_eq_ok.mp hdone
  obtain ⟨t, ht, hmethods⟩ := hr₁.methods o ho
  obtain ⟨u, hu, hglobals⟩ := hr₁.globals
  have hput' := onHeap_eq_ok.mpr ⟨_, hput, rfl⟩
  rw [← hmethods] at hput'
  obtain ⟨ha', -, -⟩ := hr₁.put_adds ht hsymbol (ha.sane hmethod) hput'
  refine (hm.adds hr ha).kept hr₁ hu hglobals ha' fun c hc hc' => ?_
  -- The globals have no object in common with the methods of a class.
  have hne : t ≠ u := fun heq => hr₁.methodsApart o ho (hmethods.symm.trans (heq ▸ hglobals))
  have : Std.Symm fun t u : Filing => t.parts.Disjoint u.parts := ⟨fun _ _ h => h.symm⟩
  exact hr₁.shelves.disjoint.forall ht hu hne hc' hc

theorem Means.addMethod (hm : i.Means g) (hr : i.Registers ws os ts) (ho : o ∈ os) {m : Method}
    {method : Value} (heq : addMethod o.object m i = .ok method i') : i'.Means g := by
  obtain ⟨vars, -, heq⟩ := query_bind_eq_ok.mp heq
  obtain ⟨t, i₁, hcompiled, heq⟩ := bind_eq_ok.mp heq
  obtain ⟨-, rfl⟩ := compiled_eq_ok hcompiled
  obtain ⟨method', i₂, hload, heq⟩ := bind_eq_ok.mp heq
  obtain ⟨_, i₃, hinstall, hdone⟩ := bind_eq_ok.mp heq
  obtain ⟨rfl, rfl⟩ := pure_eq_ok.mp hdone
  have hcls : Sane i o.object := (hr.fitted o ho).methods.sane
  obtain ⟨ha, hmethod⟩ := Adds.of_ok (fun _ => False) [o.object] (load_adds t (by simp)) hr.intact
    hr.spelled (by simpa using hcls) hload
  exact (hm.adds hr ha).install (hr.adds ha) ho (hmethod method' (by simp)) hinstall

end Image

end ObjectMachine
