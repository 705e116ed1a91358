import ObjectMachine.Proofs.Memory.Checking

namespace ObjectMachine

namespace Heap

variable {h : Heap}

/-- An order for `n` slots is refused for want of room, or it gets an object with exactly `n`
slots, all nil, each of which can be written to and read back. -/
def Supplies (h : Heap) (isa : Value) (n : Nat) : Prop :=
  match allocatePointers isa n h with
  | .ok v h' => h'.size v = .ok n ∧ ∀ i < n, h'.slot v i = .ok .nil ∧
      ∀ x, ∃ h'', setSlot v i x (ε := Empty) h' = .ok () h'' ∧ h''.slot v i = .ok x
  | .error (.failure e) _ =>
      ∃ requested, e = .exhausted .pointers requested (h.used .pointers) h.capacity
  | .error (.fault _) _ => False

/-- An order is refused if there is no room for its size modulo 2^32, and filled otherwise. -/
theorem allocatePointers_answer (h : Heap) (isa : Value) (n : Nat) :
    if h.capacity < h.used .pointers + headerWords + n % 0x100000000 then
      ∃ h', allocatePointers isa n h = .error (.failure (.exhausted .pointers
        (headerWords + n % 0x100000000) (h.used .pointers) h.capacity)) h'
    else ∃ v h', allocatePointers isa n h = .ok v h' := by
  have hwords : (Header.mk isa .pointers h.nextHash.toUInt32 n.toUInt32).totalWords =
      headerWords + n % 0x100000000 := by
    simp [Header.totalWords, Header.payloadWords, Nat.toUInt32]
  rw [Nat.add_assoc]
  split
  · rename_i hfull
    simp only [allocatePointers, allocate, hwords, if_pos hfull]
    exact ⟨_, rfl⟩
  · rename_i hfits
    simp only [allocatePointers, allocate, hwords, if_neg hfits]
    exact ⟨_, _, rfl⟩

/-- An object that was delivered has the size of the order modulo 2^32. -/
theorem size_of_allocatePointers (sound : h.Sound) {h' : Heap} {isa v : Value} {n : Nat}
    (heq : allocatePointers isa n h = .ok v h') : h'.size v = .ok (n % 0x100000000) := by
  rw [← allocatePointers_mod] at heq
  obtain ⟨sound', hshows, -⟩ := allocatePointers_shows sound (Nat.mod_lt _ (by decide)) heq
  rw [hshows.size sound', List.length_replicate]

/-- An order that is refused is refused for want of room. -/
theorem supplies_of_full (isa : Value) {n : Nat}
    (hfull : h.capacity < h.used .pointers + headerWords + n % 0x100000000) :
    h.Supplies isa n := by
  have hanswer := h.allocatePointers_answer isa n
  rw [if_pos hfull] at hanswer
  obtain ⟨h', herr⟩ := hanswer
  rw [Supplies, herr]
  exact ⟨_, rfl⟩

/-- An order for fewer than 2^32 slots gets what it asks for. -/
theorem supplies_of_lt (sound : h.Sound) (isa : Value) {n : Nat} (hn : n < 0x100000000) :
    h.Supplies isa n := by
  by_cases hfull : h.capacity < h.used .pointers + headerWords + n % 0x100000000
  · exact supplies_of_full isa hfull
  · have hanswer := h.allocatePointers_answer isa n
    rw [if_neg hfull] at hanswer
    obtain ⟨v, h', hok⟩ := hanswer
    obtain ⟨sound', hshows, -⟩ := allocatePointers_shows sound hn hok
    have hlength : (List.replicate n Value.nil).length = n := List.length_replicate
    rw [Supplies, hok]
    refine ⟨by rw [hshows.size sound', hlength], fun i hi => ⟨?_, fun x => ?_⟩⟩
    · exact hshows.slot sound' (List.getElem?_replicate_of_lt hi)
    · obtain ⟨h'', hset, sound'', hshows', -⟩ :=
        hshows.setSlot (ε := Empty) sound' (hlength.symm ▸ hi) x
      exact ⟨h'', hset, hshows'.slot sound'' (by simp [hi])⟩

/-- An order gets what it asks for exactly if it is for fewer than 2^32 slots, or is refused
because there is no room for its size modulo 2^32. Any other order is filled all the same, as one
for that smaller size. -/
theorem supplies_iff (sound : h.Sound) (isa : Value) (n : Nat) :
    (h.Supplies isa n ↔ n < 0x100000000 ∨
      h.capacity < h.used .pointers + headerWords + n % 0x100000000) ∧
    h.Supplies isa (n % 0x100000000) ∧
    allocatePointers isa n h = allocatePointers isa (n % 0x100000000) h := by
  refine ⟨⟨fun hsupplies => ?_, ?_⟩, supplies_of_lt sound isa (Nat.mod_lt _ (by decide)),
    by rw [allocatePointers_mod]⟩
  · by_contra hneither
    obtain ⟨hlarge, hroom⟩ := not_or.mp hneither
    have hanswer := h.allocatePointers_answer isa n
    rw [if_neg hroom] at hanswer
    obtain ⟨v, h', hok⟩ := hanswer
    rw [Supplies, hok] at hsupplies
    have hsize := Except.ok.inj (hsupplies.1.symm.trans (size_of_allocatePointers sound hok))
    omega
  · rintro (hsmall | hfull)
    · exact supplies_of_lt sound isa hsmall
    · exact supplies_of_full isa hfull

/-- The smallest order that no arena has room for is filled by an object without slots. -/
theorem supplies_iff_shed :
    create { arenaWords := 1024 } = .ok (shed #[0, 2] #[0, 2] 1 {}) ∧
    ¬(shed #[0, 2] #[0, 2] 1 {}).Supplies .nil 0x100000000 ∧
    (shed #[0, 2] #[0, 2] 1 {}).Supplies .nil 0 := by
  have hc : create { arenaWords := 1024 } = .ok (shed #[0, 2] #[0, 2] 1 {}) := rfl
  obtain ⟨hiff, hzero, -⟩ := supplies_iff (create_sound hc) .nil 0x100000000
  exact ⟨hc, fun hsupplies => (hiff.mp hsupplies).elim (by decide) (by decide), hzero⟩

end Heap

end ObjectMachine
