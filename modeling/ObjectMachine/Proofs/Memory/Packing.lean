import Mathlib.Tactic.SplitIfs
import ObjectMachine.Proofs.Memory.Copying

namespace ObjectMachine

/-- The addresses that references hold. The word of the one that is left out would be nil. -/
def Address.Packs (loc : Address) : Prop := loc.word < addressLimit ∧ loc ≠ ⟨.pointers, 0⟩

namespace Value

inductive Form where
  | nil
  | integer
  | reference
  | invalid
  deriving DecidableEq

def Has (v : Value) : Form → Prop
  | .nil => v.isNil
  | .integer => v.isInteger
  | .reference => v.isReference
  | .invalid => v.describe = s!"Invalid({hexWord v.raw})"

variable {v : Value} {n : Int} {loc : Address}

theorem isSome_toInt? (v : Value) : v.toInt?.isSome = v.isInteger := by
  rw [toInt?]
  split <;> simp_all

theorem isSome_address? (v : Value) : v.address?.isSome = v.isReference := by
  rw [address?]
  split <;> simp_all

/-- The reports on other words do not start like those on invalid words. -/
theorem describe_eq_invalid_iff : v.describe = s!"Invalid({hexWord v.raw})" ↔
    v.isNil = false ∧ v.isInteger = false ∧ v.isReference = false := by
  rw [← isSome_toInt?, ← isSome_address?, describe]
  cases hnil : v.isNil with
  | true =>
    simp only [if_true, Bool.true_eq_false, false_and, iff_false]
    intro heq
    simpa [toString] using congrArg String.toList heq
  | false =>
    cases v.toInt? with
    | some n =>
      simp only [Bool.false_eq_true, if_false, Option.isSome_some, Bool.true_eq_false, false_and,
        and_false, iff_false]
      intro heq
      simpa [toString] using congrArg String.toList heq
    | none =>
      cases v.address? with
      | some a =>
        simp only [Bool.false_eq_true, if_false, Option.isSome_some, Bool.true_eq_false, and_false,
          iff_false]
        intro heq
        simpa [toString] using congrArg String.toList heq
      | none => simp

theorem no_other_form_iff : (v.isNil = false ∧ v.isInteger = false ∧ v.isReference = false) ↔
    2 ≤ v.raw.toNat % 8 := by
  simp only [isNil, isInteger, isReference, beq_eq_false_iff_ne, ne_eq, ← UInt64.toNat_inj,
    Bool.and_eq_false_iff, bne_eq_false_iff_eq, UInt64.toNat_mod, UInt64.toNat_ofNat]
  simp
  omega

/-- The first form whose test a word passes. -/
def form (v : Value) : Form :=
  if v.isNil then .nil
  else if v.isInteger then .integer
  else if v.isReference then .reference
  else .invalid

/-- It passes no other test. -/
theorem has_iff_form_eq (v : Value) (form : Form) : v.Has form ↔ v.form = form := by
  have hnil : v.isNil = true → v.isInteger = false ∧ v.isReference = false := by
    simp +contextual [isNil, isInteger, isReference]
  have hinteger : v.isInteger = true → v.isReference = false := by
    simp +contextual [isInteger, isReference]
  cases form with
  | nil =>
    rw [Has, Value.form]
    split_ifs <;> simp_all
  | integer =>
    rw [Has, Value.form]
    split_ifs <;> simp_all
  | reference =>
    rw [Has, Value.form]
    split_ifs <;> simp_all
  | invalid =>
    rw [Has, describe_eq_invalid_iff, Value.form]
    split_ifs <;> simp_all

theorem exists_unique_form (v : Value) : ∃! form, v.Has form :=
  ⟨v.form, (has_iff_form_eq v _).mpr rfl, fun form h => ((has_iff_form_eq v form).mp h).symm⟩

/-- An integer is tagged with the word that it is read off. -/
theorem wrapInt_of_toInt? (h : v.toInt? = some n) : wrapInt n = v := by
  obtain ⟨raw⟩ := v
  rw [toInt?] at h
  split at h
  · rename_i hinteger
    have hn : raw.toInt64.toInt / 8 = n := Option.some.inj h
    have htag : raw.toNat % 8 = 1 := by
      rw [isInteger, beq_iff_eq] at hinteger
      simpa using congrArg UInt64.toNat hinteger
    have hsigned : raw.toInt64.toInt = raw.toBitVec.toInt := rfl
    have hlt := raw.toNat_lt
    rw [BitVec.toInt_eq_toNat_cond, UInt64.toNat_toBitVec] at hsigned
    refine congrArg Value.mk (UInt64.toNat_inj.mp ?_)
    rw [← hn, hsigned]
    simp [UInt64.ofInt]
    split <;> omega
  · cases h

/-- Tagging and reading undo each other, whichever comes first. -/
theorem toInt?_eq_some_iff : v.toInt? = some n ↔ ofInt? n = some v := by
  constructor
  · intro h
    rw [ofInt?, if_pos (fits_of_toInt? h), wrapInt_of_toInt? h]
  · intro h
    rw [ofInt?] at h
    split at h
    · rename_i hfits
      cases h
      exact toInt?_wrapInt hfits
    · cases h

theorem address?_ofAddress_of_packs (hloc : loc.Packs) : (ofAddress loc).address? = some loc := by
  obtain ⟨hsmall, hne⟩ := hloc
  rcases Nat.eq_zero_or_pos loc.word with hzero | hpos
  · obtain ⟨arena, word⟩ := loc
    obtain rfl : word = 0 := hzero
    cases arena with
    | pointers => exact absurd rfl hne
    | leaf => decide
  · exact address?_ofAddress hsmall hpos

theorem packs_of_address? (h : v.address? = some loc) : loc.Packs := by
  have hv := ofAddress_of_address? h
  rw [address?] at h
  split at h
  · rename_i href
    refine ⟨?_, ?_⟩
    · have hlt := v.raw.toNat_lt
      rw [← Option.some.inj h]
      simp only [addressLimit, UInt64.toNat_div]
      simp
      omega
    · rintro rfl
      rw [← hv] at href
      cases href
  · cases h

theorem address?_eq_some_iff : v.address? = some loc ↔ loc.Packs ∧ ofAddress loc = v := by
  refine ⟨fun h => ⟨packs_of_address? h, ofAddress_of_address? h⟩, ?_⟩
  rintro ⟨hloc, rfl⟩
  exact address?_ofAddress_of_packs hloc

end Value

theorem Header.hash_ofWords_lt (isa packed : UInt64) :
    (ofWords isa packed).hash.toNat < hashLimit := by
  simp only [ofWords, hashLimit]
  simp
  omega

theorem Header.ofWords_eq_iff {h : Header} {isa packed : UInt64} :
    ofWords isa packed = h ↔ h.hash.toNat < hashLimit ∧ h.isa.raw = isa ∧ h.packed = packed := by
  constructor
  · rintro rfl
    exact ⟨hash_ofWords_lt isa packed, rfl, packed_ofWords isa packed⟩
  · rintro ⟨hbound, rfl, rfl⟩
    exact ofWords_packed hbound

namespace Arenas

variable {a : Arenas} {old new : Address} {h : Header}

theorem payloadWords_lt (h : Header) : h.payloadWords < 0x100000000 := by
  have := h.size.toNat_lt
  rw [Header.payloadWords]
  split <;> omega

/-- An object is told to have moved by its header only. -/
theorem forwarding?_eq (hh : a.header old = .ok h) :
    a.forwarding? old = .ok (h.forwarding?.bind Value.address?) := by
  rw [forwarding?, hh]
  rfl

/-- An object that moves leaves behind where it went, and where the next one starts. -/
theorem forward_tells (hh : a.header old = .ok h) (hnew : new.Packs) :
    ∃ a', a.forward old new = .ok a' ∧ a'.forwarding? old = .ok (some new) ∧
      a'.next old = a.next old := by
  have hin : old.word + 1 < a.used old.arena := lt_used_of_header hh
  have hleft : (a.leave old new h.payloadWords.toUInt32).header old =
      .ok (.forwarded (.ofAddress new) h.payloadWords.toUInt32) := Copying.header_leave hh
  have hwords : (Header.forwarded (.ofAddress new) h.payloadWords.toUInt32).totalWords =
      h.totalWords := by
    have hlt := payloadWords_lt h
    have hpayload : h.payloadWords.toUInt32.toNat = h.payloadWords := by
      simpa [Nat.toUInt32] using hlt
    rw [Header.totalWords, Header.payloadWords, Header.totalWords]
    exact congrArg (headerWords + ·) hpayload
  refine ⟨a.leave old new h.payloadWords.toUInt32, ?_, ?_, ?_⟩
  · rw [forward, hh]
    exact if_pos hin
  · rw [forwarding?_eq hleft]
    exact congrArg Except.ok (Value.address?_ofAddress_of_packs hnew)
  · rw [next, next, hleft, hh]
    exact congrArg (fun n => Except.ok (Address.mk old.arena (old.word + n))) hwords

end Arenas

/-- Words are packed and read without loss. Each word has exactly one form; it is invalid if its
tag is none of those in use. Tagging matches the integers of 61 bits with the words that are
integers, and refuses every other integer. Referring matches the addresses of 60 bits, but for word
0 of the pointer arena, with the words that are references. Packing matches the headers whose hash
has 30 bits with all pairs of words. And the header that an object leaves behind when it moves
tells where it went, while the next object is found where it was found before. -/
theorem packing_lossless :
    (∀ v : Value, (∃! form, v.Has form) ∧ (v.Has .invalid ↔ 2 ≤ v.raw.toNat % 8)) ∧
    (∀ (n : Int) (v : Value), v.toInt? = some n ↔ Value.ofInt? n = some v) ∧
    (∀ n : Int, (Value.ofInt? n).isSome ↔ -2 ^ 60 ≤ n ∧ n ≤ 2 ^ 60 - 1) ∧
    (∀ v : Value, v.toInt?.isSome ↔ v.Has .integer) ∧
    (∀ (loc : Address) (v : Value), v.address? = some loc ↔
      (loc.word < 2 ^ 60 ∧ loc ≠ ⟨.pointers, 0⟩) ∧ Value.ofAddress loc = v) ∧
    (∀ v : Value, v.address?.isSome ↔ v.Has .reference) ∧
    (∀ (h : Header) (isa packed : UInt64), Header.ofWords isa packed = h ↔
      h.hash.toNat < 2 ^ 30 ∧ h.isa.raw = isa ∧ h.packed = packed) ∧
    ∀ (a : Arenas) (old : Address) (h : Header), a.header old = .ok h →
      (h.kind ≠ .forwarded → a.forwarding? old = .ok none) ∧
      ∀ new : Address, new.word < 2 ^ 60 ∧ new ≠ ⟨.pointers, 0⟩ → ∃ a', a.forward old new = .ok a' ∧
        a'.forwarding? old = .ok (some new) ∧ a'.next old = a.next old := by
  refine ⟨fun v => ⟨v.exists_unique_form, ?_⟩, fun n v => Value.toInt?_eq_some_iff, fun n => ?_,
    fun v => ?_, fun loc v => Value.address?_eq_some_iff, fun v => ?_,
    fun h isa packed => Header.ofWords_eq_iff, fun a old h hh => ⟨fun hkind => ?_, fun new hnew =>
    Arenas.forward_tells hh hnew⟩⟩
  · rw [Value.Has, Value.describe_eq_invalid_iff, Value.no_other_form_iff]
  · rw [Value.ofInt?]
    split
    · rename_i hfits
      exact iff_of_true rfl hfits
    · rename_i hfits
      exact iff_of_false Bool.false_ne_true hfits
  · rw [Value.isSome_toInt?, Value.Has]
  · rw [Value.isSome_address?, Value.Has]
  · rw [Arenas.forwarding?_eq hh, Header.forwarding?, if_neg hkind]
    rfl

/-- One object with two slots behind the pad, and the pad of the other arena. -/
def lodging : Arenas :=
  let h : Header := ⟨.ofNat 5, .pointers, 7, 2⟩
  { Arenas.empty with pointers := Arenas.empty.pointers ++ #[h.isa.raw, h.packed, 0, 0] }

/-- The object moves to word 9, and what comes behind it is still found at word 6. -/
theorem lodging_packed : lodging.forwarding? ⟨.pointers, 2⟩ = .ok none ∧
    ∃ a, lodging.forward ⟨.pointers, 2⟩ ⟨.pointers, 9⟩ = .ok a ∧
      a.forwarding? ⟨.pointers, 2⟩ = .ok (some ⟨.pointers, 9⟩) ∧
      a.next ⟨.pointers, 2⟩ = .ok ⟨.pointers, 6⟩ := by
  obtain ⟨-, -, -, -, -, -, -, hmoves⟩ := packing_lossless
  obtain ⟨hunmoved, hmoved⟩ := hmoves lodging ⟨.pointers, 2⟩ ⟨.ofNat 5, .pointers, 7, 2⟩
    (by decide +kernel)
  obtain ⟨a, hforward, hforwarding, hnext⟩ := hmoved ⟨.pointers, 9⟩ (by decide)
  have hextent : lodging.next ⟨.pointers, 2⟩ = .ok ⟨.pointers, 6⟩ := by decide +kernel
  exact ⟨hunmoved (by decide), a, hforward, hforwarding, hnext.trans hextent⟩

end ObjectMachine
