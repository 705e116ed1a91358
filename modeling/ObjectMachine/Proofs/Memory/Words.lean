import Mathlib.Algebra.GroupWithZero.Nat
import ObjectMachine.Memory.Heap

namespace ObjectMachine

/-- References hold word indices below this bound. -/
abbrev addressLimit : Nat := 0x1000000000000000

namespace Value

theorem toNat_ofAddress {loc : Address} (small : loc.word < addressLimit) :
    (ofAddress loc).raw.toNat = loc.word * 16 + loc.arena.bit.toNat * 8 := by
  have hb : loc.arena.bit.toNat ≤ 1 := by cases loc.arena <;> decide
  simp only [addressLimit] at small
  simp [ofAddress, Nat.toUInt64]
  omega

/-- Word 0 of the pointer arena has no reference, since its word would be nil. -/
theorem address?_ofAddress {loc : Address} (small : loc.word < addressLimit) (pos : 0 < loc.word) :
    (ofAddress loc).address? = some loc := by
  obtain ⟨arena, word⟩ := loc
  have hraw := toNat_ofAddress small
  simp only [addressLimit] at small pos hraw
  have href : (ofAddress ⟨arena, word⟩).isReference = true := by
    simp only [isReference, Bool.and_eq_true, bne_iff_ne, ne_eq, beq_iff_eq, ← UInt64.toNat_inj,
      UInt64.toNat_mod, hraw]
    simp
    omega
  have hword : ((ofAddress ⟨arena, word⟩).raw / 16).toNat = word := by
    cases arena <;> simp [hraw, ArenaId.bit]
    omega
  have hbit : ((ofAddress ⟨arena, word⟩).raw / 8 % 2).toNat = arena.bit.toNat := by
    cases arena <;> simp [hraw, ArenaId.bit] <;> omega
  rw [address?, if_pos href, hword]
  cases arena with
  | pointers =>
    rw [show (ofAddress ⟨.pointers, word⟩).raw / 8 % 2 = 0 from UInt64.toNat_inj.mp hbit]
    rfl
  | leaf =>
    rw [show (ofAddress ⟨.leaf, word⟩).raw / 8 % 2 = 1 from UInt64.toNat_inj.mp hbit]
    rfl

/-- A reference is made of the address that is read off it. -/
theorem ofAddress_of_address? {v : Value} {loc : Address} (hv : v.address? = some loc) :
    ofAddress loc = v := by
  obtain ⟨raw⟩ := v
  rw [address?] at hv
  split at hv
  · rename_i href
    cases hv
    have htag : raw.toNat % 8 = 0 := by
      rw [isReference, Bool.and_eq_true, beq_iff_eq] at href
      simpa using congrArg UInt64.toNat href.2
    have hbit : (raw / 8 % 2 = 0) = (raw.toNat / 8 % 2 = 0) := by
      simp [← UInt64.toNat_inj]
    refine congrArg Value.mk (UInt64.toNat_inj.mp ?_)
    refine (toNat_ofAddress ?_).trans ?_
    · have := raw.toNat_lt
      simp only [addressLimit, UInt64.toNat_div]
      simp
      omega
    · simp only [beq_iff_eq, hbit]
      split
      · simp [ArenaId.bit]
        omega
      · simp [ArenaId.bit]
        omega
  · cases hv

@[simp] theorem isInteger_ofNat (n : Nat) : (Value.ofNat n).isInteger = true := by
  have hraw : (n.toUInt64 * 8 + 1) % 8 = 1 := by
    apply UInt64.toNat.inj
    simp
  exact beq_iff_eq.mpr hraw

@[simp] theorem isInteger_wrapInt (n : Int) : (Value.wrapInt n).isInteger = true := by
  have hraw : (UInt64.ofInt n * 8 + 1) % 8 = 1 := by
    apply UInt64.toNat.inj
    simp
  exact beq_iff_eq.mpr hraw

/-- A number is no object. -/
theorem address?_ofNat (n : Nat) : (Value.ofNat n).address? = none := by
  have := isInteger_ofNat n
  simp only [isInteger, beq_iff_eq] at this
  simp [address?, isReference, this]

theorem ne_nil_of_isInteger {v : Value} (hv : v.isInteger = true) : v ≠ .nil := by
  rintro rfl
  cases hv

/-- Small counts are read back. -/
theorem toNat?_ofNat {n : Nat} (hn : n < 0x1000000000000000) : (ofNat n).toNat? = some n := by
  have hraw : (n.toUInt64 * 8 + 1).toNat = n * 8 + 1 := by
    simp
    omega
  have hsmall : n.toUInt64 * 8 + 1 < 0x8000000000000000 := by
    rw [UInt64.lt_iff_toNat_lt, hraw]
    simp
    omega
  have hback : ((n.toUInt64 * 8 + 1) / 8).toNat = n := by
    rw [UInt64.toNat_div, hraw]
    simp
    omega
  rw [toNat?, isInteger_ofNat, Bool.true_and]
  simp only [ofNat, hsmall, decide_true, if_true, hback]

theorem toInt?_ofNat {n : Nat} (hn : n < 0x1000000000000000) : (ofNat n).toInt? = some ↑n := by
  have hraw : (n.toUInt64 * 8 + 1).toNat = n * 8 + 1 := by
    simp
    omega
  have hsigned : (n.toUInt64 * 8 + 1).toInt64.toInt = n * 8 + 1 := by
    change (n.toUInt64 * 8 + 1).toBitVec.toInt = _
    rw [BitVec.toInt_eq_toNat_of_lt, UInt64.toNat_toBitVec, hraw]
    · rfl
    · rw [UInt64.toNat_toBitVec, hraw]
      omega
  rw [toInt?, if_pos (isInteger_ofNat n), ofNat, hsigned]
  congr 1
  omega

theorem ofInt?_natCast {n : Nat} (hn : n < 0x1000000000000000) : ofInt? n = some (ofNat n) := by
  rw [ofInt?, if_pos ⟨by simp [minInteger], by simp [maxInteger]; omega⟩, wrapInt, ofNat]
  have hword : UInt64.ofInt (n : Int) = n.toUInt64 := by
    apply UInt64.toNat_inj.mp
    simp [UInt64.ofInt]
    omega
  rw [hword]

/-- An integer is read back from its tagged word. -/
theorem toInt?_wrapInt {n : Int} (hn : Fits n) : (wrapInt n).toInt? = some n := by
  obtain ⟨hmin, hmax⟩ := hn
  simp only [minInteger, maxInteger] at hmin hmax
  have hword : (UInt64.ofInt n).toBitVec = BitVec.ofInt 64 n := by
    apply BitVec.eq_of_toNat_eq
    simp [UInt64.ofInt, BitVec.toNat_ofInt]
    omega
  have hsigned : (UInt64.ofInt n * 8 + 1).toInt64.toInt = n * 8 + 1 := by
    change (UInt64.ofInt n * 8 + 1).toBitVec.toInt = _
    have htagged : (UInt64.ofInt n * 8 + 1).toBitVec = BitVec.ofInt 64 (n * 8 + 1) := by
      rw [BitVec.ofInt_add, BitVec.ofInt_mul, UInt64.toBitVec_add, UInt64.toBitVec_mul, hword]
      rfl
    rw [htagged, BitVec.toInt_ofInt]
    apply Int.bmod_eq_of_le <;> omega
  rw [toInt?, if_pos (isInteger_wrapInt n), wrapInt, hsigned]
  congr 1
  omega

/-- What is read off a word has a tagged word. -/
theorem fits_of_toInt? {v : Value} {n : Int} (h : v.toInt? = some n) : Fits n := by
  rw [toInt?] at h
  split at h
  · cases h
    have hmin := v.raw.toInt64.le_toInt
    have hmax := v.raw.toInt64.toInt_lt
    simp only [Fits, minInteger, maxInteger]
    omega
  · cases h

end Value

theorem ObjectKind.ofBits_of_toNat {k : ObjectKind} {w : UInt64}
    (h : w.toNat % 4 = k.bits.toNat) : ofBits w = k := by
  have hw : w % 4 = k.bits := UInt64.toNat_inj.mp (by simpa using h)
  rw [ofBits, hw]
  cases k <;> decide

theorem ObjectKind.bits_ofBits (w : UInt64) : (ofBits w).bits = w % 4 := by
  have hlt : (w % 4).toNat < 4 := by
    rw [UInt64.toNat_mod]
    exact Nat.mod_lt _ (by decide)
  rw [ofBits]
  generalize w % 4 = tag at hlt
  obtain rfl | rfl | rfl | rfl : tag = 0 ∨ tag = 1 ∨ tag = 2 ∨ tag = 3 := by
    simp only [← UInt64.toNat_inj]
    simp
    omega
  all_goals rfl

namespace Header

theorem toNat_packed (h : Header) :
    h.packed.toNat =
      h.kind.bits.toNat + h.hash.toNat % 0x40000000 * 4 + h.size.toNat * 0x100000000 := by
  have hk : h.kind.bits.toNat ≤ 3 := by cases h.kind <;> decide
  have hs := h.size.toNat_lt
  simp [packed]
  omega

theorem ofBits_packed (h : Header) : ObjectKind.ofBits h.packed = h.kind := by
  have hp := h.toNat_packed
  have hk : h.kind.bits.toNat ≤ 3 := by cases h.kind <;> decide
  exact ObjectKind.ofBits_of_toNat (by omega)

theorem size_packed (h : Header) : (h.packed / 0x100000000).toUInt32 = h.size := by
  have hp := h.toNat_packed
  have hk : h.kind.bits.toNat ≤ 3 := by cases h.kind <;> decide
  have hs := h.size.toNat_lt
  apply UInt32.toNat_inj.mp
  simp [hp]
  omega

theorem kind_ofWords (isa packed : UInt64) : (ofWords isa packed).kind = .ofBits packed := rfl

theorem size_ofWords (isa packed : UInt64) :
    (ofWords isa packed).size = (packed / 0x100000000).toUInt32 := rfl

theorem totalWords_ofWords_packed (h : Header) (isa : UInt64) :
    (ofWords isa h.packed).totalWords = h.totalWords := by
  have hkind : (ofWords isa h.packed).kind = h.kind := by rw [kind_ofWords, ofBits_packed]
  have hsize : (ofWords isa h.packed).size = h.size := by rw [size_ofWords, size_packed]
  rw [totalWords, totalWords, payloadWords, payloadWords, hkind, hsize]

/-- A header whose hash fits its field is read back as it was. -/
theorem ofWords_packed {h : Header} (bound : h.hash.toNat < hashLimit) :
    ofWords h.isa.raw h.packed = h := by
  have hp := h.toNat_packed
  have hk : h.kind.bits.toNat ≤ 3 := by cases h.kind <;> decide
  have hs := h.size.toNat_lt
  simp only [hashLimit] at bound
  have hash : (h.packed / 4 % 0x40000000).toUInt32 = h.hash := by
    apply UInt32.toNat_inj.mp
    simp [hp]
    omega
  rw [ofWords, ofBits_packed, hash, size_packed]

/-- A packed word is made of the fields that are read off it. -/
theorem packed_ofWords (isa packed : UInt64) : (ofWords isa packed).packed = packed := by
  have hp := (ofWords isa packed).toNat_packed
  have hkind : (ofWords isa packed).kind.bits.toNat = packed.toNat % 4 := by
    rw [kind_ofWords, ObjectKind.bits_ofBits, UInt64.toNat_mod]
    rfl
  have hhash : (ofWords isa packed).hash.toNat = packed.toNat / 4 % 0x40000000 := by
    simp [ofWords]
    omega
  have hsize : (ofWords isa packed).size.toNat = packed.toNat / 0x100000000 := by
    have := packed.toNat_lt
    simp [ofWords]
    omega
  apply UInt64.toNat_inj.mp
  omega

theorem headerWords_le_totalWords (h : Header) : headerWords ≤ h.totalWords :=
  Nat.le_add_right _ _

end Header

namespace Heap

/-- At most eight bytes, the first of them lowest, as one word. -/
theorem toNat_packed (f : Nat → UInt8) (js : List Nat) (hlength : js.length ≤ 8) :
    (js.foldr (fun j acc => acc * 256 + (f j).toUInt64) 0).toNat < 256 ^ js.length ∧
      ∀ (k j : Nat), js[k]? = some j →
        (js.foldr (fun j acc => acc * 256 + (f j).toUInt64) 0).toNat / 256 ^ k % 256 =
          (f j).toNat := by
  induction js with
  | nil => exact ⟨Nat.one_pos, fun k j hk => by cases hk⟩
  | cons j js ih =>
    rw [List.length_cons] at hlength
    obtain ⟨hlt, hdigit⟩ := ih (by omega)
    have hsmall : 256 ^ js.length ≤ 256 ^ 7 := Nat.pow_le_pow_right (by decide) (by omega)
    have hbyte := (f j).toNat_lt
    have hword : ((j :: js).foldr (fun j acc => acc * 256 + (f j).toUInt64) 0).toNat =
        (js.foldr (fun j acc => acc * 256 + (f j).toUInt64) 0).toNat * 256 + (f j).toNat := by
      rw [List.foldr_cons, UInt64.toNat_add, UInt64.toNat_mul, UInt8.toNat_toUInt64,
        show UInt64.toNat 256 = 256 from rfl]
      omega
    rw [hword]
    refine ⟨?_, fun k j' hk => ?_⟩
    · rw [List.length_cons, Nat.pow_succ]
      omega
    · match k with
      | 0 =>
        obtain rfl : j = j' := Option.some.inj hk
        omega
      | k + 1 =>
        rw [Nat.pow_succ, Nat.mul_comm (256 ^ k), ← Nat.div_div_eq_div_mul]
        have hshift : ∀ n : Nat, (n * 256 + (f j).toNat) / 256 = n := fun n => by omega
        rw [hshift]
        exact hdigit k j' hk

theorem byteOfWord_packedWord (bytes : Array UInt8) (i : Nat) {j : Nat} (hj : j < 8) :
    byteOfWord (packedWord bytes i) j = bytes.getD (8 * i + j) 0 := by
  have hj64 : (8 * j).toUInt64.toNat = 8 * j := by
    simp [Nat.toUInt64]
    omega
  have hshift : 8 * j % 64 = 8 * j := Nat.mod_eq_of_lt (by omega)
  obtain ⟨-, hdigit⟩ := toNat_packed (fun j => bytes.getD (8 * i + j) 0) (List.range 8)
    (by simp)
  apply UInt8.toNat_inj.mp
  rw [byteOfWord, UInt64.toNat_toUInt8, UInt64.toNat_shiftRight, hj64, hshift,
    Nat.shiftRight_eq_div_pow, Nat.pow_mul]
  exact hdigit j j (by simp [hj])

/-- Bytes are read back from the words that they were packed into. -/
theorem unpack_packed (bytes : Array UInt8) :
    unpack ((List.range' 0 ((bytes.size + 7) / 8)).map (packedWord bytes)).toArray bytes.size =
      bytes := by
  have hwords : ∀ count, ((List.range count).flatMap fun i =>
      (List.range 8).map (byteOfWord (packedWord bytes i))) =
        (List.range (8 * count)).map fun k => bytes.getD k 0 := by
    intro count
    induction count with
    | zero => rfl
    | succ count ih =>
      rw [show List.range (count + 1) = List.range count ++ [count] from List.range_succ,
        List.flatMap_append, ih, Nat.mul_succ, List.range_add, List.map_append,
        List.map_map, List.flatMap_singleton]
      congr 1
      apply List.map_congr_left
      intro j hj
      exact byteOfWord_packedWord bytes count (List.mem_range.mp hj)
  apply Array.toList_inj.mp
  have hunpacked : (unpack ((List.range' 0 ((bytes.size + 7) / 8)).map (packedWord bytes)).toArray
      bytes.size).toList = ((List.range (8 * ((bytes.size + 7) / 8))).map
        fun k => bytes.getD k 0).take bytes.size := by
    rw [← hwords, ← List.range_eq_range']
    simp [unpack, List.flatMap_map]
  rw [hunpacked]
  apply List.ext_getElem?
  intro k
  rw [List.getElem?_take, List.getElem?_map]
  by_cases hk : k < bytes.size
  · rw [if_pos hk, List.getElem?_range (by omega), Array.getElem?_toList,
      Array.getElem?_eq_getElem hk]
    simp [hk]
  · rw [if_neg hk, Array.getElem?_toList, Array.getElem?_eq_none (by omega)]

end Heap

end ObjectMachine
