import Mathlib.Tactic.SplitIfs
import ObjectMachine.Machine.Primitive
import ObjectMachine.Proofs.Action
import ObjectMachine.Proofs.Memory.Words

namespace ObjectMachine

namespace Primitive

open Value (Fits)

variable {a b n q r : Int}

theorem inWord_of_fits (h : Fits n) : InWord n := by
  simp only [Fits, Value.minInteger, Value.maxInteger] at h
  simp only [InWord]
  omega

theorem checked_of_inWord (h : InWord n) : checked n = some n := if_pos h

/-- The check for words refuses nothing that has a tagged word. -/
theorem checked_bind_ofInt? (n : Int) : (checked n).bind Value.ofInt? = Value.ofInt? n := by
  rw [checked]
  split
  · rfl
  · rename_i hword
    exact (if_neg fun hn => hword (inWord_of_fits hn)).symm

section Division

/-- The quotient and the remainder of a division that rounds down. -/
structure Floored (a b q r : Int) : Prop where
  sum : a = q * b + r
  sign : r = 0 ∨ r.sign = b.sign
  small : r.natAbs < b.natAbs

theorem floored_fdiv (a : Int) (hb : b ≠ 0) : Floored a b (a.fdiv b) (a.fmod b) := by
  have hsum : a = a.fdiv b * b + a.fmod b := by rw [Int.mul_comm, Int.mul_fdiv_add_fmod]
  obtain hpos | hneg : 0 < b ∨ 0 < -b := by omega
  · have hleast := Int.fmod_nonneg_of_pos a hpos
    have hmost := Int.fmod_lt_of_pos a hpos
    refine ⟨hsum, ?_, by omega⟩
    rcases Int.lt_or_eq_of_le hleast with hlt | heq
    · exact .inr ((Int.sign_eq_one_of_pos hlt).trans (Int.sign_eq_one_of_pos hpos).symm)
    · exact .inl heq.symm
  · have hleast := Int.fmod_nonneg_of_pos (-a) hneg
    have hmost := Int.fmod_lt_of_pos (-a) hneg
    rw [Int.neg_fmod_neg] at hleast hmost
    refine ⟨hsum, ?_, by omega⟩
    obtain hlt | heq : a.fmod b < 0 ∨ a.fmod b = 0 := by omega
    · exact .inr ((Int.sign_eq_neg_one_of_neg hlt).trans
        (Int.sign_eq_neg_one_of_neg (by omega)).symm)
    · exact .inl heq

theorem inWord_tdiv (ha : Fits a) (b : Int) : InWord (a.tdiv b) := by
  have hle := Int.natAbs_tdiv_le_natAbs a b
  simp only [Fits, Value.minInteger, Value.maxInteger] at ha
  simp only [InWord]
  omega

theorem quotient?_of_fits (ha : Fits a) (hb : b ≠ 0) : quotient? a b = some (a.tdiv b) := by
  rw [quotient?, if_neg hb, checked_of_inWord (inWord_tdiv ha b)]

theorem remainder?_of_fits (ha : Fits a) (hb : b ≠ 0) : remainder? a b = some (a.tmod b) := by
  rw [remainder?, quotient?_of_fits ha hb, Option.map_some]

/-- The quotient rounded toward zero is one too large when the signs differ and something is left
over. -/
theorem fdiv_eq (a : Int) (hb : b ≠ 0) : a.fdiv b =
    if a.tmod b ≠ 0 ∧ ¬(a < 0 ↔ b < 0) then a.tdiv b - 1 else a.tdiv b := by
  have hneg := Int.sign_eq_neg_one_iff_neg (a := b)
  have hpos := Int.sign_eq_one_iff_pos (a := b)
  rw [Int.fdiv_eq_tdiv]
  simp only [Int.dvd_iff_tmod_eq_zero]
  split_ifs <;> omega

/-- The remainder of that division has the sign of the dividend, unless it is zero. -/
theorem fmod_eq (a b : Int) : a.fmod b =
    if a.tmod b ≠ 0 ∧ ¬(a.tmod b < 0 ↔ b < 0) then a.tmod b + b else a.tmod b := by
  have hpos : 0 ≤ a → 0 ≤ a.tmod b := Int.tmod_nonneg b
  have hneg : 0 ≤ -a → 0 ≤ (-a).tmod b := Int.tmod_nonneg b
  rw [Int.neg_tmod] at hneg
  rw [Int.fmod_eq_tmod]
  simp only [Int.dvd_iff_tmod_eq_zero]
  split_ifs <;> omega

/-- The correction of the quotient overflows no word. -/
theorem floorDiv_of_fits (ha : Fits a) (hb : b ≠ 0) : floorDiv a b = .ok (some (a.fdiv b)) := by
  have hword : checked (a.tdiv b - 1) = some (a.tdiv b - 1) := by
    have hle := Int.natAbs_tdiv_le_natAbs a b
    simp only [Fits, Value.minInteger, Value.maxInteger] at ha
    refine checked_of_inWord ?_
    simp only [InWord]
    omega
  simp only [floorDiv, quotient?_of_fits ha hb, remainder?_of_fits ha hb, hword, unchecked, bind,
    Except.bind, pure, Except.pure, fdiv_eq a hb]
  split <;> rfl

theorem floorMod_of_fits (ha : Fits a) (hb : Fits b) (hb0 : b ≠ 0) :
    floorMod a b = .ok (some (a.fmod b)) := by
  have hword : checked (a.tmod b + b) = some (a.tmod b + b) := by
    have habs := Int.natAbs_tmod a b
    have hlt := Nat.mod_lt a.natAbs (Int.natAbs_pos.mpr hb0)
    simp only [Fits, Value.minInteger, Value.maxInteger] at hb
    refine checked_of_inWord ?_
    simp only [InWord]
    omega
  simp only [floorMod, remainder?_of_fits ha hb0, hword, unchecked, bind, Except.bind, pure,
    Except.pure, fmod_eq a b]
  split <;> rfl

theorem exists_floorDiv (ha : Fits a) (b : Int) : ∃ result, floorDiv a b = .ok result := by
  by_cases hb : b = 0
  · subst hb
    exact ⟨none, rfl⟩
  · exact ⟨_, floorDiv_of_fits ha hb⟩

theorem exists_floorMod (ha : Fits a) (hb : Fits b) : ∃ result, floorMod a b = .ok result := by
  by_cases hb0 : b = 0
  · subst hb0
    exact ⟨none, rfl⟩
  · exact ⟨_, floorMod_of_fits ha hb hb0⟩

end Division

section Answers

variable {x y : Value} {op : Int → Int → Except Fault (Option Int)}

theorem integers?_pair (hx : x.toInt? = some a) (hy : y.toInt? = some b) :
    integers? [x, y] = some (a, b) := by
  simp [integers?, hx, hy]

theorem arithmetic_of_integers (hx : x.toInt? = some a) (hy : y.toInt? = some b)
    {result : Option Int} (hop : op a b = .ok result) :
    arithmetic [x, y] op = .ok ((result.bind Value.ofInt?).getD .nil) := by
  simp only [arithmetic, integers?_pair hx hy, hop, bind, Except.bind, pure, Except.pure]

theorem arithmetic_of_none {args : List Value} (h : integers? args = none) :
    arithmetic args op = .ok .nil := by
  simp only [arithmetic, h, pure, Except.pure]

/-- An operation that breaks no rule on tagged integers breaks none on any arguments. -/
theorem exists_arithmetic (hop : ∀ a b, Fits a → Fits b → ∃ result, op a b = .ok result)
    (x y : Value) : ∃ v, arithmetic [x, y] op = .ok v := by
  cases hx : x.toInt? with
  | none => exact ⟨_, arithmetic_of_none (by simp [integers?, hx])⟩
  | some a =>
    cases hy : y.toInt? with
    | none => exact ⟨_, arithmetic_of_none (by simp [integers?, hy])⟩
    | some b =>
      obtain ⟨result, hresult⟩ := hop a b (Value.fits_of_toInt? hx) (Value.fits_of_toInt? hy)
      exact ⟨_, arithmetic_of_integers hx hy hresult⟩

end Answers

def comparisons : List (Primitive × (Int → Int → Bool)) :=
  [(.integerLess, fun a b => a < b), (.integerGreater, fun a b => a > b),
    (.integerLessEqual, fun a b => a ≤ b), (.integerGreaterEqual, fun a b => a ≥ b),
    (.integerEqual, fun a b => a = b), (.integerNotEqual, fun a b => !(a = b))]

def onIntegers : List Primitive :=
  [.integerAdd, .integerSubtract, .integerMultiply, .integerQuotient, .integerRemainder] ++
    comparisons.map Prod.fst

end Primitive

namespace Machine

open Primitive (Floored arithmetic)

variable {m : Machine} {p : Primitive} {x y : Value} {a b n : Int}

/-- A primitive has a number for its result: it answers the tagged word of the number, or nil if
there is none, and leaves the machine as it was. -/
def Computes (m : Machine) (p : Primitive) (x y : Value) (n : Int) : Prop :=
  ∃ v, runPrimitive p [x, y] m = .ok v m ∧ if Value.Fits n then v.toInt? = some n else v = .nil

theorem computes_of_arithmetic {op : Int → Int → Except Fault (Option Int)}
    (hx : x.toInt? = some a) (hy : y.toInt? = some b)
    (hp : runPrimitive p [x, y] = ask fun _ => arithmetic [x, y] op) {result : Option Int}
    (hop : op a b = .ok result) (hresult : result.bind Value.ofInt? = Value.ofInt? n) :
    m.Computes p x y n := by
  refine ⟨(Value.ofInt? n).getD .nil, ?_, ?_⟩
  · rw [hp]
    refine query_of_eq_ok ?_
    rw [Primitive.arithmetic_of_integers hx hy hop, hresult]
  · rw [Value.ofInt?]
    split
    · exact Value.toInt?_wrapInt ‹_›
    · rfl

theorem computes_checked (hx : x.toInt? = some a) (hy : y.toInt? = some b)
    {op : Int → Int → Int}
    (hp : runPrimitive p [x, y] =
      ask fun _ => arithmetic [x, y] fun a b => return Primitive.checked (op a b)) :
    m.Computes p x y (op a b) :=
  computes_of_arithmetic hx hy hp rfl (Primitive.checked_bind_ofInt? _)

theorem runPrimitive_comparison {compare : Int → Int → Bool}
    (hp : (p, compare) ∈ Primitive.comparisons) (args : List Value) :
    runPrimitive p args m = .ok (Primitive.comparison m.image args compare) m := by
  simp only [Primitive.comparisons, List.mem_cons, Prod.mk.injEq, List.not_mem_nil, or_false] at hp
  obtain ⟨rfl, rfl⟩ | ⟨rfl, rfl⟩ | ⟨rfl, rfl⟩ | ⟨rfl, rfl⟩ | ⟨rfl, rfl⟩ | ⟨rfl, rfl⟩ := hp <;> rfl

/-- What is no pair of integers is refused. -/
theorem runPrimitive_not_integers {args : List Value} (hp : p ∈ Primitive.onIntegers)
    (hargs : Primitive.integers? args = none) : runPrimitive p args m = .ok .nil m := by
  rcases List.mem_append.mp hp with hp | hp
  · have hnone : ∀ op, ask (fun _ => arithmetic args op) m = .ok .nil m := fun op =>
      query_of_eq_ok (Primitive.arithmetic_of_none hargs)
    simp only [List.mem_cons, List.not_mem_nil, or_false] at hp
    rcases hp with rfl | rfl | rfl | rfl | rfl <;> exact hnone _
  · obtain ⟨⟨_, compare⟩, hmem, rfl⟩ := List.mem_map.mp hp
    rw [runPrimitive_comparison hmem, Primitive.comparison, hargs]

/-- Arithmetic on tagged integers is exact. Whatever the operands, none of the words on the way to
an answer overflows. -/
theorem runPrimitive_exact (m : Machine) :
    (∀ {x y : Value} {a b : Int}, x.toInt? = some a → y.toInt? = some b →
      m.Computes .integerAdd x y (a + b) ∧ m.Computes .integerSubtract x y (a - b) ∧
      m.Computes .integerMultiply x y (a * b) ∧
      (b = 0 → ∀ p ∈ [Primitive.integerQuotient, .integerRemainder],
        runPrimitive p [x, y] m = .ok .nil m) ∧
      (b ≠ 0 → ∃ q r, Floored a b q r ∧ m.Computes .integerQuotient x y q ∧
        Value.Fits r ∧ m.Computes .integerRemainder x y r) ∧
      ∀ p compare, (p, compare) ∈ Primitive.comparisons →
        runPrimitive p [x, y] m = .ok (m.image.boolean (compare a b)) m) ∧
    (∀ {x y : Value}, x.toInt? = none ∨ y.toInt? = none → ∀ p ∈ Primitive.onIntegers,
      runPrimitive p [x, y] m = .ok .nil m) ∧
    ∀ {a : Int}, Value.Fits a → (Value.wrapInt a).toInt? = some a := by
  refine ⟨fun {x y a b} hx hy => ⟨?_, ?_, ?_, ?zero, ?division, ?comparisons⟩, ?_,
    Value.toInt?_wrapInt⟩
  · exact computes_checked hx hy rfl
  · exact computes_checked hx hy rfl
  · exact computes_checked hx hy rfl
  case zero =>
    rintro rfl p hp
    have hnil : ∀ {op}, op a 0 = .ok none → ask (fun _ => arithmetic [x, y] op) m = .ok .nil m :=
      fun hop => query_of_eq_ok (Primitive.arithmetic_of_integers hx hy hop)
    simp only [List.mem_cons, List.not_mem_nil, or_false] at hp
    rcases hp with rfl | rfl <;> exact hnil rfl
  case division =>
    intro hb0
    have ha := Value.fits_of_toInt? hx
    have hb := Value.fits_of_toInt? hy
    have hfloored := Primitive.floored_fdiv a hb0
    refine ⟨_, _, hfloored,
      computes_of_arithmetic hx hy rfl (Primitive.floorDiv_of_fits ha hb0) rfl, ?_,
      computes_of_arithmetic hx hy rfl (Primitive.floorMod_of_fits ha hb hb0) rfl⟩
    have hsmall := hfloored.small
    simp only [Value.Fits, Value.minInteger, Value.maxInteger] at hb ⊢
    omega
  case comparisons =>
    intro p compare hp
    rw [runPrimitive_comparison hp, Primitive.comparison, Primitive.integers?_pair hx hy]
  · intro x y hnone p hp
    refine runPrimitive_not_integers hp ?_
    rcases hnone with hx | hy
    · simp [Primitive.integers?, hx]
    · simp [Primitive.integers?, hy]

/-- The quotient of the least integer by -1 has no tagged word, and its remainder is zero. -/
theorem runPrimitive_least_negated :
    runPrimitive .integerQuotient [.wrapInt Value.minInteger, .wrapInt (-1)] default =
        .ok .nil default ∧
      (default : Machine).Computes .integerRemainder (.wrapInt Value.minInteger)
      (.wrapInt (-1)) 0 := by
  obtain ⟨hexact, -, hword⟩ := runPrimitive_exact default
  obtain ⟨-, -, -, -, hdivision, -⟩ :=
    hexact (hword (a := Value.minInteger) (by decide)) (hword (a := -1) (by decide))
  obtain ⟨q, r, hfloored, ⟨v, hv, hquotient⟩, -, hremainder⟩ := hdivision (by decide)
  have hsmall := hfloored.small
  obtain rfl : r = 0 := by omega
  have hsum := hfloored.sum
  rw [if_neg (by simp only [Value.Fits, Value.minInteger, Value.maxInteger] at hsum ⊢; omega)]
    at hquotient
  exact ⟨hquotient ▸ hv, hremainder⟩

end Machine

end ObjectMachine
