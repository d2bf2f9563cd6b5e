import Mathlib

/-!
# C integers on a 32-bit target

The C types `unsigned int` and `int` of a 32-bit x86 target as GCC compiles
them. Fields and variables of type `unsigned int` are `UInt32`, of type `int`
are `Int32` (stored) or `Int` (a value known to lie in range). A conversion
between the two reinterprets the 32 bits: `(int)x` is `sint x`, `(unsigned)i` is
`UInt32.ofInt i`. When an `int` meets an `unsigned int` in a comparison or in
arithmetic, the usual arithmetic conversions turn the `int` into `unsigned`
first. `%` on `int` truncates toward zero, which is `Int.tmod`. The lemmas say
when these conversions are the identity, so that code running on counters
below `2^31` can be read as arithmetic on `Nat` and `Int`.
-/

namespace CInt

/-- `(int)x` for `x : unsigned int`, as a mathematical integer. -/
def sint (x : UInt32) : Int := x.toInt32.toInt

theorem sint_eq (x : UInt32) :
    sint x = if x.toNat < 2 ^ 31 then (x.toNat : Int) else x.toNat - 2 ^ 32 := by
  simp only [sint, UInt32.toInt32, Int32.toInt]
  show x.toBitVec.toInt = _
  rw [BitVec.toInt_eq_toNat_cond]
  simp only [UInt32.toNat_toBitVec]
  split <;> split <;> omega

theorem sint_of_lt {x : UInt32} (h : x.toNat < 2 ^ 31) : sint x = x.toNat := by
  rw [sint_eq, if_pos h]

/-- `(unsigned)i` of a nonnegative `int`. -/
theorem toNat_toUInt32 {i : Int32} (h : 0 ≤ i.toInt) : i.toUInt32.toNat = i.toInt.toNat := by
  rw [Int32.toNat_toUInt32_of_le]
  · rfl
  · rw [Int32.le_iff_toInt_le]; simpa using h

/-! ## `int` arithmetic below the wrap -/

theorem toInt_add_of_range {a b : Int32} (h0 : -2 ^ 31 ≤ a.toInt + b.toInt)
    (h1 : a.toInt + b.toInt < 2 ^ 31) : (a + b).toInt = a.toInt + b.toInt := by
  rw [Int32.toInt_add]; exact Int.bmod_eq_of_le (by omega) (by omega)

theorem toInt_sub_of_range {a b : Int32} (h0 : -2 ^ 31 ≤ a.toInt - b.toInt)
    (h1 : a.toInt - b.toInt < 2 ^ 31) : (a - b).toInt = a.toInt - b.toInt := by
  rw [Int32.toInt_sub]; exact Int.bmod_eq_of_le (by omega) (by omega)

/-- An increment that does not wrap is one: at `INT_MAX`, `+ 1` gives `INT_MIN`. -/
theorem toInt_add_one_of_le {a : Int32} (h : a.toInt ≤ (a + 1).toInt) :
    (a + 1).toInt = a.toInt + 1 := by
  have ha := a.toInt_lt
  have ha' := a.le_toInt
  by_cases hm : a.toInt + 1 < 2 ^ 31
  · rw [toInt_add_of_range] <;> simp <;> omega
  · rw [Int32.toInt_add, Int32.toInt_one] at h
    have hmax : a.toInt = 2 ^ 31 - 1 := by omega
    rw [hmax] at h
    simp at h

/-! ## `unsigned` arithmetic below the wrap -/

theorem toNat_add_of_lt {a b : UInt32} (h : a.toNat + b.toNat < 2 ^ 32) :
    (a + b).toNat = a.toNat + b.toNat := by
  rw [UInt32.toNat_add]; omega

theorem toNat_sub_of_le {a b : UInt32} (h : b.toNat ≤ a.toNat) :
    (a - b).toNat = a.toNat - b.toNat := by
  rw [UInt32.toNat_sub]; have := a.toNat_lt; omega

theorem toNat_add_one {a : UInt32} (h : a.toNat + 1 < 2 ^ 32) : (a + 1).toNat = a.toNat + 1 :=
  toNat_add_of_lt h

theorem toNat_sub_one {a : UInt32} (h : 0 < a.toNat) : (a - 1).toNat = a.toNat - 1 :=
  toNat_sub_of_le h

/-- `a + b < a` is the test for a sum that wraps. -/
theorem add_lt_self_iff {a b : UInt32} : a + b < a ↔ 2 ^ 32 ≤ a.toNat + b.toNat := by
  rw [UInt32.lt_iff_toNat_lt, UInt32.toNat_add]
  have := a.toNat_lt
  have := b.toNat_lt
  omega

/-! ## Arrays

Reading or writing `a[i]` for an array of `n` elements is undefined unless
`0 ≤ i < n`; the model stops there with `badIndex`, as it stops at a
`panic`. -/

/-- The error of an out-of-range array access. -/
def badIndex : String := "array index out of bounds"

/-- `a[i]`. -/
def arrGet {n : Nat} {α : Type} (a : Fin n → α) (i : Int32) : Except String α :=
  if h : 0 ≤ i.toInt ∧ i.toInt < n then .ok (a ⟨i.toInt.toNat, by omega⟩) else .error badIndex

/-- `a[i] = v`. -/
def arrSet {n : Nat} {α : Type} (a : Fin n → α) (i : Int32) (v : α) : Except String (Fin n → α) :=
  if h : 0 ≤ i.toInt ∧ i.toInt < n then .ok (Function.update a ⟨i.toInt.toNat, by omega⟩ v)
  else .error badIndex

/-- `a[i]` for an `unsigned` index. -/
def arrGetU {n : Nat} {α : Type} (a : Fin n → α) (i : UInt32) : Except String α :=
  if h : i.toNat < n then .ok (a ⟨i.toNat, h⟩) else .error badIndex

/-- `a[i] = v` for an `unsigned` index. -/
def arrSetU {n : Nat} {α : Type} (a : Fin n → α) (i : UInt32) (v : α) : Except String (Fin n → α) :=
  if h : i.toNat < n then .ok (Function.update a ⟨i.toNat, h⟩ v) else .error badIndex

theorem arrGetU_of_lt {n : Nat} {α : Type} (a : Fin n → α) {i : UInt32} (h : i.toNat < n) :
    arrGetU a i = .ok (a ⟨i.toNat, h⟩) := by
  simp [arrGetU, h]

theorem arrSetU_of_lt {n : Nat} {α : Type} (a : Fin n → α) {i : UInt32} (v : α) (h : i.toNat < n) :
    arrSetU a i v = .ok (Function.update a ⟨i.toNat, h⟩ v) := by
  simp [arrSetU, h]

theorem arrGet_of_range {n : Nat} {α : Type} (a : Fin n → α) {i : Int32}
    (h : 0 ≤ i.toInt ∧ i.toInt < n) : arrGet a i = .ok (a ⟨i.toInt.toNat, by omega⟩) := by
  simp [arrGet, h]

theorem arrSet_of_range {n : Nat} {α : Type} (a : Fin n → α) {i : Int32} (v : α)
    (h : 0 ≤ i.toInt ∧ i.toInt < n) :
    arrSet a i v = .ok (Function.update a ⟨i.toInt.toNat, by omega⟩ v) := by
  simp [arrSet, h]

end CInt
