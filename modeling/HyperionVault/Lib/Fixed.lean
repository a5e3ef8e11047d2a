import Mathlib.Algebra.Group.Int.Defs
import Mathlib.Algebra.Group.Nat.Defs
import Mathlib.Data.List.Lex
import Mathlib.Order.Lattice

/-!
# Fixed-width integers

The linear orders of the fixed-width types that tables and clocks use (byte strings are then ordered
lexicographically, as a store compares keys), and the arithmetic that does not wrap:

* `toInt_add_eq_iff`, `le_ofNat_iff` : where the machine's numbers are the numbers;
* `satAdd`, `satSub` : clamp to the ends of the range;
* `checkedSucc` : `none` past the largest value.
-/

instance UInt8.instLinearOrder : LinearOrder UInt8 where
  le_refl a := UInt8.le_refl a
  le_trans a b c := UInt8.le_trans
  lt_iff_le_not_ge a b := by simp only [UInt8.lt_iff_toNat_lt, UInt8.le_iff_toNat_le]; omega
  le_antisymm a b := UInt8.le_antisymm
  le_total a b := UInt8.le_total a b
  toDecidableLE := inferInstance
  toDecidableEq := inferInstance
  toDecidableLT := inferInstance

instance Int32.instLinearOrder : LinearOrder Int32 where
  le_refl a := Int32.le_refl a
  le_trans a b c := Int32.le_trans
  lt_iff_le_not_ge a b := by simp only [Int32.lt_iff_toInt_lt, Int32.le_iff_toInt_le]; omega
  le_antisymm a b := Int32.le_antisymm
  le_total a b := Int32.le_total a b
  toDecidableLE := inferInstance
  toDecidableEq := inferInstance
  toDecidableLT := inferInstance

instance Int64.instLinearOrder : LinearOrder Int64 where
  le_refl a := Int64.le_refl a
  le_trans a b c := Int64.le_trans
  lt_iff_le_not_ge a b := by simp only [Int64.lt_iff_toInt_lt, Int64.le_iff_toInt_le]; omega
  le_antisymm a b := Int64.le_antisymm
  le_total a b := Int64.le_total a b
  toDecidableLE := inferInstance
  toDecidableEq := inferInstance
  toDecidableLT := inferInstance

namespace Lib

/-- A sum with a number that is not negative is exact where it stays within 64 bits. -/
theorem toInt_add_eq_iff {a b : Int64} (hb : 0 ≤ b.toInt) :
    (a + b).toInt = a.toInt + b.toInt ↔ a.toInt + b.toInt < 2 ^ 63 := by
  have hlow := Int64.le_toInt a
  constructor
  · intro h
    rw [← h]
    exact Int64.toInt_lt _
  · intro h
    rw [Int64.toInt_add, Int.bmod_eq_of_le] <;> omega

/-- A difference is exact where it stays within 64 bits. -/
theorem toInt_sub_eq_iff {a b : Int64} :
    (a - b).toInt = a.toInt - b.toInt ↔ -2 ^ 63 ≤ a.toInt - b.toInt ∧ a.toInt - b.toInt < 2 ^ 63 := by
  constructor
  · intro h
    rw [← h]
    exact ⟨Int64.le_toInt _, Int64.toInt_lt _⟩
  · rintro ⟨hlow, hhigh⟩
    rw [Int64.toInt_sub, Int.bmod_eq_of_le] <;> omega

/-- A comparison with a number that fits into 32 bits. -/
theorem le_ofNat_iff {a : UInt32} {n : Nat} (hn : n < 2 ^ 32) : a ≤ UInt32.ofNat n ↔ a.toNat ≤ n := by
  rw [UInt32.le_iff_toNat_le, UInt32.toNat_ofNat', Nat.mod_eq_of_lt hn]

/-- Addition clamped to the ends of the 64-bit range. -/
def satAdd (a b : Int64) : Int64 :=
  if 2 ^ 63 ≤ a.toInt + b.toInt then Int64.maxValue
  else if a.toInt + b.toInt < -2 ^ 63 then Int64.minValue
  else a + b

theorem toInt_satAdd (a b : Int64) :
    (satAdd a b).toInt = max (-2 ^ 63) (min (a.toInt + b.toInt) (2 ^ 63 - 1)) := by
  unfold satAdd
  split_ifs with hhigh hlow
  · rw [show Int64.maxValue.toInt = 2 ^ 63 - 1 from rfl]
    omega
  · rw [show Int64.minValue.toInt = -2 ^ 63 from rfl]
    omega
  · rw [Int64.toInt_add, Int.bmod_eq_of_le] <;> omega

theorem satAdd_le_satAdd_right {a b : Int64} (h : a ≤ b) (c : Int64) : satAdd a c ≤ satAdd b c := by
  rw [Int64.le_iff_toInt_le] at h ⊢
  rw [toInt_satAdd, toInt_satAdd]
  omega

/-- Below a sum that clamps: below the sum, and not the largest value. -/
theorem lt_satAdd_iff {t a b : Int64} : t < satAdd a b ↔ t.toInt < a.toInt + b.toInt ∧ t < Int64.maxValue := by
  have hge := Int64.le_toInt t
  rw [Int64.lt_iff_toInt_lt, Int64.lt_iff_toInt_lt, toInt_satAdd, show Int64.maxValue.toInt = 2 ^ 63 - 1 from rfl]
  omega

/-- Subtraction clamped to the ends of the 64-bit range. -/
def satSub (a b : Int64) : Int64 :=
  if 2 ^ 63 ≤ a.toInt - b.toInt then Int64.maxValue
  else if a.toInt - b.toInt < -2 ^ 63 then Int64.minValue
  else a - b

/-- The next 32-bit value, if there is one. -/
def checkedSucc (a : Int32) : Option Int32 := if a = Int32.maxValue then none else some (a + 1)

theorem toInt_checkedSucc {a b : Int32} (h : checkedSucc a = some b) : b.toInt = a.toInt + 1 := by
  unfold checkedSucc at h
  split_ifs at h with hmax
  cases h
  have hlt := Int32.toInt_lt a
  have hge := Int32.le_toInt a
  have hne : a.toInt ≠ 2 ^ 31 - 1 := fun he => hmax (Int32.toInt_inj.mp he)
  rw [Int32.toInt_add, show (1 : Int32).toInt = 1 from rfl, Int.bmod_eq_of_le] <;> omega

/-- A successor that is still positive has not wrapped. -/
theorem toInt_succ_of_pos {a : Int32} (h : 1 ≤ a + 1) : (a + 1).toInt = a.toInt + 1 := by
  apply toInt_checkedSucc
  unfold checkedSucc
  rw [if_neg]
  rintro rfl
  exact absurd h (by decide)

/-- What is not above a 32-bit value is one itself. -/
theorem exists_toInt_eq (bound : Int32) {n : Nat} (h : (n : Int) ≤ bound.toInt) : ∃ a : Int32, a.toInt = n := by
  have hlt := Int32.toInt_lt bound
  exact ⟨.ofInt n, Int32.toInt_ofInt_of_le (by omega) (by omega)⟩

end Lib
