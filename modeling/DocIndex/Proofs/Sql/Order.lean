import DocIndex.Sql.Value
import Mathlib.Order.Compare

/-! # The order of values

Values of any kind can be compared: nulls come first, then numbers by what they are worth, then texts. So the
order is total and transitive, although an integer and a real may be worth the same.
-/

namespace DocIndex

theorem Binary64.one_pos : 0 < Binary64.one := by
  unfold Binary64.one
  generalize 1074 = n
  exact Nat.two_pow_pos n

namespace SqlValue

/-- Nulls come first, then numbers, then texts. -/
def place : SqlValue → Nat
  | .null => 0
  | .int _ | .real _ => 1
  | .text _ => 2

def worth (v : SqlValue) : Int := v.units?.getD 0

def characters : SqlValue → String
  | .text s => s
  | _ => ""

theorem compare_mul_one (a b : Int) : compare (a * Binary64.one) (b * Binary64.one) = compare a b := by
  have hone : (0 : Int) < Binary64.one := Int.natCast_pos.mpr Binary64.one_pos
  rcases Int.lt_trichotomy a b with h | rfl | h
  · rw [Std.compare_eq_lt.mpr h, Std.compare_eq_lt]
    exact Int.mul_lt_mul_of_pos_right h hone
  · rw [Std.compare_self, Std.compare_self]
  · rw [Std.compare_eq_gt.mpr h, Std.compare_eq_gt]
    exact Int.mul_lt_mul_of_pos_right h hone

theorem order_eq :
    order = compareLex (compareOn place) (compareLex (compareOn worth) (compareOn characters)) := by
  have hint : ∀ a b : Int, compareOfLessAndEq a b = compare a b := fun _ _ => rfl
  have hstring : ∀ a b : String, compareOfLessAndEq a b = compare a b := fun _ _ => rfl
  funext v w
  cases v <;> cases w <;>
    simp only [order, compareLex, compareOn, place, worth, units?, characters, hint, hstring, Option.getD_some,
      Std.compare_self, Ordering.eq_then, Ordering.then_eq, compare_mul_one]
  all_goals rfl

instance : Std.TransCmp order := by
  rw [order_eq]
  infer_instance

theorem order_text (s t : String) : order (.text s) (.text t) = compare s t := rfl

theorem isNull_iff {v : SqlValue} : v.isNull = true ↔ v = .null := by cases v <;> simp [isNull]

end SqlValue

end DocIndex
