import Mathlib
import StackCalc.Arithmetic

/-!
Minimum and maximum of doubles are associative. Doubles other than the one that is no number are ordered by a rank of
three integers: the kind of the number, its exponent and its mantissa, the last two negated for negative numbers. Both
zeros have the same rank, so the first of two equal numbers still matters, but not how they are bracketed.
-/

namespace StackCalc

open Float.Model (UnpackedFloat)
open Float.Model.UnpackedFloat (Sign)

namespace Double

/-- The kind of a number, negative kinds first. -/
def kindRank : UnpackedFloat → Int
  | .infinity .negative => -2
  | .finite .negative .. => -1
  | .finite .positive .. => 1
  | .infinity .positive => 2
  | .zero _ | .notANumber => 0

def exponentRank : UnpackedFloat → Int
  | .finite .negative _ e _ => -e
  | .finite .positive _ e _ => e
  | _ => 0

def mantissaRank : UnpackedFloat → Int
  | .finite .negative m .. => -m
  | .finite .positive m .. => m
  | _ => 0

/-- The order of ranks. -/
def Precedes (a b : UnpackedFloat) : Prop :=
  kindRank a < kindRank b ∨ kindRank a = kindRank b ∧ (exponentRank a < exponentRank b ∨
    exponentRank a = exponentRank b ∧ mantissaRank a ≤ mantissaRank b)

instance (a b : UnpackedFloat) : Decidable (Precedes a b) :=
  inferInstanceAs (Decidable (_ ∨ _))

theorem isLE_then_compare (e₁ e₂ : Int) (m₁ m₂ : Nat) :
    ((compare e₁ e₂).then (compare m₁ m₂)).isLE = true ↔ e₁ < e₂ ∨ e₁ = e₂ ∧ m₁ ≤ m₂ := by
  rw [Ordering.isLE_then_iff_or, Int.compare_eq_lt, Int.compare_eq_eq, Nat.isLE_compare]

theorem swap_then_compare (e₁ e₂ : Int) (m₁ m₂ : Nat) :
    ((compare e₁ e₂).then (compare m₁ m₂)).swap = (compare e₂ e₁).then (compare m₂ m₁) := by
  rw [Ordering.swap_then, Int.compare_swap, Nat.compare_swap]

/-- Doubles other than the one that is no number compare as their ranks. -/
theorem le_iff_precedes {a b : UnpackedFloat} (ha : a ≠ .notANumber) (hb : b ≠ .notANumber) :
    a.le b = true ↔ Precedes a b := by
  cases a with
  | notANumber => exact absurd rfl ha
  | infinity s =>
    cases b with
    | notANumber => exact absurd rfl hb
    | infinity t => cases s <;> cases t <;> decide
    | zero t => cases s <;> cases t <;> decide
    | finite t => cases s <;> cases t <;> simp [UnpackedFloat.le, UnpackedFloat.compare, Precedes, kindRank]
  | zero s =>
    cases b with
    | notANumber => exact absurd rfl hb
    | infinity t => cases s <;> cases t <;> decide
    | zero t => cases s <;> cases t <;> decide
    | finite t => cases s <;> cases t <;> simp [UnpackedFloat.le, UnpackedFloat.compare, Precedes, kindRank]
  | finite s m₁ e₁ =>
    cases b with
    | notANumber => exact absurd rfl hb
    | infinity t => cases s <;> cases t <;> simp [UnpackedFloat.le, UnpackedFloat.compare, Precedes, kindRank]
    | zero t => cases s <;> cases t <;> simp [UnpackedFloat.le, UnpackedFloat.compare, Precedes, kindRank]
    | finite t m₂ e₂ =>
      cases s <;> cases t
      · simp only [UnpackedFloat.le, UnpackedFloat.compare, Option.any_some, swap_then_compare, isLE_then_compare,
          Precedes, kindRank, exponentRank, mantissaRank, true_and]
        omega
      · simp [UnpackedFloat.le, UnpackedFloat.compare, Precedes, kindRank]
      · simp [UnpackedFloat.le, UnpackedFloat.compare, Precedes, kindRank]
      · simp only [UnpackedFloat.le, UnpackedFloat.compare, Option.any_some, isLE_then_compare,
          Precedes, kindRank, exponentRank, mantissaRank, true_and]
        omega

theorem isNaN_eq_false_iff {x : Float} : x.isNaN = false ↔ x.toModel.unpack ≠ .notANumber := by
  rw [Bool.eq_false_iff]
  exact not_congr UnpackedFloat.isNaN_iff

theorem le_iff {x y : Float} (hx : x.isNaN = false) (hy : y.isNaN = false) :
    x ≤ y ↔ Precedes x.toModel.unpack y.toModel.unpack := by
  rw [← le_iff_precedes (isNaN_eq_false_iff.mp hx) (isNaN_eq_false_iff.mp hy)]
  exact decide_eq_true_iff

theorem le_or_le {x y : Float} (hx : x.isNaN = false) (hy : y.isNaN = false) : x ≤ y ∨ y ≤ x := by
  rw [le_iff hx hy, le_iff hy hx, Precedes, Precedes]
  omega

theorem le_trans_of_isNaN {x y z : Float} (hx : x.isNaN = false) (hy : y.isNaN = false) (hz : z.isNaN = false)
    (hxy : x ≤ y) (hyz : y ≤ z) : x ≤ z := by
  rw [le_iff hx hy, Precedes] at hxy
  rw [le_iff hy hz, Precedes] at hyz
  rw [le_iff hx hz, Precedes]
  omega

/-! ### Choosing one of two numbers -/

section Choose

variable (before : Float → Float → Prop) [DecidableRel before]

/-- The first of two numbers if it comes before the second or with it, else the second; no number if either is none. -/
def choose (x y : Float) : Float :=
  if x.isNaN || y.isNaN then notANumber else if before x y then x else y

variable {before} {x y z : Float}

theorem isNaN_notANumber : notANumber.isNaN = true := by decide +kernel

theorem choose_of_isNaN (h : x.isNaN = true ∨ y.isNaN = true) : choose before x y = notANumber := by
  rw [choose, if_pos]
  simpa using h

theorem choose_of_before (hx : x.isNaN = false) (hy : y.isNaN = false) (h : before x y) : choose before x y = x := by
  rw [choose, hx, hy, if_neg (by decide), if_pos h]

theorem choose_of_not_before (hx : x.isNaN = false) (hy : y.isNaN = false) (h : ¬before x y) :
    choose before x y = y := by
  rw [choose, hx, hy, if_neg (by decide), if_neg h]

/-- Numbers that are compared by a total and transitive relation may be bracketed in any way. -/
theorem associative_choose
    (total : ∀ {x y : Float}, x.isNaN = false → y.isNaN = false → before x y ∨ before y x)
    (trans : ∀ {x y z : Float}, x.isNaN = false → y.isNaN = false → z.isNaN = false →
      before x y → before y z → before x z) :
    Std.Associative (choose before) := by
  constructor
  intro x y z
  cases hx : x.isNaN with
  | true => rw [choose_of_isNaN (.inl hx), choose_of_isNaN (.inl isNaN_notANumber), choose_of_isNaN (.inl hx)]
  | false =>
    cases hy : y.isNaN with
    | true =>
      rw [choose_of_isNaN (.inr hy), choose_of_isNaN (.inl hy), choose_of_isNaN (.inl isNaN_notANumber),
        choose_of_isNaN (.inr isNaN_notANumber)]
    | false =>
      cases hz : z.isNaN with
      | true =>
        rw [choose_of_isNaN (y := z) (.inr hz), choose_of_isNaN (x := y) (.inr hz),
          choose_of_isNaN (.inr isNaN_notANumber)]
      | false =>
        by_cases hxy : before x y
        · rw [choose_of_before hx hy hxy]
          by_cases hyz : before y z
          · rw [choose_of_before hy hz hyz, choose_of_before hx hy hxy,
              choose_of_before hx hz (trans hx hy hz hxy hyz)]
          · rw [choose_of_not_before hy hz hyz]
        · rw [choose_of_not_before hx hy hxy]
          by_cases hyz : before y z
          · rw [choose_of_before hy hz hyz, choose_of_not_before hx hy hxy]
          · -- The last number comes before the second, which comes before the first.
            have hzy : before z y := (total hy hz).resolve_left hyz
            have hxz : ¬before x z := fun h => hxy (trans hx hz hy h hzy)
            rw [choose_of_not_before hy hz hyz, choose_of_not_before hx hz hxz]

end Choose

theorem associative_minimum : Std.Associative minimum :=
  associative_choose le_or_le le_trans_of_isNaN

theorem associative_maximum : Std.Associative maximum :=
  associative_choose (fun hx hy => le_or_le hy hx) fun hx hy hz hxy hyz => le_trans_of_isNaN hz hy hx hyz hxy

/-- In an arithmetic with minimum and maximum of doubles, sums and products are the only operators that are regrouped
    and may be rounded differently then. -/
theorem associative_of_ne {arithmetic : Arithmetic Float} (hmin : arithmetic .min = minimum)
    (hmax : arithmetic .max = maximum) {op : Operator} (h : op ≠ .add ∧ op ≠ .mul) (hf : op.isFusible = true) :
    Std.Associative (arithmetic op) := by
  cases op with
  | add => exact absurd rfl h.1
  | mul => exact absurd rfl h.2
  | min => exact hmin ▸ associative_minimum
  | max => exact hmax ▸ associative_maximum
  | sub | div | mod | pow => cases hf

end Double

end StackCalc
