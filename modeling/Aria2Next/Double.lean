/-
The operations a program uses on floating-point numbers.  Results that do not
depend on what the numbers are hold for every instance, IEEE doubles with
their rounding, infinities and not-a-numbers included; exact rationals are
the instance that evaluates.
-/
import Mathlib.Data.Rat.Defs
import Mathlib.Algebra.Order.Ring.Rat

universe u

class Double (F : Type u) extends Add F, Mul F, Div F where
  /-- A literal, or an integer converted to the type. -/
  ofRat : ℚ → F
  lt : F → F → Bool
  le : F → F → Bool
  /-- Conversion to an integer, which drops the fraction. -/
  toInt : F → Int

namespace Double

variable {F : Type u} [Double F]

def ofInt (value : Int) : F := ofRat value

/-- `std::max`, which prefers its first argument unless it is less. -/
def max (left right : F) : F := if lt left right then right else left

/-- `std::clamp`. -/
def clamp (value low high : F) : F :=
  if lt value low then low else if lt high value then high else value

instance : Double ℚ where
  ofRat := id
  lt left right := decide (left < right)
  le left right := decide (left ≤ right)
  toInt value := value.num.tdiv value.den

end Double
