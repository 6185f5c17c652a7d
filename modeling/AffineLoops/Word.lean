/-!
# The range of machine words

Constants, coefficients and steps are mathematical integers that must fit a signed
64-bit word.  Arithmetic on them is exact, and a result that leaves the range is
reported as `none`.  Words are divided toward zero, and a quotient that is to be rounded down or up
is corrected by one.  Positions and counts are unsigned words, and these are added without a check:
a sum that leaves their range wraps around.
-/

namespace AffineLoops.Word

/-- The smallest signed word. -/
def minValue : Int := -9223372036854775808

/-- The largest signed word. -/
def maxValue : Int := 9223372036854775807

/-- The largest unsigned word. -/
def maxUnsigned : Nat := 18446744073709551615

/-- The largest number of words that can be stored in one row. -/
def maxLength : Nat := 1152921504606846975

/-- The unsigned word that is left of a number that may be too large. -/
def wrap (value : Nat) : Nat := value % (maxUnsigned + 1)

/-- The position a number of places further on. -/
def advance (shift position : Nat) : Nat := wrap (position + shift)

/-- The integers that a signed word can hold. -/
def InRange (value : Int) : Prop := minValue ≤ value ∧ value ≤ maxValue

instance (value : Int) : Decidable (InRange value) :=
  inferInstanceAs (Decidable (_ ∧ _))

/-- The value itself, provided that a signed word can hold it. -/
def checked (value : Int) : Option Int :=
  if InRange value then some value else none

/-- The value as a count, provided that an unsigned word can hold it. -/
def count? (value : Int) : Option Nat :=
  if 0 ≤ value ∧ value.toNat ≤ maxUnsigned then some value.toNat else none

/-- The sum of two words, if it is a word. -/
def add? (a b : Int) : Option Int := checked (a + b)

/-- The difference of two words, if it is a word. -/
def sub? (a b : Int) : Option Int := checked (a - b)

/-- The product of two words, if it is a word. -/
def mul? (a b : Int) : Option Int := checked (a * b)

/-- The word that is closest to a value. -/
def clamp (value : Int) : Int :=
  if value < minValue then minValue else if maxValue < value then maxValue else value

/-- The product of two unsigned words, or the largest unsigned word if it is too large. -/
def saturatingMul (a b : Nat) : Nat :=
  if a * b ≤ maxUnsigned then a * b else maxUnsigned

/-- The quotient rounded up, for a positive divisor. -/
def ceilDiv (a b : Int) : Int := -((-a) / b)

/-- The quotient of two words toward zero, corrected by a step if something is left over and the
rounding asks for it.  Both the quotient and the corrected one must be words. -/
def roundedDiv? (a b correction : Int) (asked : Bool) : Option Int :=
  match checked (a.tdiv b) with
  | none => none
  | some quotient => if a.tmod b ≠ 0 ∧ asked then add? quotient correction else some quotient

/-- The quotient of two words rounded down: one less where it is negative. -/
def floorDiv? (a b : Int) : Option Int :=
  roundedDiv? a b (-1) (decide (a < 0) != decide (b < 0))

/-- The quotient of two words rounded up: one more where it is positive. -/
def ceilDiv? (a b : Int) : Option Int :=
  roundedDiv? a b 1 (decide (a < 0) == decide (b < 0))

/-- The remainder of two words that is not negative: a negative one grows by the divisor. -/
def remainder? (a b : Int) : Option Int :=
  if a.tmod b < 0 then add? (a.tmod b) b.natAbs else checked (a.tmod b)

end AffineLoops.Word
