import AffineLoops.Expr.Basic

/-!
# Known divisors

Every value of an expression is a multiple of its known divisor.  The divisor `0` says that
the value itself is `0`, and `1` says nothing.
-/

namespace AffineLoops.Expr

/-- The largest divisor of an expression that its shape shows, as an unsigned word. -/
def knownDivisor : Expr → Nat
  | const value => value.natAbs
  | binary .add lhs rhs => Nat.gcd (knownDivisor lhs) (knownDivisor rhs)
  | binary .mul lhs rhs => Word.saturatingMul (knownDivisor lhs) (knownDivisor rhs)
  | binary .mod lhs rhs =>
      match rhs.constant? with
      | some divisor => Nat.gcd (knownDivisor lhs) divisor.natAbs
      | none => 1
  | binary _ lhs rhs =>
      match rhs.constant? with
      | some divisor =>
          let dividend := knownDivisor lhs
          if divisor ≠ 0 ∧ dividend % divisor.natAbs = 0 then dividend / divisor.natAbs else 1
      | none => 1
  | _ => 1

/-- Whether the known divisor shows that an expression is a multiple of a factor. -/
def isMultipleOf (factor : Nat) (e : Expr) : Bool :=
  if factor = 0 then e.knownDivisor == 0 else e.knownDivisor % factor == 0

end AffineLoops.Expr
