import AffineLoops.Expr.Basic

/-!
# Text of expressions

Operands of products, quotients and remainders bind strongly and are put in parentheses
unless they are single terms; operands of sums bind weakly.  A product with `-1` is written
with a leading minus, and a sum with a negative right operand is written as a difference.
-/

namespace AffineLoops

/-- An integer in decimal. -/
def decimal (value : Int) : String :=
  if value < 0 then "-" ++ value.natAbs.repr else value.natAbs.repr

/-- The operator as it stands in error texts and between operands. -/
def BinaryOp.symbol : BinaryOp → String
  | add => "+"
  | mul => "*"
  | mod => "mod"
  | floorDiv => "floordiv"
  | ceilDiv => "ceildiv"

namespace Expr

/-- How strongly the place of an expression binds it. -/
inductive Binding where
  | weak
  | strong
  deriving DecidableEq

/-- Parentheses where the place binds strongly. -/
def Binding.wrap : Binding → String → String
  | weak, text => text
  | strong, text => "(" ++ text ++ ")"

/-- Whether an expression is a sum. -/
def isSum : Expr → Bool
  | binary .add _ _ => true
  | _ => false

/-- The text of an expression in a place of the given strength. -/
def renderIn : Binding → Expr → String
  | _, dim position => "d" ++ position.repr
  | _, sym position => "s" ++ position.repr
  | _, const value => decimal value
  | strength, binary .add lhs (binary .mul term (const factor)) =>
      strength.wrap <| renderIn .weak lhs ++
        if factor = -1 then
          " - " ++ renderIn (if term.isSum then .strong else .weak) term
        else if factor < -1 then
          " - " ++ renderIn .strong term ++ " * " ++ factor.natAbs.repr
        else " + " ++ renderIn .weak (binary .mul term (const factor))
  | strength, binary .add lhs (const value) =>
      strength.wrap <| renderIn .weak lhs ++
        if value < 0 then " - " ++ value.natAbs.repr else " + " ++ decimal value
  | strength, binary .add lhs rhs =>
      strength.wrap <| renderIn .weak lhs ++ " + " ++ renderIn .weak rhs
  | strength, binary op lhs rhs =>
      if op = .mul ∧ rhs = const (-1) then "-" ++ renderIn .strong lhs
      else
        strength.wrap <|
          renderIn .strong lhs ++ " " ++ op.symbol ++ " " ++ renderIn .strong rhs

/-- The text of an expression. -/
def render (e : Expr) : String := renderIn .weak e

end Expr

end AffineLoops
