import AffineLoops.Word

/-!
# Affine expressions

An expression is a tree over dimensions `d0, d1, …`, symbols `s0, s1, …` and constants,
built with sums, products, quotients and remainders.  An affine expression multiplies and
divides by constants only, and divides by positive ones; the tree itself allows every
operand, since a replacement may put any expression in the place of any other.
-/

namespace AffineLoops

/-- The operators of expressions. -/
inductive BinaryOp where
  | add
  | mul
  | mod
  | floorDiv
  | ceilDiv
  deriving DecidableEq, Hashable

/-- Expressions over numbered dimensions and symbols. -/
inductive Expr where
  | dim (position : Nat)
  | sym (position : Nat)
  | const (value : Int)
  | binary (op : BinaryOp) (lhs rhs : Expr)
  deriving DecidableEq

namespace BinaryOp

/-- The exact meaning of an operator.  Quotients are rounded down or up and remainders are
not negative whenever the divisor is positive. -/
def apply : BinaryOp → Int → Int → Int
  | add, a, b => a + b
  | mul, a, b => a * b
  | mod, a, b => a % b
  | floorDiv, a, b => a / b
  | ceilDiv, a, b => Word.ceilDiv a b

/-- Quotients and remainders ask for a divisor. -/
def isDivision : BinaryOp → Bool
  | add => false
  | mul => false
  | mod => true
  | floorDiv => true
  | ceilDiv => true

/-- The meaning of an operator on words: `none` for a result that is not a word and for a
divisor that is not positive. -/
def evaluate? (op : BinaryOp) (a b : Int) : Option Int :=
  if op.isDivision && b ≤ 0 then none
  else
    match op with
    | add => Word.add? a b
    | mul => Word.mul? a b
    | mod => Word.remainder? a b
    | floorDiv => Word.floorDiv? a b
    | ceilDiv => Word.ceilDiv? a b

end BinaryOp

namespace Expr

instance : Inhabited Expr := ⟨.const 0⟩

/-- The value of a constant expression. -/
def constant? : Expr → Option Int
  | const value => some value
  | _ => none

/-- All subterms, operands before the operation that combines them. -/
def postorder : Expr → List Expr
  | binary op lhs rhs => postorder lhs ++ postorder rhs ++ [binary op lhs rhs]
  | leaf => [leaf]

/-- Whether a dimension occurs in an expression. -/
def usesDim (position : Nat) : Expr → Bool
  | dim other => other == position
  | binary _ lhs rhs => usesDim position lhs || usesDim position rhs
  | _ => false

/-- Whether a symbol occurs in an expression. -/
def usesSym (position : Nat) : Expr → Bool
  | sym other => other == position
  | binary _ lhs rhs => usesSym position lhs || usesSym position rhs
  | _ => false

/-- Whether no dimension occurs in an expression. -/
def isSymbolic : Expr → Bool
  | dim _ => false
  | binary _ lhs rhs => isSymbolic lhs && isSymbolic rhs
  | _ => true

/-- Whether an expression multiplies by constants only and divides by constants only. -/
def isPureAffine : Expr → Bool
  | binary .add lhs rhs => isPureAffine lhs && isPureAffine rhs
  | binary .mul lhs rhs =>
      isPureAffine lhs && isPureAffine rhs && (lhs.constant?.isSome || rhs.constant?.isSome)
  | binary _ lhs rhs => isPureAffine lhs && rhs.constant?.isSome
  | _ => true

/-- The value of an expression at words for its dimensions and symbols.  There is none if a
position has no value, if a partial result is not a word, or if a divisor is not positive. -/
def evaluate? (dims syms : List Int) : Expr → Option Int
  | dim position => dims[position]?
  | sym position => syms[position]?
  | const value => some value
  | binary op lhs rhs =>
      match evaluate? dims syms lhs with
      | none => none
      | some a =>
          match evaluate? dims syms rhs with
          | none => none
          | some b => op.evaluate? a b

end Expr

end AffineLoops
