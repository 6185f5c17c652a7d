import AffineLoops.Expr.Basic

/-!
# Folding operations

The folding operations build an expression and reduce it where that is possible at once:
constants are combined and moved to the right, `x + 0`, `x * 1` and `x * 0` disappear,
`(x + c) + y` becomes `(x + y) + c`, and `x * a + x * b` becomes `x * (a + b)`.  A reduction
that would need a constant outside the range of words is not made; the operation is then
kept as it stands.
-/

namespace AffineLoops.Expr

/-- The sum of an expression and a constant: `(x + a) + c` becomes `x + (a + c)`. -/
def addConst : Expr → Int → Expr
  | const a, c =>
      match Word.add? a c with
      | some sum => const sum
      | none => binary .add (const a) (const c)
  | binary .add x (const a), c =>
      if c = 0 then binary .add x (const a)
      else
        match Word.add? a c with
        | some sum => addConst x sum
        | none => binary .add (binary .add x (const a)) (const c)
  | e, c => if c = 0 then e else binary .add e (const c)

/-- The product of an expression and a constant: `(x * a) * c` becomes `x * (a * c)`. -/
def mulConst : Expr → Int → Expr
  | const a, c =>
      match Word.mul? a c with
      | some product => const product
      | none => binary .mul (const a) (const c)
  | binary .mul x (const a), c =>
      if c = 0 then const 0
      else if c = 1 then binary .mul x (const a)
      else
        match Word.mul? a c with
        | some product => mulConst x product
        | none => binary .mul (binary .mul x (const a)) (const c)
  | e, c => if c = 0 then const 0 else if c = 1 then e else binary .mul e (const c)

/-- An expression as a term times a constant factor, which is `1` unless it is spelled out. -/
def scaledTerm : Expr → Expr × Int
  | binary .mul term (const factor) => (term, factor)
  | e => (e, 1)

/-- The sum of two expressions that are not constants, the left one not ending in a constant:
two multiples of one term are combined. -/
def addTerms (lhs rhs : Expr) : Expr :=
  if lhs.scaledTerm.1 = rhs.scaledTerm.1 then
    match Word.add? lhs.scaledTerm.2 rhs.scaledTerm.2 with
    | some factor => mulConst lhs.scaledTerm.1 factor
    | none => binary .add lhs rhs
  else binary .add lhs rhs

/-- The folded sum. -/
def add : Expr → Expr → Expr
  | lhs, const c => addConst lhs c
  | const c, rhs => addConst rhs c
  | binary .add x (const c), rhs => addConst (add x rhs) c
  | lhs, rhs => addTerms lhs rhs

/-- The folded product.  Two factors that are not constants are left as they stand. -/
def mul : Expr → Expr → Expr
  | lhs, const c => mulConst lhs c
  | const c, rhs => mulConst rhs c
  | lhs, rhs => binary .mul lhs rhs

/-- The folded quotient or remainder by a positive constant: `(x * a) floordiv c` becomes
`x * (a / c)` and `(x * a) mod c` becomes `0` when `c` divides `a`. -/
def divConst (op : BinaryOp) (lhs : Expr) (divisor : Int) : Expr :=
  match lhs with
  | const a => const (op.apply a divisor)
  | _ =>
      if divisor = 1 then
        if op = .mod then const 0 else lhs
      else
        match lhs with
        | binary .mul x (const factor) =>
            if factor % divisor = 0 then
              if op = .mod then const 0 else mulConst x (factor / divisor)
            else binary op lhs (const divisor)
        | _ => binary op lhs (const divisor)

/-- The folded quotient or remainder.  Only positive constant divisors fold. -/
def divide (op : BinaryOp) (lhs rhs : Expr) : Expr :=
  match rhs with
  | const divisor => if 0 < divisor then divConst op lhs divisor else binary op lhs rhs
  | _ => binary op lhs rhs

/-- Builds an operation and folds it. -/
def fold : BinaryOp → Expr → Expr → Expr
  | .add, lhs, rhs => add lhs rhs
  | .mul, lhs, rhs => mul lhs rhs
  | op, lhs, rhs => divide op lhs rhs

/-- The negation, written as a multiple of `-1`. -/
def neg (e : Expr) : Expr := mulConst e (-1)

/-- The folded difference: the sum with the negation. -/
def sub (lhs rhs : Expr) : Expr := add lhs (neg rhs)

end AffineLoops.Expr
