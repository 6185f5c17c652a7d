import AffineLoops.Expr.Fold

/-!
# Substitution

A substitution goes through an expression from the top.  A subterm that has a replacement is
replaced whole and not looked into; an operation with a changed operand is built again with
the folding operations, and one whose operands are unchanged stays as it is.
-/

namespace AffineLoops.Expr

/-- Replaces the outermost subterms for which `replacement?` has an answer. -/
def transform (replacement? : Expr → Option Expr) : Expr → Expr
  | binary op lhs rhs =>
      match replacement? (binary op lhs rhs) with
      | some e => e
      | none =>
          let newLhs := transform replacement? lhs
          let newRhs := transform replacement? rhs
          if newLhs = lhs ∧ newRhs = rhs then binary op lhs rhs else fold op newLhs newRhs
  | leaf => (replacement? leaf).getD leaf

/-- What a substitution puts in the place of an input. -/
def inputReplacement? (dims syms : List Expr) : Expr → Option Expr
  | dim position => dims[position]?
  | sym position => syms[position]?
  | _ => none

/-- What replaces an expression if it is the target. -/
def targetReplacement? (target replacement current : Expr) : Option Expr :=
  if current = target then some replacement else none

/-- The dimension to which a dimension from `offset` up to `count` is moved. -/
def movedDim? (offset count : Nat) (move : Nat → Nat) : Expr → Option Expr
  | dim position =>
      if offset ≤ position ∧ position < count then some (dim (move position)) else none
  | _ => none

/-- The symbol to which a symbol from `offset` up to `count` is moved. -/
def movedSym? (offset count : Nat) (move : Nat → Nat) : Expr → Option Expr
  | sym position =>
      if offset ≤ position ∧ position < count then some (sym (move position)) else none
  | _ => none

/-- Puts expressions in the place of dimensions and symbols.  Positions beyond the end of the
lists are kept. -/
def substitute (dims syms : List Expr) (e : Expr) : Expr :=
  transform (inputReplacement? dims syms) e

/-- Puts one expression in the place of another, wherever that one occurs. -/
def replace (target replacement : Expr) (e : Expr) : Expr :=
  transform (targetReplacement? target replacement) e

/-- Moves the dimensions from `offset` up to `count`. -/
def moveDims (offset count : Nat) (move : Nat → Nat) (e : Expr) : Expr :=
  transform (movedDim? offset count move) e

/-- Moves the symbols from `offset` up to `count`. -/
def moveSyms (offset count : Nat) (move : Nat → Nat) (e : Expr) : Expr :=
  transform (movedSym? offset count move) e

/-- Moves the dimensions from `offset` up to `count` by `shift` positions, which wrap around. -/
def shiftDims (offset count shift : Nat) (e : Expr) : Expr :=
  moveDims offset count (Word.advance shift) e

/-- Moves the symbols from `offset` up to `count` by `shift` positions, which wrap around. -/
def shiftSyms (offset count shift : Nat) (e : Expr) : Expr :=
  moveSyms offset count (Word.advance shift) e

end AffineLoops.Expr
