import AffineLoops.AffineMap.Checked
import AffineLoops.Identifier.Validity

/-!
# Canonical operands

Canonicalization brings the operands of a list of expressions into a normal form: operands that
no expression uses disappear, constant operands are put into the expressions, dimensions that
are symbols in their own scope become symbols, and every value is bound at most once as a
dimension and at most once as a symbol.  The remaining operands keep their order, symbols that
were dimensions coming last.  A pass that changes anything leaves fewer operands, or as many
operands and fewer dimensions, so the number of passes is bounded by the operands and
dimensions at the start.  Maps and sets share all of this.
-/

namespace AffineLoops

/-- Expressions with the values bound to their dimensions and symbols, in this order. -/
structure BoundExprs where
  dims : Nat
  syms : Nat
  exprs : List Expr
  operands : List ValueId
  deriving DecidableEq

/-- What stands for each dimension and symbol, and the values of the dimensions and symbols that
are left. -/
structure Placement where
  dimExprs : List Expr
  symExprs : List Expr
  dims : List ValueId
  syms : List ValueId
  deriving DecidableEq

namespace BoundExprs

/-- Whether an expression uses a dimension. -/
def usesDim (bound : BoundExprs) (position : Nat) : Bool := bound.exprs.any (Expr.usesDim position)

/-- Whether an expression uses a symbol. -/
def usesSym (bound : BoundExprs) (position : Nat) : Bool := bound.exprs.any (Expr.usesSym position)

/-- The position of a value in a list of values, to which it is added if it is not there. -/
def place (values : List ValueId) (value : ValueId) : Nat × List ValueId :=
  match values.idxOf? value with
  | some position => (position, values)
  | none => (values.length, values ++ [value])

/-- What stands for a symbol bound to a value: its constant or a symbol among the given ones. -/
def placeSymbol (store : Store) (symbols : List ValueId) (value : ValueId) :
    Expr × List ValueId :=
  match store.constantOf? value with
  | some constant => (.const constant, symbols)
  | none =>
      let (position, symbols) := place symbols value
      (.sym position, symbols)

/-- What stands for each symbol from a position on, and the values of the symbols that are
left. -/
def placeSymbols (store : Store) (used : Nat → Bool) :
    Nat → List ValueId → List ValueId → List Expr × List ValueId
  | _, [], symbols => ([], symbols)
  | position, value :: rest, symbols =>
      let (expr, symbols) :=
        if used position then placeSymbol store symbols value else (.const 0, symbols)
      let (exprs, symbols) := placeSymbols store used (position + 1) rest symbols
      (expr :: exprs, symbols)

/-- What stands for each dimension from a position on, and the values of the dimensions and
symbols that are left. -/
def placeDims (store : Store) (used : Nat → Bool) :
    Nat → List ValueId → List ValueId → List ValueId →
      List Expr × List ValueId × List ValueId
  | _, [], dims, symbols => ([], dims, symbols)
  | position, value :: rest, dims, symbols =>
      let (expr, dims, symbols) :=
        if used position then
          if store.isSymbolInOwnScope value then
            let (expr, symbols) := placeSymbol store symbols value
            (expr, dims, symbols)
          else
            let (place, dims) := place dims value
            (Expr.dim place, dims, symbols)
        else (.const 0, dims, symbols)
      let (exprs, dims, symbols) := placeDims store used (position + 1) rest dims symbols
      (expr :: exprs, dims, symbols)

/-- What stands for each input after a pass. -/
def placement (store : Store) (bound : BoundExprs) : Placement :=
  let (symExprs, symbols) :=
    placeSymbols store bound.usesSym 0 (bound.operands.drop bound.dims) []
  let (dimExprs, dims, symbols) :=
    placeDims store bound.usesDim 0 (bound.operands.take bound.dims) [] symbols
  ⟨dimExprs, symExprs, dims, symbols⟩

/-- One pass of canonicalization. -/
def pass (store : Store) (bound : BoundExprs) : BoundExprs :=
  let placement := bound.placement store
  { dims := placement.dims.length
    syms := placement.syms.length
    exprs := bound.exprs.map (Expr.substitute placement.dimExprs placement.symExprs)
    operands := placement.dims ++ placement.syms }

/-- Passes until nothing changes, at most the given number of times. -/
def settle (store : Store) : Nat → BoundExprs → BoundExprs
  | 0, bound => bound
  | passes + 1, bound =>
      if bound.pass store = bound then bound else settle store passes (bound.pass store)

/-- The canonical form. -/
def canonical (store : Store) (bound : BoundExprs) : BoundExprs :=
  if bound.operands = [] then bound
  else bound.settle store (bound.operands.length + bound.dims + 1)

end BoundExprs

namespace BoundMap

/-- The results of a bound map with its operands. -/
def toExprs (bound : BoundMap) : BoundExprs :=
  ⟨bound.map.dims, bound.map.syms, bound.map.results, bound.operands⟩

/-- The bound map with the given results and operands. -/
def ofExprs (bound : BoundExprs) : BoundMap :=
  ⟨⟨bound.dims, bound.syms, bound.exprs⟩, bound.operands⟩

/-- Refuses a bound map with too few or too many operands. -/
def checkOperandCount (bound : BoundMap) : Except Fault Unit :=
  if bound.operands.length = bound.map.inputs then .ok ()
  else .error (.operandCount bound.map.inputCount bound.operands.length)

/-- The canonical form of a bound map. -/
def canonical (store : Store) (bound : BoundMap) : BoundMap :=
  ofExprs (bound.toExprs.canonical store)

/-- The canonical form of a bound map, if it differs from the map. -/
def canonicalize (store : Store) (bound : BoundMap) : Except Fault (Option BoundMap) :=
  bound.checkOperandCount.map fun _ =>
    if bound.canonical store = bound then none else some (bound.canonical store)

/-- Simplifies the results and canonicalizes the operands in turn, until canonicalization
changes nothing or the given number of rounds is over. -/
def settle (store : Store) : Nat → BoundMap → BoundMap
  | 0, bound => bound
  | rounds + 1, bound =>
      let simplified := { bound with map := bound.map.simplify }
      if simplified.canonical store = simplified then simplified
      else settle store rounds (simplified.canonical store)

/-- The canonical form with simplified results.  Every round after the first leaves fewer
operands or fewer dimensions. -/
def canonicalSimplified (store : Store) (bound : BoundMap) : BoundMap :=
  let start := bound.canonical store
  start.settle store (start.operands.length + start.map.dims + 1)

end BoundMap

/-- A set and the values bound to its dimensions and symbols, in this order. -/
structure BoundSet where
  set : IntegerSet
  operands : List ValueId
  deriving DecidableEq

namespace BoundSet

/-- Refuses a bound set with too few or too many operands. -/
def checkOperandCount (bound : BoundSet) : Except Fault Unit :=
  if bound.operands.length = bound.set.inputs then .ok ()
  else .error (.operandCount bound.set.inputCount bound.operands.length)

/-- The canonical form of a bound set. -/
def canonical (store : Store) (bound : BoundSet) : BoundSet :=
  let exprs : BoundExprs :=
    ⟨bound.set.dims, bound.set.syms, bound.set.exprs, bound.operands⟩
  let exprs := exprs.canonical store
  ⟨bound.set.withExprs exprs.dims exprs.syms exprs.exprs, exprs.operands⟩

/-- The canonical form of a bound set, if it differs from the set. -/
def canonicalize (store : Store) (bound : BoundSet) : Except Fault (Option BoundSet) :=
  bound.checkOperandCount.map fun _ =>
    if bound.canonical store = bound then none else some (bound.canonical store)

end BoundSet

end AffineLoops
