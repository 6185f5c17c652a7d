import AffineLoops.BoundMap.Composition
import AffineLoops.Loop.Bounds

/-!
# Folding of operations

The value of an apply operation is often known: it is one of the operands, or a constant.  The
smallest or largest result of a map is known if all results are constants; if only some are,
they can be put into the map.
-/

namespace AffineLoops

/-- What an operation computes, without building it again. -/
inductive Folded where
  | value (id : ValueId)
  | constant (value : Int)
  | map (map : AffineMap)
  deriving DecidableEq

namespace BoundMap

/-- Folds the application of a map with one result. -/
def foldApply (store : Store) (bound : BoundMap) : Option Folded :=
  match bound.map.results with
  | [] => none
  | .dim position :: _ => bound.operands[position]?.map .value
  | .sym position :: _ => bound.operands[bound.map.dims + position]?.map .value
  | _ =>
      match bound.map.foldConstants (store.constantsOf bound.operands) with
      | .ok (_, some (value :: _)) => some (.constant value)
      | _ => none

/-- Folds the smallest or largest result of a map: the smallest is taken as of an upper bound,
the largest as of a lower bound. -/
def foldExtremum (store : Store) (kind : BoundKind) (bound : BoundMap) : Option Folded :=
  match bound.map.foldConstants (store.constantsOf bound.operands) with
  | .error _ => none
  | .ok (_, some values) => (kind.pick? values).map .constant
  | .ok (folded, none) => if folded = bound.map then none else some (.map folded)

/-- The composed and canonical form without repeated results, if it differs from the map. -/
def canonicalizeExtremum (store : Store) (limit : Nat) (bound : BoundMap) :
    Except Fault (Option BoundMap) :=
  (bound.canonicalBound store limit).map fun canonical =>
    if canonical = bound then none else some canonical

/-- The composed and canonical form, if it differs from the map. -/
def simplifyOperands (store : Store) (limit : Nat) (bound : BoundMap) :
    Except Fault (Option BoundMap) :=
  (bound.normalize store limit).map fun simplified =>
    if simplified = bound then none else some simplified

end BoundMap

namespace Store

variable (store : Store)

/-- Folds an operation that takes its value from a map; `none` if it is another one. -/
def foldValue? (id : OpId) : Option (Option Folded) :=
  match (store.op id).kind with
  | .apply _ => (store.boundMap? id).map (·.foldApply store)
  | .min _ => (store.boundMap? id).map (·.foldExtremum store .upper)
  | .max _ => (store.boundMap? id).map (·.foldExtremum store .lower)
  | _ => none

/-- The map of an operation that takes the smallest or largest result; `none` if it is another
one. -/
def extremumMap? (id : OpId) : Option BoundMap :=
  match (store.op id).kind with
  | .min _ => store.boundMap? id
  | .max _ => store.boundMap? id
  | _ => none

end Store

end AffineLoops
