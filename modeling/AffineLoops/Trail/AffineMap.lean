import AffineLoops.AffineMap.Checked
import AffineLoops.Trail.Expr
import AffineLoops.Uniquing

/-!
# Trails of maps and sets

Maps and sets are numbered by their context as expressions are, each kind on its own.  The trail
of a computation on them lists the expressions, maps and sets that it makes.
-/

namespace AffineLoops

/-- An object that a context numbers. -/
inductive Entry where
  | expr (e : Expr)
  | map (map : AffineMap)
  | set (set : IntegerSet)
  deriving DecidableEq

/-- The objects that a computation makes, in order. -/
abbrev Trail := List Entry

/-- The trail of a computation that makes expressions only. -/
def Trail.ofExprs (exprs : List Expr) : Trail := exprs.map .expr

namespace Tables

/-- Enters an object. -/
def enter (tables : Tables) : Entry → Tables
  | .expr e => (tables.internExpr e).2
  | .map map => (tables.internMap map).2
  | .set set => (tables.internSet set).2

/-- Enters the objects of a trail. -/
def enterAll (tables : Tables) (trail : Trail) : Tables := trail.foldl enter tables

end Tables

namespace AffineMap

/-- The trail of a map that is made from another one result by result. -/
def remakeTrail (map : AffineMap) (trailOf : Expr → List Expr) (new : AffineMap) : Trail :=
  Trail.ofExprs (map.results.flatMap trailOf) ++ [.map new]

/-- The trail of putting expressions in the place of the inputs. -/
def substituteTrail (map : AffineMap) (dimExprs symExprs : List Expr) (dims syms : Nat) : Trail :=
  map.remakeTrail (Expr.substituteTrail dimExprs symExprs)
    (map.substitute dimExprs symExprs dims syms)

/-- The trail of putting one expression in the place of another. -/
def replaceTrail (map : AffineMap) (target replacement : Expr) (dims syms : Nat) : Trail :=
  map.remakeTrail (Expr.replaceTrail target replacement) (map.replace target replacement dims syms)

/-- The trail of making room for dimensions. -/
def moveDimsTrail (map : AffineMap) (offset : Nat) (move : Nat → Nat) : Trail :=
  map.remakeTrail (Expr.moveDimsTrail offset map.dims move) (map.moveDims offset move)

/-- The trail of making room for symbols. -/
def moveSymsTrail (map : AffineMap) (offset : Nat) (move : Nat → Nat) : Trail :=
  map.remakeTrail (Expr.moveSymsTrail offset map.syms move) (map.moveSyms offset move)

/-- The trail of simplification. -/
def simplifyTrail (map : AffineMap) : Trail :=
  map.remakeTrail (Expr.simplifyTrail map.dims map.syms) map.simplify

/-- The trail of folding at partly known inputs. -/
def foldConstantsTrail (map : AffineMap) (constants : List (Option Int)) : Trail :=
  match map.foldConstants constants with
  | .error _ => []
  | .ok (folded, _) =>
      let (dimExprs, symExprs) := map.knownInputs constants
      Trail.ofExprs (dimExprs ++ symExprs) ++
        map.remakeTrail (fun result =>
          result.substituteTrail dimExprs symExprs ++
            ((result.substitute dimExprs symExprs).constant?.map .const).toList) folded

/-- The trail of numbering the symbols of one of several maps densely. -/
def compressTrail (map : AffineMap) (maps : List AffineMap) : Trail :=
  Trail.ofExprs (denseSymbols maps) ++
    map.substituteTrail [] (denseSymbols maps) map.dims (usedSymbolCount maps)

end AffineMap

namespace IntegerSet

/-- The trail of putting expressions in the place of the inputs. -/
def substituteTrail (set : IntegerSet) (dimExprs symExprs : List Expr) (dims syms : Nat) : Trail :=
  Trail.ofExprs (set.exprs.flatMap (Expr.substituteTrail dimExprs symExprs)) ++
    [.set (set.substitute dimExprs symExprs dims syms)]

end IntegerSet

end AffineLoops
