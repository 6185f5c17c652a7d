import AffineLoops.Expr.Divisor
import AffineLoops.Loop.Basic

/-!
# Trip counts

The number of iterations of a loop is the smallest of `(upper - lower) ceildiv step` over the
results of its upper bound, or zero if that is negative.  It is given as a map over the operands
of the bounds, as a constant where it is known, and by a divisor.
-/

namespace AffineLoops

namespace Expr

/-- Rounded up quotients of all expressions by a step. -/
def ceilDivAll (step : Int) : List Expr → Except Fault (List Expr)
  | [] => .ok []
  | e :: rest =>
      match build .ceilDiv e (const step), ceilDivAll step rest with
      | .error fault, _ => .error fault
      | _, .error fault => .error fault
      | .ok quotient, .ok quotients => .ok (quotient :: quotients)

end Expr

namespace Bounds

/-- The number of iterations between constant bounds.  A distance that is not a word counts as
the largest word. -/
def constantTrips (lower upper step : Int) : Int :=
  let span := Word.clamp (upper - lower)
  Word.ceilDiv (if span < 0 then 0 else span) step

/-- The trip count as a bound map with a result for every result of the upper bound, the smallest
of which counts.  There is none if the lower bound has several results. -/
def tripCount (store : Store) (limit : Nat) (bounds : Bounds) :
    Except Fault (Option BoundMap) :=
  match bounds.constants? with
  | some (lower, upper) =>
      .ok (some ⟨.ofConst (constantTrips lower upper bounds.step), []⟩)
  | none =>
      match bounds.lower.map.results with
      | [result] => do
          let upper := bounds.upper
          let results := List.replicate upper.map.resultCount result
          let map ← AffineMap.ofResults bounds.lower.map.dims bounds.lower.map.syms results
          let lower : BoundMap := ⟨map, bounds.lower.operands⟩
          lower.checkOperandCount
          let difference ← upper.difference store limit lower
          let quotients ← Expr.ceilDivAll bounds.step difference.map.results
          let map ← AffineMap.ofResults difference.map.dims difference.map.syms quotients
          return some ⟨map.simplify, difference.operands⟩
      | _ => .ok none

/-- The results of the trip count, with the constants that operands hold put in. -/
def tripResults? (store : Store) (limit : Nat) (bounds : Bounds) : Option (List Expr) :=
  match bounds.tripCount store limit with
  | .ok (some trips) =>
      match trips.map.foldConstants (store.constantsOf trips.operands) with
      | .ok (map, _) => some map.results
      | .error _ => none
  | _ => none

/-- The number of iterations, if it is a known constant. -/
def constantTripCount? (store : Store) (limit : Nat) (bounds : Bounds) : Option Nat :=
  match bounds.tripResults? store limit with
  | none => none
  | some results =>
      match results.mapM Expr.constant? with
      | none => none
      | some counts => (counts.map Int.toNat).min?

/-- The known divisor of one result of a trip count.  Every number divides zero, so a result that
is not positive has the largest divisor. -/
def resultDivisor (result : Expr) : Nat :=
  match result.constant? with
  | some count => if count ≤ 0 then Word.maxUnsigned else count.natAbs
  | none => result.knownDivisor

/-- The largest known divisor of the number of iterations. -/
def tripCountDivisor (store : Store) (limit : Nat) (bounds : Bounds) : Nat :=
  match bounds.tripResults? store limit with
  | none => 1
  | some results =>
      let divisor := results.foldl (fun divisor result => Nat.gcd divisor (resultDivisor result)) 0
      if divisor = 0 then 1 else divisor

end Bounds

end AffineLoops
