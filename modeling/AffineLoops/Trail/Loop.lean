import AffineLoops.BoundMap.Fold
import AffineLoops.Loop.TripCount
import AffineLoops.Loop.Vectorization
import AffineLoops.Trail.BoundMap

/-!
# Trails of loops

The trails of folding operations and bounds, of trip counts, and of the analysis of accesses to
memory.
-/

namespace AffineLoops

namespace BoundMap

/-! ## Folding -/

/-- The trail of folding the results of a bound map at its constant operands. -/
def foldConstantsTrail (store : Store) (bound : BoundMap) : Trail :=
  bound.map.foldConstantsTrail (store.constantsOf bound.operands)

/-- The trail of folding the application of a map with one result. -/
def foldApplyTrail (store : Store) (bound : BoundMap) : Trail :=
  match bound.map.results with
  | .dim _ :: _ => []
  | .sym _ :: _ => []
  | _ => bound.foldConstantsTrail store

/-- The trail of the constant to which a bound folds. -/
def foldBoundTrail (store : Store) (bound : BoundMap) : Trail :=
  match bound.map.constant? with
  | some _ => []
  | none => bound.foldConstantsTrail store

/-- The trail of the composed and canonical form of a bound. -/
def canonicalBoundTrail (store : Store) (limit : Nat) (bound : BoundMap) : Trail :=
  (bound.normalizeTrail store limit).andThen (bound.canonicalBound store limit) fun bound =>
    [.map bound.map]

end BoundMap

/-- The trail of folding an operation that takes its value from a map. -/
def Store.foldValueTrail (store : Store) (id : OpId) : Trail :=
  match (store.op id).kind, store.boundMap? id with
  | .apply _, some bound => bound.foldApplyTrail store
  | .min _, some bound => bound.foldConstantsTrail store
  | .max _, some bound => bound.foldConstantsTrail store
  | _, _ => []

/-- The trail of folding a condition. -/
def Conditional.foldTrail (store : Store) (conditional : Conditional) : Trail :=
  conditional.condition.canonicalizeTrail store

namespace Bounds

/-- The trail of the map of a constant to which a bound folds. -/
def constantTrail (value : Option Int) : Trail :=
  (value.map fun value => .map (.ofConst value)).toList

/-- The trail of folding both bounds. -/
def foldConstantsTrail (store : Store) (bounds : Bounds) : Trail :=
  (bounds.lower.foldBoundTrail store).andThen (bounds.lower.foldBound? store .lower) fun lower =>
    constantTrail lower ++
      (bounds.upper.foldBoundTrail store).andThen (bounds.upper.foldBound? store .upper)
        constantTrail

/-- The trail of canonicalizing both bounds. -/
def canonicalizeTrail (store : Store) (limit : Nat) (bounds : Bounds) : Trail :=
  (bounds.lower.canonicalBoundTrail store limit).andThen (bounds.lower.canonicalBound store limit)
    fun _ => bounds.upper.canonicalBoundTrail store limit

/-- The trail of folding and then canonicalizing the bounds. -/
def foldTrail (store : Store) (limit : Nat) (bounds : Bounds) : Trail :=
  (bounds.foldConstantsTrail store).andThen (bounds.foldConstants store) fun folded =>
    (folded.getD bounds).canonicalizeTrail store limit

/-- The trail of normalizing the step. -/
def normalizeStrideTrail (bounds : Bounds) : Trail :=
  match bounds.constants?, bounds.normalizeStride? with
  | some (lower, _), .ok (some normalized) =>
      let start := Expr.sub (.dim 0) (.const lower)
      let scaled := start.mulConst bounds.step
      [.map normalized.bounds.lower.map, .map normalized.bounds.upper.map] ++
        Trail.ofExprs (.dim 0 :: .const lower :: Expr.subTrail (.dim 0) (.const lower) ++
          start.timesTrail bounds.step ++ scaled.plusTrail lower) ++
        [.map normalized.inductionMap]
  | _, _ => []

/-! ## Trip counts -/

/-- The trail of the trip count. -/
def tripCountTrail (store : Store) (limit : Nat) (bounds : Bounds) : Trail :=
  match bounds.constants?, bounds.lower.map.results with
  | some (lower, upper), _ => [.map (.ofConst (constantTrips lower upper bounds.step))]
  | none, [result] =>
      let results := List.replicate bounds.upper.map.resultCount result
      let lower := AffineMap.ofResults bounds.lower.map.dims bounds.lower.map.syms results
      Trail.andThen [] lower fun lower =>
        let lower : BoundMap := ⟨lower, bounds.lower.operands⟩
        let trail : Trail := .map lower.map :: bounds.upper.differenceTrail store limit lower
        trail.andThen (bounds.upper.difference store limit lower) fun difference =>
          let trail := Trail.ofExprs <| .const bounds.step ::
            difference.map.results.flatMap (Expr.divideTrail .ceilDiv · (.const bounds.step))
          trail.andThen (Expr.ceilDivAll bounds.step difference.map.results) fun quotients =>
            Trail.andThen [] (AffineMap.ofResults difference.map.dims difference.map.syms quotients)
              fun map => .map map :: map.simplifyTrail
  | _, _ => []

/-- The trail of the results of the trip count at the constants that operands hold. -/
def tripResultsTrail (store : Store) (limit : Nat) (bounds : Bounds) : Trail :=
  bounds.tripCountTrail store limit ++
    match bounds.tripCount store limit with
    | .ok (some trips) => trips.foldConstantsTrail store
    | _ => []

end Bounds

/-! ## Bands of loops -/

namespace ParallelLoops

/-- The trail of the upper bounds minus the lower bounds. -/
def rangesTrail (store : Store) (limit : Nat) (loops : ParallelLoops) : Trail :=
  (loops.upperMap store).differenceTrail store limit (loops.lowerMap store)

/-- The trail of the canonical bounds. -/
def canonicalizeBoundsTrail (store : Store) (limit : Nat) (loops : ParallelLoops) : Trail :=
  (loops.lower.composeTrail store limit).andThen (loops.lower.compose store limit) fun _ =>
    loops.upper.composeTrail store limit

end ParallelLoops

/-! ## Accesses to memory -/

namespace BoundMap

/-- The trail of the results that vary with the input at a place.  The search ends at a result
that does not vary by steps of one, and at a second one that varies. -/
def varyingResultsTrail (bound : BoundMap) (place : Nat) : Bool → List Expr → List Expr
  | _, [] => []
  | varies, result :: rest =>
      let trail := if bound.mentions place result then
          result.flattenTrail bound.map.dims bound.map.syms else []
      match bound.coefficientAt? place result with
      | none => trail
      | some coefficient =>
          if coefficient = 0 then trail ++ varyingResultsTrail bound place varies rest
          else if (coefficient = 1 ∨ coefficient = -1) ∧ varies = false then
            trail ++ varyingResultsTrail bound place true rest
          else trail

/-- The trail of the contiguity along a value that a position shows. -/
def contiguityTrail (bound : BoundMap) (value : ValueId) : Trail :=
  match bound.operands.idxOf? value with
  | none => []
  | some place => .ofExprs (bound.varyingResultsTrail place false bound.map.results)

end BoundMap

namespace Store

variable (store : Store)

/-- The trail of the contiguity of an access along a value, without the loops that depend on
it. -/
def ownContiguityTrail (limit : Nat) (access : Access) (value : ValueId) : Trail :=
  if access.type.hasIdentityLayout then
    (access.position.fullyComposeTrail store limit).andThen
      (access.position.fullyCompose store limit) (·.contiguityTrail value)
  else []

/-- The trail of the contiguity of an access along a value and along the variables of the loops
that depend on it, to the given depth. -/
def contiguityTrailWithin (limit : Nat) (access : Access) : Nat → ValueId → Trail
  | 0, value => store.ownContiguityTrail limit access value
  | depth + 1, value =>
      match store.loopOf? value with
      | none => store.ownContiguityTrail limit access value
      | some loop =>
          ((store.dependentLoops loop).foldl
            (fun (verdict, trail) dependent =>
              match verdict with
              | .error obstacle => (.error obstacle, trail)
              | .ok contiguity =>
                  let value := dependent.inductionVariable
                  (contiguity.merge (store.contiguityWithin limit access depth value),
                    trail ++ contiguityTrailWithin limit access depth value))
            (store.ownContiguity limit access value, store.ownContiguityTrail limit access value)).2

/-- The trail of the contiguity of an access along an induction variable. -/
def contiguityTrail (limit : Nat) (access : Access) (inductionVariable : ValueId) : Trail :=
  store.contiguityTrailWithin limit access store.operations.size inductionVariable

/-- The trail of the contiguity of a load or store of scalars. -/
def scalarContiguityTrail (limit : Nat) (inductionVariable : ValueId) (id : OpId) : Trail :=
  match store.access? id with
  | none => []
  | some access =>
      if access.type.element.isVector then []
      else store.contiguityTrail limit access inductionVariable

/-- The trail of going through the accesses of a body. -/
def agreeTrail (limit : Nat) (inductionVariable : ValueId) (accept : OpId → Bool) :
    List OpId → Contiguity → Trail
  | [], _ => []
  | id :: rest, contiguity =>
      store.scalarContiguityTrail limit inductionVariable id ++
        match contiguity.merge (store.scalarContiguity limit inductionVariable id) with
        | .error _ => []
        | .ok merged =>
            if accept id then agreeTrail limit inductionVariable accept rest merged else []

/-- The trail of the dimension along which the body of a loop can be vectorized. -/
def vectorizationTrail (limit : Nat) (loop : ForLoop) (accept : OpId → Bool) : Trail :=
  match store.scalarTransfers? loop.op with
  | none => []
  | some accesses => store.agreeTrail limit loop.inductionVariable accept accesses .invariant

end Store

end AffineLoops
