import AffineLoops.Loop.Invariance
import AffineLoops.Session.Composition
import AffineLoops.Verification

/-!
# Verification and analysis with diagnostics

Verifiers and loop analyses say what they found through diagnostics on the operation concerned:
errors for broken rules and for memory layouts that are not understood, remarks for indices
that are behind chains of apply operations.
-/

namespace AffineLoops

/-- The remark on an index behind a chain of apply operations. -/
def IndexVerdict.chainRemark : String :=
  "affine map composition must have run: there should be at most one 'affine.apply' " ++
    "operation, conservatively returning false"

/-- The error on a memory reference that is not laid out in the order of its indices. -/
def ContiguityObstacle.layoutError : String :=
  "contiguity analysis does not support memrefs with non-identity layouts"

namespace Session

/-- Whether an operation breaks no rule; a broken rule is an error on it. -/
def judge (op : OpId) (result : Except Violation Unit) : SessionM Bool := do
  match result with
  | .ok () => return true
  | .error violation =>
      emitAt op .error violation.message
      return false

/-- Verifies operands as dimensions and symbols in the scope of an operation. -/
def verifyOperands (op : OpId) (operands : List ValueId) (dims : Nat) : SessionM Bool := do
  judge op ((← graph).verifyOperands op operands dims)

/-- Whether an index is invariant; an undecided one is remarked upon and counts as varying. -/
def settleVerdict (verdict : IndexVerdict) : SessionM Bool := do
  match verdict with
  | .invariant => return true
  | .varying => return false
  | .undecided apply =>
      emitAt apply .remark IndexVerdict.chainRemark
      return false

/-- Whether an index is invariant along an induction variable. -/
def isIndexInvariant (inductionVariable index : ValueId) : SessionM Bool := do
  settleVerdict ((← graph).indexVerdict inductionVariable index)

/-- The indices that are invariant along an induction variable. -/
def invariantIndices (inductionVariable : ValueId) : List ValueId → SessionM (List ValueId)
  | [] => return []
  | index :: rest => do
      let invariant ← isIndexInvariant inductionVariable index
      let others ← invariantIndices inductionVariable rest
      return if invariant then index :: others else others

/-- Whether all verdicts are that an index is invariant. -/
def settleVerdicts : List IndexVerdict → SessionM Bool
  | [] => return true
  | verdict :: rest => do
      let invariant ← settleVerdict verdict
      let others ← settleVerdicts rest
      return invariant && others

/-- Whether an access is invariant in a loop. -/
def isInvariantAccess (access : Access) (loop : ForLoop) : SessionM Bool := do
  settleVerdicts ((← graph).invarianceVerdicts access loop)

/-- The contiguity that was found in a context, with an error for a layout that is not
understood. -/
def settleContiguity (id : ContextId) (verdict : Except ContiguityObstacle Contiguity) :
    SessionM (Option Contiguity) := do
  match verdict with
  | .ok contiguity => return some contiguity
  | .error .notContiguous => return none
  | .error (.layout op) =>
      emitAt op .error ContiguityObstacle.layoutError
      return none
  | .error (.unknownLayout number) =>
      let _ ← mapOf id number
      return none

/-- The contiguity of an access along an induction variable. -/
def contiguity (inductionVariable : ValueId) (access : Access) :
    SessionM (Option Contiguity) := do
  let id := ((← graph).op access.op).context
  settleContiguity id (← follow id (·.contiguityTrail · access inductionVariable)
    fun store limit => .ok (store.contiguity limit access inductionVariable))

/-- The verdict on the body of a loop in a context. -/
def vectorizationVerdict (id : ContextId) (loop : ForLoop) (accept : OpId → Bool) :
    SessionM VectorizationVerdict :=
  follow id (·.vectorizationTrail · loop accept)
    fun store limit => .ok (store.vectorization limit loop accept)

/-- The verdict on the body of a loop, where at most the given number of layouts get their maps
only from the accesses before them. -/
def vectorizationWithin (id : ContextId) (loop : ForLoop) (accept : OpId → Bool) :
    Nat → SessionM VectorizationVerdict
  | 0 => vectorizationVerdict id loop accept
  | layouts + 1 => do
      let verdict ← vectorizationVerdict id loop accept
      match verdict.contiguity with
      | .error (.unknownLayout number) =>
          let _ ← mapOf id number
          vectorizationWithin id loop accept layouts
      | _ => return verdict

/-- The dimension along which the body of a loop can be vectorized, and the accesses that were
shown to the predicate. -/
def vectorization (loop : ForLoop) (accept : OpId → Bool) :
    SessionM (Option Contiguity × List OpId) := do
  let store ← graph
  let id := (store.op loop.op).context
  let verdict ← vectorizationWithin id loop accept store.operations.size
  return (← settleContiguity id verdict.contiguity, verdict.asked)

/-! ## Loops -/

/-- The trip count of a loop. -/
def tripCount (loop : ForLoop) : SessionM (Option BoundMap) := do
  follow ((← graph).op loop.op).context (loop.bounds.tripCountTrail · ·)
    (loop.bounds.tripCount · ·)

/-- The number of iterations of a loop, if it is a known constant, and its largest known
divisor. -/
def tripFacts (loop : ForLoop) : SessionM (Option Nat × Nat) := do
  follow ((← graph).op loop.op).context (loop.bounds.tripResultsTrail · ·) fun store limit =>
    .ok (loop.bounds.constantTripCount? store limit, loop.bounds.tripCountDivisor store limit)

/-- The upper bounds of a band of loops minus the lower bounds. -/
def ranges (loops : ParallelLoops) : SessionM ValueMap := do
  follow ((← graph).op loops.op).context (loops.rangesTrail · ·) (loops.ranges · ·)

/-- The upper bounds of a band of loops minus the lower bounds, if all are constants. -/
def constantRanges? (loops : ParallelLoops) : SessionM (Option (List Int)) := do
  return loops.constantRanges? (← graph) (← stepLimit)

/-- The canonical bounds of a band of loops, if one of them changes. -/
def canonicalizeRanges (loops : ParallelLoops) : SessionM (Option (ValueMap × ValueMap)) := do
  follow ((← graph).op loops.op).context (loops.canonicalizeBoundsTrail · ·)
    (loops.canonicalizeBounds · ·)

/-- Normalizes the step of a loop with constant bounds to one. -/
def normalizeStride (loop : ForLoop) : SessionM (Option StrideNormalization) := do
  follow ((← graph).op loop.op).context (fun _ _ => loop.bounds.normalizeStrideTrail)
    fun _ _ => loop.bounds.normalizeStride?

/-- Folds the bounds of a loop, canonicalizes them, and does both. -/
def foldLoop (loop : ForLoop) : SessionM (Option Bounds × Option Bounds × Option Bounds) := do
  let id := ((← graph).op loop.op).context
  let folded ← foldBounds id id loop.bounds
  let canonical ← canonicalizeBounds id id loop.bounds
  let both ← follow id (loop.bounds.foldTrail · ·) (loop.bounds.fold · ·)
  return (folded, canonical, both)

/-! ## Operations with maps -/

/-- Folds an operation that takes its value from a map; `none` if it is another one. -/
def foldValue? (id : OpId) : SessionM (Option (Option Folded)) := do
  follow ((← graph).op id).context (fun store _ => store.foldValueTrail id)
    fun store _ => .ok (store.foldValue? id)

/-- Folds a condition. -/
def foldConditional (conditional : Conditional) : SessionM (Option BoundSet) := do
  follow ((← graph).op conditional.op).context (fun store _ => conditional.foldTrail store)
    fun store _ => conditional.fold store

/-- The composed and canonical map of a minimum or maximum, if it differs. -/
def canonicalizeExtremum (id : OpId) (bound : BoundMap) : SessionM (Option BoundMap) := do
  follow ((← graph).op id).context (bound.canonicalBoundTrail · ·)
    (bound.canonicalizeExtremum · ·)

/-- The composed and canonical map of an operation, if it differs. -/
def simplifyOperands (id : OpId) (bound : BoundMap) : SessionM (Option BoundMap) := do
  follow ((← graph).op id).context (bound.normalizeTrail · ·) (bound.simplifyOperands · ·)

/-! ## Value maps -/

/-- The difference of two value maps. -/
def difference (lhs rhs : ValueMap) : SessionM ValueMap :=
  follow lhs.context (lhs.differenceTrail · · rhs) (lhs.difference · · rhs)

/-- The composed and canonical form of a value map, if it differs. -/
def canonicalizeValueMap (map : ValueMap) : SessionM (Option ValueMap) :=
  follow map.context (map.bound.composeTrail · ·) (map.canonicalize · ·)

end Session

end AffineLoops
