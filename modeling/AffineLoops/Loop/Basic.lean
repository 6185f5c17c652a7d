import AffineLoops.IR.Nesting
import AffineLoops.Loop.Bounds

/-!
# Loops and conditionals

Operations read as what they are: loops with their bounds, body and induction variables, bands
of parallel loops, and conditionals with their branches.
-/

namespace AffineLoops

/-- A loop with a single induction variable. -/
structure ForLoop where
  op : OpId
  bounds : Bounds
  region : RegionId
  body : BlockId
  inductionVariable : ValueId
  deriving DecidableEq

/-- A band of parallel loops.  The results of the bounds belong to the loops one by one. -/
structure ParallelLoops where
  op : OpId
  lower : BoundMap
  upper : BoundMap
  steps : List Int
  region : RegionId
  body : BlockId
  deriving DecidableEq

/-- A conditional.  Without an else branch the second region has no blocks. -/
structure Conditional where
  op : OpId
  condition : BoundSet
  thenRegion : RegionId
  elseRegion : RegionId
  deriving DecidableEq

namespace Store

variable (store : Store)

/-- The loop that an operation is. -/
def forLoop? (id : OpId) : Option ForLoop :=
  match (store.op id).kind, (store.op id).regions with
  | .forLoop lower upper step, region :: _ =>
      match store.entryBlock? region with
      | none => none
      | some body =>
          match (store.block body).arguments with
          | [] => none
          | inductionVariable :: _ =>
              let operands := (store.op id).operands
              let bounds : Bounds :=
                ⟨⟨lower, operands.take lower.inputs⟩, ⟨upper, operands.drop lower.inputs⟩, step⟩
              some { op := id, bounds, region, body, inductionVariable }
  | _, _ => none

/-- The band of parallel loops that an operation is. -/
def parallelLoops? (id : OpId) : Option ParallelLoops :=
  match (store.op id).kind, (store.op id).regions with
  | .parallel lower upper steps, region :: _ =>
      match store.entryBlock? region with
      | none => none
      | some body =>
          let operands := (store.op id).operands
          some {
            op := id
            lower := ⟨lower, operands.take lower.inputs⟩
            upper := ⟨upper, operands.drop lower.inputs⟩
            steps, region, body }
  | _, _ => none

/-- The conditional that an operation is. -/
def conditional? (id : OpId) : Option Conditional :=
  match (store.op id).kind, (store.op id).regions with
  | .conditional set, [thenRegion, elseRegion] =>
      some { op := id, condition := ⟨set, (store.op id).operands⟩, thenRegion, elseRegion }
  | _, _ => none

/-- The loop whose induction variable a value is. -/
def loopOf? (value : ValueId) : Option ForLoop :=
  match (store.value value).owner with
  | .result _ _ => none
  | .argument block _ => (store.blockParent? block).bind store.forLoop?

/-- The loops, other than a given one, whose bounds use its induction variable, each once and in
the order of their first uses. -/
def dependentLoops (loop : ForLoop) : List ForLoop :=
  let users := (store.users loop.inductionVariable).filter fun user =>
    user != loop.op && (store.op user).kind.isForLoop
  users.eraseDups.filterMap store.forLoop?

end Store

namespace ForLoop

/-- Whether the body has nothing but operations that end blocks. -/
def hasEmptyBody (store : Store) (loop : ForLoop) : Bool :=
  (store.block loop.body).operations.all fun op => store.hasTrait op .terminator

/-- Whether a value is defined outside of the body. -/
def definesOutside (store : Store) (loop : ForLoop) (value : ValueId) : Bool :=
  match store.valueRegion? value with
  | none => true
  | some region => !store.isRegionAncestor loop.region region

end ForLoop

namespace ParallelLoops

/-- The induction variables. -/
def inductionVariables (store : Store) (loops : ParallelLoops) : List ValueId :=
  (store.block loops.body).arguments

/-- The lower bounds as a value map. -/
def lowerMap (store : Store) (loops : ParallelLoops) : ValueMap :=
  ⟨(store.op loops.op).context, loops.lower, []⟩

/-- The upper bounds as a value map. -/
def upperMap (store : Store) (loops : ParallelLoops) : ValueMap :=
  ⟨(store.op loops.op).context, loops.upper, []⟩

/-- The upper bounds minus the lower bounds. -/
def ranges (store : Store) (limit : Nat) (loops : ParallelLoops) : Except Fault ValueMap :=
  (loops.upperMap store).difference store limit (loops.lowerMap store)

/-- The ranges, if they are known constants. -/
def constantRanges? (store : Store) (limit : Nat) (loops : ParallelLoops) : Option (List Int) :=
  match loops.ranges store limit with
  | .error _ => none
  | .ok ranges => ranges.bound.map.constantResults?

/-- The canonical lower and upper bounds, if one of them changes.  Repeated results stay, since
each of them bounds a loop of its own. -/
def canonicalizeBounds (store : Store) (limit : Nat) (loops : ParallelLoops) :
    Except Fault (Option (ValueMap × ValueMap)) :=
  match (loops.lowerMap store).canonicalize store limit with
  | .error fault => .error fault
  | .ok lower =>
      match (loops.upperMap store).canonicalize store limit with
      | .error fault => .error fault
      | .ok upper =>
          if lower.isNone && upper.isNone then .ok none
          else .ok (some (lower.getD (loops.lowerMap store), upper.getD (loops.upperMap store)))

end ParallelLoops

namespace Store

variable (store : Store)

/-- The map of an operation with one, as a value map for its results. -/
def valueMap? (id : OpId) : Option ValueMap :=
  (store.boundMap? id).map fun bound => ⟨(store.op id).context, bound, (store.op id).results⟩

/-- The lower bounds of an operation that is a loop or a band of loops. -/
def lowerMap? (id : OpId) : Option ValueMap :=
  match store.forLoop? id with
  | some loop => some ⟨(store.op id).context, loop.bounds.lower, []⟩
  | none => (store.parallelLoops? id).map (·.lowerMap store)

/-- The upper bounds of an operation that is a loop or a band of loops. -/
def upperMap? (id : OpId) : Option ValueMap :=
  match store.forLoop? id with
  | some loop => some ⟨(store.op id).context, loop.bounds.upper, []⟩
  | none => (store.parallelLoops? id).map (·.upperMap store)

end Store

namespace Conditional

/-- The block of the then branch. -/
def thenBlock? (store : Store) (conditional : Conditional) : Option BlockId :=
  store.entryBlock? conditional.thenRegion

/-- The region of the else branch, if there is one. -/
def elseRegion? (store : Store) (conditional : Conditional) : Option RegionId :=
  if (store.region conditional.elseRegion).blocks = [] then none
  else some conditional.elseRegion

/-- The block of the else branch, if there is one. -/
def elseBlock? (store : Store) (conditional : Conditional) : Option BlockId :=
  store.entryBlock? conditional.elseRegion

/-- The canonical condition, if it has fewer operands or more symbols. -/
def fold (store : Store) (conditional : Conditional) : Except Fault (Option BoundSet) :=
  (conditional.condition.canonicalize store).map fun canonical =>
    canonical.filter fun bound =>
      bound.operands.length < conditional.condition.set.inputs ||
        conditional.condition.set.syms < bound.set.syms

end Conditional

end AffineLoops
