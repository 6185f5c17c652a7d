import AffineLoops.Session.Composition

/-!
# Operations of a session

Operations are built in the program graph.  Those that come with indices ask their context for
the type of indices, as soon as their own checks are passed; it stays even if the operation is
then refused because of the context of an operand.
-/

namespace AffineLoops.Session

/-- Builds an operation that comes with indices. -/
def buildIndexed (id : ContextId) (check : Except Fault Unit) (construction : Build OpId) :
    SessionM OpId := do
  ofExcept check
  let _ ← ownType id .index
  build construction

/-- Builds an operation for the size of a dimension. -/
def dimension (id : ContextId) (source index : ValueId) : SessionM OpId := do
  buildIndexed id (Build.checkDim ((← graph).ownedType source)) (.dim id source index)

/-- Builds an apply operation. -/
def apply (id : ContextId) (map : Owned AffineMap) (operands : List ValueId) : SessionM OpId :=
  buildIndexed id (Build.checkApply id map operands) (.apply id map operands)

/-- Builds an apply operation after composition. -/
def composedApply (id : ContextId) (map : Owned AffineMap) (operands : List ValueId) :
    SessionM OpId := do
  ofExcept (Build.checkMap id map operands)
  let bound ← compose ⟨id, ⟨map.item, operands⟩⟩
  apply id ⟨id, bound.map⟩ bound.operands

/-- Builds an operation for the smallest or largest result of a map. -/
def extremum (kind : AffineMap → OpKind) (id : ContextId) (map : Owned AffineMap)
    (operands : List ValueId) : SessionM OpId :=
  buildIndexed id (Build.checkExtremum id kind map operands) (.extremum id kind map operands)

/-- Builds a loop. -/
def forLoop (id : ContextId) (lower : Owned AffineMap) (lowerOperands : List ValueId)
    (upper : Owned AffineMap) (upperOperands : List ValueId) (step : Int) : SessionM OpId :=
  buildIndexed id (Build.checkFor id lower lowerOperands upper upperOperands step)
    (.forLoop id lower lowerOperands upper upperOperands step)

/-- Builds a loop with constant bounds. -/
def forConstant (id : ContextId) (lower upper step : Int) : SessionM OpId := do
  let lower ← ownMap id (.ofConst lower)
  let upper ← ownMap id (.ofConst upper)
  forLoop id lower [] upper [] step

/-- Builds a band of parallel loops. -/
def parallel (id : ContextId) (lower : Owned AffineMap) (lowerOperands : List ValueId)
    (upper : Owned AffineMap) (upperOperands : List ValueId) (steps : List Int) :
    SessionM OpId :=
  buildIndexed id (Build.checkParallel id lower lowerOperands upper upperOperands steps)
    (.parallel id lower lowerOperands upper upperOperands steps)

end AffineLoops.Session
