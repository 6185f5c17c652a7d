import AffineLoops.Owned
import AffineLoops.Ty

/-!
# Faults

The causes for which a construction or an analysis is refused, and the text of each.
-/

namespace AffineLoops

/-- What a position counts. -/
inductive PositionKind where
  | dimension
  | symbol
  | operation
  deriving DecidableEq

/-- Why an operation cannot be built or placed. -/
inductive InvalidOperation where
  | regionAttached (number : Nat) (operation : String)
  | alreadyInBlock (operation : String)
  | blockInRegion
  | notMemRefOperand (operation : String) (type : Owned Ty)
  | notMemRefSource (type : Owned Ty)
  | boundsWithoutResults
  | mapWithoutResults (operation : String)
  | noElseBranch
  deriving DecidableEq

/-- The causes of failure. -/
inductive Fault where
  | operandCount (expected actual : Nat)
  | resultCount (expected actual : Nat)
  | positionOutOfBounds (kind : PositionKind) (position count : Nat)
  | nonAffine (op : BinaryOp) (lhs rhs : Expr)
  | invalidDivisor (divisor : Int)
  | invalidStep (step : Int)
  | shiftCount (expected actual : Nat)
  | compositionLimit (limit : Nat)
  | contextMismatch
  | invalidOperation (reason : InvalidOperation)
  | resultIndexOutOfBounds
  | moreResultsThanDims
  | notPermutation (positions : List Nat)
  | mixedContexts
  | unknownNumber (count number : Nat)
  | rangeEnd (stop length : Nat)
  | capacity
  deriving DecidableEq

/-- The word for what a position counts. -/
def PositionKind.word : PositionKind → String
  | dimension => "dimension"
  | symbol => "symbol"
  | operation => "operation"

/-- The text for an operation that cannot be built or placed. -/
def InvalidOperation.message : InvalidOperation → String
  | regionAttached number operation =>
      "region #" ++ number.repr ++ " of '" ++ operation ++ "' is already attached to an operation"
  | alreadyInBlock operation => "'" ++ operation ++ "' is already contained in a block"
  | blockInRegion => "block is already contained in a region"
  | notMemRefOperand operation type =>
      "'" ++ operation ++ "' expects a memref operand but got a value of type '" ++
        type.item.render ++ "'"
  | notMemRefSource type =>
      "'memref.dim' expects a memref source but got a value of type '" ++ type.item.render ++ "'"
  | boundsWithoutResults => "'affine.for' bound maps must have at least one result"
  | mapWithoutResults operation =>
      "'" ++ operation ++ "' requires an affine map with at least one result"
  | noElseBranch => "'affine.if' operation has no else branch"

/-- The type that the text of a fault names. -/
def Fault.type? : Fault → Option (Owned Ty)
  | invalidOperation (.notMemRefOperand _ type) => some type
  | invalidOperation (.notMemRefSource type) => some type
  | _ => none

/-- The word for the kind of a fault. -/
def Fault.kind : Fault → String
  | operandCount _ _ => "OperandCountMismatch"
  | resultCount _ _ => "ResultCountMismatch"
  | positionOutOfBounds _ _ _ => "PositionOutOfBounds"
  | nonAffine _ _ _ => "NonAffineExpression"
  | invalidDivisor _ => "InvalidDivisor"
  | invalidStep _ => "InvalidStep"
  | shiftCount _ _ => "ShiftCountMismatch"
  | compositionLimit _ => "CompositionLimitExceeded"
  | contextMismatch => "ContextMismatch"
  | invalidOperation _ => "InvalidOperation"
  | resultIndexOutOfBounds => "Panic"
  | moreResultsThanDims => "Panic"
  | notPermutation _ => "Panic"
  | mixedContexts => "Panic"
  | unknownNumber _ _ => "Panic"
  | rangeEnd _ _ => "Panic"
  | capacity => "Panic"

/-- The text of a fault. -/
def Fault.message : Fault → String
  | operandCount expected actual =>
      "expected " ++ expected.repr ++ " operands but got " ++ actual.repr
  | resultCount expected actual =>
      "expected " ++ expected.repr ++ " results but got " ++ actual.repr
  | positionOutOfBounds kind position count =>
      kind.word ++ " position " ++ position.repr ++ " is out of bounds for " ++ kind.word ++
        " count " ++ count.repr
  | nonAffine op lhs rhs =>
      "'" ++ lhs.render ++ "' " ++ op.symbol ++ " '" ++ rhs.render ++
        "' is not an affine expression"
  | invalidDivisor divisor =>
      "invalid divisor '" ++ decimal divisor ++
        "'; divisors in affine expressions must be positive constants"
  | invalidStep step =>
      "invalid loop step " ++ decimal step ++ "; loop steps must be positive"
  | shiftCount expected actual =>
      "expected " ++ expected.repr ++ " shifts (one per loop body operation) but got " ++
        actual.repr
  | compositionLimit limit =>
      "affine map composition did not reach a fixpoint within " ++ limit.repr ++
        " steps; the apply graph may be cyclic"
  | contextMismatch => "cannot combine objects that belong to different contexts"
  | invalidOperation reason => "invalid operation: " ++ reason.message
  | resultIndexOutOfBounds => "result index is out of bounds"
  | moreResultsThanDims => "minor identity maps cannot have more results than dimensions"
  | notPermutation positions =>
      "invalid permutation: [" ++ ", ".intercalate (positions.map Nat.repr) ++ "]"
  | mixedContexts => "cannot combine affine expressions that belong to different contexts"
  | unknownNumber count number =>
      "index out of bounds: the len is " ++ count.repr ++ " but the index is " ++ number.repr
  | rangeEnd stop length =>
      "range end index " ++ stop.repr ++ " out of range for slice of length " ++ length.repr
  | capacity => "capacity overflow"

end AffineLoops
