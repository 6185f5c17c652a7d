import AffineLoops.Loop.Basic

/-!
# Verification

An operation is verified by a list of rules; the first rule that is broken is the violation
found.
-/

namespace AffineLoops

/-- The rules that an operation can break. -/
inductive Violation where
  | notDimension
  | notSymbol
  | mapOperandCount
  | setOperandCount
  | severalResults
  | operandNotIndex
  | bodyNotYielding
  | branchNotYielding
  | loadedType
  | storedType
  | vectorElementType
  | resultCountNotRank
  | subscriptCount
  | subscriptNotIndex
  | subscriptNotIdentifier
  deriving DecidableEq

/-- The text for a broken rule. -/
def Violation.message : Violation → String
  | notDimension => "operand cannot be used as a dimension id"
  | notSymbol => "operand cannot be used as a symbol"
  | mapOperandCount => "operand count and affine map dimension and symbol count must match"
  | setOperandCount =>
      "operand count and condition integer set dimension and symbol count must match"
  | severalResults => "mapping must produce one value"
  | operandNotIndex => "operands must be of type 'index'"
  | bodyNotYielding => "expects the body to be terminated by 'affine.yield'"
  | branchNotYielding => "expects its regions to be terminated by 'affine.yield'"
  | loadedType => "result type must match element type of memref"
  | storedType => "value to store must have the same type as memref element type"
  | vectorElementType => "requires memref and vector types of the same elemental type"
  | resultCountNotRank => "affine map num results must equal memref rank"
  | subscriptCount => "expects as many subscripts as affine map inputs"
  | subscriptNotIndex => "index to load must have 'index' type"
  | subscriptNotIdentifier => "index must be a dimension or symbol identifier"

namespace Store

variable (store : Store)

/-- A rule: the violation unless the condition holds. -/
def demand (condition : Bool) (violation : Violation) : Except Violation Unit :=
  if condition then .ok () else .error violation

/-- The first `dims` operands are dimensions and the others are symbols in a scope; the first
operand that is not is at fault. -/
def verifyIdentifiers (scope : Option RegionId) : Nat → List ValueId → Except Violation Unit
  | _, [] => .ok ()
  | 0, operand :: rest =>
      if store.isSymbol operand scope then verifyIdentifiers scope 0 rest else .error .notSymbol
  | dims + 1, operand :: rest =>
      if store.isDim operand scope then verifyIdentifiers scope dims rest
      else .error .notDimension

/-- The operands are valid in the scope of an operation. -/
def verifyOperands (id : OpId) (operands : List ValueId) (dims : Nat) :
    Except Violation Unit :=
  store.verifyIdentifiers (store.scope? id) dims operands

/-- Whether a region begins with a block that ends with a yield. -/
def yields (region : RegionId) : Bool :=
  match (store.entryBlock? region).bind store.terminator? with
  | none => false
  | some op =>
      match (store.op op).kind with
      | .yield => true
      | _ => false

/-- Every subscript is an index and a dimension or a symbol in a scope. -/
def verifySubscripts (scope : Option RegionId) : List ValueId → Except Violation Unit
  | [] => .ok ()
  | index :: rest => do
      demand (store.typeOf index).isIndex .subscriptNotIndex
      demand (store.isIndexOperand index scope) .subscriptNotIdentifier
      verifySubscripts scope rest

/-- The position of an access fits the reference, and its subscripts are valid. -/
def verifyPosition (access : Access) : Except Violation Unit := do
  let position := access.position
  demand (position.map.resultCount == access.type.rank) .resultCountNotRank
  demand (position.map.inputs == position.operands.length) .subscriptCount
  store.verifySubscripts (store.scope? access.op) position.operands

/-- The type of the value that an access reads or writes. -/
def accessedType? (id : OpId) : Option Ty :=
  match (store.op id).kind with
  | .load _ => (store.op id).results.head?.map store.typeOf
  | .vectorLoad _ => (store.op id).results.head?.map store.typeOf
  | .store _ => (store.op id).operands.head?.map store.typeOf
  | .vectorStore _ => (store.op id).operands.head?.map store.typeOf
  | _ => none

/-- The value that an access reads or writes has the type of the elements, or is a vector of
them. -/
def verifyAccess (access : Access) : Except Violation Unit := do
  let type := store.accessedType? access.op
  match (store.op access.op).kind with
  | .load _ => demand (type == some access.type.element) .loadedType
  | .store _ => demand (type == some access.type.element) .storedType
  | _ => demand (type.bind Ty.vectorElement? == some access.type.element) .vectorElementType
  store.verifyPosition access

/-- Verifies an apply operation. -/
def verifyApply (id : OpId) (bound : BoundMap) : Except Violation Unit := do
  demand (bound.operands.length == bound.map.inputs) .mapOperandCount
  demand (bound.map.resultCount == 1) .severalResults
  demand (bound.operands.all fun operand => (store.typeOf operand).isIndex) .operandNotIndex
  store.verifyOperands id bound.operands bound.map.dims

/-- Verifies a minimum or maximum. -/
def verifyExtremum (id : OpId) (bound : BoundMap) : Except Violation Unit := do
  demand (bound.operands.length == bound.map.inputs) .mapOperandCount
  store.verifyOperands id bound.operands bound.map.dims

/-- Verifies the body and the bounds of a loop or of parallel loops. -/
def verifyLoop (id : OpId) (region : RegionId) (lower upper : BoundMap) :
    Except Violation Unit := do
  demand (store.yields region) .bodyNotYielding
  store.verifyOperands id lower.operands lower.map.dims
  store.verifyOperands id upper.operands upper.map.dims

/-- Verifies a conditional. -/
def verifyConditional (conditional : Conditional) : Except Violation Unit := do
  let condition := conditional.condition
  demand (condition.operands.length == condition.set.inputs) .setOperandCount
  demand (store.yields conditional.thenRegion &&
    (conditional.elseRegion? store).all store.yields) .branchNotYielding
  store.verifyOperands conditional.op condition.operands condition.set.dims

/-- Verifies an operation, if there are rules for operations of its kind. -/
def verify? (id : OpId) : Option (Except Violation Unit) :=
  match (store.op id).kind with
  | .apply _ => (store.boundMap? id).map (store.verifyApply id)
  | .min _ => (store.boundMap? id).map (store.verifyExtremum id)
  | .max _ => (store.boundMap? id).map (store.verifyExtremum id)
  | .forLoop _ _ _ =>
      (store.forLoop? id).map fun loop =>
        store.verifyLoop id loop.region loop.bounds.lower loop.bounds.upper
  | .parallel _ _ _ =>
      (store.parallelLoops? id).map fun loops =>
        store.verifyLoop id loops.region loops.lower loops.upper
  | .conditional _ => (store.conditional? id).map store.verifyConditional
  | _ => (store.access? id).map store.verifyAccess

end Store

end AffineLoops
