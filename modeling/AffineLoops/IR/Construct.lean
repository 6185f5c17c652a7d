import AffineLoops.IR.Build
import AffineLoops.Loop.Basic

/-!
# Construction of operations

One construction for every kind of operation.  Operands are checked before anything is added;
loops and conditionals then make their regions, and these stay even if an operand turns out to
belong to another context.
-/

namespace AffineLoops.Build

/-- Refuses a map of another context and a wrong number of operands. -/
def checkMap (context : ContextId) (map : Owned AffineMap) (operands : List ValueId) :
    Except Fault Unit :=
  if map.context ≠ context then .error .contextMismatch
  else (BoundMap.mk map.item operands).checkOperandCount

/-! ## Functions, constants and memory references -/

/-- A function with one block that takes its arguments. -/
def function (context : ContextId) (symbol : String) (argumentTypes : List Ty) : Build OpId := do
  let region ← ofAdd (·.addRegion context)
  let block ← ofAdd (·.addBlock context argumentTypes)
  appendBlock region block
  op context (.function symbol) [] [] [region]

/-- A constant. -/
def constant (context : ContextId) (value : Int) (type : Ty) : Build OpId :=
  op context (.constant value) [] [type] []

/-- An operation that makes a memory reference, with one operand for every dynamic size. -/
def sizedMemRef (context : ContextId) (kind : OpKind) (leading sizes : List ValueId)
    (type : MemRef) : Build OpId := do
  check <|
    if sizes.length = type.dynamicCount then .ok ()
    else .error (.operandCount type.dynamicCount sizes.length)
  op context kind (leading ++ sizes) [type.toTy] []

/-- Refuses a source that is no memory reference. -/
def checkDim (type : Owned Ty) : Except Fault Unit :=
  if type.item.memref?.isSome then .ok ()
  else .error (.invalidOperation (.notMemRefSource type))

/-- The size of a dimension of a memory reference. -/
def dim (context : ContextId) (source index : ValueId) : Build OpId := do
  check (checkDim ((← get).ownedType source))
  op context .dim [source, index] [.index] []

/-! ## Maps applied to operands -/

/-- Refuses a map that cannot be applied to operands, and one that has not one result. -/
def checkApply (context : ContextId) (map : Owned AffineMap) (operands : List ValueId) :
    Except Fault Unit := do
  checkMap context map operands
  if map.item.resultCount = 1 then .ok () else .error (.resultCount 1 map.item.resultCount)

/-- The value of a map with one result. -/
def apply (context : ContextId) (map : Owned AffineMap) (operands : List ValueId) :
    Build OpId := do
  check (checkApply context map operands)
  op context (.apply map.item) operands [.index] []

/-- Refuses a map that cannot be applied to operands, and one without results. -/
def checkExtremum (context : ContextId) (kind : AffineMap → OpKind) (map : Owned AffineMap)
    (operands : List ValueId) : Except Fault Unit := do
  checkMap context map operands
  if map.item.resultCount = 0 then
    .error (.invalidOperation (.mapWithoutResults (kind map.item).name))
  else .ok ()

/-- The smallest or largest result of a map with at least one result. -/
def extremum (context : ContextId) (kind : AffineMap → OpKind) (map : Owned AffineMap)
    (operands : List ValueId) : Build OpId := do
  check (checkExtremum context kind map operands)
  op context (kind map.item) operands [.index] []

/-- An access to memory at the position that a map gives.  The result, if there is one, is taken
from the type of the reference. -/
def access (context : ContextId) (kind : AffineMap → OpKind) (leading : List ValueId)
    (memref : ValueId) (map : Owned AffineMap) (indices : List ValueId)
    (resultTypes : MemRef → List Ty) : Build OpId := do
  let type := (← get).ownedType memref
  match type.item.memref? with
  | none => throw (.invalidOperation (.notMemRefOperand (kind map.item).name type))
  | some memrefType =>
      check (checkMap context map indices)
      op context (kind map.item) (leading ++ memref :: indices) (resultTypes memrefType) []

/-- The element of a reference at a position. -/
def load (context : ContextId) (memref : ValueId) (map : Owned AffineMap)
    (indices : List ValueId) : Build OpId :=
  access context .load [] memref map indices fun type => [type.element]

/-- Puts a value at a position of a reference. -/
def store (context : ContextId) (value memref : ValueId) (map : Owned AffineMap)
    (indices : List ValueId) : Build OpId :=
  access context .store [value] memref map indices fun _ => []

/-- A vector of consecutive elements of a reference. -/
def vectorLoad (context : ContextId) (type : Ty) (memref : ValueId) (map : Owned AffineMap)
    (indices : List ValueId) : Build OpId :=
  access context .vectorLoad [] memref map indices fun _ => [type]

/-- Puts a vector at consecutive positions of a reference. -/
def vectorStore (context : ContextId) (value memref : ValueId) (map : Owned AffineMap)
    (indices : List ValueId) : Build OpId :=
  access context .vectorStore [value] memref map indices fun _ => []

/-! ## Loops and conditionals -/

/-- Refuses a step that is not positive, and bounds that cannot be applied to their operands or
have no results. -/
def checkFor (context : ContextId) (lower : Owned AffineMap) (lowerOperands : List ValueId)
    (upper : Owned AffineMap) (upperOperands : List ValueId) (step : Int) :
    Except Fault Unit := do
  if step ≤ 0 then .error (.invalidStep step)
  checkMap context lower lowerOperands
  checkMap context upper upperOperands
  if lower.item.resultCount = 0 ∨ upper.item.resultCount = 0 then
    .error (.invalidOperation .boundsWithoutResults)

/-- A loop whose body only ends. -/
def forLoop (context : ContextId) (lower : Owned AffineMap) (lowerOperands : List ValueId)
    (upper : Owned AffineMap) (upperOperands : List ValueId) (step : Int) : Build OpId := do
  check (checkFor context lower lowerOperands upper upperOperands step)
  let body ← terminatedRegion context [.index]
  op context (.forLoop lower.item upper.item step) (lowerOperands ++ upperOperands) [] [body]

/-- Refuses steps that are not positive, and bounds that cannot be applied to their operands or
have not one result for every step. -/
def checkParallel (context : ContextId) (lower : Owned AffineMap) (lowerOperands : List ValueId)
    (upper : Owned AffineMap) (upperOperands : List ValueId) (steps : List Int) :
    Except Fault Unit := do
  match steps.find? (· ≤ 0) with
  | some step => .error (.invalidStep step)
  | none => .ok ()
  checkMap context lower lowerOperands
  checkMap context upper upperOperands
  if lower.item.resultCount ≠ steps.length then
    .error (.resultCount steps.length lower.item.resultCount)
  else if upper.item.resultCount ≠ steps.length then
    .error (.resultCount steps.length upper.item.resultCount)

/-- Parallel loops, one for every step, whose body only ends. -/
def parallel (context : ContextId) (lower : Owned AffineMap) (lowerOperands : List ValueId)
    (upper : Owned AffineMap) (upperOperands : List ValueId) (steps : List Int) :
    Build OpId := do
  check (checkParallel context lower lowerOperands upper upperOperands steps)
  let body ← terminatedRegion context (steps.map fun _ => .index)
  op context (.parallel lower.item upper.item steps) (lowerOperands ++ upperOperands) [] [body]

/-- A conditional whose branches only end. -/
def conditional (context : ContextId) (set : Owned IntegerSet) (operands : List ValueId)
    (withElse : Bool) : Build OpId := do
  check <|
    if set.context ≠ context then .error .contextMismatch
    else (BoundSet.mk set.item operands).checkOperandCount
  let thenRegion ← terminatedRegion context []
  let elseRegion ←
    if withElse then terminatedRegion context [] else ofAdd (·.addRegion context)
  op context (.conditional set.item) operands [] [thenRegion, elseRegion]

/-- The end of a body. -/
def yield (context : ContextId) (operands : List ValueId) : Build OpId :=
  op context .yield operands [] []

/-! ## Placing operations -/

/-- Where an operation can be placed. -/
inductive Place where
  | endOf (block : BlockId)
  | bodyOf (block : BlockId)
  | missingElse

/-- The place in an operation: the end of the body of a function, or before the end of the body
of a loop or of the then branch of a conditional. -/
def placeIn? (graph : Store) (id : OpId) : Option Place :=
  match (graph.op id).kind, (graph.op id).regions with
  | .function _, region :: _ => (graph.entryBlock? region).map .endOf
  | .forLoop _ _ _, region :: _ => (graph.entryBlock? region).map .bodyOf
  | .parallel _ _ _, region :: _ => (graph.entryBlock? region).map .bodyOf
  | .conditional _, region :: _ => (graph.entryBlock? region).map .bodyOf
  | _, _ => none

/-- The place in the else branch of a conditional. -/
def placeInElse? (graph : Store) (id : OpId) : Option Place :=
  match graph.conditional? id with
  | none => none
  | some conditional =>
      match conditional.elseBlock? graph with
      | none => some .missingElse
      | some block => some (.bodyOf block)

/-- Puts an operation at a place. -/
def placeAt (id : OpId) : Place → Build Unit
  | .endOf block => appendOp block id
  | .bodyOf block => insertBeforeTerminator block id
  | .missingElse => throw (.invalidOperation .noElseBranch)

end AffineLoops.Build
