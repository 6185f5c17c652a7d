import AffineLoops.Diagnostics
import AffineLoops.IR.Printer

/-!
# Descriptions

A description says of what kind a thing is before its text, which stands in brackets.  An object
is described as a member of its general kind, or more narrowly of its own.
-/

namespace AffineLoops

/-- A text with the kind of thing it shows. -/
def describe (kind text : String) : String := kind ++ "[" ++ text ++ "]"

namespace Expr

/-- The kind of an expression. -/
def kindName : Expr → String
  | dim _ => "Dimension"
  | sym _ => "Symbol"
  | const _ => "Constant"
  | binary .add _ _ => "Add"
  | binary .mul _ _ => "Mul"
  | binary .mod _ _ => "Mod"
  | binary .floorDiv _ _ => "FloorDiv"
  | binary .ceilDiv _ _ => "CeilDiv"

/-- An expression as such. -/
def described (e : Expr) : String := describe "AffineExpressionRef" e.render

/-- An expression of its own kind. -/
def describedByKind (e : Expr) : String :=
  describe (e.kindName ++ "AffineExpressionRef") e.render

end Expr

/-- A map. -/
def AffineMap.described (map : AffineMap) : String := describe "AffineMap" map.render

/-- A set. -/
def IntegerSet.described (set : IntegerSet) : String := describe "IntegerSet" set.render

/-- A type of its own kind. -/
def Ty.described (type : Ty) : String :=
  let kind := match type with
    | index => "IndexTypeRef"
    | integer _ => "IntegerTypeRef"
    | float _ => "FloatTypeRef"
    | memref _ _ _ => "MemRefTypeRef"
    | vector _ _ => "VectorTypeRef"
    | numbered _ => "TypeRef"
  describe kind type.render

/-- The word for a trait. -/
def Trait.word : Trait → String
  | affineScope => "AffineScope"
  | isolatedFromAbove => "IsolatedFromAbove"
  | terminator => "Terminator"

namespace OpKind

/-- The word for a kind of operation. -/
def word : OpKind → String
  | generic _ => "Generic"
  | function _ => "Function"
  | constant _ => "Constant"
  | alloc => "Alloc"
  | view => "View"
  | subview => "SubView"
  | dim => "Dim"
  | apply _ => "AffineApply"
  | forLoop _ _ _ => "AffineFor"
  | parallel _ _ _ => "AffineParallel"
  | conditional _ => "AffineIf"
  | load _ => "AffineLoad"
  | store _ => "AffineStore"
  | vectorLoad _ => "AffineVectorLoad"
  | vectorStore _ => "AffineVectorStore"
  | min _ => "AffineMin"
  | max _ => "AffineMax"
  | yield => "AffineYield"

/-- The name that all operations of a kind have. -/
def commonName? : OpKind → Option String
  | generic _ => none
  | kind => some kind.name

/-- An operation of its own kind. -/
def described (kind : OpKind) : String :=
  let word := match kind with
    | function _ => "Func"
    | _ => kind.word
  describe (word ++ "OperationRef") kind.name

end OpKind

namespace Store

variable (store : Store)

/-- An operation as such. -/
def describedOp (id : OpId) : String := describe "OperationRef" (store.name id)

/-- A value as such. -/
def describedValue (id : ValueId) : String := describe "ValueRef" (store.renderValue id)

/-- A value as an argument or a result. -/
def describedOwned (id : ValueId) : String :=
  let kind := match (store.value id).owner with
    | .argument _ _ => "BlockArgumentRef"
    | .result _ _ => "OperationResultRef"
  describe kind (store.renderValue id)

/-- The use of a value. -/
def describedUse (use : OpId × Nat) : String := describe "OperandRef" (store.renderUse use)

/-- A block. -/
def describedBlock (id : BlockId) : String := describe "BlockRef" (store.renderBlock id)

/-- A region. -/
def describedRegion (id : RegionId) : String := describe "RegionRef" (store.renderRegion id)

end Store

/-- A diagnostic. -/
def Diagnostic.described (store : Store) (diagnostic : Diagnostic) : String :=
  describe "Diagnostic" (diagnostic.render store)

/-- The word for the outcome of a verification. -/
def outcomeWord (success : Bool) : String := if success then "success" else "failure"

/-- The outcome of a verification. -/
def describedOutcome (success : Bool) : String := describe "LogicalResult" (outcomeWord success)

end AffineLoops
