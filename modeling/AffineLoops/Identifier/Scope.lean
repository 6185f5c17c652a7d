import AffineLoops.IR.Nesting

/-!
# Scopes

The scope of an operation is the innermost region around it that belongs to an operation with
its own scope of dimensions and symbols.  Values at the top level of a scope do not change while
the scope is executed, and neither do values at the top level of the regions around it, as long
as no operation that is isolated from above lies in between.
-/

namespace AffineLoops.Store

variable (store : Store)

/-- Whether a value is an argument of the entry block of a region, or a result of an operation
directly in that region. -/
def isTopLevel (value : ValueId) (region : RegionId) : Bool :=
  match (store.value value).owner with
  | .argument block _ => store.entryBlock? region == some block
  | .result op _ => store.opRegion? op == some region

/-- The operation whose region a value is defined in. -/
def valueParent? (value : ValueId) : Option OpId :=
  match (store.value value).owner with
  | .argument block _ => store.blockParent? block
  | .result op _ => store.opParent? op

/-- Whether a value is defined directly in a region of an operation with its own scope. -/
def isTopLevelOfScope (value : ValueId) : Bool :=
  match store.valueParent? value with
  | none => false
  | some op => store.hasTrait op .affineScope

/-- The innermost region around an operation that belongs to an operation with its own
scope. -/
def scope? (id : OpId) : Option RegionId :=
  let inScope := (store.ancestors id).find? fun ancestor =>
    match store.opParent? ancestor with
    | none => false
    | some parent => store.hasTrait parent .affineScope
  match inScope with
  | none => none
  | some ancestor => store.opRegion? ancestor

/-- The region around the operation that owns a region, unless that operation is isolated from
above. -/
def enclosingRegion? (region : RegionId) : Option RegionId :=
  match (store.region region).parent with
  | none => none
  | some op => if store.hasTrait op .isolatedFromAbove then none else store.opRegion? op

/-- A scope and the regions around it whose values can be used in it, from the inside out. -/
def scopeChain (scope : Option RegionId) : List RegionId :=
  match scope with
  | none => []
  | some region => chain store.enclosingRegion? (store.regions.size + 1) region

end AffineLoops.Store
