import AffineLoops.BoundMap.Basic
import AffineLoops.Identifier.Scope

/-!
# Valid dimensions and symbols

A map may be applied to a value only if the value is a valid dimension or a valid symbol in the
scope of the application.  Symbols do not change in the scope; dimensions are symbols, induction
variables and what is computed from them by affine maps.  The value of an apply operation is
judged by its operands, which are older than the operation, so a judgement about a value takes
no more steps than there are operations up to the one that defines it.
-/

namespace AffineLoops.Store

variable (store : Store)

/-- The number of operations that were there when a value was made, its own included. -/
def age (value : ValueId) : Nat :=
  match store.definingOp? value with
  | none => 0
  | some op => op.index + 1

/-- Whether the innermost region of a chain has a value at its top level. -/
def isTopLevelOfFirst (value : ValueId) (regions : List RegionId) : Bool :=
  match regions with
  | [] => false
  | region :: _ => store.isTopLevel value region

/-- Whether the size that a `memref.dim` operation gives is fixed: the reference is at the top
level of a scope, or the size is static, or it is dynamic and the value that holds it is
accepted. -/
def isFixedSize (accept : ValueId → Bool) (op : OpId) : Bool :=
  match store.dimSource? op with
  | none => false
  | some source =>
      store.isTopLevelOfScope source ||
        match (store.definingOp? source).bind store.sizedMemRef?, store.dimIndex? op with
        | some (type, sizes), some index =>
            index < type.rank &&
              match type.dynamicIndex? index with
              | none => true
              | some position =>
                  match sizes[position]? with
                  | none => false
                  | some size => accept size
        | _, _ => false

/-- Whether a value is a symbol in a chain of regions, judged in at most the given number of
steps. -/
def isSymbolWithin (regions : List RegionId) : Nat → ValueId → Bool
  | 0, value => (store.typeOf value).isIndex && regions.any (store.isTopLevel value)
  | steps + 1, value =>
      (store.typeOf value).isIndex &&
        match store.definingOp? value with
        | none => regions.any (store.isTopLevel value)
        | some op =>
            match (store.op op).kind with
            | .constant _ => true
            | .apply _ =>
                store.isTopLevelOfFirst value regions ||
                  (store.op op).operands.all (isSymbolWithin regions steps)
            | .dim =>
                store.isTopLevelOfFirst value regions ||
                  store.isFixedSize (isSymbolWithin regions steps) op
            | _ => regions.any (store.isTopLevel value)

/-- Whether a value is a valid symbol in a scope. -/
def isSymbol (value : ValueId) (scope : Option RegionId) : Bool :=
  store.isSymbolWithin (store.scopeChain scope) (store.age value) value

/-- Whether a value is an argument of a block that an operation of a certain kind contains. -/
def isArgumentOf (test : OpId → Bool) (value : ValueId) : Bool :=
  match (store.value value).owner with
  | .result _ _ => false
  | .argument block _ =>
      match store.blockParent? block with
      | none => false
      | some op => test op

/-- Whether a value is an induction variable. -/
def isInductionVariable (value : ValueId) : Bool :=
  store.isArgumentOf (fun op => (store.op op).kind.isLoop) value

/-- Whether a value is a dimension in a scope, judged in at most the given number of steps. -/
def isDimWithin (scope : Option RegionId) : Nat → ValueId → Bool
  | 0, value =>
      (store.typeOf value).isIndex &&
        (store.isSymbol value scope || store.isInductionVariable value)
  | steps + 1, value =>
      (store.typeOf value).isIndex &&
        (store.isSymbol value scope ||
          match store.definingOp? value with
          | none => store.isInductionVariable value
          | some op =>
              match (store.op op).kind with
              | .apply map =>
                  ((store.op op).operands.take map.dims).all (isDimWithin scope steps) &&
                    ((store.op op).operands.drop map.dims).all (store.isSymbol · scope)
              | .dim =>
                  match store.dimSource? op with
                  | none => false
                  | some source => store.isTopLevelOfScope source
              | _ => false)

/-- Whether a value is a valid dimension in a scope. -/
def isDim (value : ValueId) (scope : Option RegionId) : Bool :=
  store.isDimWithin scope (store.age value) value

/-- Whether the result of an apply operation is a dimension by its operands. -/
def appliesToDims (bound : BoundMap) (scope : Option RegionId) : Bool :=
  bound.dimOperands.all (store.isDim · scope) && bound.symOperands.all (store.isSymbol · scope)

/-- Whether the result of an apply operation is a symbol by its operands. -/
def appliesToSymbols (bound : BoundMap) (scope : Option RegionId) : Bool :=
  bound.operands.all (store.isSymbol · scope)

/-- Whether a value is a valid dimension in the scope in which it is defined. -/
def isDimInOwnScope (value : ValueId) : Bool :=
  (store.typeOf value).isIndex &&
    match store.definingOp? value with
    | some op => store.isDim value (store.scope? op)
    | none =>
        store.isArgumentOf
          (fun op => store.hasTrait op .affineScope || (store.op op).kind.isLoop) value

/-- Whether a value is a valid symbol in the scope in which it is defined. -/
def isSymbolInOwnScope (value : ValueId) : Bool :=
  (store.typeOf value).isIndex &&
    (store.isTopLevelOfScope value ||
      match store.definingOp? value with
      | some op => store.isSymbol value (store.scope? op)
      | none => false)

/-- Whether a value can index an access to memory in a scope. -/
def isIndexOperand (value : ValueId) (scope : Option RegionId) : Bool :=
  store.isDim value scope || store.isSymbol value scope

end AffineLoops.Store
