import AffineLoops.BoundMap.Composition

/-!
# Value maps and their differences

A value map is a bound map of a context, possibly with the values that hold its results.  The
difference of two value maps subtracts their results one by one, over the operands of both;
operands that they share are merged, so that common terms cancel.
-/

namespace AffineLoops

/-- A bound map of a context, with the values that hold its results where there are such. -/
structure ValueMap where
  context : ContextId
  bound : BoundMap
  results : List ValueId
  deriving DecidableEq

namespace BoundMap

/-- The dimensions of a second map, placed after those of a first one. -/
def laterDims (lhs rhs : BoundMap) : List Expr :=
  (List.range rhs.map.dims).map fun position => .dim (lhs.map.dims + position)

/-- The symbols of a second map, placed after those of a first one. -/
def laterSyms (lhs rhs : BoundMap) : List Expr :=
  (List.range rhs.map.syms).map fun position => .sym (lhs.map.syms + position)

/-- The difference of the results of two bound maps over all operands of both.  The inputs of the
second map come after those of the first, dimensions and symbols separately. -/
def subtract (lhs rhs : BoundMap) : Except Fault BoundMap :=
  let results := lhs.map.results.zipWith
    (fun a b => Expr.sub a (b.substitute (lhs.laterDims rhs) (lhs.laterSyms rhs)))
    rhs.map.results
  (AffineMap.ofResults (lhs.map.dims + rhs.map.dims) (lhs.map.syms + rhs.map.syms) results).map
    (⟨·, lhs.dimOperands ++ rhs.dimOperands ++ lhs.symOperands ++ rhs.symOperands⟩)

/-- The simplified difference of two bound maps without operands that are results of apply
operations. -/
def difference (store : Store) (limit : Nat) (lhs rhs : BoundMap) : Except Fault BoundMap :=
  match lhs.fullyCompose store limit with
  | .error fault => .error fault
  | .ok lhs =>
      match rhs.fullyCompose store limit with
      | .error fault => .error fault
      | .ok rhs => (lhs.subtract rhs).map (·.canonicalSimplified store)

end BoundMap

namespace ValueMap

/-- A value map without results.  There must be one operand for every input, and all of them
must belong to the context of the map. -/
def ofMap (store : Store) (map : Owned AffineMap) (operands : List ValueId) :
    Except Fault ValueMap :=
  match (BoundMap.mk map.item operands).checkOperandCount with
  | .error fault => .error fault
  | .ok () =>
      if operands.all fun operand => (store.value operand).context == map.context then
        .ok ⟨map.context, ⟨map.item, operands⟩, []⟩
      else .error .contextMismatch

/-- The difference of two value maps with equally many results of one context. -/
def difference (store : Store) (limit : Nat) (lhs rhs : ValueMap) : Except Fault ValueMap :=
  if lhs.bound.map.resultCount ≠ rhs.bound.map.resultCount then
    .error (.resultCount lhs.bound.map.resultCount rhs.bound.map.resultCount)
  else if lhs.context ≠ rhs.context then .error .contextMismatch
  else (lhs.bound.difference store limit rhs.bound).map (⟨lhs.context, ·, []⟩)

/-- The composed and canonical form of a value map, if it differs from the map.  The values
that hold the results stay. -/
def canonicalize (store : Store) (limit : Nat) (valueMap : ValueMap) :
    Except Fault (Option ValueMap) :=
  (valueMap.bound.compose store limit).map fun bound =>
    if bound = valueMap.bound then none else some { valueMap with bound }

end ValueMap

end AffineLoops
