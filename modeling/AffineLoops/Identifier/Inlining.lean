import AffineLoops.Identifier.Validity

/-!
# Validity after inlining

What would become of dimensions and symbols if the body of one region were put into another,
with values in the place of its block arguments.  Only values at the top level of the source
are affected: arguments are judged by what replaces them, and results remain valid if they are
constants or sizes.
-/

namespace AffineLoops.Store

variable (store : Store)

/-- Whether a value remains valid, where `check` judges the values that replace arguments in
the destination.  Of two replacements for one argument the later one counts. -/
def remainsValid (source destination : RegionId) (mapping : List (ValueId × ValueId))
    (check : ValueId → Option RegionId → Bool) (value : ValueId) : Bool :=
  if store.isTopLevel value source then
    match store.definingOp? value with
    | none =>
        match mapping.reverse.lookup value with
        | none => false
        | some replacement => check replacement (some destination)
    | some op =>
        match (store.op op).kind with
        | .constant _ => true
        | .dim => true
        | _ => false
  else true

/-- Whether an operation remains valid.  The operands of an apply operation are judged as
dimensions if its result is a dimension in the source, and as symbols otherwise; those of an
access to memory are judged by their place in its map. -/
def opRemainsValid (source destination : RegionId) (mapping : List (ValueId × ValueId))
    (id : OpId) : Bool :=
  let remains := store.remainsValid source destination mapping
  match (store.op id).kind, store.boundMap? id with
  | .apply _, some bound =>
      let isDimension := match (store.op id).results with
        | result :: _ => store.isDim result (some source)
        | [] => false
      bound.operands.all (remains (if isDimension then store.isDim else store.isSymbol))
  | .min _, _ => true
  | .max _, _ => true
  | _, some bound =>
      bound.dimOperands.all (remains store.isDim) && bound.symOperands.all (remains store.isSymbol)
  | _, none => true

end AffineLoops.Store
