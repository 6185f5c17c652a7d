import AffineLoops.IR.Basic

/-!
# Maps with operands

A bound map is an affine map together with the values that stand for its inputs: first the
dimensions, then the symbols.  Operations that apply a map to some of their operands are read
as bound maps here, as are accesses to memory and operations that make memory references.
-/

namespace AffineLoops

/-- A map and the values bound to its dimensions and symbols, in this order. -/
structure BoundMap where
  map : AffineMap
  operands : List ValueId
  deriving DecidableEq

namespace BoundMap

instance : Inhabited BoundMap := ⟨⟨default, []⟩⟩

/-- The values bound to the dimensions. -/
def dimOperands (bound : BoundMap) : List ValueId := bound.operands.take bound.map.dims

/-- The values bound to the symbols. -/
def symOperands (bound : BoundMap) : List ValueId := bound.operands.drop bound.map.dims

/-- Whether an expression over the inputs of the map mentions the input at a place of the
operand list. -/
def mentions (bound : BoundMap) (place : Nat) (e : Expr) : Bool :=
  if place < bound.map.dims then e.usesDim place else e.usesSym (place - bound.map.dims)

/-- Whether a result mentions the first input that is bound to a value.  Values that are not
operands and results that do not exist give `false`. -/
def usesValue (bound : BoundMap) (index : Nat) (value : ValueId) : Bool :=
  match bound.operands.idxOf? value, bound.map.results[index]? with
  | some place, some result => bound.mentions place result
  | _, _ => false

end BoundMap

/-- An access to memory: the accessed reference, its type, and the map to the accessed
position. -/
structure Access where
  op : OpId
  memref : ValueId
  type : MemRef
  position : BoundMap

namespace Store

variable (store : Store)

/-- The map that an operation applies and the operands to which it applies it. -/
def boundMap? (id : OpId) : Option BoundMap :=
  match (store.op id).kind.map? with
  | none => none
  | some (map, offset) => some ⟨map, (store.op id).operands.drop offset⟩

/-- The apply operation that produces a value. -/
def definingApply? (value : ValueId) : Option OpId :=
  match store.definingOp? value with
  | none => none
  | some op =>
      match (store.op op).kind with
      | .apply _ => some op
      | _ => none

/-- The bound map whose result a value is. -/
def appliedMap? (value : ValueId) : Option BoundMap :=
  match store.definingApply? value with
  | none => none
  | some op => store.boundMap? op

/-- The constants that values hold. -/
def constantsOf (values : List ValueId) : List (Option Int) := values.map store.constantOf?

/-- The access to memory that an operation makes. -/
def access? (id : OpId) : Option Access :=
  match (store.op id).kind.memrefPlace?, store.boundMap? id with
  | some place, some position =>
      match (store.op id).operands[place]? with
      | none => none
      | some memref =>
          match (store.typeOf memref).memref? with
          | none => none
          | some type => some ⟨id, memref, type, position⟩
  | _, _ => none

/-- The type of the memory reference that an operation makes, and the operands that hold its
dynamic sizes. -/
def sizedMemRef? (id : OpId) : Option (MemRef × List ValueId) :=
  match (store.op id).kind.sizesPlace?, (store.op id).results with
  | some place, result :: _ =>
      match (store.typeOf result).memref? with
      | none => none
      | some type => some (type, (store.op id).operands.drop place)
  | _, _ => none

/-- The operand that holds the size of a dimension, if that size is dynamic. -/
def dynamicSize? (id : OpId) (index : Nat) : Option ValueId :=
  match store.sizedMemRef? id with
  | none => none
  | some (type, sizes) =>
      match type.dynamicIndex? index with
      | none => none
      | some position => sizes[position]?

/-- The memory reference whose size a `memref.dim` operation gives. -/
def dimSource? (id : OpId) : Option ValueId := (store.op id).operands[0]?

/-- The dimension whose size a `memref.dim` operation gives, if it is a constant that is not
negative. -/
def dimIndex? (id : OpId) : Option Nat :=
  match (store.op id).operands[1]? with
  | none => none
  | some index =>
      match store.constantOf? index with
      | none => none
      | some value => if value < 0 then none else some value.toNat

end Store

end AffineLoops
