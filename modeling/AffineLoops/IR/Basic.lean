import AffineLoops.IntegerSet
import AffineLoops.Owned
import AffineLoops.Ty

/-!
# The program graph

A program consists of operations, blocks, regions and values.  An operation consumes values,
produces values and owns regions; a region is a list of blocks; a block is a list of
operations with arguments.  All of them live in one store and are addressed by their place in
it.  Every node belongs to a context and has a number there, counted from zero separately for
each kind of node.
-/

namespace AffineLoops

/-- The place of an operation in the store. -/
structure OpId where
  index : Nat
  deriving DecidableEq

/-- The place of a block in the store. -/
structure BlockId where
  index : Nat
  deriving DecidableEq

/-- The place of a region in the store. -/
structure RegionId where
  index : Nat
  deriving DecidableEq

/-- The place of a value in the store. -/
structure ValueId where
  index : Nat
  deriving DecidableEq

/-- What an operation is known to be, beyond its operands, results and regions. -/
inductive Trait where
  /-- Its regions begin a new scope of dimensions and symbols. -/
  | affineScope
  /-- Its regions cannot use values from outside. -/
  | isolatedFromAbove
  /-- It ends its block. -/
  | terminator
  deriving DecidableEq

/-- What an operation does. -/
inductive OpKind where
  | generic (name : String)
  | function (symbol : String)
  | constant (value : Int)
  | alloc
  | view
  | subview
  | dim
  | apply (map : AffineMap)
  | forLoop (lower upper : AffineMap) (step : Int)
  | parallel (lower upper : AffineMap) (steps : List Int)
  | conditional (set : IntegerSet)
  | load (map : AffineMap)
  | store (map : AffineMap)
  | vectorLoad (map : AffineMap)
  | vectorStore (map : AffineMap)
  | min (map : AffineMap)
  | max (map : AffineMap)
  | yield
  deriving DecidableEq

/-- An operation: operands and results in order, and the block that contains it. -/
structure Operation where
  context : ContextId
  number : Nat
  kind : OpKind
  traits : List Trait
  operands : List ValueId
  results : List ValueId
  regions : List RegionId
  parent : Option BlockId
  deriving DecidableEq

/-- A block: arguments and operations in order, and the region that contains it. -/
structure Block where
  context : ContextId
  number : Nat
  arguments : List ValueId
  operations : List OpId
  parent : Option RegionId
  deriving DecidableEq

/-- A region: blocks in order, the entry block first, and the operation that owns it. -/
structure Region where
  context : ContextId
  number : Nat
  blocks : List BlockId
  parent : Option OpId
  deriving DecidableEq

/-- Where a value comes from. -/
inductive ValueOwner where
  | argument (block : BlockId) (index : Nat)
  | result (op : OpId) (index : Nat)
  deriving DecidableEq

/-- A value: its type, where it comes from, and the operand places that use it. -/
structure Value where
  context : ContextId
  number : Nat
  type : Ty
  owner : ValueOwner
  uses : List (OpId × Nat)
  deriving DecidableEq

instance : Inhabited OpKind := ⟨.yield⟩

instance : Inhabited Operation := ⟨⟨0, 0, default, [], [], [], [], none⟩⟩

instance : Inhabited Block := ⟨⟨0, 0, [], [], none⟩⟩

instance : Inhabited Region := ⟨⟨0, 0, [], none⟩⟩

instance : Inhabited Value := ⟨⟨0, 0, .index, .argument ⟨0⟩ 0, []⟩⟩

/-- All nodes, in the order in which they were made. -/
structure Store where
  operations : Array Operation
  blocks : Array Block
  regions : Array Region
  values : Array Value
  deriving DecidableEq

namespace OpKind

/-- The name of an operation. -/
def name : OpKind → String
  | generic name => name
  | function _ => "func.func"
  | constant _ => "arith.constant"
  | alloc => "memref.alloc"
  | view => "memref.view"
  | subview => "memref.subview"
  | dim => "memref.dim"
  | apply _ => "affine.apply"
  | forLoop _ _ _ => "affine.for"
  | parallel _ _ _ => "affine.parallel"
  | conditional _ => "affine.if"
  | load _ => "affine.load"
  | store _ => "affine.store"
  | vectorLoad _ => "affine.vector_load"
  | vectorStore _ => "affine.vector_store"
  | min _ => "affine.min"
  | max _ => "affine.max"
  | yield => "affine.yield"

/-- The traits that come with what an operation does. -/
def traits : OpKind → List Trait
  | function _ => [.affineScope, .isolatedFromAbove]
  | yield => [.terminator]
  | _ => []

/-- Whether the arguments of the body are induction variables. -/
def isLoop : OpKind → Bool
  | forLoop _ _ _ => true
  | parallel _ _ _ => true
  | _ => false

/-- Whether an operation is a loop with a single induction variable. -/
def isForLoop : OpKind → Bool
  | forLoop _ _ _ => true
  | _ => false

/-- The map that an operation applies to its last operands, and the number of operands before
these. -/
def map? : OpKind → Option (AffineMap × Nat)
  | apply map => some (map, 0)
  | min map => some (map, 0)
  | max map => some (map, 0)
  | load map => some (map, 1)
  | vectorLoad map => some (map, 1)
  | store map => some (map, 2)
  | vectorStore map => some (map, 2)
  | _ => none

/-- For an access to memory, the place of the accessed reference among the operands. -/
def memrefPlace? : OpKind → Option Nat
  | load _ => some 0
  | vectorLoad _ => some 0
  | store _ => some 1
  | vectorStore _ => some 1
  | _ => none

/-- For an operation that makes a memory reference, the number of operands before the dynamic
sizes. -/
def sizesPlace? : OpKind → Option Nat
  | alloc => some 0
  | view => some 2
  | subview => some 1
  | _ => none

end OpKind

namespace Store

/-- The store without nodes. -/
def empty : Store := ⟨#[], #[], #[], #[]⟩

variable (store : Store)

/-! ## Nodes -/

/-- The operation at a place. -/
def op (id : OpId) : Operation := store.operations.getD id.index default

/-- The block at a place. -/
def block (id : BlockId) : Block := store.blocks.getD id.index default

/-- The region at a place. -/
def region (id : RegionId) : Region := store.regions.getD id.index default

/-- The value at a place. -/
def value (id : ValueId) : Value := store.values.getD id.index default

/-- The store with maps and types in the place of numbers in types of a context, for which there
are some. -/
def resolveTypes (context : ContextId) (lookup : Lookup) : Store :=
  { store with
    values := store.values.map fun value =>
      if value.context = context then { value with type := value.type.resolve lookup } else value }

/-! ## Operations -/

/-- The name of an operation. -/
def name (id : OpId) : String := (store.op id).kind.name

/-- Whether an operation has a trait. -/
def hasTrait (id : OpId) (trait : Trait) : Bool := (store.op id).traits.contains trait

/-- The region that contains an operation. -/
def opRegion? (id : OpId) : Option RegionId :=
  match (store.op id).parent with
  | none => none
  | some block => (store.block block).parent

/-- The operation that contains an operation. -/
def opParent? (id : OpId) : Option OpId :=
  match store.opRegion? id with
  | none => none
  | some region => (store.region region).parent

/-! ## Blocks and regions -/

/-- The last operation of a block, if it ends blocks. -/
def terminator? (id : BlockId) : Option OpId :=
  match (store.block id).operations.getLast? with
  | none => none
  | some last => if store.hasTrait last .terminator then some last else none

/-- The operation that contains a block. -/
def blockParent? (id : BlockId) : Option OpId :=
  match (store.block id).parent with
  | none => none
  | some region => (store.region region).parent

/-- The first block of a region. -/
def entryBlock? (id : RegionId) : Option BlockId := (store.region id).blocks.head?

/-- The region that contains the operation that owns a region. -/
def regionParent? (id : RegionId) : Option RegionId :=
  match (store.region id).parent with
  | none => none
  | some op => store.opRegion? op

/-- The position in a block of the operation that has the same number as the given one. -/
def position? (block : BlockId) (id : OpId) : Option Nat :=
  (store.block block).operations.findIdx? fun other =>
    (store.op other).number == (store.op id).number

/-! ## Values -/

/-- The type of a value. -/
def typeOf (id : ValueId) : Ty := (store.value id).type

/-- The type of a value, as a type of its context. -/
def ownedType (id : ValueId) : Owned Ty := ⟨(store.value id).context, store.typeOf id⟩

/-- The operation that produces a value. -/
def definingOp? (id : ValueId) : Option OpId :=
  match (store.value id).owner with
  | .argument _ _ => none
  | .result op _ => some op

/-- The block in which a value is defined. -/
def valueBlock? (id : ValueId) : Option BlockId :=
  match (store.value id).owner with
  | .argument block _ => some block
  | .result op _ => (store.op op).parent

/-- The region in which a value is defined. -/
def valueRegion? (id : ValueId) : Option RegionId :=
  match store.valueBlock? id with
  | none => none
  | some block => (store.block block).parent

/-- The operations that use a value, once for every operand. -/
def users (id : ValueId) : List OpId := (store.value id).uses.map (·.1)

/-- The constant that a value holds. -/
def constantOf? (id : ValueId) : Option Int :=
  match store.definingOp? id with
  | none => none
  | some op =>
      match (store.op op).kind with
      | .constant value => some value
      | _ => none

end Store

end AffineLoops
