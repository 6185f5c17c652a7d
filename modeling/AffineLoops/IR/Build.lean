import AffineLoops.Fault
import AffineLoops.IR.Basic

/-!
# Building programs

New nodes are put at the end of the store.  Links between nodes are kept at both ends: a block
knows its operations and each of them knows the block, and likewise for blocks and regions,
for regions and operations, and for the operands of operations and the uses of values.  An
operation is built detached from all blocks, with regions that belong to no operation yet.
Constructions are sequences of checks and of changes to the store itself, one link at a time, and
what a construction has changed before it is refused stays changed.
-/

namespace AffineLoops

namespace Store

/-! ## New nodes -/

/-- The number of the next operation of a context. -/
def nextOpNumber (store : Store) (context : ContextId) : Nat :=
  store.operations.countP (·.context == context)

/-- The number of the next block of a context. -/
def nextBlockNumber (store : Store) (context : ContextId) : Nat :=
  store.blocks.countP (·.context == context)

/-- The number of the next region of a context. -/
def nextRegionNumber (store : Store) (context : ContextId) : Nat :=
  store.regions.countP (·.context == context)

/-- The number of the next value of a context. -/
def nextValueNumber (store : Store) (context : ContextId) : Nat :=
  store.values.countP (·.context == context)

/-- Adds a value without uses. -/
def addValue (store : Store) (context : ContextId) (type : Ty) (owner : ValueOwner) :
    ValueId × Store :=
  (⟨store.values.size⟩,
    { store with
      values := store.values.push
        { context, number := store.nextValueNumber context, type, owner, uses := [] } })

/-- Adds values of the given types, numbered from `index` on by their owner. -/
def addValues (context : ContextId) (owner : Nat → ValueOwner) :
    Nat → List Ty → Store → List ValueId × Store
  | _, [], store => ([], store)
  | index, type :: types, store =>
      let (value, store) := store.addValue context type (owner index)
      let (values, store) := addValues context owner (index + 1) types store
      (value :: values, store)

/-- Adds a region without blocks that belongs to no operation. -/
def addRegion (store : Store) (context : ContextId) : RegionId × Store :=
  (⟨store.regions.size⟩,
    { store with
      regions := store.regions.push
        { context, number := store.nextRegionNumber context, blocks := [], parent := none } })

/-- Adds a block without operations that belongs to no region. -/
def addBlock (store : Store) (context : ContextId) (types : List Ty) : BlockId × Store :=
  let block : BlockId := ⟨store.blocks.size⟩
  let number := store.nextBlockNumber context
  let (arguments, store) := addValues context (.argument block) 0 types store
  (block,
    { store with
      blocks := store.blocks.push
        { context, number, arguments, operations := [], parent := none } })

/-- Adds an operation without results that is in no block. -/
def addOp (store : Store) (context : ContextId) (kind : OpKind) (traits : List Trait)
    (operands : List ValueId) (regions : List RegionId) : OpId × Store :=
  (⟨store.operations.size⟩,
    { store with
      operations := store.operations.push
        { context, number := store.nextOpNumber context, kind, traits, operands, results := []
          regions, parent := none } })

/-! ## Links -/

/-- Notes at a block that a region contains it. -/
def noteRegion (store : Store) (block : BlockId) (region : RegionId) : Store :=
  { store with blocks := store.blocks.modify block.index ({ · with parent := some region }) }

/-- Lists a block as the last one of a region. -/
def listBlock (store : Store) (region : RegionId) (block : BlockId) : Store :=
  { store with
    regions := store.regions.modify region.index fun node =>
      { node with blocks := node.blocks ++ [block] } }

/-- Notes at an operation that a block contains it. -/
def noteBlock (store : Store) (op : OpId) (block : BlockId) : Store :=
  { store with operations := store.operations.modify op.index ({ · with parent := some block }) }

/-- Lists an operation at a position of a block. -/
def listOp (store : Store) (block : BlockId) (position : Nat) (op : OpId) : Store :=
  { store with
    blocks := store.blocks.modify block.index fun node =>
      { node with
        operations := node.operations.take position ++ op :: node.operations.drop position } }

/-- Lists the results of an operation. -/
def listResults (store : Store) (op : OpId) (results : List ValueId) : Store :=
  { store with operations := store.operations.modify op.index ({ · with results }) }

/-- The first region that belongs to an operation already or that stands in the list twice. -/
def takenRegion? (store : Store) : List RegionId → List RegionId → Option RegionId
  | _, [] => none
  | seen, region :: rest =>
      if (store.region region).parent.isSome || seen.contains region then some region
      else takenRegion? store (region :: seen) rest

/-- Notes at every operand that the operation uses it. -/
def addUses (op : OpId) : Nat → List ValueId → Array Value → Array Value
  | _, [], values => values
  | index, operand :: rest, values =>
      addUses op (index + 1) rest <|
        values.modify operand.index fun node => { node with uses := node.uses ++ [(op, index)] }

/-- Notes at every region that it belongs to the operation. -/
def ownRegions (op : OpId) (regions : List RegionId) (nodes : Array Region) : Array Region :=
  regions.foldl (fun nodes region =>
    nodes.modify region.index ({ · with parent := some op })) nodes

/-- Notes at the operands of an operation that it uses them. -/
def noteOperands (store : Store) (op : OpId) (operands : List ValueId) : Store :=
  { store with values := addUses op 0 operands store.values }

/-- Notes at the regions of an operation that they belong to it. -/
def noteOwner (store : Store) (op : OpId) (regions : List RegionId) : Store :=
  { store with regions := ownRegions op regions store.regions }

end Store

/-- Constructions that may fail after they have changed the store: the changes stay. -/
abbrev Build := ExceptT Fault (StateM Store)

namespace Build

/-- A construction that always succeeds. -/
def ofAdd {α : Type} (add : Store → α × Store) : Build α := fun store =>
  let (a, store) := add store
  (.ok a, store)

/-- A change that always succeeds. -/
def update (change : Store → Store) : Build Unit := fun store => (.ok (), change store)

/-- Refuses the construction unless a check succeeds. -/
def check (result : Except Fault Unit) : Build Unit := fun store => (result, store)

/-- Refuses the construction if a condition holds. -/
def refuseIf (condition : Bool) (fault : Fault) : Build Unit :=
  check (if condition then .error fault else .ok ())

/-! ## Placing nodes -/

/-- Puts a block at the end of a region. -/
def appendBlock (region : RegionId) (block : BlockId) : Build Unit := do
  let store ← get
  refuseIf ((store.block block).context != (store.region region).context) .contextMismatch
  refuseIf (store.block block).parent.isSome (.invalidOperation .blockInRegion)
  update (·.noteRegion block region)
  update (·.listBlock region block)

/-- Puts an operation at a position of a block. -/
def insertOp (block : BlockId) (position : Nat) (op : OpId) : Build Unit := do
  let store ← get
  refuseIf ((store.op op).context != (store.block block).context) .contextMismatch
  refuseIf (store.op op).parent.isSome (.invalidOperation (.alreadyInBlock (store.name op)))
  let count := (store.block block).operations.length
  refuseIf (count < position) (.positionOutOfBounds .operation position count)
  update (·.noteBlock op block)
  update (·.listOp block position op)

/-- Puts an operation at the end of a block. -/
def appendOp (block : BlockId) (op : OpId) : Build Unit := do
  insertOp block ((← get).block block).operations.length op

/-- Puts an operation before the terminator of a block, or at its end if it has none. -/
def insertBeforeTerminator (block : BlockId) (op : OpId) : Build Unit := do
  let store ← get
  match store.terminator? block with
  | some _ => insertOp block ((store.block block).operations.length - 1) op
  | none => appendOp block op

/-! ## Operations -/

/-- Refuses a region that belongs to an operation already or that stands in the list twice. -/
def checkRegions (store : Store) (name : String) (regions : List RegionId) : Except Fault Unit :=
  match store.takenRegion? [] regions with
  | some region => .error (.invalidOperation (.regionAttached (store.region region).number name))
  | none => .ok ()

/-- Builds an operation that is in no block. -/
def buildOp (context : ContextId) (kind : OpKind) (traits : List Trait) (operands : List ValueId)
    (resultTypes : List (Owned Ty)) (regions : List RegionId) : Build OpId := do
  let store ← get
  refuseIf (operands.any (fun operand => (store.value operand).context != context) ||
    resultTypes.any (·.context != context) ||
    regions.any (fun region => (store.region region).context != context)) .contextMismatch
  check (checkRegions store kind.name regions)
  let op ← ofAdd (·.addOp context kind traits operands regions)
  let results ← ofAdd (Store.addValues context (.result op) 0 (resultTypes.map (·.item)))
  update (·.listResults op results)
  update (·.noteOperands op operands)
  update (·.noteOwner op regions)
  return op

/-- An operation with the traits of its kind, and with results of types of its context. -/
def op (context : ContextId) (kind : OpKind) (operands : List ValueId)
    (resultTypes : List Ty) (regions : List RegionId) : Build OpId :=
  buildOp context kind kind.traits operands (resultTypes.map (⟨context, ·⟩)) regions

/-- A region with one block that ends with a yield. -/
def terminatedRegion (context : ContextId) (argumentTypes : List Ty) : Build RegionId := do
  let region ← ofAdd (·.addRegion context)
  let block ← ofAdd (·.addBlock context argumentTypes)
  appendBlock region block
  let yieldOp ← op context .yield [] [] []
  appendOp block yieldOp
  return region

end Build

end AffineLoops
