import AffineLoops.IR.Basic

/-!
# Nesting

The operations that contain an operation, from the inside out, and what follows from them:
ancestors, the place of an operation relative to a block or a region, and walks through all
operations below one.

It is assumed that no operation is nested in itself.  Then a chain of containing operations is
never longer than the store, and that length bounds every ascent and descent.  The construction of
programs does not check this: an operation can be put into a block of its own region.  In such a
program an ascent without a bound may never end, while those defined here are cut off, so results
which say that a search comes to an end take the assumption as a hypothesis.
-/

namespace AffineLoops

/-- The elements reached from the first one by repeated steps, at most `bound` of them. -/
def chain {α : Type} (next? : α → Option α) : Nat → α → List α
  | 0, _ => []
  | bound + 1, a =>
      a :: match next? a with
        | none => []
        | some b => chain next? bound b

namespace Store

variable (store : Store)

/-! ## Ascent -/

/-- An operation and those that contain it, from the inside out. -/
def ancestors (id : OpId) : List OpId :=
  chain store.opParent? (store.operations.size + 1) id

/-- A region and those that contain it, from the inside out. -/
def regionAncestors (id : RegionId) : List RegionId :=
  chain store.regionParent? (store.regions.size + 1) id

/-- Whether `outer` is `inner` or contains it at any depth. -/
def isAncestor (outer inner : OpId) : Bool := (store.ancestors inner).contains outer

/-- Whether `outer` contains `inner` at any depth. -/
def isProperAncestor (outer inner : OpId) : Bool :=
  match store.opParent? inner with
  | none => false
  | some parent => store.isAncestor outer parent

/-- Whether `outer` is `inner` or contains it at any depth. -/
def isRegionAncestor (outer inner : RegionId) : Bool :=
  (store.regionAncestors inner).contains outer

/-- Whether a region contains an operation at any depth. -/
def regionContains (region : RegionId) (id : OpId) : Bool :=
  match store.opRegion? id with
  | none => false
  | some inner => store.isRegionAncestor region inner

/-- The operation in a block that is or contains the given one. -/
def ancestorInBlock? (block : BlockId) (id : OpId) : Option OpId :=
  (store.ancestors id).find? fun ancestor => (store.op ancestor).parent == some block

/-- The operation directly in a region that is or contains the given one. -/
def ancestorInRegion? (region : RegionId) (id : OpId) : Option OpId :=
  (store.ancestors id).find? fun ancestor => store.opRegion? ancestor == some region

/-- Whether two operations stand in one block, the first before the second. -/
def isBefore (first second : OpId) : Bool :=
  match (store.op first).parent, (store.op second).parent with
  | some block, some block' =>
      block == block' &&
        match store.position? block first, store.position? block second with
        | some position, some position' => position < position'
        | _, _ => false
  | _, _ => false

/-! ## Walks -/

/-- The operations in the blocks of the regions of an operation, in order. -/
def children (id : OpId) : List OpId :=
  (store.op id).regions.flatMap fun region =>
    (store.region region).blocks.flatMap fun block => (store.block block).operations

end Store

/-- Whether operations are visited before or after those below them. -/
inductive WalkOrder where
  | pre
  | post
  deriving DecidableEq

/-- How a walk goes on after a visit. -/
inductive WalkStep where
  | advance
  | interrupt
  | skip
  deriving DecidableEq

/-- The operations that a walk has visited so far, and whether it was not interrupted. -/
structure WalkTrace where
  visited : List OpId
  completed : Bool
  deriving DecidableEq

namespace WalkTrace

/-- The walk that has visited nothing. -/
def start : WalkTrace := ⟨[], true⟩

/-- One more visit. -/
def visit (trace : WalkTrace) (id : OpId) : WalkTrace :=
  { trace with visited := trace.visited ++ [id] }

/-- The walk is over. -/
def interrupt (trace : WalkTrace) : WalkTrace := { trace with completed := false }

/-- Continues a walk that was not interrupted. -/
def next (trace : WalkTrace) (step : WalkTrace → WalkTrace) : WalkTrace :=
  if trace.completed then step trace else trace

end WalkTrace

namespace Store

variable (store : Store)

/-- Continues a walk with an operation and those below it, down to the given depth.  Skipping
what is below an operation is possible only before it is visited. -/
def walkFrom (order : WalkOrder) (step : OpId → WalkStep) :
    Nat → OpId → WalkTrace → WalkTrace
  | 0, _, trace => trace
  | depth + 1, id, trace =>
      let below := fun trace => (store.children id).foldl
        (fun trace child => trace.next (walkFrom order step depth child)) trace
      match order with
      | .pre =>
          match step id with
          | .advance => below (trace.visit id)
          | .interrupt => (trace.visit id).interrupt
          | .skip => trace.visit id
      | .post =>
          (below trace).next fun trace =>
            if step id = .interrupt then (trace.visit id).interrupt else trace.visit id

/-- Walks through an operation and all operations below it. -/
def walk (order : WalkOrder) (step : OpId → WalkStep) (id : OpId) : WalkTrace :=
  store.walkFrom order step (store.operations.size + 1) id .start

end Store

end AffineLoops
