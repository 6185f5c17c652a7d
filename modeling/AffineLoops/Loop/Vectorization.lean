import AffineLoops.Loop.Contiguity

/-!
# Vectorizable loops

The body of a loop can be vectorized if it holds no conditionals, no operations with regions
other than loops, and no transfers of vectors, and if all its loads and stores of scalars are
contiguous along the induction variable and agree on the dimension that varies.
-/

namespace AffineLoops

/-- The verdict on the body of a loop, and the accesses that were shown to the predicate. -/
structure VectorizationVerdict where
  contiguity : Except ContiguityObstacle Contiguity
  asked : List OpId

namespace Store

variable (store : Store)

/-- Whether an operation keeps the body around it from being vectorized. -/
def preventsVectorization (id : OpId) : Bool :=
  match (store.op id).kind with
  | .conditional _ => true
  | .vectorLoad _ => true
  | .vectorStore _ => true
  | .load _ => false
  | .store _ => false
  | .forLoop _ _ _ => false
  | _ => !(store.op id).regions.isEmpty

/-- Whether an operation loads or stores a scalar. -/
def isScalarTransfer (id : OpId) : Bool :=
  match (store.op id).kind with
  | .load _ => true
  | .store _ => true
  | _ => false

/-- The loads and stores in the body of a loop, if nothing in it keeps it from being
vectorized. -/
def scalarTransfers? (loop : OpId) : Option (List OpId) :=
  let trace := store.walk .pre
    (fun id => if id != loop && store.preventsVectorization id then .interrupt else .advance) loop
  if trace.completed then some (trace.visited.filter store.isScalarTransfer) else none

/-- The contiguity of a load or store of scalars along an induction variable. -/
def scalarContiguity (limit : Nat) (inductionVariable : ValueId) (id : OpId) :
    Except ContiguityObstacle Contiguity :=
  match store.access? id with
  | none => .error .notContiguous
  | some access =>
      if access.type.element.isVector then .error .notContiguous
      else store.contiguity limit access inductionVariable

/-- Goes through the accesses of a body: each must agree with those before it, and must then be
accepted by the predicate. -/
def agree (limit : Nat) (inductionVariable : ValueId) (accept : OpId → Bool) :
    List OpId → Contiguity → List OpId → VectorizationVerdict
  | [], contiguity, asked => ⟨.ok contiguity, asked⟩
  | id :: rest, contiguity, asked =>
      match contiguity.merge (store.scalarContiguity limit inductionVariable id) with
      | .error obstacle => ⟨.error obstacle, asked⟩
      | .ok merged =>
          if accept id then agree limit inductionVariable accept rest merged (asked ++ [id])
          else ⟨.error .notContiguous, asked ++ [id]⟩

/-- The dimension along which the body of a loop can be vectorized, given a predicate that all
its accesses must satisfy. -/
def vectorization (limit : Nat) (loop : ForLoop) (accept : OpId → Bool) :
    VectorizationVerdict :=
  match store.scalarTransfers? loop.op with
  | none => ⟨.error .notContiguous, []⟩
  | some accesses => store.agree limit loop.inductionVariable accept accesses .invariant []

end Store

end AffineLoops
