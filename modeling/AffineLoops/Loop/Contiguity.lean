import AffineLoops.Loop.Basic

/-!
# Contiguous accesses

An access is contiguous along an induction variable if at most one dimension of the memory
reference varies with the variable, and that one by steps of one.  The verdict is taken from the
linear form of the composed position of the access.  Loops whose bounds depend on the variable
must agree.
-/

namespace AffineLoops

/-- How an access moves along an induction variable.  Dimensions are counted from the innermost
one. -/
inductive Contiguity where
  | invariant
  | varying (dimension : Nat)
  deriving DecidableEq

/-- Why an access has no contiguity. -/
inductive ContiguityObstacle where
  | notContiguous
  /-- Positions of the reference are not laid out in the order of its indices. -/
  | layout (op : OpId)
  /-- It is not known how positions of the reference are laid out. -/
  | unknownLayout (number : Nat)
  deriving DecidableEq

namespace Contiguity

/-- Two verdicts along one variable in one: an invariant access agrees with every other, and
varying ones agree if they vary in the same dimension. -/
def merge? : Contiguity → Contiguity → Option Contiguity
  | invariant, other => some other
  | other, invariant => some other
  | varying dimension, varying other =>
      if dimension = other then some (varying dimension) else none

/-- Merges verdicts of which the second may be missing. -/
def merge (contiguity : Contiguity) :
    Except ContiguityObstacle Contiguity → Except ContiguityObstacle Contiguity
  | .error obstacle => .error obstacle
  | .ok other =>
      match contiguity.merge? other with
      | some merged => .ok merged
      | none => .error .notContiguous

end Contiguity

namespace BoundMap

/-- The coefficient of the input at a place in a result: `none` if the result has no linear form
or uses the input within a quotient or remainder. -/
def coefficientAt? (bound : BoundMap) (place : Nat) (result : Expr) : Option Int :=
  if bound.mentions place result then
    match result.flatten? bound.map.dims bound.map.syms with
    | none => none
    | some (form, locals) =>
        let row := form.coefficients.drop (bound.map.dims + bound.map.syms)
        if (locals.zip row).any fun (term, coefficient) =>
            coefficient != 0 && bound.mentions place term then none
        else some (form.coefficients.getD place 0)
  else some 0

/-- The indices of the results that vary with the input at a place, starting from the given
index: `none` if one of them does not vary by steps of one. -/
def varyingResults? (bound : BoundMap) (place : Nat) : Nat → List Expr → Option (List Nat)
  | _, [] => some []
  | index, result :: rest =>
      match bound.coefficientAt? place result, varyingResults? bound place (index + 1) rest with
      | some coefficient, some varying =>
          if coefficient = 0 then some varying
          else if coefficient = 1 ∨ coefficient = -1 then some (index :: varying)
          else none
      | _, _ => none

/-- The contiguity along a value that a position shows, in a reference of the given rank. -/
def contiguity? (bound : BoundMap) (rank : Nat) (value : ValueId) : Option Contiguity :=
  match bound.operands.idxOf? value with
  | none => some .invariant
  | some place =>
      match bound.varyingResults? place 0 bound.map.results with
      | some [] => some .invariant
      | some [index] => if index < rank then some (.varying (rank - (index + 1))) else none
      | _ => none

end BoundMap

namespace Store

variable (store : Store)

/-- The obstacle in a reference that is not known to be laid out in the order of its indices. -/
def layoutObstacle (access : Access) : ContiguityObstacle :=
  match access.type.layouts with
  | [.numbered number] => .unknownLayout number
  | _ => .layout access.op

/-- The contiguity of an access along a value, without the loops that depend on it. -/
def ownContiguity (limit : Nat) (access : Access) (value : ValueId) :
    Except ContiguityObstacle Contiguity :=
  if access.type.hasIdentityLayout then
    match access.position.fullyCompose store limit with
    | .error _ => .error .notContiguous
    | .ok bound =>
        match bound.contiguity? access.type.rank value with
        | some contiguity => .ok contiguity
        | none => .error .notContiguous
  else .error (layoutObstacle access)

/-- The contiguity of an access along a value and along the variables of the loops that depend
on it, to the given depth. -/
def contiguityWithin (limit : Nat) (access : Access) :
    Nat → ValueId → Except ContiguityObstacle Contiguity
  | 0, value => store.ownContiguity limit access value
  | depth + 1, value =>
      match store.loopOf? value with
      | none => store.ownContiguity limit access value
      | some loop =>
          (store.dependentLoops loop).foldl
            (fun verdict dependent =>
              match verdict with
              | .error obstacle => .error obstacle
              | .ok contiguity =>
                  contiguity.merge
                    (contiguityWithin limit access depth dependent.inductionVariable))
            (store.ownContiguity limit access value)

/-- The contiguity of an access along an induction variable. -/
def contiguity (limit : Nat) (access : Access) (inductionVariable : ValueId) :
    Except ContiguityObstacle Contiguity :=
  store.contiguityWithin limit access store.operations.size inductionVariable

end Store

end AffineLoops
