import AffineLoops.Loop.Basic

/-!
# Invariant indices

An index is invariant along an induction variable if its value does not change with it.  The
verdict looks through one apply operation; an index behind a chain of them is undecided and
counts as varying.  Loops whose bounds depend on the variable vary with it, so an access is
invariant only if it is invariant along their variables as well.  These loops are younger than
the loop, which bounds the descent.
-/

namespace AffineLoops

/-- The verdict on an index. -/
inductive IndexVerdict where
  | invariant
  | varying
  /-- The index is behind a chain of apply operations that ends with this one. -/
  | undecided (apply : OpId)
  deriving DecidableEq

namespace Store

variable (store : Store)

/-- The verdict on an index along an induction variable. -/
def indexVerdict (inductionVariable index : ValueId) : IndexVerdict :=
  match store.definingApply? index with
  | none => if index = inductionVariable then .varying else .invariant
  | some op =>
      match store.boundMap? op with
      | none => .varying
      | some bound =>
          if bound.operands.any fun operand => (store.definingApply? operand).isSome then
            .undecided op
          else if bound.usesValue 0 inductionVariable then .varying
          else .invariant

/-- The verdicts on indices up to the first one that is not invariant. -/
def verdictsUntilVarying (inductionVariable : ValueId) : List ValueId → List IndexVerdict
  | [] => []
  | index :: rest =>
      match store.indexVerdict inductionVariable index with
      | .invariant => .invariant :: verdictsUntilVarying inductionVariable rest
      | verdict => [verdict]

/-- The verdicts on the indices of an access along the variable of a loop and of the loops that
depend on it, up to the first one that is not invariant. -/
def accessVerdicts (indices : List ValueId) : Nat → ForLoop → List IndexVerdict
  | 0, loop => store.verdictsUntilVarying loop.inductionVariable indices
  | depth + 1, loop =>
      let own := store.verdictsUntilVarying loop.inductionVariable indices
      (store.dependentLoops loop).foldl
        (fun verdicts dependent =>
          if verdicts.all (· == .invariant) then
            verdicts ++ accessVerdicts indices depth dependent
          else verdicts) own

/-- The verdicts on which the invariance of an access in a loop rests.  The access is invariant
if all of them are. -/
def invarianceVerdicts (access : Access) (loop : ForLoop) : List IndexVerdict :=
  store.accessVerdicts access.position.operands store.operations.size loop

/-- Whether an access is invariant in a loop. -/
def isInvariantAccess (access : Access) (loop : ForLoop) : Bool :=
  (store.invarianceVerdicts access loop).all (· == .invariant)

end Store

end AffineLoops
