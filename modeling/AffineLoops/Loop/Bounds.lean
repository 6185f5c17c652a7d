import AffineLoops.BoundMap.Difference

/-!
# Bounds of loops

A loop runs from the largest result of its lower bound to the smallest result of its upper
bound, the latter excluded, by a positive step.  Bounds are folded to constants and brought into
canonical form without changing the loop, and the step of a loop with constant bounds can be
normalized to one.
-/

namespace AffineLoops

/-- Which end of a loop a bound gives. -/
inductive BoundKind where
  | lower
  | upper
  deriving DecidableEq

/-- The bounds and the step of a loop. -/
structure Bounds where
  lower : BoundMap
  upper : BoundMap
  step : Int
  deriving DecidableEq

/-- A loop with step one that runs as often as another loop, and the map from its induction
variable to that of the other. -/
structure StrideNormalization where
  bounds : Bounds
  inductionMap : AffineMap
  deriving DecidableEq

namespace BoundKind

/-- The result that counts among several: the largest of a lower bound, the smallest of an upper
bound. -/
def pick? : BoundKind → List Int → Option Int
  | lower => List.max?
  | upper => List.min?

/-- The word before several results. -/
def word : BoundKind → String
  | lower => "max"
  | upper => "min"

end BoundKind

namespace BoundMap

/-- The text of the operands in a list: `%1, %4`. -/
def renderOperands (store : Store) (operands : List ValueId) : String :=
  ", ".intercalate (operands.map fun operand => "%" ++ (store.value operand).number.repr)

/-- A map followed by its dimension operands and, in brackets, its symbol operands. -/
def renderApplied (store : Store) (bound : BoundMap) : String :=
  bound.map.render ++ "(" ++ renderOperands store bound.dimOperands ++ ")" ++
    if bound.symOperands = [] then "" else "[" ++ renderOperands store bound.symOperands ++ "]"

/-- The text of a bound.  A constant stands alone, and so does the value of a bound that is just
a symbol; several results are preceded by the word for the one that counts. -/
def renderBound (store : Store) (kind : BoundKind) (bound : BoundMap) : String :=
  match bound.map.results with
  | [.const value] =>
      if bound.map.inputs = 0 then decimal value else bound.renderApplied store
  | [.sym _] =>
      if bound.map.dims = 0 ∧ bound.map.syms = 1 then renderOperands store (bound.operands.take 1)
      else bound.renderApplied store
  | [_] => bound.renderApplied store
  | _ => kind.word ++ " " ++ bound.renderApplied store

/-- The constant to which a bound folds, if it is not a constant already. -/
def foldBound? (store : Store) (kind : BoundKind) (bound : BoundMap) :
    Except Fault (Option Int) :=
  match bound.map.constant? with
  | some _ => .ok none
  | none =>
      (bound.map.foldConstants (store.constantsOf bound.operands)).map fun (_, values) =>
        values.bind kind.pick?

/-- The composed and canonical form of a bound, without repeated results. -/
def canonicalBound (store : Store) (limit : Nat) (bound : BoundMap) : Except Fault BoundMap :=
  (bound.normalize store limit).map fun bound => { bound with map := bound.map.dedupe }

end BoundMap

namespace Bounds

/-- The bound with a constant in its place, if there is one. -/
def withConstant (bound : BoundMap) : Option Int → BoundMap
  | some value => ⟨.ofConst value, []⟩
  | none => bound

/-- Folds the bounds that fold to constants, if there are any. -/
def foldConstants (store : Store) (bounds : Bounds) : Except Fault (Option Bounds) :=
  match bounds.lower.foldBound? store .lower with
  | .error fault => .error fault
  | .ok lower =>
      match bounds.upper.foldBound? store .upper with
      | .error fault => .error fault
      | .ok upper =>
          if lower.isSome || upper.isSome then
            .ok <| some { bounds with
              lower := withConstant bounds.lower lower
              upper := withConstant bounds.upper upper }
          else .ok none

/-- Canonicalizes both bounds, if that changes anything. -/
def canonicalize (store : Store) (limit : Nat) (bounds : Bounds) :
    Except Fault (Option Bounds) :=
  match bounds.lower.canonicalBound store limit with
  | .error fault => .error fault
  | .ok lower =>
      match bounds.upper.canonicalBound store limit with
      | .error fault => .error fault
      | .ok upper =>
          let canonical := { bounds with lower, upper }
          .ok (if canonical = bounds then none else some canonical)

/-- Folds and then canonicalizes the bounds, if that changes anything. -/
def fold (store : Store) (limit : Nat) (bounds : Bounds) : Except Fault (Option Bounds) :=
  match bounds.foldConstants store with
  | .error fault => .error fault
  | .ok folded =>
      ((folded.getD bounds).canonicalize store limit).map (·.or folded)

/-- Whether both bounds have equally many inputs of each kind and the same operands. -/
def haveSameOperands (bounds : Bounds) : Bool :=
  bounds.lower.map.dims == bounds.upper.map.dims &&
    bounds.lower.map.syms == bounds.upper.map.syms &&
    bounds.lower.operands == bounds.upper.operands

/-- Both bounds, if they are single constants. -/
def constants? (bounds : Bounds) : Option (Int × Int) :=
  match bounds.lower.map.constant?, bounds.upper.map.constant? with
  | some lower, some upper => some (lower, upper)
  | _, _ => none

/-- The number of steps from one constant to another, where the distance is a word. -/
def tripsBetween? (lower upper step : Int) : Option Int :=
  (Word.sub? upper lower).map fun span => Word.ceilDiv (if span < 0 then 0 else span) step

/-- Normalizes the step of a loop with constant bounds to one.  The new loop begins at the same
lower bound `l`, and its variable `i` stands for `(i - l) * step + l`. -/
def normalizeStride? (bounds : Bounds) : Except Fault (Option StrideNormalization) :=
  match bounds.constants? with
  | none => .ok none
  | some (lower, upper) =>
      if bounds.step = 1 then .ok none
      else
        match (tripsBetween? lower upper bounds.step).bind (Word.add? lower) with
        | none => .ok none
        | some newUpper =>
            let result := ((Expr.sub (.dim 0) (.const lower)).mulConst bounds.step).addConst lower
            (AffineMap.ofResults 1 0 [result]).map fun inductionMap =>
              some {
                bounds := ⟨⟨.ofConst lower, []⟩, ⟨.ofConst newUpper, []⟩, 1⟩
                inductionMap }

end Bounds

end AffineLoops
