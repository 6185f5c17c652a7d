import AffineLoops.Fault
import AffineLoops.IntegerSet

/-!
# Checked constructions

Constructions of expressions, maps and sets that refuse what is not affine or not well
formed, and the folding of maps at partly known inputs.
-/

namespace AffineLoops

namespace Expr

/-- Whether an operation on two operands is affine: one factor of a product is a constant,
and a divisor is a positive constant. -/
def checkAffine (op : BinaryOp) (lhs rhs : Expr) : Except Fault Unit :=
  match op with
  | .add => .ok ()
  | .mul =>
      if lhs.constant?.isSome || rhs.constant?.isSome then .ok ()
      else .error (.nonAffine op lhs rhs)
  | _ =>
      match rhs.constant? with
      | none => .error (.nonAffine op lhs rhs)
      | some divisor => if divisor ≤ 0 then .error (.invalidDivisor divisor) else .ok ()

/-- An affine operation, folded. -/
def build (op : BinaryOp) (lhs rhs : Expr) : Except Fault Expr :=
  (checkAffine op lhs rhs).map fun _ => fold op lhs rhs

/-- An affine operation exactly as written, without any folding. -/
def buildRaw (op : BinaryOp) (lhs rhs : Expr) : Except Fault Expr :=
  (checkAffine op lhs rhs).map fun _ => binary op lhs rhs

/-- The fault of the first position, operands before operations and left before right, that is
beyond the number of dimensions or symbols. -/
def positionFault? (dims syms : Nat) : Expr → Option Fault
  | dim position =>
      if position < dims then none else some (.positionOutOfBounds .dimension position dims)
  | sym position =>
      if position < syms then none else some (.positionOutOfBounds .symbol position syms)
  | const _ => none
  | binary _ lhs rhs =>
      match positionFault? dims syms lhs with
      | some fault => some fault
      | none => positionFault? dims syms rhs

/-- Refuses an expression that uses a position beyond the given counts. -/
def checkPositions (dims syms : Nat) (e : Expr) : Except Fault Unit :=
  match e.positionFault? dims syms with
  | some fault => .error fault
  | none => .ok ()

end Expr

/-- Refuses a list of expressions if one of them uses a position beyond the given counts. -/
def checkAllPositions (dims syms : Nat) : List Expr → Except Fault Unit
  | [] => .ok ()
  | e :: rest =>
      match e.checkPositions dims syms with
      | .error fault => .error fault
      | .ok () => checkAllPositions dims syms rest

namespace AffineMap

/-- A map with the given results, all of whose positions are inputs of the map. -/
def ofResults (dims syms : Nat) (results : List Expr) : Except Fault AffineMap :=
  (checkAllPositions dims syms results).map fun _ => ⟨dims, syms, results⟩

/-- The map to the last `count` of its dimensions. -/
def minorIdentity (dims count : Nat) : Except Fault AffineMap :=
  if count ≤ dims then .ok (lastDims dims count) else .error .moreResultsThanDims

/-- The map that permutes its dimensions. -/
def permutation (positions : List Nat) : Except Fault AffineMap :=
  if positions.Nodup ∧ ∀ position ∈ positions, position < positions.length then
    .ok (ofPositions positions)
  else .error (.notPermutation positions)

/-- The results at the given indices. -/
def subResults (map : AffineMap) (indices : List Nat) : Except Fault AffineMap :=
  match indices.mapM fun index => map.results[index]? with
  | some results => .ok { map with results }
  | none => .error .resultIndexOutOfBounds

/-- The inputs of a map, with constants in the place of those that are known. -/
def knownInputs (map : AffineMap) (constants : List (Option Int)) : List Expr × List Expr :=
  let known := fun (input : Nat → Expr) (position : Nat) (constant : Option Int) =>
    match constant with
    | some value => Expr.const value
    | none => input position
  ((constants.take map.dims).mapIdx (known .dim), (constants.drop map.dims).mapIdx (known .sym))

/-- Folds the results at partly known inputs.  A result that becomes a constant is replaced by
it, and every other result is kept as it was; the values are given if all results fold. -/
def foldConstants (map : AffineMap) (constants : List (Option Int)) :
    Except Fault (AffineMap × Option (List Int)) :=
  if constants.length = map.inputs then
    let (dimExprs, symExprs) := map.knownInputs constants
    let folded := map.results.map fun result =>
      (result.substitute dimExprs symExprs).constant?
    let results := map.results.zipWith
      (fun result value => match value with
        | some value => Expr.const value
        | none => result) folded
    .ok ({ map with results }, folded.mapM id)
  else .error (.operandCount map.inputCount constants.length)

end AffineMap

end AffineLoops
