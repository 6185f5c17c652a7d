import AffineLoops.Expr.LinearForm
import AffineLoops.Expr.Printer
import AffineLoops.Expr.Substitution

/-!
# Affine maps

An affine map takes values for its dimensions and symbols to the values of its result
expressions.  Dimensions come before symbols wherever the inputs stand in one list.
-/

namespace AffineLoops

/-- A list of result expressions over given numbers of dimensions and symbols. -/
structure AffineMap where
  dims : Nat
  syms : Nat
  results : List Expr
  deriving DecidableEq

/-- The list of inputs, as it opens the text of a map or a set: `(d0, d1)[s0]`. -/
def renderInputs (dims syms : Nat) : String :=
  let dimNames := (List.range dims).map fun position => "d" ++ position.repr
  let symNames := (List.range syms).map fun position => "s" ++ position.repr
  "(" ++ ", ".intercalate dimNames ++ ")" ++
    if syms = 0 then "" else "[" ++ ", ".intercalate symNames ++ "]"

namespace AffineMap

instance : Inhabited AffineMap := ⟨⟨0, 0, []⟩⟩

/-- The number of dimensions and symbols. -/
def inputs (map : AffineMap) : Nat := map.dims + map.syms

/-- The number of inputs as it is counted, which is a word. -/
def inputCount (map : AffineMap) : Nat := Word.wrap map.inputs

/-- The number of results. -/
def resultCount (map : AffineMap) : Nat := map.results.length

/-- The text of a map. -/
def render (map : AffineMap) : String :=
  renderInputs map.dims map.syms ++ " -> (" ++
    ", ".intercalate (map.results.map Expr.render) ++ ")"

/-! ## Special maps -/

/-- The map without inputs whose only result is a constant. -/
def ofConst (value : Int) : AffineMap := ⟨0, 0, [.const value]⟩

/-- The map without results. -/
def noResults (dims syms : Nat) : AffineMap := ⟨dims, syms, []⟩

/-- The map to the last `count` of its dimensions. -/
def lastDims (dims count : Nat) : AffineMap :=
  ⟨dims, 0, (List.range count).map fun index => .dim (dims - count + index)⟩

/-- The map to a list of its dimensions, as many as there are entries. -/
def ofPositions (positions : List Nat) : AffineMap :=
  ⟨positions.length, 0, positions.map .dim⟩

/-! ## Questions about maps -/

/-- Whether a map has neither inputs nor results. -/
def isEmpty (map : AffineMap) : Bool :=
  map.dims == 0 && map.syms == 0 && map.results.isEmpty

/-- The value of a map with a single constant result. -/
def constant? (map : AffineMap) : Option Int :=
  match map.results with
  | [result] => result.constant?
  | _ => none

/-- The results of a map, if all of them are constants. -/
def constantResults? (map : AffineMap) : Option (List Int) :=
  map.results.mapM Expr.constant?

/-- Whether the results are the dimensions in order. -/
def isIdentity (map : AffineMap) : Bool :=
  map.results == (List.range map.dims).map Expr.dim

/-- Whether the results are the last dimensions in order and there are no symbols. -/
def isMinorIdentity (map : AffineMap) : Bool :=
  map.syms == 0 && map.resultCount ≤ map.dims &&
    map.results == (lastDims map.dims map.resultCount).results

/-- The position of a dimension. -/
def dimPosition? : Expr → Option Nat
  | .dim position => some position
  | _ => none

/-- Whether the results are distinct dimensions and there are no symbols. -/
def isProjectedPermutation (map : AffineMap) : Bool :=
  map.syms == 0 && map.resultCount ≤ map.dims &&
    match map.results.mapM dimPosition? with
    | some positions => decide positions.Nodup
    | none => false

/-- Whether the results are all the dimensions in some order and there are no symbols. -/
def isPermutation (map : AffineMap) : Bool :=
  map.dims == map.resultCount && map.isProjectedPermutation

/-- Whether a dimension occurs in a result. -/
def usesDim (map : AffineMap) (position : Nat) : Bool :=
  map.results.any (Expr.usesDim position)

/-- Whether a symbol occurs in a result. -/
def usesSym (map : AffineMap) (position : Nat) : Bool :=
  map.results.any (Expr.usesSym position)

/-- The subterms of all results in order. -/
def postorder (map : AffineMap) : List Expr := map.results.flatMap Expr.postorder

/-! ## Maps from maps -/

/-- The first `count` results: none for `0`, and the whole map if there are no more. -/
def major? (map : AffineMap) (count : Nat) : Option AffineMap :=
  if count = 0 then none else some { map with results := map.results.take count }

/-- The last `count` results: none for `0`, and the whole map if there are no more. -/
def minor? (map : AffineMap) (count : Nat) : Option AffineMap :=
  if count = 0 then none
  else some { map with results := map.results.drop (map.resultCount - count) }

/-- Puts one expression in the place of another in every result. -/
def replace (map : AffineMap) (target replacement : Expr) (dims syms : Nat) : AffineMap :=
  ⟨dims, syms, map.results.map (Expr.replace target replacement)⟩

/-- Puts expressions in the place of the inputs in every result. -/
def substitute (map : AffineMap) (dimExprs symExprs : List Expr) (dims syms : Nat) :
    AffineMap :=
  ⟨dims, syms, map.results.map (Expr.substitute dimExprs symExprs)⟩

/-- Moves the dimensions from `offset` on, and their count with them. -/
def moveDims (map : AffineMap) (offset : Nat) (move : Nat → Nat) : AffineMap :=
  { map with
    dims := move map.dims
    results := map.results.map (Expr.moveDims offset map.dims move) }

/-- Moves the symbols from `offset` on, and their count with them. -/
def moveSyms (map : AffineMap) (offset : Nat) (move : Nat → Nat) : AffineMap :=
  { map with
    syms := move map.syms
    results := map.results.map (Expr.moveSyms offset map.syms move) }

/-- Makes room for `shift` dimensions at `offset`.  Neither the positions nor the count are checked
for leaving the range of words. -/
def shiftDims (map : AffineMap) (shift offset : Nat) : AffineMap :=
  map.moveDims offset (Word.advance shift)

/-- Makes room for `shift` symbols at `offset`, in the same way. -/
def shiftSyms (map : AffineMap) (shift offset : Nat) : AffineMap :=
  map.moveSyms offset (Word.advance shift)

/-- Simplifies every result. -/
def simplify (map : AffineMap) : AffineMap :=
  { map with results := map.results.map (Expr.simplify map.dims map.syms) }

/-- The elements of a list, each at its first occurrence only. -/
def firstOccurrences : List Expr → List Expr → List Expr
  | _, [] => []
  | seen, e :: rest =>
      if e ∈ seen then firstOccurrences seen rest else e :: firstOccurrences (e :: seen) rest

/-- Leaves out the results that stand earlier in the list already. -/
def dedupe (map : AffineMap) : AffineMap :=
  { map with results := firstOccurrences [] map.results }

/-! ## Symbols that no map uses -/

/-- The number of positions below `position` that are used. -/
def usedBelow (used : Nat → Bool) (position : Nat) : Nat :=
  (List.range position).countP used

/-- The largest number of symbols of one of the maps. -/
def mostSymbols (maps : List AffineMap) : Nat :=
  maps.foldl (fun most map => if most < map.syms then map.syms else most) 0

/-- The number of symbols that at least one of the maps uses. -/
def usedSymbolCount (maps : List AffineMap) : Nat :=
  usedBelow (fun position => maps.any (·.usesSym position)) (mostSymbols maps)

/-- What stands for each symbol when those that at least one of the maps uses are numbered
densely. -/
def denseSymbols (maps : List AffineMap) : List Expr :=
  (List.range (mostSymbols maps)).map fun position =>
    .sym (usedBelow (fun position => maps.any (·.usesSym position)) position)

/-- Numbers the symbols that at least one of the maps uses densely, in the same way in all of
the maps, and drops the others. -/
def compressSymbols (maps : List AffineMap) : List AffineMap :=
  maps.map fun map => map.substitute [] (denseSymbols maps) map.dims (usedSymbolCount maps)

end AffineMap

end AffineLoops
