import AffineLoops.IR.Basic

/-!
# Text of values, blocks and regions

Blocks and regions are written with their numbers, values with their types and places.
-/

namespace AffineLoops.Store

variable (store : Store)

/-- The text of a value. -/
def renderValue (id : ValueId) : String :=
  let type := (store.typeOf id).render
  match (store.value id).owner with
  | .argument _ index => "<block argument> of type '" ++ type ++ "' at index: " ++ index.repr
  | .result op index =>
      "<result " ++ index.repr ++ " of " ++ store.name op ++ "> of type '" ++ type ++ "'"

/-- The text of a block: its number and the types of its arguments. -/
def renderBlock (id : BlockId) : String :=
  let types := (store.block id).arguments.map fun argument => (store.typeOf argument).render
  "^bb" ++ (store.block id).number.repr ++ "(" ++ ", ".intercalate types ++ ")"

/-- The text of a region: its number and the operation to which it belongs. -/
def renderRegion (id : RegionId) : String :=
  "<region #" ++ (store.region id).number.repr ++
    match (store.region id).parent with
    | some op => " of " ++ store.name op ++ ">"
    | none => ">"

/-- The text of the use of a value as an operand. -/
def renderUse (use : OpId × Nat) : String :=
  "operand #" ++ use.2.repr ++ " of " ++ store.name use.1

end AffineLoops.Store
