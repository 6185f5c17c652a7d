import AffineLoops.Expr.Columns
import AffineLoops.Session.Basic

/-!
# Expressions, maps and sets of a session

The constructions of expressions, maps and sets with the contexts of their parts.  Operands of
one operation must belong to one context.
-/

namespace AffineLoops.Session

/-! ## Expressions -/

/-- A dimension. -/
def dim (id : ContextId) (position : Nat) : SessionM (Owned Expr) := ownExpr id (.dim position)

/-- A symbol. -/
def sym (id : ContextId) (position : Nat) : SessionM (Owned Expr) := ownExpr id (.sym position)

/-- A constant. -/
def const (id : ContextId) (value : Int) : SessionM (Owned Expr) := ownExpr id (.const value)

/-- Refuses operands of an operator that belong to different contexts. -/
def requireOperators (lhs rhs : Owned Expr) : SessionM Unit :=
  ofExcept (if lhs.context = rhs.context then .ok () else .error .mixedContexts)

/-- An expression of a context that was made along a trail. -/
def made (id : ContextId) (trail : List Expr) (e : Expr) : SessionM (Owned Expr) := do
  enter id (.ofExprs trail)
  return ⟨id, e⟩

/-- The sum. -/
def add (lhs rhs : Owned Expr) : SessionM (Owned Expr) := do
  requireOperators lhs rhs
  made lhs.context (lhs.item.addTrail rhs.item) (lhs.item.add rhs.item)

/-- The product with a constant expression. -/
def scale (lhs rhs : Owned Expr) : SessionM (Owned Expr) := do
  requireOperators lhs rhs
  made lhs.context (lhs.item.mulTrail rhs.item) (lhs.item.mul rhs.item)

/-- The negation. -/
def neg (e : Owned Expr) : SessionM (Owned Expr) := do
  scale e (← const e.context (-1))

/-- The difference. -/
def sub (lhs rhs : Owned Expr) : SessionM (Owned Expr) := do
  add lhs (← neg rhs)

/-- Refuses parts that belong to different contexts. -/
def requireContext (id : ContextId) (contexts : List ContextId) : SessionM Unit :=
  ofExcept (if contexts.all (· == id) then .ok () else .error .contextMismatch)

/-- An affine operation, folded. -/
def operation (op : BinaryOp) (lhs rhs : Owned Expr) : SessionM (Owned Expr) := do
  requireContext lhs.context [rhs.context]
  let e ← ofExcept (lhs.item.build op rhs.item)
  made lhs.context (Expr.foldTrail op lhs.item rhs.item) e

/-- An affine operation exactly as written. -/
def rawOperation (op : BinaryOp) (lhs rhs : Owned Expr) : SessionM (Owned Expr) := do
  requireContext lhs.context [rhs.context]
  ownExpr lhs.context (← ofExcept (lhs.item.buildRaw op rhs.item))

/-- Moves dimensions. -/
def shiftDims (offset count shift : Nat) (e : Owned Expr) : SessionM (Owned Expr) :=
  made e.context (e.item.moveDimsTrail offset count (Word.advance shift))
    (e.item.shiftDims offset count shift)

/-- Moves symbols. -/
def shiftSyms (offset count shift : Nat) (e : Owned Expr) : SessionM (Owned Expr) :=
  made e.context (e.item.moveSymsTrail offset count (Word.advance shift))
    (e.item.shiftSyms offset count shift)

/-- A computation in a context, which leaves there what it has noted even if it is refused. -/
def noting {α : Type} (id : ContextId) (program : Noting α) : SessionM α := do
  let (result, noted) := program []
  enter id (.ofExprs noted)
  ofExcept result

/-- Simplifies an expression. -/
def simplify (dims syms : Nat) (e : Owned Expr) : SessionM (Owned Expr) := do
  ownExpr e.context (← noting e.context (e.item.simplifyColumns dims syms))

/-- The coefficients of an expression that is linear in its inputs. -/
def coefficients? (dims syms : Nat) (e : Owned Expr) : SessionM (Option (List Int)) :=
  noting e.context (e.item.inputColumns? dims syms)

/-! ## Maps and sets -/

/-- Refuses expressions of other contexts and positions beyond the given counts; the first
expression that is refused decides. -/
def requireExprs (id : ContextId) (dims syms : Nat) : List (Owned Expr) → SessionM Unit
  | [] => return
  | e :: rest => do
      requireContext id [e.context]
      ofExcept (e.item.checkPositions dims syms)
      requireExprs id dims syms rest

/-- A map with the given results. -/
def map (id : ContextId) (dims syms : Nat) (results : List (Owned Expr)) :
    SessionM (Owned AffineMap) := do
  requireExprs id dims syms results
  ownMap id ⟨dims, syms, results.map (·.item)⟩

/-- A set with the given constraints. -/
def set (id : ContextId) (dims syms : Nat) (constraints : List (Relation × Owned Expr)) :
    SessionM (Owned IntegerSet) := do
  requireExprs id dims syms (constraints.map (·.2))
  ownSet id ⟨dims, syms, constraints.map fun (relation, e) => ⟨relation, e.item⟩⟩

/-- A map that was made along a trail in the context of a given map. -/
def remade (source : Owned AffineMap) (trail : Trail) (map : AffineMap) :
    SessionM (Owned AffineMap) := do
  enter source.context trail
  return ⟨source.context, map⟩

/-- A map of the context of a given map, from the results of that map. -/
def mapFrom (source : Owned AffineMap) (map : AffineMap) : SessionM (Owned AffineMap) :=
  remade source [.map map] map

/-- Makes room for dimensions. -/
def shiftMapDims (shift offset : Nat) (map : Owned AffineMap) : SessionM (Owned AffineMap) :=
  remade map (map.item.moveDimsTrail offset (Word.advance shift)) (map.item.shiftDims shift offset)

/-- Makes room for symbols. -/
def shiftMapSyms (shift offset : Nat) (map : Owned AffineMap) : SessionM (Owned AffineMap) :=
  remade map (map.item.moveSymsTrail offset (Word.advance shift)) (map.item.shiftSyms shift offset)

/-- Simplifies every result. -/
def simplifyMap (map : Owned AffineMap) : SessionM (Owned AffineMap) := do
  let results ← noting map.context
    (map.item.results.mapM (Expr.simplifyColumns map.item.dims map.item.syms))
  ownMap map.context { map.item with results }

/-- Folds the results at partly known inputs. -/
def foldMap (constants : List (Option Int)) (map : Owned AffineMap) :
    SessionM (Owned AffineMap × Option (List Int)) := do
  let (folded, values) ← ofExcept (map.item.foldConstants constants)
  return (← remade map (map.item.foldConstantsTrail constants) folded, values)

/-- Numbers the symbols of one of several maps densely. -/
def compressMap (maps : List AffineMap) (map : Owned AffineMap) : SessionM Unit :=
  enter map.context (map.item.compressTrail maps)

/-- Numbers the symbols that at least one of the maps uses densely in all of the maps. -/
def compressMaps (maps : List (Owned AffineMap)) : SessionM (List AffineMap) := do
  let items := maps.map (·.item)
  maps.forM (compressMap items)
  return AffineMap.compressSymbols items

end AffineLoops.Session
