import AffineLoops.Fault
import AffineLoops.IntegerSet
import AffineLoops.Table

/-!
# Uniquing

A context keeps every expression, map, set and type once.  An object is stored as a node that
refers to its parts by their indices in the tables of the same context, and an object that is
there already is not stored again.  The index of an object never changes.  An expression that is
entered whole has a larger index than its operands; a node that is entered by itself may refer to
any number.
-/

namespace AffineLoops

/-- An expression that refers to its operands by index. -/
inductive ExprNode where
  | dim (position : Nat)
  | sym (position : Nat)
  | const (value : Int)
  | binary (op : BinaryOp) (lhs rhs : Nat)
  deriving DecidableEq, Hashable

/-- A map that refers to its results by index. -/
structure MapNode where
  dims : Nat
  syms : Nat
  results : List Nat
  deriving DecidableEq, Hashable

/-- A set that refers to its expressions by index. -/
structure SetNode where
  dims : Nat
  syms : Nat
  constraints : List (Relation × Nat)
  deriving DecidableEq, Hashable

/-- A type that refers to its element type and its layouts by index. -/
inductive TyNode where
  | index
  | integer (width : Nat)
  | float (width : Nat)
  | memref (shape : List Size) (element : Nat) (layouts : List Nat)
  | vector (shape : List Nat) (element : Nat)
  deriving DecidableEq, Hashable

/-- The tables of a context. -/
structure Tables where
  exprs : Table ExprNode
  maps : Table MapNode
  sets : Table SetNode
  types : Table TyNode

namespace Tables

/-- Tables without objects. -/
def empty : Tables := ⟨.empty, .empty, .empty, .empty⟩

/-- The index of a node of the table of expressions. -/
def internNode (tables : Tables) (node : ExprNode) : Nat × Tables :=
  let (index, exprs) := tables.exprs.intern node
  (index, { tables with exprs })

/-- The index of a node of the table of maps. -/
def internMapNode (tables : Tables) (node : MapNode) : Nat × Tables :=
  let (index, maps) := tables.maps.intern node
  (index, { tables with maps })

/-- The index of a node of the table of sets. -/
def internSetNode (tables : Tables) (node : SetNode) : Nat × Tables :=
  let (index, sets) := tables.sets.intern node
  (index, { tables with sets })

/-- The index of an expression. -/
def internExpr (tables : Tables) : Expr → Nat × Tables
  | .dim position => tables.internNode (.dim position)
  | .sym position => tables.internNode (.sym position)
  | .const value => tables.internNode (.const value)
  | .binary op lhs rhs =>
      let (lhs, tables) := internExpr tables lhs
      let (rhs, tables) := internExpr tables rhs
      tables.internNode (.binary op lhs rhs)

/-- The indices of expressions. -/
def internExprs (tables : Tables) : List Expr → List Nat × Tables
  | [] => ([], tables)
  | e :: rest =>
      let (index, tables) := tables.internExpr e
      let (indices, tables) := internExprs tables rest
      (index :: indices, tables)

/-- The index of a map. -/
def internMap (tables : Tables) (map : AffineMap) : Nat × Tables :=
  let (results, tables) := tables.internExprs map.results
  tables.internMapNode ⟨map.dims, map.syms, results⟩

/-- The indices of the maps of layouts. -/
def internLayouts (tables : Tables) : List Layout → List Nat × Tables
  | [] => ([], tables)
  | .map map :: rest =>
      let (index, tables) := tables.internMap map
      let (indices, tables) := internLayouts tables rest
      (index :: indices, tables)
  | .numbered number :: rest =>
      let (indices, tables) := internLayouts tables rest
      (number :: indices, tables)

/-- The index of a set. -/
def internSet (tables : Tables) (set : IntegerSet) : Nat × Tables :=
  let (exprs, tables) := tables.internExprs set.exprs
  tables.internSetNode ⟨set.dims, set.syms, (set.constraints.map (·.relation)).zip exprs⟩

/-- The index of a type. -/
def internType (tables : Tables) : Ty → Nat × Tables
  | .index =>
      let (index, types) := tables.types.intern .index
      (index, { tables with types })
  | .integer width =>
      let (index, types) := tables.types.intern (.integer width)
      (index, { tables with types })
  | .float width =>
      let (index, types) := tables.types.intern (.float width)
      (index, { tables with types })
  | .memref shape element layouts =>
      let (element, tables) := internType tables element
      let (layouts, tables) := tables.internLayouts layouts
      let (index, types) := tables.types.intern (.memref shape element layouts)
      (index, { tables with types })
  | .vector shape element =>
      let (element, tables) := internType tables element
      let (index, types) := tables.types.intern (.vector shape element)
      (index, { tables with types })
  | .numbered number => (number, tables)

/-! ## Reading back -/

/-- The expression at an index, read to the given depth. -/
def exprWithin (tables : Tables) : Nat → Nat → Option Expr
  | 0, _ => none
  | depth + 1, index =>
      match tables.exprs.get? index with
      | none => none
      | some (.dim position) => some (.dim position)
      | some (.sym position) => some (.sym position)
      | some (.const value) => some (.const value)
      | some (.binary op lhs rhs) =>
          match exprWithin tables depth lhs, exprWithin tables depth rhs with
          | some lhs, some rhs => some (.binary op lhs rhs)
          | _, _ => none

/-- The expression at an index. -/
def expr? (tables : Tables) (index : Nat) : Option Expr :=
  tables.exprWithin tables.exprs.size index

/-- The map at an index. -/
def map? (tables : Tables) (index : Nat) : Option AffineMap :=
  match tables.maps.get? index with
  | none => none
  | some node => (node.results.mapM tables.expr?).map (⟨node.dims, node.syms, ·⟩)

/-- The type at an index, read to the given depth.  What is not there is left as a number. -/
def typeWithin (tables : Tables) : Nat → Nat → Ty
  | 0, index => .numbered index
  | depth + 1, index =>
      match tables.types.get? index with
      | none => .numbered index
      | some .index => .index
      | some (.integer width) => .integer width
      | some (.float width) => .float width
      | some (.memref shape element layouts) =>
          .memref shape (typeWithin tables depth element)
            (layouts.map fun layout => (Layout.numbered layout).resolve tables.map?)
      | some (.vector shape element) => .vector shape (typeWithin tables depth element)

/-- What the tables have for the numbers of maps and of types. -/
def lookup (tables : Tables) : Lookup := ⟨tables.map?, tables.typeWithin tables.types.size⟩

/-! ## Missing numbers

A number for which a table has nothing is found when it is looked at, and the fault names the
first such number.  So it matters in which order the parts of an object are looked at.
-/

/-- The orders in which the operands of an operation are looked at. -/
inductive Order where
  /-- All of the left operand, then all of the right one. -/
  | leftToRight
  /-- The order in which an expression is written.  It depends on the sign of the right operand
  how a sum or a product is written, and the sign is looked at first. -/
  | written

/-- The indices that are looked at before the operands of an operation are read. -/
def lookedAhead (tables : Tables) : Order → BinaryOp → Nat → List Nat
  | .written, .add, rhs =>
      match tables.exprs.get? rhs with
      | some (.binary .mul _ factor) => [rhs, factor]
      | _ => [rhs]
  | .written, .mul, rhs => [rhs]
  | _, _, _ => []

/-- The first index without an expression that is met in reading an expression, to the given
depth. -/
def missingWithin (tables : Tables) (order : Order) : Nat → Nat → Option Nat
  | 0, index => some index
  | depth + 1, index =>
      match tables.exprs.get? index with
      | none => some index
      | some (.binary op lhs rhs) =>
          ((tables.lookedAhead order op rhs).find? fun ahead => (tables.exprs.get? ahead).isNone)
            <|> missingWithin tables order depth lhs
            <|> missingWithin tables order depth rhs
      | some _ => none

/-- Reads the expression at an index. -/
def readExpr (tables : Tables) (order : Order) (index : Nat) : Except Fault Expr :=
  match tables.expr? index with
  | some e => .ok e
  | none =>
      let missing := tables.missingWithin order tables.exprs.size index
      .error (.unknownNumber tables.exprs.size (missing.getD index))

/-- Reads the map at an index. -/
def readMap (tables : Tables) (index : Nat) : Except Fault AffineMap :=
  match tables.maps.get? index with
  | none => .error (.unknownNumber tables.maps.size index)
  | some node => (node.results.mapM (tables.readExpr .written)).map (⟨node.dims, node.syms, ·⟩)

/-- Reads a layout. -/
def readLayout (tables : Tables) : Layout → Except Fault Layout
  | .map map => .ok (.map map)
  | .numbered number => (tables.readMap number).map .map

/-- Reads the element types and the layouts in a type. -/
def readType (tables : Tables) : Ty → Except Fault Ty
  | .memref shape element layouts => do
      let element ← readType tables element
      return .memref shape element (← layouts.mapM tables.readLayout)
  | .vector shape element => (readType tables element).map (.vector shape)
  | .numbered number => .error (.unknownNumber tables.types.size number)
  | leaf => .ok leaf

end Tables

end AffineLoops
