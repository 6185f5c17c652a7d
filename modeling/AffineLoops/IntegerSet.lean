import AffineLoops.AffineMap.Basic

/-!
# Integer sets

An integer set holds the points whose dimensions and symbols satisfy a list of constraints,
each of which says that an expression is zero or that it is not negative.
-/

namespace AffineLoops

/-- What a constraint says about its expression. -/
inductive Relation where
  | zero
  | nonnegative
  deriving DecidableEq, Hashable

/-- An expression that is to be zero or not negative. -/
structure Constraint where
  relation : Relation
  expr : Expr
  deriving DecidableEq

/-- A list of constraints over given numbers of dimensions and symbols. -/
structure IntegerSet where
  dims : Nat
  syms : Nat
  constraints : List Constraint
  deriving DecidableEq

/-- The sign that compares an expression with zero. -/
def Relation.symbol : Relation → String
  | zero => "=="
  | nonnegative => ">="

namespace IntegerSet

instance : Inhabited IntegerSet := ⟨⟨0, 0, []⟩⟩

/-- The number of dimensions and symbols. -/
def inputs (set : IntegerSet) : Nat := set.dims + set.syms

/-- The number of inputs as it is counted, which is a word. -/
def inputCount (set : IntegerSet) : Nat := Word.wrap set.inputs

/-- The text of a set. -/
def render (set : IntegerSet) : String :=
  renderInputs set.dims set.syms ++ " : (" ++
    ", ".intercalate (set.constraints.map fun constraint =>
      constraint.expr.render ++ " " ++ constraint.relation.symbol ++ " 0") ++ ")"

/-- The set without points, written with the constraint that one is zero. -/
def empty (dims syms : Nat) : IntegerSet := ⟨dims, syms, [⟨.zero, .const 1⟩]⟩

/-- Whether a set is written as the set without points. -/
def isEmpty (set : IntegerSet) : Bool := set.constraints == [⟨.zero, .const 1⟩]

/-- The number of constraints of one kind. -/
def countOf (set : IntegerSet) (relation : Relation) : Nat :=
  set.constraints.countP (·.relation == relation)

/-- The expressions of the constraints. -/
def exprs (set : IntegerSet) : List Expr := set.constraints.map (·.expr)

/-- The same kinds of constraints on other expressions. -/
def withExprs (set : IntegerSet) (dims syms : Nat) (exprs : List Expr) : IntegerSet :=
  ⟨dims, syms, set.constraints.zipWith (fun constraint expr => ⟨constraint.relation, expr⟩) exprs⟩

/-- Puts expressions in the place of the inputs in every constraint. -/
def substitute (set : IntegerSet) (dimExprs symExprs : List Expr) (dims syms : Nat) :
    IntegerSet :=
  set.withExprs dims syms (set.exprs.map (Expr.substitute dimExprs symExprs))

end IntegerSet

end AffineLoops
