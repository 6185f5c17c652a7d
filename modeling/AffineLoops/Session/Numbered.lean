import AffineLoops.Session.Basic

/-!
# Expressions by number

A context knows its expressions by number, and an operation in it refers to its operands by
their numbers.  Here expressions are folded and replaced by number.  Nothing but the nodes that
are looked at has to be there, and the operands of an operation need not belong to one context:
the operation is entered in the context of its left operand, and there it refers to the right
operand by the number that this operand has in its own context.  What that number stands for is
seen only when the operation is read.  Where all expressions belong to one context, this is
folding and replacing of expressions.
-/

namespace AffineLoops.Session

/-- An expression of a context by its number there. -/
abbrev Numbered := Owned Nat

/-! ## Reading and entering -/

/-- The number of an expression. -/
def numberOf (e : Owned Expr) : SessionM Numbered := do
  return ⟨e.context, ← lookUp e.context (·.internExpr e.item)⟩

/-- The fault of a number that stands for no expression. -/
def unknown {α : Type} (e : Numbered) : SessionM α := do
  throw (.unknownNumber ((← get).context e.context).tables.exprs.size e.item)

/-- The expression with a number, whose operands are looked at in the given order. -/
def exprOf (order : Tables.Order) (e : Numbered) : SessionM (Owned Expr) := do
  return ⟨e.context, ← ofExcept (((← get).context e.context).tables.readExpr order e.item)⟩

/-- The node with a number. -/
def nodeOf (e : Numbered) : SessionM ExprNode := do
  match ((← get).context e.context).tables.exprs.get? e.item with
  | some node => return node
  | none => unknown e

/-- Enters a node in a context. -/
def enterNode (id : ContextId) (node : ExprNode) : SessionM Numbered := do
  return ⟨id, ← lookUp id (·.internNode node)⟩

/-- A constant of a context. -/
def enterConst (id : ContextId) (value : Int) : SessionM Numbered := enterNode id (.const value)

/-- An operation exactly as written, in the context of its left operand. -/
def enterBinary (op : BinaryOp) (lhs rhs : Numbered) : SessionM Numbered :=
  enterNode lhs.context (.binary op lhs.item rhs.item)

/-- The value of a constant. -/
def constantOf? (e : Numbered) : SessionM (Option Int) := do
  match ← nodeOf e with
  | .const value => return some value
  | _ => return none

/-- The left operand of an operation with a constant on its right, and that constant. -/
def constOperand? (op : BinaryOp) (e : Numbered) :
    SessionM (Option (Numbered × Numbered × Int)) := do
  match ← nodeOf e with
  | .binary found lhs rhs =>
      if found = op then
        match ← constantOf? ⟨e.context, rhs⟩ with
        | some value => return some (⟨e.context, lhs⟩, ⟨e.context, rhs⟩, value)
        | none => return none
      else return none
  | _ => return none

/-- An expression as a term times a constant factor. -/
def scaledTermOf (e : Numbered) : SessionM (Numbered × Int) := do
  match ← constOperand? .mul e with
  | some (term, _, factor) => return (term, factor)
  | none => return (e, 1)

/-! ## Folding -/

/-- The constant that an operation folds to, if there is one, and else the operation as
written. -/
def constOrBinary (op : BinaryOp) (lhs rhs : Numbered) (value : Option Int) :
    SessionM Numbered :=
  match value with
  | some value => enterConst lhs.context value
  | none => enterBinary op lhs rhs

/-- The folded quotient or remainder, where a product is built by `times`. -/
def divideNumbered (times : Numbered → Numbered → SessionM Numbered) (op : BinaryOp)
    (lhs rhs : Numbered) : SessionM Numbered := do
  match ← constantOf? rhs with
  | none => enterBinary op lhs rhs
  | some divisor =>
      if divisor ≤ 0 then enterBinary op lhs rhs
      else
        match ← constantOf? lhs with
        | some value => enterConst lhs.context (op.apply value divisor)
        | none =>
            if divisor = 1 then
              if op = .mod then enterConst lhs.context 0 else return lhs
            else
              match ← constOperand? .mul lhs with
              | none => enterBinary op lhs rhs
              | some (x, _, factor) =>
                  if factor % divisor ≠ 0 then enterBinary op lhs rhs
                  else if op = .mod then enterConst lhs.context 0
                  else times x (← enterConst lhs.context (factor / divisor))

/-- Builds an operation and folds it, in at most the given number of nested steps. -/
def foldWithin : Nat → BinaryOp → Numbered → Numbered → SessionM Numbered
  | 0, _, lhs, _ => unknown lhs
  | steps + 1, .add, lhs, rhs => do
      match ← constantOf? lhs, ← constantOf? rhs with
      | some a, some b => constOrBinary .add lhs rhs (Word.add? a b)
      | some _, none => foldWithin steps .add rhs lhs
      | none, some b =>
          if b = 0 then return lhs
          else
            match ← constOperand? .add lhs with
            | none => enterBinary .add lhs rhs
            | some (x, _, a) =>
                match Word.add? a b with
                | none => enterBinary .add lhs rhs
                | some sum => foldWithin steps .add x (← enterConst lhs.context sum)
      | none, none =>
          match ← constOperand? .add lhs with
          | some (x, c, _) =>
              let sum ← foldWithin steps .add x rhs
              foldWithin steps .add sum c
          | none =>
              let (lhsTerm, lhsFactor) ← scaledTermOf lhs
              let (rhsTerm, rhsFactor) ← scaledTermOf rhs
              if lhsTerm = rhsTerm then
                match Word.add? lhsFactor rhsFactor with
                | none => enterBinary .add lhs rhs
                | some factor => foldWithin steps .mul lhsTerm (← enterConst lhs.context factor)
              else enterBinary .add lhs rhs
  | steps + 1, .mul, lhs, rhs => do
      match ← constantOf? lhs, ← constantOf? rhs with
      | some a, some b => constOrBinary .mul lhs rhs (Word.mul? a b)
      | some _, none => foldWithin steps .mul rhs lhs
      | none, none => enterBinary .mul lhs rhs
      | none, some b =>
          if b = 0 then enterConst lhs.context 0
          else if b = 1 then return lhs
          else
            match ← constOperand? .mul lhs with
            | none => enterBinary .mul lhs rhs
            | some (x, _, a) =>
                match Word.mul? a b with
                | none => enterBinary .mul lhs rhs
                | some product => foldWithin steps .mul x (← enterConst lhs.context product)
  | steps + 1, op, lhs, rhs => divideNumbered (foldWithin steps .mul) op lhs rhs

/-- The number of expressions of all contexts.  It bounds how deep an expression is. -/
def exprCount : SessionM Nat := do
  return (← get).contexts.foldl (fun count context => count + context.tables.exprs.size) 0

/-- Builds an operation and folds it.  Nested steps go to an operand of the left operand or
exchange the operands. -/
def foldNumbered (op : BinaryOp) (lhs rhs : Numbered) : SessionM Numbered := do
  foldWithin (2 * (← exprCount) + 4) op lhs rhs

/-! ## Replacing -/

/-- Replaces the outermost subterms for which `replacement?` has an answer, to the given
depth. -/
def transformWithin (replacement? : Numbered → SessionM (Option Numbered)) :
    Nat → Numbered → SessionM Numbered
  | 0, e => unknown e
  | depth + 1, e => do
      match ← replacement? e with
      | some replacement => return replacement
      | none =>
          match ← nodeOf e with
          | .binary op lhs rhs =>
              let newLhs ← transformWithin replacement? depth ⟨e.context, lhs⟩
              let newRhs ← transformWithin replacement? depth ⟨e.context, rhs⟩
              if newLhs = ⟨e.context, lhs⟩ ∧ newRhs = ⟨e.context, rhs⟩ then return e
              else foldNumbered op newLhs newRhs
          | _ => return e

/-- Puts expressions in the place of dimensions and symbols. -/
def substituteNumbered (dims syms : List Numbered) (e : Numbered) : SessionM Numbered := do
  transformWithin (fun current => do
    match ← nodeOf current with
    | .dim position => return dims[position]?
    | .sym position => return syms[position]?
    | _ => return none) ((← exprCount) + 1) e

/-- Puts one expression in the place of another, wherever that one occurs. -/
def replaceNumbered (target replacement e : Numbered) : SessionM Numbered := do
  transformWithin (fun current => return if current = target then some replacement else none)
    ((← exprCount) + 1) e

end AffineLoops.Session
