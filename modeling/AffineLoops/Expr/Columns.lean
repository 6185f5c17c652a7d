import AffineLoops.Fault
import AffineLoops.Trail.Expr

/-!
# Simplification in columns

A row of coefficients has a column for every dimension, symbol and local term.  The numbers of the
columns are words: they are sums of counts that are not checked, so that two columns may share a
number when the counts are too large.  A row that is too long to be stored is refused.  As long as
all columns have numbers of their own and the rows can be stored, simplification gives what
`Expr.simplify` does.  The expressions that are made on the way are noted.
-/

namespace AffineLoops

/-- Computations that note the expressions they make, also if they are refused. -/
abbrev Noting := ExceptT Fault (StateM (List Expr))

/-- Notes expressions that are made. -/
def note (made : List Expr) : Noting Unit := modify (· ++ made)

/-- The form of the term in a column.  Its row has an entry for every column up to this one. -/
def LinearForm.ofColumn (column : Nat) : Noting LinearForm :=
  let length := Word.wrap (column + 1)
  if length = 0 then throw (.unknownNumber length column)
  else if Word.maxLength < length then throw .capacity
  else return .ofTerm column

namespace Expr

/-- The term behind a column. -/
def termIn (dims syms : Nat) (locals : List Expr) (column : Nat) : Noting Expr :=
  if column < dims then return dim column
  else if column < Word.wrap (dims + syms) then return sym (column - dims)
  else
    let index := Word.wrap (column - dims + (Word.maxUnsigned + 1 - syms))
    match locals[index]? with
    | some term => return term
    | none => throw (.unknownNumber locals.length index)

/-- Adds the terms of a row, from the given column on, to a partial sum. -/
def sumColumns (dims syms : Nat) (locals : List Expr) :
    Nat → List Int → Option Expr → Noting (Option Expr)
  | _, [], partialSum => return partialSum
  | column, coefficient :: row, partialSum =>
      if coefficient = 0 then sumColumns dims syms locals (column + 1) row partialSum
      else do
        let term ← termIn dims syms locals column
        note (term :: if coefficient = 1 then [] else timesTrail term coefficient)
        let scaled := if coefficient = 1 then term else mulConst term coefficient
        match partialSum with
        | some sum =>
            note (addTrail sum scaled)
            sumColumns dims syms locals (column + 1) row (some (add sum scaled))
        | none => sumColumns dims syms locals (column + 1) row (some scaled)

/-- The expression of a linear form. -/
def ofColumns (dims syms : Nat) (locals : List Expr) (form : LinearForm) : Noting Expr := do
  match ← sumColumns dims syms locals 0 form.coefficients none with
  | some sum =>
      if form.constant = 0 then return sum
      else
        note (plusTrail sum form.constant)
        return addConst sum form.constant
  | none =>
      note [const form.constant]
      return const form.constant

/-- The form of a local term, and the local terms with this one among them. -/
def localColumn (dims syms : Nat) (term : Expr) (locals : List Expr) :
    Noting (LinearForm × List Expr) := do
  match locals.idxOf? term with
  | some index =>
      let form ← LinearForm.ofColumn (Word.wrap (dims + syms + index))
      return (form, locals)
  | none =>
      let form ← LinearForm.ofColumn (Word.wrap (dims + syms + locals.length))
      return (form, locals ++ [term])

/-- The form of a quotient or remainder that cannot be resolved.  A remainder makes its divisor
first, a quotient makes it last. -/
def divideColumns (dims syms : Nat) (op : BinaryOp) (form : LinearForm) (divisor : Int)
    (locals : List Expr) : Noting (LinearForm × List Expr) := do
  note (if op = .mod then [const divisor] else [])
  let dividend ← ofColumns dims syms locals form
  note (if op = .mod then [] else [const divisor])
  note (divideTrail op dividend (const divisor))
  localColumn dims syms (divide op dividend (const divisor)) locals

/-- The form of a quotient or remainder by a positive divisor. -/
def flattenDivisionColumns (dims syms : Nat) (op : BinaryOp) (form : LinearForm) (divisor : Int)
    (locals : List Expr) : Noting (LinearForm × List Expr) :=
  if op = .mod then
    let form := form.reduce divisor
    if form.isConst then return (.ofConst form.constant, locals)
    else divideColumns dims syms op form divisor locals
  else
    let common : Int := form.commonDivisor divisor
    let form := form.cancel common
    let divisor := divisor / common
    if form.coefficients.all (· % divisor == 0) then
      return (⟨form.coefficients.map (· / divisor), op.apply form.constant divisor⟩, locals)
    else divideColumns dims syms op form divisor locals

/-- The form of an operation on two forms.  Only divisions make new columns. -/
def flattenBinaryColumns (dims syms : Nat) (op : BinaryOp) (left right : LinearForm)
    (locals : List Expr) : Noting (Option (LinearForm × List Expr)) := do
  if op.isDivision && right.isConst && 0 < right.constant then
    return some (← flattenDivisionColumns dims syms op left right.constant locals)
  else return flattenBinary dims syms op left right locals

/-- The linear form of an expression, beside the local terms met so far. -/
def flattenColumns (dims syms : Nat) :
    Expr → List Expr → Noting (Option (LinearForm × List Expr))
  | dim position, locals => do
      if position < dims then
        let form ← LinearForm.ofColumn position
        return some (form, locals)
      else return none
  | sym position, locals => do
      if position < syms then
        let form ← LinearForm.ofColumn (Word.wrap (dims + position))
        return some (form, locals)
      else return none
  | const value, locals => return some (.ofConst value, locals)
  | binary op lhs rhs, locals => do
      match ← flattenColumns dims syms lhs locals with
      | none => return none
      | some (left, locals) =>
          match ← flattenColumns dims syms rhs locals with
          | none => return none
          | some (right, locals) => flattenBinaryColumns dims syms op left right locals

/-- The expression of a linear form with its local terms, or the expression itself if there is no
form. -/
def rebuildColumns (dims syms : Nat) (e : Expr) : Option (LinearForm × List Expr) → Noting Expr
  | some (form, locals) => ofColumns dims syms locals form
  | none => return e

/-- Simplifies an expression. -/
def simplifyColumns (dims syms : Nat) (e : Expr) : Noting Expr := do
  rebuildColumns dims syms e (← flattenColumns dims syms e [])

/-- The coefficients of the dimensions and symbols, followed by the constant, of an expression that
is linear in them.  The row is brought to its full length first. -/
def inputColumns? (dims syms : Nat) (e : Expr) : Noting (Option (List Int)) := do
  match ← flattenColumns dims syms e [] with
  | none => return none
  | some (form, locals) =>
      let length := Word.wrap (dims + syms + locals.length)
      if Word.maxLength < length then throw .capacity
      let row := form.coefficients.take length ++
        List.replicate (length - form.coefficients.length) 0
      let inputs := Word.wrap (dims + syms)
      if (row.drop inputs).all (· == 0) then return some (row.take inputs ++ [form.constant])
      else return none

end Expr

end AffineLoops
