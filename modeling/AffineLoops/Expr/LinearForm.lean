import AffineLoops.Expr.Fold

/-!
# Linear forms and simplification

An expression is flattened into a linear form over its dimensions, its symbols and, for the
quotients and remainders that cannot be resolved, further local terms.  Putting the form back
together gives the simplified expression.  An expression that has no linear form within the
range of words, or that uses positions beyond the given counts, is left as it is.
-/

namespace AffineLoops

/-- A linear combination: a coefficient for every dimension, symbol and local term, in this
order, and a constant.  Missing coefficients at the end of the row are zero. -/
structure LinearForm where
  coefficients : List Int
  constant : Int
  deriving DecidableEq

namespace LinearForm

/-- The form of a constant. -/
def ofConst (value : Int) : LinearForm := ⟨[], value⟩

/-- The form of the term with the given index. -/
def ofTerm (index : Nat) : LinearForm := ⟨List.replicate index 0 ++ [1], 0⟩

/-- Whether every coefficient is zero. -/
def isConst (form : LinearForm) : Bool := form.coefficients.all (· == 0)

/-- The sum of two rows of coefficients, if it consists of words. -/
def addRows? : List Int → List Int → Option (List Int)
  | [], row => some row
  | row, [] => some row
  | a :: row, b :: row' =>
      match Word.add? a b, addRows? row row' with
      | some sum, some rest => some (sum :: rest)
      | _, _ => none

/-- A multiple of a row of coefficients, if it consists of words. -/
def scaleRow? (factor : Int) : List Int → Option (List Int)
  | [] => some []
  | a :: row =>
      match Word.mul? a factor, scaleRow? factor row with
      | some product, some rest => some (product :: rest)
      | _, _ => none

/-- The sum of two forms, if it consists of words. -/
def add? (lhs rhs : LinearForm) : Option LinearForm :=
  match addRows? lhs.coefficients rhs.coefficients, Word.add? lhs.constant rhs.constant with
  | some row, some constant => some ⟨row, constant⟩
  | _, _ => none

/-- A multiple of a form, if it consists of words. -/
def scale? (factor : Int) (form : LinearForm) : Option LinearForm :=
  match scaleRow? factor form.coefficients, Word.mul? form.constant factor with
  | some row, some constant => some ⟨row, constant⟩
  | _, _ => none

/-- Every coefficient and the constant reduced modulo a divisor. -/
def reduce (divisor : Int) (form : LinearForm) : LinearForm :=
  ⟨form.coefficients.map (· % divisor), form.constant % divisor⟩

/-- Every coefficient and the constant divided by a common divisor. -/
def cancel (divisor : Int) (form : LinearForm) : LinearForm :=
  ⟨form.coefficients.map (· / divisor), form.constant / divisor⟩

/-- The greatest common divisor of a number and all entries of a form. -/
def commonDivisor (divisor : Int) (form : LinearForm) : Nat :=
  (form.coefficients ++ [form.constant]).foldl
    (fun result entry => Nat.gcd result entry.natAbs) divisor.natAbs

end LinearForm

namespace Expr

/-- The term behind an index of a linear form. -/
def termAt (dims syms : Nat) (locals : List Expr) (index : Nat) : Expr :=
  if index < dims then dim index
  else if index < dims + syms then sym (index - dims)
  else locals.getD (index - dims - syms) (const 0)

/-- Adds the terms of a row, from the given index on, to a partial sum. -/
def sumTerms (dims syms : Nat) (locals : List Expr) :
    Nat → List Int → Option Expr → Option Expr
  | _, [], partialSum => partialSum
  | index, coefficient :: row, partialSum =>
      if coefficient = 0 then sumTerms dims syms locals (index + 1) row partialSum
      else
        let term := termAt dims syms locals index
        let term := if coefficient = 1 then term else mulConst term coefficient
        sumTerms dims syms locals (index + 1) row <| some <|
          match partialSum with
          | some sum => add sum term
          | none => term

/-- The expression of a linear form, with the terms in the order of their indices and the
constant last. -/
def ofLinearForm (dims syms : Nat) (locals : List Expr) (form : LinearForm) : Expr :=
  match sumTerms dims syms locals 0 form.coefficients none with
  | some sum => if form.constant = 0 then sum else addConst sum form.constant
  | none => const form.constant

/-- The form of a local term, and the local terms with this one among them. -/
def localForm (dims syms : Nat) (term : Expr) (locals : List Expr) :
    LinearForm × List Expr :=
  match locals.idxOf? term with
  | some index => (.ofTerm (dims + syms + index), locals)
  | none => (.ofTerm (dims + syms + locals.length), locals ++ [term])

/-- The form of a quotient or remainder of a form by a positive divisor.  Remainders reduce
all entries first, and quotients cancel what the entries and the divisor have in common;
what then cannot be resolved becomes a local term. -/
def flattenDivision (dims syms : Nat) (op : BinaryOp) (form : LinearForm) (divisor : Int)
    (locals : List Expr) : LinearForm × List Expr :=
  if op = .mod then
    let form := form.reduce divisor
    if form.isConst then (.ofConst form.constant, locals)
    else
      localForm dims syms
        (divide op (ofLinearForm dims syms locals form) (const divisor)) locals
  else
    let common : Int := form.commonDivisor divisor
    let form := form.cancel common
    let divisor := divisor / common
    if form.coefficients.all (· % divisor == 0) then
      (⟨form.coefficients.map (· / divisor), op.apply form.constant divisor⟩, locals)
    else
      localForm dims syms
        (divide op (ofLinearForm dims syms locals form) (const divisor)) locals

/-- The form of an operation on two forms, beside the local terms met so far. -/
def flattenBinary (dims syms : Nat) (op : BinaryOp) (left right : LinearForm)
    (locals : List Expr) : Option (LinearForm × List Expr) :=
  match op with
  | .add => (left.add? right).map (·, locals)
  | .mul =>
      if right.isConst then (left.scale? right.constant).map (·, locals)
      else if left.isConst then (right.scale? left.constant).map (·, locals)
      else none
  | _ =>
      if right.isConst ∧ 0 < right.constant then
        some (flattenDivision dims syms op left right.constant locals)
      else none

/-- The linear form of an expression with the given numbers of dimensions and symbols,
beside the local terms met so far. -/
def flattenWith (dims syms : Nat) : Expr → List Expr → Option (LinearForm × List Expr)
  | dim position, locals =>
      if position < dims then some (.ofTerm position, locals) else none
  | sym position, locals =>
      if position < syms then some (.ofTerm (dims + position), locals) else none
  | const value, locals => some (.ofConst value, locals)
  | binary op lhs rhs, locals =>
      match flattenWith dims syms lhs locals with
      | none => none
      | some (left, locals) =>
          match flattenWith dims syms rhs locals with
          | none => none
          | some (right, locals) => flattenBinary dims syms op left right locals

/-- The linear form of an expression and its local terms. -/
def flatten? (dims syms : Nat) (e : Expr) : Option (LinearForm × List Expr) :=
  flattenWith dims syms e []

/-- The coefficients of the dimensions and symbols, followed by the constant, of an
expression that is linear in them. -/
def coefficients? (dims syms : Nat) (e : Expr) : Option (List Int) :=
  match flatten? dims syms e with
  | none => none
  | some (form, _) =>
      if (form.coefficients.drop (dims + syms)).all (· == 0) then
        let row := form.coefficients.take (dims + syms)
        some (row ++ List.replicate (dims + syms - row.length) 0 ++ [form.constant])
      else none

/-- The expression of the linear form, or the expression itself if it has none. -/
def simplify (dims syms : Nat) (e : Expr) : Expr :=
  match flatten? dims syms e with
  | some (form, locals) => ofLinearForm dims syms locals form
  | none => e

end Expr

end AffineLoops
