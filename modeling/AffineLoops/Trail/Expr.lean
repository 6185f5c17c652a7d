import AffineLoops.Expr.LinearForm
import AffineLoops.Expr.Substitution

/-!
# Trails of expressions

A context numbers expressions in the order in which it first meets them.  The trail of a
computation lists the expressions that it makes on its way, in the order in which it makes
them; an expression that is handed on unchanged is not made.  So the trail says which numbers a
context gives while the computation runs.  Every trail follows the definition that it belongs
to, case by case.
-/

namespace AffineLoops.Expr

/-! ## Folding -/

/-- The trail of the sum with a constant that is there already. -/
def addConstTrail : Expr → Int → List Expr
  | const a, c =>
      match Word.add? a c with
      | some sum => [const sum]
      | none => [binary .add (const a) (const c)]
  | binary .add x (const a), c =>
      if c = 0 then []
      else
        match Word.add? a c with
        | some sum => const sum :: addConstTrail x sum
        | none => [binary .add (binary .add x (const a)) (const c)]
  | e, c => if c = 0 then [] else [binary .add e (const c)]

/-- The trail of the product with a constant that is there already. -/
def mulConstTrail : Expr → Int → List Expr
  | const a, c =>
      match Word.mul? a c with
      | some product => [const product]
      | none => [binary .mul (const a) (const c)]
  | binary .mul x (const a), c =>
      if c = 0 then [const 0]
      else if c = 1 then []
      else
        match Word.mul? a c with
        | some product => const product :: mulConstTrail x product
        | none => [binary .mul (binary .mul x (const a)) (const c)]
  | e, c => if c = 0 then [const 0] else if c = 1 then [] else [binary .mul e (const c)]

/-- The trail of the sum of two expressions that are not constants, the left one not ending in
a constant. -/
def addTermsTrail (lhs rhs : Expr) : List Expr :=
  if lhs.scaledTerm.1 = rhs.scaledTerm.1 then
    match Word.add? lhs.scaledTerm.2 rhs.scaledTerm.2 with
    | some factor => const factor :: mulConstTrail lhs.scaledTerm.1 factor
    | none => [binary .add lhs rhs]
  else [binary .add lhs rhs]

/-- The trail of the folded sum. -/
def addTrail : Expr → Expr → List Expr
  | lhs, const c => addConstTrail lhs c
  | const c, rhs => addConstTrail rhs c
  | binary .add x (const c), rhs => addTrail x rhs ++ addConstTrail (add x rhs) c
  | lhs, rhs => addTermsTrail lhs rhs

/-- The trail of the folded product. -/
def mulTrail : Expr → Expr → List Expr
  | lhs, const c => mulConstTrail lhs c
  | const c, rhs => mulConstTrail rhs c
  | lhs, rhs => [binary .mul lhs rhs]

/-- The trail of the folded quotient or remainder by a positive constant. -/
def divConstTrail (op : BinaryOp) (lhs : Expr) (divisor : Int) : List Expr :=
  match lhs with
  | const a => [const (op.apply a divisor)]
  | _ =>
      if divisor = 1 then
        if op = .mod then [const 0] else []
      else
        match lhs with
        | binary .mul x (const factor) =>
            if factor % divisor = 0 then
              if op = .mod then [const 0]
              else const (factor / divisor) :: mulConstTrail x (factor / divisor)
            else [binary op lhs (const divisor)]
        | _ => [binary op lhs (const divisor)]

/-- The trail of the folded quotient or remainder. -/
def divideTrail (op : BinaryOp) (lhs rhs : Expr) : List Expr :=
  match rhs with
  | const divisor => if 0 < divisor then divConstTrail op lhs divisor else [binary op lhs rhs]
  | _ => [binary op lhs rhs]

/-- The trail of an operation that is built and folded. -/
def foldTrail : BinaryOp → Expr → Expr → List Expr
  | .add, lhs, rhs => addTrail lhs rhs
  | .mul, lhs, rhs => mulTrail lhs rhs
  | op, lhs, rhs => divideTrail op lhs rhs

/-- The trail of the sum with a constant that is made for it. -/
def plusTrail (e : Expr) (c : Int) : List Expr := const c :: addConstTrail e c

/-- The trail of the product with a constant that is made for it. -/
def timesTrail (e : Expr) (c : Int) : List Expr := const c :: mulConstTrail e c

/-- The trail of the folded difference. -/
def subTrail (lhs rhs : Expr) : List Expr := timesTrail rhs (-1) ++ addTrail lhs (neg rhs)

/-! ## Substitution -/

/-- Replaces the outermost subterms for which `replacement?` has an answer, and lists the
expressions that this makes. -/
def transformTraced (replacement? : Expr → Option Expr) : Expr → Expr × List Expr
  | binary op lhs rhs =>
      match replacement? (binary op lhs rhs) with
      | some e => (e, [e])
      | none =>
          let (newLhs, lhsTrail) := transformTraced replacement? lhs
          let (newRhs, rhsTrail) := transformTraced replacement? rhs
          if newLhs = lhs ∧ newRhs = rhs then (binary op lhs rhs, lhsTrail ++ rhsTrail)
          else (fold op newLhs newRhs, lhsTrail ++ rhsTrail ++ foldTrail op newLhs newRhs)
  | leaf => ((replacement? leaf).getD leaf, (replacement? leaf).toList)

/-- The trail of replacing the outermost subterms for which `replacement?` has an answer. -/
def transformTrail (replacement? : Expr → Option Expr) (e : Expr) : List Expr :=
  (transformTraced replacement? e).2

/-- The trail of putting expressions in the place of dimensions and symbols. -/
def substituteTrail (dims syms : List Expr) (e : Expr) : List Expr :=
  transformTrail (inputReplacement? dims syms) e

/-- The trail of putting one expression in the place of another. -/
def replaceTrail (target replacement : Expr) (e : Expr) : List Expr :=
  transformTrail (targetReplacement? target replacement) e

/-- The trail of moving dimensions. -/
def moveDimsTrail (offset count : Nat) (move : Nat → Nat) (e : Expr) : List Expr :=
  transformTrail (movedDim? offset count move) e

/-- The trail of moving symbols. -/
def moveSymsTrail (offset count : Nat) (move : Nat → Nat) (e : Expr) : List Expr :=
  transformTrail (movedSym? offset count move) e

/-! ## Simplification -/

/-- The trail of adding the terms of a row, from the given index on, to a partial sum. -/
def sumTermsTrail (dims syms : Nat) (locals : List Expr) :
    Nat → List Int → Option Expr → List Expr
  | _, [], _ => []
  | index, coefficient :: row, partialSum =>
      if coefficient = 0 then sumTermsTrail dims syms locals (index + 1) row partialSum
      else
        let term := termAt dims syms locals index
        let scaled := if coefficient = 1 then term else mulConst term coefficient
        let own := term :: if coefficient = 1 then [] else timesTrail term coefficient
        match partialSum with
        | some sum =>
            own ++ addTrail sum scaled ++
              sumTermsTrail dims syms locals (index + 1) row (some (add sum scaled))
        | none => own ++ sumTermsTrail dims syms locals (index + 1) row (some scaled)

/-- The trail of the expression of a linear form. -/
def ofLinearFormTrail (dims syms : Nat) (locals : List Expr) (form : LinearForm) : List Expr :=
  sumTermsTrail dims syms locals 0 form.coefficients none ++
    match sumTerms dims syms locals 0 form.coefficients none with
    | some sum => if form.constant = 0 then [] else plusTrail sum form.constant
    | none => [const form.constant]

/-- The trail of a quotient or remainder that becomes a local term.  A remainder makes its
divisor first, a quotient makes it last. -/
def localTermTrail (dims syms : Nat) (op : BinaryOp) (form : LinearForm) (divisor : Int)
    (locals : List Expr) : List Expr :=
  let dividendTrail := ofLinearFormTrail dims syms locals form
  let operandsTrail :=
    if op = .mod then const divisor :: dividendTrail else dividendTrail ++ [const divisor]
  operandsTrail ++ divideTrail op (ofLinearForm dims syms locals form) (const divisor)

/-- The trail of the form of a quotient or remainder by a positive divisor. -/
def flattenDivisionTrail (dims syms : Nat) (op : BinaryOp) (form : LinearForm) (divisor : Int)
    (locals : List Expr) : List Expr :=
  if op = .mod then
    let form := form.reduce divisor
    if form.isConst then [] else localTermTrail dims syms op form divisor locals
  else
    let common : Int := form.commonDivisor divisor
    let form := form.cancel common
    let divisor := divisor / common
    if form.coefficients.all (· % divisor == 0) then []
    else localTermTrail dims syms op form divisor locals

/-- The trail of the form of an operation on two forms. -/
def flattenBinaryTrail (dims syms : Nat) (op : BinaryOp) (left right : LinearForm)
    (locals : List Expr) : List Expr :=
  if op.isDivision && right.isConst && 0 < right.constant then
    flattenDivisionTrail dims syms op left right.constant locals
  else []

/-- The linear form of an expression, beside the local terms met so far, and the expressions that
flattening makes. -/
def flattenTraced (dims syms : Nat) :
    Expr → List Expr → Option (LinearForm × List Expr) × List Expr
  | binary op lhs rhs, locals =>
      match flattenTraced dims syms lhs locals with
      | (none, lhsTrail) => (none, lhsTrail)
      | (some (left, locals), lhsTrail) =>
          match flattenTraced dims syms rhs locals with
          | (none, rhsTrail) => (none, lhsTrail ++ rhsTrail)
          | (some (right, locals), rhsTrail) =>
              (flattenBinary dims syms op left right locals,
                lhsTrail ++ rhsTrail ++ flattenBinaryTrail dims syms op left right locals)
  | leaf, locals => (flattenWith dims syms leaf locals, [])

/-- The trail of the linear form of an expression. -/
def flattenTrail (dims syms : Nat) (e : Expr) : List Expr := (flattenTraced dims syms e []).2

/-- The trail of simplification. -/
def simplifyTrail (dims syms : Nat) (e : Expr) : List Expr :=
  match flattenTraced dims syms e [] with
  | (some (form, locals), trail) => trail ++ ofLinearFormTrail dims syms locals form
  | (none, trail) => trail

end AffineLoops.Expr
