import AffineLoops.Description
import AffineLoops.IR.Nesting

/-!
# Reading of names and words

The names of dimensions, symbols and scalar types, and the words and signs for operators,
relations, severities and traits, read back as what they stand for.
-/

namespace AffineLoops

/-- The number that decimal digits stand for, if it is a count of one word.  A plus sign may
stand in front. -/
def count? (text : List Char) : Option Nat :=
  let digits := match text with
    | '+' :: rest => rest
    | _ => text
  if digits.isEmpty || !digits.all Char.isDigit then none
  else
    let value := digits.foldl (fun value digit => value * 10 + (digit.toNat - '0'.toNat)) 0
    if value ≤ Word.maxUnsigned then some value else none

/-- The dimension or symbol with a name such as `d0` or `s0`. -/
def Expr.ofName? (name : String) : Option Expr :=
  match name.toList with
  | 'd' :: position => (count? position).map .dim
  | 's' :: position => (count? position).map .sym
  | _ => none

/-- The scalar type with a name such as `index`, `i32` or `f32`. -/
def Ty.ofName? (name : String) : Option Ty :=
  if name = "index" then some .index
  else
    match name.toList with
    | 'i' :: width => (count? width).map .integer
    | 'f' :: width => (count? width).map .float
    | _ => none

/-- The operator with a sign. -/
def BinaryOp.ofSymbol? (symbol : String) : Option BinaryOp :=
  [add, mul, mod, floorDiv, ceilDiv].find? (·.symbol == symbol)

/-- The relation with a sign. -/
def Relation.ofSymbol? (symbol : String) : Option Relation :=
  [zero, nonnegative].find? (·.symbol == symbol)

/-- The severity with a word. -/
def Severity.ofWord? (word : String) : Option Severity :=
  [error, warning, note, remark].find? (·.word == word)

/-- The order of a walk with a word. -/
def WalkOrder.ofWord? : String → Option WalkOrder
  | "pre" => some pre
  | "post" => some post
  | _ => none

/-- All traits. -/
def Trait.all : List Trait := [affineScope, isolatedFromAbove, terminator]

/-- The trait with a word. -/
def Trait.ofWord? (word : String) : Option Trait := all.find? (·.word == word)

end AffineLoops
