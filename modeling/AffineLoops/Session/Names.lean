import AffineLoops.Session.Basic

/-!
# Names of objects

Objects of a session can be given names.  A new use of a name replaces the old one, but a node
of the program graph keeps being shown under the first name it was given.  With an operation
its results, its regions, their entry blocks and the arguments of these get names too.
-/

namespace AffineLoops

/-- What a name can stand for. -/
inductive Named where
  | expr (e : Owned Expr)
  | map (map : Owned AffineMap)
  | set (set : Owned IntegerSet)
  | op (id : OpId)
  | block (id : BlockId)
  | region (id : RegionId)
  | value (id : ValueId)
  | valueMap (map : ValueMap)
  | handler (number : Nat)
  deriving DecidableEq

/-- Names and what they stand for, and for every named node its first name. -/
structure Names where
  objects : List (String × Named)
  ops : List (OpId × String)
  blocks : List (BlockId × String)
  regions : List (RegionId × String)
  values : List (ValueId × String)
  deriving DecidableEq

namespace Named

/-- The expression. -/
def expr? : Named → Option (Owned Expr)
  | .expr e => some e
  | _ => none

/-- The map. -/
def map? : Named → Option (Owned AffineMap)
  | .map found => some found
  | _ => none

/-- The set. -/
def set? : Named → Option (Owned IntegerSet)
  | .set found => some found
  | _ => none

/-- The operation. -/
def op? : Named → Option OpId
  | .op id => some id
  | _ => none

/-- The block. -/
def block? : Named → Option BlockId
  | .block id => some id
  | _ => none

/-- The region. -/
def region? : Named → Option RegionId
  | .region id => some id
  | _ => none

/-- The value; an operation stands for its first result. -/
def value? (store : Store) : Named → Option ValueId
  | .value id => some id
  | .op id => (store.op id).results.head?
  | _ => none

/-- The value map. -/
def valueMap? : Named → Option ValueMap
  | .valueMap found => some found
  | _ => none

/-- The number of the handler. -/
def handler? : Named → Option Nat
  | .handler number => some number
  | _ => none

end Named

namespace Names

/-- No names. -/
def none : Names := ⟨[], [], [], [], []⟩

/-- What a name stands for. -/
def find? (names : Names) (name : String) : Option Named := names.objects.lookup name

/-- Adds a first name unless there is one. -/
def addFirst {α : Type} [BEq α] (node : α) (name : String) (firsts : List (α × String)) :
    List (α × String) :=
  if (firsts.lookup node).isSome then firsts else (node, name) :: firsts

/-- Gives a name to an object. -/
def bind (names : Names) (name : String) (object : Named) : Names :=
  let names := { names with objects := (name, object) :: names.objects }
  match object with
  | .op id => { names with ops := addFirst id name names.ops }
  | .block id => { names with blocks := addFirst id name names.blocks }
  | .region id => { names with regions := addFirst id name names.regions }
  | .value id => { names with values := addFirst id name names.values }
  | _ => names

/-- Gives numbered names to values. -/
def bindValues (names : Names) (label : String) (values : List ValueId) : Names :=
  values.zipIdx.foldl (fun names (value, index) => names.bind (label ++ index.repr) (.value value))
    names

/-- Gives a name to a block, and names to its arguments that begin with a label. -/
def bindBlock (names : Names) (store : Store) (name label : String) (id : BlockId) : Names :=
  (names.bind name (.block id)).bindValues (label ++ ".arg") (store.block id).arguments

/-- Gives names to a region of an operation and to its entry block. -/
def bindRegion (names : Names) (store : Store) (name : String) (index : Nat) (id : RegionId) :
    Names :=
  let names := names.bind (name ++ ".region" ++ index.repr) (.region id)
  match store.entryBlock? id with
  | .none => names
  | some block =>
      let label := name ++ ".block" ++ index.repr
      names.bindBlock store label (if index = 0 then name else label) block

/-- Gives a name to an operation, and names to what it produces and contains. -/
def bindOp (names : Names) (store : Store) (name : String) (id : OpId) : Names :=
  let names := (names.bind name (.op id)).bindValues (name ++ ".") (store.op id).results
  (store.op id).regions.zipIdx.foldl
    (fun names (region, index) => names.bindRegion store name index region) names

/-- An operation with its first name. -/
def showOp (names : Names) (store : Store) (id : OpId) : String :=
  match names.ops.lookup id with
  | some name => store.name id ++ "@" ++ name
  | .none => store.name id

/-- Whether an operation is listed, with or without its first name. -/
def isListed (names : Names) (store : Store) (texts : List String) (id : OpId) : Bool :=
  texts.contains (names.showOp store id) || texts.contains (store.name id)

/-- Walks through an operation, leaving out what is below listed operations and stopping at
others. -/
def walk (names : Names) (store : Store) (order : WalkOrder) (skip interrupt : List String)
    (id : OpId) : WalkTrace :=
  store.walk order (fun op =>
    if names.isListed store interrupt op then .interrupt
    else if names.isListed store skip op then .skip
    else .advance) id

/-- The suffix that asks for the else branch of a conditional. -/
def elseSuffix : String := ".else"

/-- The conditional whose else branch a name asks for. -/
def elseOwner? (names : Names) (name : String) : Option OpId :=
  if name.endsWith elseSuffix then
    (names.find? (name.dropEnd elseSuffix.length).toString).bind Named.op?
  else Option.none

/-- The place that a name stands for: the end of a block, the body of an operation, or the else
branch of a conditional. -/
def place? (names : Names) (store : Store) (name : String) : Option Build.Place :=
  match names.find? name with
  | some (.block id) => some (.endOf id)
  | some (.op id) => Build.placeIn? store id
  | some _ => Option.none
  | .none => (names.elseOwner? name).bind (Build.placeInElse? store)

end Names

end AffineLoops
