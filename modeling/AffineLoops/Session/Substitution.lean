import AffineLoops.Session.Numbered

/-!
# Substitution in a session

The replacements of a substitution may belong to any context.  Where all parts belong to one
context, the substitution is the one for expressions, maps and sets.  Otherwise it is carried out
by number.  Sets and types refer by number to parts that belong to other contexts.
-/

namespace AffineLoops.Session

/-- Whether all expressions belong to a context. -/
def allIn (id : ContextId) (exprs : List (Owned Expr)) : Bool := exprs.all (·.context == id)

/-! ## Expressions -/

/-- Puts expressions in the place of dimensions and symbols. -/
def substitute (dims syms : List (Owned Expr)) (e : Owned Expr) : SessionM (Owned Expr) := do
  if allIn e.context (dims ++ syms) then
    let dimExprs := dims.map (·.item)
    let symExprs := syms.map (·.item)
    enter e.context (.ofExprs (e.item.substituteTrail dimExprs symExprs))
    return ⟨e.context, e.item.substitute dimExprs symExprs⟩
  else
    exprOf .written
      (← substituteNumbered (← dims.mapM numberOf) (← syms.mapM numberOf) (← numberOf e))

/-- Puts one expression in the place of another, wherever that one occurs. -/
def replace (target replacement e : Owned Expr) : SessionM (Owned Expr) := do
  if allIn e.context [target, replacement] then
    enter e.context (.ofExprs (Expr.replaceTrail target.item replacement.item e.item))
    return ⟨e.context, .replace target.item replacement.item e.item⟩
  else
    exprOf .written
      (← replaceNumbered (← numberOf target) (← numberOf replacement) (← numberOf e))

/-- Puts the results of a map in the place of dimensions. -/
def composeWith (e : Owned Expr) (map : Owned AffineMap) : SessionM (Owned Expr) :=
  substitute (map.item.results.map (⟨map.context, ·⟩)) [] e

/-! ## Maps and sets -/

/-- Changes expressions of a context by number. -/
def changeExprs (id : ContextId) (change : Numbered → SessionM Numbered) (exprs : List Expr) :
    SessionM (List Nat) :=
  exprs.mapM fun e => do return (← change (← numberOf ⟨id, e⟩)).item

/-- Changes the results of a map by number.  The map refers to them by the numbers that result,
and these are read in the context of the map. -/
def changeMap (change : Numbered → SessionM Numbered) (dims syms : Nat)
    (map : Owned AffineMap) : SessionM (Owned AffineMap) := do
  let results ← changeExprs map.context change map.item.results
  let number ← lookUp map.context (·.internMapNode ⟨dims, syms, results⟩)
  return ⟨map.context, ← mapOf map.context number⟩

/-- Changes the expressions of a set by number.  The set refers to them by the numbers that
result, and these are read in the context of the set. -/
def changeSet (change : Numbered → SessionM Numbered) (dims syms : Nat)
    (set : Owned IntegerSet) : SessionM (Owned IntegerSet) := do
  let exprs ← changeExprs set.context change set.item.exprs
  let constraints := (set.item.constraints.map (·.relation)).zip exprs
  let _ ← lookUp set.context (·.internSetNode ⟨dims, syms, constraints⟩)
  let read ← exprs.mapM fun number => exprOf .written ⟨set.context, number⟩
  return ⟨set.context, set.item.withExprs dims syms (read.map (·.item))⟩

/-- Puts expressions in the place of the inputs of a map. -/
def substituteMap (dimExprs symExprs : List (Owned Expr)) (dims syms : Nat)
    (map : Owned AffineMap) : SessionM (Owned AffineMap) := do
  if allIn map.context (dimExprs ++ symExprs) then
    let dimExprs := dimExprs.map (·.item)
    let symExprs := symExprs.map (·.item)
    enter map.context (map.item.substituteTrail dimExprs symExprs dims syms)
    return ⟨map.context, map.item.substitute dimExprs symExprs dims syms⟩
  else
    let change := substituteNumbered (← dimExprs.mapM numberOf) (← symExprs.mapM numberOf)
    changeMap change dims syms map

/-- Puts one expression in the place of another in every result of a map. -/
def replaceMap (target replacement : Owned Expr) (dims syms : Nat)
    (map : Owned AffineMap) : SessionM (Owned AffineMap) := do
  if allIn map.context [target, replacement] then
    enter map.context (map.item.replaceTrail target.item replacement.item dims syms)
    return ⟨map.context, map.item.replace target.item replacement.item dims syms⟩
  else
    changeMap (replaceNumbered (← numberOf target) (← numberOf replacement)) dims syms map

/-- Puts expressions in the place of the inputs of a set. -/
def substituteSet (dimExprs symExprs : List (Owned Expr)) (dims syms : Nat)
    (set : Owned IntegerSet) : SessionM (Owned IntegerSet) := do
  if allIn set.context (dimExprs ++ symExprs) then
    let dimExprs := dimExprs.map (·.item)
    let symExprs := symExprs.map (·.item)
    enter set.context (set.item.substituteTrail dimExprs symExprs dims syms)
    return ⟨set.context, set.item.substitute dimExprs symExprs dims syms⟩
  else
    let change := substituteNumbered (← dimExprs.mapM numberOf) (← symExprs.mapM numberOf)
    changeSet change dims syms set

/-! ## Types -/

/-- The layout that a map of any context gives in a context, where it is known by number. -/
def layoutOf (id : ContextId) (map : Owned AffineMap) : SessionM Layout := do
  if map.context = id then return .map map.item
  else
    let number ← lookUp map.context (·.internMap map.item)
    let tables := ((← get).context id).tables
    return (Layout.numbered number).resolve tables.map?

/-- The element type that a type of any context gives in a context, where it is known by number. -/
def elementOf (id : ContextId) (element : Owned Ty) : SessionM Ty := do
  if element.context = id then return element.item
  else
    let number ← lookUp element.context (·.internType element.item)
    let tables := ((← get).context id).tables
    return tables.lookup.type number

/-- A type of memory references whose element type and layouts may belong to any context. -/
def memrefType (id : ContextId) (shape : List Size) (element : Owned Ty)
    (layouts : List (Owned AffineMap)) : SessionM Ty := do
  let element ← elementOf id element
  ownType id (.memref shape element (← layouts.mapM (layoutOf id)))

/-- A type of vectors whose element type may belong to any context. -/
def vectorType (id : ContextId) (shape : List Nat) (element : Owned Ty) : SessionM Ty := do
  ownType id (.vector shape (← elementOf id element))

/-- Whether two types of a context are the same. -/
def sameType (id : ContextId) (a b : Ty) : SessionM Bool := do
  let lookup := ((← get).context id).tables.lookup
  return a.resolve lookup == b.resolve lookup

end AffineLoops.Session
