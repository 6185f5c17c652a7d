import AffineLoops.Diagnostics
import AffineLoops.IR.Construct
import AffineLoops.Trail.AffineMap

/-!
# Sessions

A session is the state in which programs are built and analysed: the program graph, and for
every context the tables of its unique objects and its handlers of diagnostics.  Steps of a
session may fail with a fault; what they have done before that stays done.
-/

namespace AffineLoops

/-- What can be chosen for a session. -/
structure Options where
  /-- How many apply operations one composition may absorb. -/
  stepLimit : Nat
  /-- Whether diagnostics that no handler consumes are to be logged. -/
  logUnhandled : Bool
  deriving DecidableEq

/-- The part of a session that belongs to one context. -/
structure Context where
  tables : Tables
  handlers : Handlers

instance : Inhabited Context := ⟨⟨.empty, .none⟩⟩

/-- The state of a session, and the diagnostics that handlers have recorded in it. -/
structure Session where
  options : Options
  store : Store
  contexts : Array Context
  records : List Record

/-- The steps of a session. -/
abbrev SessionM := ExceptT Fault (StateM Session)

namespace Session

/-- A session without any nodes, with the same handlers in each of its contexts. -/
def start (options : Options) (contextCount : Nat) (handlers : List Handler) : Session :=
  { options
    store := .empty
    contexts := Array.replicate contextCount ⟨.empty, handlers.foldl .attach .none⟩
    records := [] }

/-- A context of a session. -/
def context (session : Session) (id : ContextId) : Context := session.contexts.getD id default

/-- Changes the tables of a context.  Layouts and element types that are known by number only are
resolved when the context has new maps or types. -/
def withTables (session : Session) (id : ContextId) (tables : Tables) : Session :=
  let known := (session.context id).tables
  { session with
    contexts := session.contexts.modify id ({ · with tables })
    store := if tables.maps.size = known.maps.size ∧ tables.types.size = known.types.size then
        session.store
      else session.store.resolveTypes id tables.lookup }

/-- Changes the handlers of a context. -/
def withHandlers (session : Session) (id : ContextId) (handlers : Handlers) : Session :=
  { session with contexts := session.contexts.modify id ({ · with handlers }) }

/-! ## Unique objects -/

/-- Looks something up in the tables of a context, or puts it there. -/
def lookUp (id : ContextId) (intern : Tables → Nat × Tables) : SessionM Nat := fun session =>
  let (index, tables) := intern (session.context id).tables
  (.ok index, session.withTables id tables)

/-- Enters the objects of a trail in the tables of a context. -/
def enter (id : ContextId) (trail : Trail) : SessionM Unit := fun session =>
  (.ok (), session.withTables id ((session.context id).tables.enterAll trail))

/-- An expression of a context. -/
def ownExpr (id : ContextId) (e : Expr) : SessionM (Owned Expr) := do
  let _ ← lookUp id (·.internExpr e)
  return ⟨id, e⟩

/-- A map of a context. -/
def ownMap (id : ContextId) (map : AffineMap) : SessionM (Owned AffineMap) := do
  let _ ← lookUp id (·.internMap map)
  return ⟨id, map⟩

/-- A set of a context. -/
def ownSet (id : ContextId) (set : IntegerSet) : SessionM (Owned IntegerSet) := do
  let _ ← lookUp id (·.internSet set)
  return ⟨id, set⟩

/-- A type of a context. -/
def ownType (id : ContextId) (type : Ty) : SessionM Ty := do
  let _ ← lookUp id (·.internType type)
  return type

/-- The map with a number in a context. -/
def mapOf (id : ContextId) (number : Nat) : SessionM AffineMap := fun session =>
  ((session.context id).tables.readMap number, session)

/-- A type with maps and types for all the numbers in it. -/
def readType (type : Owned Ty) : SessionM Ty := fun session =>
  let tables := (session.context type.context).tables
  (tables.readType (type.item.resolve tables.lookup), session)

/-! ## Steps on the program graph -/

/-- The program graph. -/
def graph : SessionM Store := do return (← get).store

/-- The limit for compositions. -/
def stepLimit : SessionM Nat := do return (← get).options.stepLimit

/-- The types of values. -/
def typesOf (values : List ValueId) : SessionM (List Ty) := do
  let store ← graph
  values.mapM fun value => readType (store.ownedType value)

/-- The outcome of a check or an analysis.  A fault that names a type is told only if the type can
be read. -/
def ofExcept {α : Type} (result : Except Fault α) : SessionM α := do
  match result with
  | .ok a => return a
  | .error fault =>
      let _ ← fault.type?.mapM readType
      throw fault

/-- The program graph with maps and types in the place of numbers in types, for which there are
some. -/
def resolved (session : Session) : Store :=
  (List.range session.contexts.size).foldl
    (fun store id => store.resolveTypes id (session.context id).tables.lookup) session.store

/-- A construction in the program graph. -/
def build {α : Type} (construction : Build α) : SessionM α := do
  let (result, store) := construction (← graph)
  modify ({ · with store })
  modify fun session => { session with store := session.resolved }
  ofExcept result

/-- A computation in a context, which leaves a trail there even if it is refused. -/
def follow {α : Type} (id : ContextId) (trail : Store → Nat → Trail)
    (compute : Store → Nat → Except Fault α) : SessionM α := do
  let store ← graph
  let limit ← stepLimit
  enter id (trail store limit)
  ofExcept (compute store limit)

/-- The number of operations of a context. -/
def operationCount (session : Session) (id : ContextId) : Nat := session.store.nextOpNumber id

/-! ## Diagnostics -/

/-- Emits a diagnostic to the handlers of a context. -/
def emit (id : ContextId) (diagnostic : Diagnostic) : SessionM Unit := fun session =>
  let (handlers, records) := (session.context id).handlers.emit diagnostic
  let session := session.withHandlers id handlers
  (.ok (), { session with records := session.records ++ records })

/-- Emits a diagnostic about an operation in its own context. -/
def emitAt (op : OpId) (severity : Severity) (message : String) : SessionM Unit := do
  emit ((← graph).op op).context ⟨severity, message, some op⟩

/-- Attaches a handler to a context and gives its number. -/
def attach (id : ContextId) (handler : Handler) : SessionM Nat := fun session =>
  let handlers := (session.context id).handlers
  (.ok handlers.nextId, session.withHandlers id (handlers.attach handler))

/-- Detaches the handler with a number from a context. -/
def detach (id : ContextId) (number : Nat) : SessionM Unit := fun session =>
  (.ok (), session.withHandlers id ((session.context id).handlers.detach number))

end Session

end AffineLoops
