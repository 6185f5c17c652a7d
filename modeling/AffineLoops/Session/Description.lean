import AffineLoops.Session.Basic

/-!
# Description of a context

The choices made for a session, the numbers of unique objects of a context, and the numbers of
nodes it has in the program graph.
-/

namespace AffineLoops

/-- A description with named entries, in braces. -/
def describeEntries (kind : String) (entries : List (String × String)) : String :=
  kind ++ " \x7b " ++ ", ".intercalate (entries.map fun (name, text) => name ++ ": " ++ text) ++
    " \x7d"

/-- The choices made for a session. -/
def Options.described (options : Options) : String :=
  describeEntries "ContextOptions" [("composition_step_limit", options.stepLimit.repr),
    ("log_unhandled_diagnostics", if options.logUnhandled then "true" else "false")]

namespace Session

/-- What a context holds. -/
def counts (session : Session) (id : ContextId) : List (String × Nat) :=
  let tables := (session.context id).tables
  [("affine_expression_count", tables.exprs.size), ("affine_map_count", tables.maps.size),
    ("integer_set_count", tables.sets.size), ("type_count", tables.types.size),
    ("operation_count", session.store.nextOpNumber id),
    ("block_count", session.store.nextBlockNumber id),
    ("region_count", session.store.nextRegionNumber id),
    ("value_count", session.store.nextValueNumber id)]

/-- A context. -/
def describedContext (session : Session) (id : ContextId) : String :=
  describeEntries "Context" <| ("options", session.options.described) ::
    (session.counts id).map fun (name, count) => (name, count.repr)

end Session

end AffineLoops
