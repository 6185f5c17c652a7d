/-!
# Objects of a context

Expressions, maps and sets are plain data.  Where it matters to which context one of them
belongs, it is kept together with the name of that context.
-/

namespace AffineLoops

/-- The name of a context. -/
abbrev ContextId := Nat

/-- An object and the context to which it belongs. -/
structure Owned (α : Type) where
  context : ContextId
  item : α
  deriving DecidableEq

end AffineLoops
