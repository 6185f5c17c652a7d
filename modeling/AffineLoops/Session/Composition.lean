import AffineLoops.Session.Numbered
import AffineLoops.Trail.Loop

/-!
# Composition in a session

The operands of a map may belong to any context, and so may the apply operations that produce
them.  Where all operands belong to the context of the map, composition is the one for bound
maps.  Otherwise the results are replaced by number: a result that ends up in another context is
refused.
-/

namespace AffineLoops

/-- Whether all operands belong to the context of the map. -/
def Owned.isNative (bound : Owned BoundMap) (store : Store) : Bool :=
  bound.item.operands.all fun operand => (store.value operand).context == bound.context

namespace Session

/-! ## Maps -/

/-- Replaces inputs by the results of apply operations, in at most the given number of steps. -/
def absorbAll (id : ContextId) : Nat → Slots → List Numbered → SessionM (Slots × List Numbered)
  | steps, slots, results => do
      match slots.next? (← graph) with
      | none => return (slots, results)
      | some (input, value, bound) =>
          match steps with
          | 0 => throw (.compositionLimit (← stepLimit))
          | steps + 1 =>
              let owner := ((← graph).value value).context
              enter owner (slots.replacementTrail bound)
              let replacement ← numberOf ⟨owner, slots.replacement bound⟩
              let target ← numberOf ⟨id, input.toExpr⟩
              let results ← results.mapM (replaceNumbered target replacement)
              absorbAll id steps ((slots.clear input).extend bound) results

/-- Reads the results of a map of a context.  A result of another context and a position that is
no input are refused. -/
def resultsIn (id : ContextId) (dims syms : Nat) : List Numbered → SessionM (List Expr)
  | [] => return []
  | e :: rest => do
      if e.context ≠ id then throw .contextMismatch
      let e ← exprOf .leftToRight e
      ofExcept (e.item.checkPositions dims syms)
      let others ← resultsIn id dims syms rest
      return e.item :: others

/-- The composition of a map whose operands belong to several contexts, before it is brought
into canonical form. -/
def absorbed (bound : Owned BoundMap) : SessionM BoundMap := do
  let id := bound.context
  let results ← bound.item.map.results.mapM fun e => numberOf ⟨id, e⟩
  let (slots, results) ← absorbAll id (← stepLimit) bound.item.slots results
  enter id slots.renumberTrail
  let dims ← slots.dimExprs.mapM fun e => numberOf ⟨id, e⟩
  let syms ← slots.symExprs.mapM fun e => numberOf ⟨id, e⟩
  let results ← results.mapM (substituteNumbered dims syms)
  let dims := slots.dimOperands
  let syms := slots.symOperands
  let map ← ownMap id
    ⟨dims.length, syms.length, ← resultsIn id dims.length syms.length results⟩
  return ⟨map.item, dims ++ syms⟩

/-- Composes a map with the apply operations that produce its operands. -/
def compose (bound : Owned BoundMap) : SessionM BoundMap := do
  let store ← graph
  if bound.isNative store || bound.item.map.results.isEmpty ||
      bound.item.operands.length != bound.item.map.inputs then
    follow bound.context (bound.item.composeTrail · ·) (bound.item.compose · ·)
  else
    let composed ← absorbed bound
    follow bound.context (fun store _ => composed.canonicalSimplifiedTrail store)
      fun store _ => .ok (composed.canonicalSimplified store)

/-- Composes again while an operand is the result of an apply operation, for at most the given
number of rounds. -/
def composeAgain : Nat → Owned BoundMap → SessionM BoundMap
  | rounds, bound => do
      let store ← graph
      if bound.item.operands.any fun operand => (store.definingApply? operand).isSome then
        match rounds with
        | 0 => throw (.compositionLimit (← stepLimit))
        | rounds + 1 => composeAgain rounds ⟨bound.context, ← compose bound⟩
      else return bound.item

/-- Composes until no operand is the result of an apply operation. -/
def fullyCompose (bound : Owned BoundMap) : SessionM BoundMap := do
  if bound.isNative (← graph) then
    follow bound.context (bound.item.fullyComposeTrail · ·) (bound.item.fullyCompose · ·)
  else composeAgain (← stepLimit) ⟨bound.context, ← compose bound⟩

/-- The canonical form of a map with its operands, if it differs. -/
def canonicalizeMap (bound : Owned BoundMap) : SessionM (Option BoundMap) :=
  follow bound.context (fun store _ => bound.item.canonicalizeTrail store)
    fun store _ => bound.item.canonicalize store

/-- The canonical form of a set with its operands, if it differs. -/
def canonicalizeSet (bound : Owned BoundSet) : SessionM (Option BoundSet) :=
  follow bound.context (fun store _ => bound.item.canonicalizeTrail store)
    fun store _ => bound.item.canonicalize store

/-! ## Bounds -/

/-- The composed and canonical form of a bound, without repeated results. -/
def canonicalBound (bound : Owned BoundMap) : SessionM BoundMap := do
  if bound.isNative (← graph) then
    follow bound.context (bound.item.canonicalBoundTrail · ·) (bound.item.canonicalBound · ·)
  else
    let composed ← compose bound
    follow bound.context
      (fun store _ =>
        composed.canonicalTrail store ++ [.map (composed.canonical store).map.dedupe])
      fun store _ =>
        let canonical := composed.canonical store
        .ok { canonical with map := canonical.map.dedupe }

/-- Canonicalizes bounds of the given contexts, if that changes anything. -/
def canonicalizeBounds (lower upper : ContextId) (bounds : Bounds) : SessionM (Option Bounds) := do
  let canonical := { bounds with
    lower := ← canonicalBound ⟨lower, bounds.lower⟩
    upper := ← canonicalBound ⟨upper, bounds.upper⟩ }
  return if canonical = bounds then none else some canonical

/-- The constant to which a bound folds.  Its map is made in the context of the lower bound. -/
def foldBound (lower : ContextId) (kind : BoundKind) (bound : Owned BoundMap) :
    SessionM (Option Int) := do
  let value ← follow bound.context (fun store _ => bound.item.foldBoundTrail store)
    fun store _ => bound.item.foldBound? store kind
  enter lower (Bounds.constantTrail value)
  return value

/-- Folds the bounds that fold to constants, if there are any. -/
def foldBounds (lower upper : ContextId) (bounds : Bounds) : SessionM (Option Bounds) := do
  let _ ← foldBound lower .lower ⟨lower, bounds.lower⟩
  let _ ← foldBound lower .upper ⟨upper, bounds.upper⟩
  ofExcept (bounds.foldConstants (← graph))

end Session

end AffineLoops
