import AffineLoops.BoundMap.Difference
import AffineLoops.Trail.AffineMap

/-!
# Trails of maps with operands

The trails of canonicalization, composition and differences.  A computation that is refused
leaves the trail up to the point of refusal.
-/

namespace AffineLoops

/-- A trail that goes on only if a computation succeeds. -/
def Trail.andThen {α : Type} (trail : Trail) (result : Except Fault α) (next : α → Trail) :
    Trail :=
  match result with
  | .error _ => trail
  | .ok a => trail ++ next a

namespace BoundExprs

/-- The expressions on the trail of one pass of canonicalization. -/
def passTrail (store : Store) (bound : BoundExprs) : List Expr :=
  let placement := bound.placement store
  .const 0 :: placement.symExprs ++ placement.dimExprs ++
    bound.exprs.flatMap (Expr.substituteTrail placement.dimExprs placement.symExprs)

/-- The trail of passes until nothing changes.  A pass ends by making an object from its
expressions. -/
def settleTrail (store : Store) (entry : BoundExprs → Entry) : Nat → BoundExprs → Trail
  | 0, _ => []
  | passes + 1, bound =>
      let next := bound.pass store
      Trail.ofExprs (bound.passTrail store) ++ entry next ::
        if next = bound then [] else settleTrail store entry passes next

/-- The trail of the canonical form. -/
def canonicalTrail (store : Store) (entry : BoundExprs → Entry) (bound : BoundExprs) : Trail :=
  if bound.operands = [] then []
  else bound.settleTrail store entry (bound.operands.length + bound.dims + 1)

end BoundExprs

namespace BoundSet

/-- The trail of the canonical form of a bound set. -/
def canonicalizeTrail (store : Store) (bound : BoundSet) : Trail :=
  Trail.andThen [] bound.checkOperandCount fun _ =>
    BoundExprs.canonicalTrail store
      (fun exprs => .set (bound.set.withExprs exprs.dims exprs.syms exprs.exprs))
      ⟨bound.set.dims, bound.set.syms, bound.set.exprs, bound.operands⟩

end BoundSet

namespace BoundMap

/-! ## Canonicalization -/

/-- The trail of the canonical form of a bound map. -/
def canonicalTrail (store : Store) (bound : BoundMap) : Trail :=
  bound.toExprs.canonicalTrail store fun exprs => .map (ofExprs exprs).map

/-- The trail of the canonical form, or of the refusal of the operands. -/
def canonicalizeTrail (store : Store) (bound : BoundMap) : Trail :=
  Trail.andThen [] bound.checkOperandCount fun _ => bound.canonicalTrail store

/-- The trail of simplifying and canonicalizing in turn. -/
def simplifyRoundsTrail (store : Store) : Nat → BoundMap → Trail
  | 0, _ => []
  | rounds + 1, bound =>
      let simplified := { bound with map := bound.map.simplify }
      let canonical := simplified.canonical store
      bound.map.simplifyTrail ++ simplified.canonicalTrail store ++
        if canonical = simplified then [] else simplifyRoundsTrail store rounds canonical

/-- The trail of the canonical form with simplified results. -/
def canonicalSimplifiedTrail (store : Store) (bound : BoundMap) : Trail :=
  let start := bound.canonical store
  bound.canonicalTrail store ++
    start.simplifyRoundsTrail store (start.operands.length + start.map.dims + 1)

end BoundMap

/-! ## Composition -/

namespace Slots

/-- The trail of placing the inputs of a map after those of the slots. -/
def replacementTrail (slots : Slots) (bound : BoundMap) : Trail :=
  bound.map.moveDimsTrail 0 (· + slots.dims.length) ++
    (bound.map.moveDims 0 (· + slots.dims.length)).moveSymsTrail 0 (· + slots.syms.length)

/-- The trail of numbering the inputs that are left. -/
def renumberTrail (slots : Slots) : Trail :=
  .ofExprs (.const 0 :: slots.dimExprs ++ slots.symExprs)

end Slots

namespace Composing

/-- The trail of putting the result of a map in the place of an input. -/
def absorbTrail (state : Composing) (input : Input) (bound : BoundMap) : Trail :=
  state.slots.replacementTrail bound ++
    .ofExprs (input.toExpr ::
      state.results.flatMap (Expr.replaceTrail input.toExpr (state.slots.replacement bound)))

/-- The trail of replacing inputs, in at most the given number of steps. -/
def runTrail (store : Store) : Nat → Composing → Trail
  | 0, _ => []
  | steps + 1, state =>
      match state.slots.next? store with
      | none => []
      | some (input, _, bound) =>
          state.absorbTrail input bound ++ runTrail store steps (state.absorb input bound)

/-- The trail of the map without the inputs that have been replaced. -/
def finishTrail (state : Composing) : Trail :=
  let slots := state.slots
  let trail := slots.renumberTrail ++
    .ofExprs (state.results.flatMap (Expr.substituteTrail slots.dimExprs slots.symExprs))
  trail.andThen state.finish fun bound => [.map bound.map]

end Composing

namespace BoundMap

/-- The trail of composition. -/
def composeTrail (store : Store) (limit : Nat) (bound : BoundMap) : Trail :=
  Trail.andThen [] bound.checkOperandCount fun _ =>
    if bound.map.results = [] then bound.canonicalSimplifiedTrail store
    else
      bound.toComposing.runTrail store limit ++
        match bound.toComposing.run? store limit with
        | none => []
        | some state =>
            state.finishTrail.andThen state.finish (·.canonicalSimplifiedTrail store)

/-- The trail of composing again while an operand is the result of an apply operation. -/
def composeRoundsTrail (store : Store) (limit : Nat) : Nat → BoundMap → Trail
  | 0, _ => []
  | rounds + 1, bound =>
      if bound.operands.any fun operand => (store.definingApply? operand).isSome then
        (bound.composeTrail store limit).andThen (bound.compose store limit)
          (composeRoundsTrail store limit rounds)
      else []

/-- The trail of composing until no operand is the result of an apply operation. -/
def fullyComposeTrail (store : Store) (limit : Nat) (bound : BoundMap) : Trail :=
  (bound.composeTrail store limit).andThen (bound.compose store limit)
    (composeRoundsTrail store limit limit)

/-- The trail of composing and canonicalizing. -/
def normalizeTrail (store : Store) (limit : Nat) (bound : BoundMap) : Trail :=
  (bound.composeTrail store limit).andThen (bound.compose store limit) (·.canonicalTrail store)

/-! ## Differences -/

/-- The trail of subtracting the results of two bound maps. -/
def subtractTrail (lhs rhs : BoundMap) : Trail :=
  let trail : Trail := .ofExprs <|
    lhs.laterDims rhs ++ lhs.laterSyms rhs ++
      (lhs.map.results.zip rhs.map.results).flatMap fun (a, b) =>
        b.substituteTrail (lhs.laterDims rhs) (lhs.laterSyms rhs) ++
          a.subTrail (b.substitute (lhs.laterDims rhs) (lhs.laterSyms rhs))
  trail.andThen (lhs.subtract rhs) fun bound => [.map bound.map]

/-- The trail of the simplified difference of two bound maps. -/
def differenceTrail (store : Store) (limit : Nat) (lhs rhs : BoundMap) : Trail :=
  (lhs.fullyComposeTrail store limit).andThen (lhs.fullyCompose store limit) fun lhs =>
    (rhs.fullyComposeTrail store limit).andThen (rhs.fullyCompose store limit) fun rhs =>
      (lhs.subtractTrail rhs).andThen (lhs.subtract rhs) (·.canonicalSimplifiedTrail store)

end BoundMap

/-- The trail of the difference of two value maps. -/
def ValueMap.differenceTrail (store : Store) (limit : Nat) (lhs rhs : ValueMap) : Trail :=
  if lhs.bound.map.resultCount = rhs.bound.map.resultCount ∧ lhs.context = rhs.context then
    lhs.bound.differenceTrail store limit rhs.bound
  else []

end AffineLoops
