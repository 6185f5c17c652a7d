import AffineLoops.BoundMap.Canonical

/-!
# Composition

Composition replaces every operand that an apply operation produces by the result of that
operation's map, until no such operand is left, and then canonicalizes and simplifies.  The
inputs of a map that is put in are placed after those that are there; an input that has been
replaced keeps its position, without a value, until all of them are numbered anew at the end.
The number of replacements is limited.
-/

namespace AffineLoops

/-- An input of a map. -/
inductive Input where
  | dim (position : Nat)
  | sym (position : Nat)
  deriving DecidableEq

/-- The expression of an input. -/
def Input.toExpr : Input → Expr
  | dim position => .dim position
  | sym position => .sym position

/-- The values of the inputs of a map under composition, and none for those replaced. -/
structure Slots where
  dims : List (Option ValueId)
  syms : List (Option ValueId)
  deriving DecidableEq

namespace Slots

/-- The first input that an apply operation produces, its value, and the map of that
operation. -/
def firstApplied? (store : Store) :
    Nat → List (Option ValueId) → Option (Nat × ValueId × BoundMap)
  | _, [] => none
  | position, none :: rest => firstApplied? store (position + 1) rest
  | position, some value :: rest =>
      match store.appliedMap? value with
      | some bound => some (position, value, bound)
      | none => firstApplied? store (position + 1) rest

/-- The next input to replace, dimensions before symbols. -/
def next? (store : Store) (slots : Slots) : Option (Input × ValueId × BoundMap) :=
  match firstApplied? store 0 slots.dims with
  | some (position, applied) => some (.dim position, applied)
  | none =>
      match firstApplied? store 0 slots.syms with
      | some (position, applied) => some (.sym position, applied)
      | none => none

/-- The slots without the value of an input. -/
def clear (slots : Slots) : Input → Slots
  | .dim position => { slots with dims := slots.dims.set position none }
  | .sym position => { slots with syms := slots.syms.set position none }

/-- The slots with the inputs of a map in addition. -/
def extend (slots : Slots) (bound : BoundMap) : Slots :=
  ⟨slots.dims ++ bound.dimOperands.map some, slots.syms ++ bound.symOperands.map some⟩

/-- The result of a map, over inputs that are placed after those of the slots.  No position leaves
the range of words here, since there is a value for each of them. -/
def replacement (slots : Slots) (bound : BoundMap) : Expr :=
  bound.map.results.headD (.const 0)
    |>.moveDims 0 bound.map.dims (· + slots.dims.length)
    |>.moveSyms 0 bound.map.syms (· + slots.syms.length)

/-- Numbers the inputs that have a value densely, from the given number on. -/
def renumber (input : Nat → Expr) : Nat → List (Option ValueId) → List Expr
  | _, [] => []
  | next, none :: rest => .const 0 :: renumber input next rest
  | next, some _ :: rest => input next :: renumber input (next + 1) rest

/-- What stands for each dimension when those that have a value are numbered densely. -/
def dimExprs (slots : Slots) : List Expr := renumber .dim 0 slots.dims

/-- What stands for each symbol when those that have a value are numbered densely. -/
def symExprs (slots : Slots) : List Expr := renumber .sym 0 slots.syms

/-- The values of the dimensions that are left. -/
def dimOperands (slots : Slots) : List ValueId := slots.dims.filterMap id

/-- The values of the symbols that are left. -/
def symOperands (slots : Slots) : List ValueId := slots.syms.filterMap id

end Slots

/-- A map under composition: the values of its inputs, and its results. -/
structure Composing where
  slots : Slots
  results : List Expr
  deriving DecidableEq

namespace Composing

/-- Puts the result of a map in the place of an input. -/
def absorb (state : Composing) (input : Input) (bound : BoundMap) : Composing :=
  { slots := (state.slots.clear input).extend bound
    results := state.results.map (Expr.replace input.toExpr (state.slots.replacement bound)) }

/-- Replaces the next input that an apply operation produces. -/
def step? (store : Store) (state : Composing) : Option Composing :=
  match state.slots.next? store with
  | some (input, _, bound) => some (state.absorb input bound)
  | none => none

/-- Replaces inputs until none is left to replace: `none` if that takes more than the given
number of steps. -/
def run? (store : Store) : Nat → Composing → Option Composing
  | steps, state =>
      match state.step? store with
      | none => some state
      | some next =>
          match steps with
          | 0 => none
          | steps + 1 => run? store steps next

/-- The map without the inputs that have been replaced. -/
def finish (state : Composing) : Except Fault BoundMap :=
  let slots := state.slots
  let results := state.results.map (Expr.substitute slots.dimExprs slots.symExprs)
  (AffineMap.ofResults slots.dimOperands.length slots.symOperands.length results).map
    (⟨·, slots.dimOperands ++ slots.symOperands⟩)

end Composing

namespace BoundMap

/-- The slots of a bound map before its composition. -/
def slots (bound : BoundMap) : Slots :=
  ⟨bound.dimOperands.map some, bound.symOperands.map some⟩

/-- The start of the composition of a bound map. -/
def toComposing (bound : BoundMap) : Composing := ⟨bound.slots, bound.map.results⟩

/-- What composition makes of a bound map with too few or too many operands.  Their number is
compared with the count of the inputs; where that has wrapped around to it, the operands of the
dimensions are missing as soon as there is a result that needs them. -/
def composeMiscounted (bound : BoundMap) : Except Fault BoundMap :=
  let count := bound.operands.length
  if count ≠ bound.map.inputCount then .error (.operandCount bound.map.inputCount count)
  else if bound.map.results ≠ [] then .error (.rangeEnd bound.map.dims count)
  else if bound.operands ≠ [] then .error .capacity
  else .ok bound

/-- Composes a bound map with the apply operations that produce its operands, in at most
`limit` steps. -/
def compose (store : Store) (limit : Nat) (bound : BoundMap) : Except Fault BoundMap :=
  if bound.operands.length ≠ bound.map.inputs then bound.composeMiscounted
  else if bound.map.results = [] then .ok (bound.canonicalSimplified store)
  else
    match bound.toComposing.run? store limit with
    | none => .error (.compositionLimit limit)
    | some state => state.finish.map (·.canonicalSimplified store)

/-- Composes again while an operand is the result of an apply operation, for at most `rounds`
rounds. -/
def composeRounds (store : Store) (limit : Nat) : Nat → BoundMap → Except Fault BoundMap
  | rounds, bound =>
      if bound.operands.any fun operand => (store.definingApply? operand).isSome then
        match rounds with
        | 0 => .error (.compositionLimit limit)
        | rounds + 1 =>
            match bound.compose store limit with
            | .error fault => .error fault
            | .ok composed => composeRounds store limit rounds composed
      else .ok bound

/-- Composes until no operand is the result of an apply operation. -/
def fullyCompose (store : Store) (limit : Nat) (bound : BoundMap) : Except Fault BoundMap :=
  match bound.compose store limit with
  | .error fault => .error fault
  | .ok composed => composed.composeRounds store limit limit

/-- Composes and canonicalizes. -/
def normalize (store : Store) (limit : Nat) (bound : BoundMap) : Except Fault BoundMap :=
  (bound.compose store limit).map (·.canonical store)

end BoundMap

end AffineLoops
