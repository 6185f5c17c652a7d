import AffineLoops.Loop.Basic

/-!
# Shifts of the operations in a body

Shifting the operations of a loop body against each other keeps their dependences if every
operation is shifted as far as those that use its results.  A use at any depth counts as a use
by the operation of the body around it.
-/

namespace AffineLoops.Store

variable (store : Store)

/-- The shift of the operation of a body that is or contains a user. -/
def userShift? (body : BlockId) (shifts : List Nat) (user : OpId) : Option Nat :=
  match store.ancestorInBlock? body user with
  | none => none
  | some ancestor =>
      match store.position? body ancestor with
      | none => none
      | some position => shifts[position]?

/-- Whether all users of the results of an operation have the shift of the operation. -/
def keepsShift (body : BlockId) (shifts : List Nat) (id : OpId) (shift : Nat) : Bool :=
  (store.op id).results.all fun result =>
    (store.users result).all fun user =>
      match store.userShift? body shifts user with
      | none => true
      | some other => other == shift

/-- Whether shifts, one for every operation of the body, keep the dependences. -/
def isShiftValid (loop : ForLoop) (shifts : List Nat) : Except Fault Bool :=
  let operations := (store.block loop.body).operations
  if shifts.length = operations.length then
    .ok ((operations.zip shifts).all fun (id, shift) => store.keepsShift loop.body shifts id shift)
  else .error (.shiftCount operations.length shifts.length)

end AffineLoops.Store
