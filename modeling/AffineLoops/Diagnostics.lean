import AffineLoops.IR.Basic

/-!
# Diagnostics

A diagnostic goes to the handlers of a context, the newest first, until one of them consumes
it.  While handlers run, the list of handlers is set aside: what they attach comes into effect
after them, a diagnostic that they emit reaches only what has been attached in the meantime,
and a handler cannot detach itself.
-/

namespace AffineLoops

/-- How serious a diagnostic is. -/
inductive Severity where
  | error
  | warning
  | note
  | remark
  deriving DecidableEq

/-- A message, possibly about an operation. -/
structure Diagnostic where
  severity : Severity
  message : String
  op : Option OpId
  deriving DecidableEq

/-- A handler.  It records the diagnostics that it accepts.  On the first of them it may attach an
observer and emit the message once more as a note. -/
structure Handler where
  name : String
  accepts : Option Severity
  consumes : Bool
  attaches : Option String
  detachesItself : Bool
  emitsAgain : Bool
  wasCalled : Bool
  deriving DecidableEq

/-- A handler with the number under which it is attached. -/
structure AttachedHandler where
  id : Nat
  handler : Handler
  deriving DecidableEq

/-- A diagnostic that a handler has recorded. -/
structure Record where
  handler : String
  diagnostic : Diagnostic
  deriving DecidableEq

/-- The handlers of a context, the oldest first, and the number for the next one. -/
structure Handlers where
  attached : List AttachedHandler
  nextId : Nat
  deriving DecidableEq

/-- The word for a severity. -/
def Severity.word : Severity → String
  | error => "error"
  | warning => "warning"
  | note => "note"
  | remark => "remark"

/-- The text of a diagnostic with its severity and the name of its operation. -/
def Diagnostic.render (store : Store) (diagnostic : Diagnostic) : String :=
  diagnostic.severity.word ++ ": " ++ diagnostic.message ++
    match diagnostic.op with
    | none => ""
    | some op => " @ " ++ store.name op

namespace Handler

/-- A handler that records everything and consumes nothing. -/
def observer (name : String) : Handler :=
  ⟨name, none, false, none, false, false, false⟩

/-- A handler that records and consumes everything. -/
def consumer (name : String) : Handler :=
  ⟨name, none, true, none, false, false, false⟩

end Handler

namespace Handlers

/-- No handlers. -/
def none : Handlers := ⟨[], 0⟩

/-- Attaches a handler. -/
def attach (handlers : Handlers) (handler : Handler) : Handlers :=
  ⟨handlers.attached ++ [⟨handlers.nextId, handler⟩], handlers.nextId + 1⟩

/-- Detaches the handler with a number. -/
def detach (handlers : Handlers) (id : Nat) : Handlers :=
  { handlers with attached := handlers.attached.filter (·.id != id) }

/-- The records of observers, the newest first. -/
def observe (observers : Handlers) (diagnostic : Diagnostic) : List Record :=
  observers.attached.reverse.map fun entry => ⟨entry.handler.name, diagnostic⟩

/-- What becomes of a diagnostic while handlers run: the observers attached so far, the records
so far, and whether a handler has consumed it. -/
structure Delivery where
  observers : Handlers
  records : List Record
  consumed : Bool

/-- One handler's reaction. -/
def react (diagnostic : Diagnostic) (entry : AttachedHandler) (delivery : Delivery) :
    AttachedHandler × Delivery :=
  let handler := entry.handler
  if delivery.consumed || (handler.accepts.any (· != diagnostic.severity)) then (entry, delivery)
  else
    let records := delivery.records ++ [⟨handler.name, diagnostic⟩]
    let first := !handler.wasCalled
    let observers :=
      match handler.attaches with
      | some name =>
          if first then delivery.observers.attach (.observer name) else delivery.observers
      | .none => delivery.observers
    let observers := if handler.detachesItself then observers.detach entry.id else observers
    let records :=
      if first && handler.emitsAgain then
        records ++ observers.observe
          { diagnostic with severity := .note, message := "again: " ++ diagnostic.message }
      else records
    ({ entry with handler := { handler with wasCalled := true } },
      ⟨observers, records, handler.consumes⟩)

/-- Shows a diagnostic to handlers in the order given. -/
def deliver (diagnostic : Diagnostic) :
    List AttachedHandler → Delivery → List AttachedHandler × Delivery
  | [], delivery => ([], delivery)
  | entry :: rest, delivery =>
      let (entry, delivery) := react diagnostic entry delivery
      let (rest, delivery) := deliver diagnostic rest delivery
      (entry :: rest, delivery)

/-- Emits a diagnostic: the handlers afterwards and what has been recorded. -/
def emit (handlers : Handlers) (diagnostic : Diagnostic) : Handlers × List Record :=
  let (newestFirst, delivery) := deliver diagnostic handlers.attached.reverse
    ⟨⟨[], handlers.nextId⟩, [], false⟩
  (⟨newestFirst.reverse ++ delivery.observers.attached, delivery.observers.nextId⟩,
    delivery.records)

end Handlers

end AffineLoops
