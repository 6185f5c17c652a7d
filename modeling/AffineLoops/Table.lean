import Std.Data.HashMap

/-!
# Tables

A table numbers distinct elements in the order in which they are entered, and finds the number of
an element without going through all of them.  The number of an element never changes.
-/

namespace AffineLoops

/-- Distinct elements in order, with the number of each. -/
structure Table (α : Type) [DecidableEq α] [Hashable α] where
  elements : Array α
  numbers : Std.HashMap α Nat
  /-- An element has the number of its place. -/
  numbers_iff : ∀ (a : α) (number : Nat), numbers[a]? = some number ↔ elements[number]? = some a

namespace Table

variable {α : Type} [DecidableEq α] [Hashable α]

/-- A table without elements. -/
def empty : Table α := ⟨#[], ∅, fun a number => by simp⟩

/-- The number of elements. -/
def size (table : Table α) : Nat := table.elements.size

/-- The element with a number. -/
def get? (table : Table α) (number : Nat) : Option α := table.elements[number]?

/-- A new element at the end gets the next number. -/
theorem numbers_insert_iff (table : Table α) {a : α} (h : table.numbers[a]? = none)
    (b : α) (number : Nat) :
    (table.numbers.insert a table.elements.size)[b]? = some number ↔
      (table.elements.push a)[number]? = some b := by
  rw [Std.HashMap.getElem?_insert, Array.getElem?_push]
  have ha := table.numbers_iff a number
  have hb := table.numbers_iff b number
  by_cases hn : number = table.elements.size
  · subst hn
    by_cases hab : a = b <;> simp_all
  · by_cases hab : a = b
    · subst hab
      simp_all
      omega
    · simp_all

/-- The number of an element, which is entered if it is not there. -/
def intern (table : Table α) (a : α) : Nat × Table α :=
  match h : table.numbers[a]? with
  | some number => (number, table)
  | none =>
      (table.elements.size,
        { elements := table.elements.push a
          numbers := table.numbers.insert a table.elements.size
          numbers_iff := table.numbers_insert_iff h })

end Table

end AffineLoops
