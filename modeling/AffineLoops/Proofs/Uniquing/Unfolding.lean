import AffineLoops.Uniquing
import Mathlib.Data.List.Forall2

/-!
# Unique objects and their trees

The tables of a context hold nodes that refer to each other by number.  A number *denotes* a tree if
unfolding its node, the nodes to which that one refers and so on gives the tree (`DenotesExpr`,
`DenotesMap`, `DenotesSet`, `DenotesType`).  Nothing is stored twice, so a tree has at most one
number (`Denotes.eq_iff`, for objects of all kinds).

* `rightUnique_denotesExpr`, `leftUnique_denotesExpr` and their companions: a number denotes one
  tree, and a tree has one number.  Both go by induction over the unfolding; the second one needs
  that the table holds a node once.
* `DenotesExpr.extend` and its companions: what a number denotes does not change while nodes are
  added.
-/

namespace AffineLoops

/-! ## Tables -/

namespace Table

variable {α : Type} [DecidableEq α] [Hashable α] {table table' table'' : Table α} {a b : α}
  {number number' : Nat}

/-- Every element of a table has the same number in another one. -/
def Extends (table table' : Table α) : Prop :=
  ∀ number a, table.get? number = some a → table'.get? number = some a

theorem Extends.refl (table : Table α) : table.Extends table := fun _ _ h => h

theorem Extends.trans (h : table.Extends table') (h' : table'.Extends table'') :
    table.Extends table'' := fun number a hget => h' number a (h number a hget)

theorem lt_size_iff : number < table.size ↔ ∃ a, table.get? number = some a := by
  simp [size, get?, Array.getElem?_eq_some_iff]

theorem lt_size (h : table.get? number = some a) : number < table.size := lt_size_iff.mpr ⟨a, h⟩

theorem Extends.lt_size (h : table.Extends table') (hlt : number < table.size) :
    number < table'.size := by
  obtain ⟨a, ha⟩ := lt_size_iff.mp hlt
  exact Table.lt_size (h number a ha)

/-- Nothing is stored twice. -/
theorem get?_injective (h : table.get? number = some a) (h' : table.get? number' = some a) :
    number = number' := by
  have hfirst := (table.numbers_iff a number).mpr h
  have hsecond := (table.numbers_iff a number').mpr h'
  exact Option.some.inj (hfirst.symm.trans hsecond)

theorem intern_of_get? (h : table.get? number = some a) : table.intern a = (number, table) := by
  have hfound := (table.numbers_iff a number).mpr h
  unfold intern
  split
  · rename_i found heq
    rw [Option.some.inj (heq.symm.trans hfound)]
  · rename_i hnone
    rw [hnone] at hfound
    cases hfound

/-- A new element is entered at the end. -/
theorem intern_of_new (h : ∀ number, table.get? number ≠ some a) :
    (table.intern a).1 = table.size ∧
      (table.intern a).2.elements = table.elements.push a := by
  unfold intern
  split
  · rename_i found heq
    exact absurd ((table.numbers_iff a found).mp heq) (h found)
  · exact ⟨rfl, rfl⟩

/-- After interning there are the old elements, and the new one at its number. -/
theorem get?_intern_iff (table : Table α) (a b : α) (number : Nat) :
    (table.intern a).2.get? number = some b ↔
      table.get? number = some b ∨ number = (table.intern a).1 ∧ b = a := by
  by_cases hold : ∃ number, table.get? number = some a
  · obtain ⟨found, hfound⟩ := hold
    rw [intern_of_get? hfound]
    constructor
    · exact Or.inl
    · rintro (h | ⟨rfl, rfl⟩)
      · exact h
      · exact hfound
  · obtain ⟨hnumber, helements⟩ := intern_of_new (not_exists.mp hold)
    rw [hnumber, get?, helements, Array.getElem?_push]
    simp only [get?, size]
    split
    · rename_i heq
      simp [heq, eq_comm]
    · rename_i hne
      simp [hne]

theorem get?_intern (table : Table α) (a : α) :
    (table.intern a).2.get? (table.intern a).1 = some a :=
  (get?_intern_iff table a a _).mpr (.inr ⟨rfl, rfl⟩)

theorem extends_intern (table : Table α) (a : α) : table.Extends (table.intern a).2 :=
  fun number b h => (get?_intern_iff table a b number).mpr (.inl h)

/-- A new number is larger than all that were there. -/
theorem le_of_intern (h : (table.intern a).2.get? number = some b)
    (hnew : table.get? number ≠ some b) : b = a ∧ table.size ≤ number := by
  obtain hold | ⟨rfl, rfl⟩ := (get?_intern_iff table a b number).mp h
  · exact absurd hold hnew
  · refine ⟨rfl, ?_⟩
    have hnone : ∀ number, table.get? number ≠ some b := by
      intro found hfound
      rw [intern_of_get? hfound] at hnew
      exact hnew hfound
    exact Nat.le_of_eq (intern_of_new hnone).1.symm

end Table

/-! ## What numbers stand for -/

namespace Tables

/-- A number stands for an expression. -/
inductive DenotesExpr (tables : Tables) : Nat → Expr → Prop
  | dim {number position : Nat} (h : tables.exprs.get? number = some (.dim position)) :
      DenotesExpr tables number (.dim position)
  | sym {number position : Nat} (h : tables.exprs.get? number = some (.sym position)) :
      DenotesExpr tables number (.sym position)
  | const {number : Nat} {value : Int} (h : tables.exprs.get? number = some (.const value)) :
      DenotesExpr tables number (.const value)
  | binary {number lhsNumber rhsNumber : Nat} {op : BinaryOp} {lhs rhs : Expr}
      (h : tables.exprs.get? number = some (.binary op lhsNumber rhsNumber))
      (hlhs : DenotesExpr tables lhsNumber lhs) (hrhs : DenotesExpr tables rhsNumber rhs) :
      DenotesExpr tables number (.binary op lhs rhs)

/-- A number stands for a map. -/
def DenotesMap (tables : Tables) (number : Nat) (map : AffineMap) : Prop :=
  ∃ results, tables.maps.get? number = some ⟨map.dims, map.syms, results⟩ ∧
    List.Forall₂ tables.DenotesExpr results map.results

/-- A kind with a number stands for a constraint. -/
def DenotesConstraint (tables : Tables) (pair : Relation × Nat) (constraint : Constraint) : Prop :=
  pair.1 = constraint.relation ∧ tables.DenotesExpr pair.2 constraint.expr

/-- A number stands for a set. -/
def DenotesSet (tables : Tables) (number : Nat) (set : IntegerSet) : Prop :=
  ∃ constraints, tables.sets.get? number = some ⟨set.dims, set.syms, constraints⟩ ∧
    List.Forall₂ tables.DenotesConstraint constraints set.constraints

/-- A number stands for a layout that is given by a map. -/
def DenotesLayout (tables : Tables) (number : Nat) : Layout → Prop
  | .map map => tables.DenotesMap number map
  | .numbered _ => False

/-- A number stands for a type. -/
inductive DenotesType (tables : Tables) : Nat → Ty → Prop
  | index {number : Nat} (h : tables.types.get? number = some .index) :
      DenotesType tables number .index
  | integer {number width : Nat} (h : tables.types.get? number = some (.integer width)) :
      DenotesType tables number (.integer width)
  | float {number width : Nat} (h : tables.types.get? number = some (.float width)) :
      DenotesType tables number (.float width)
  | memref {number elementNumber : Nat} {shape : List Size} {element : Ty}
      {layoutNumbers : List Nat} {layouts : List Layout}
      (h : tables.types.get? number = some (.memref shape elementNumber layoutNumbers))
      (helement : DenotesType tables elementNumber element)
      (hlayouts : List.Forall₂ tables.DenotesLayout layoutNumbers layouts) :
      DenotesType tables number (.memref shape element layouts)
  | vector {number elementNumber : Nat} {shape : List Nat} {element : Ty}
      (h : tables.types.get? number = some (.vector shape elementNumber))
      (helement : DenotesType tables elementNumber element) :
      DenotesType tables number (.vector shape element)

/-! ## One tree for a number, one number for a tree -/

section Unique

variable {tables : Tables}

theorem rightUnique_denotesExpr : Relator.RightUnique tables.DenotesExpr := by
  intro number e e' h h'
  induction h generalizing e' with
  | dim h => cases h' <;> simp_all
  | sym h => cases h' <;> simp_all
  | const h => cases h' <;> simp_all
  | binary h _ _ ihl ihr =>
      cases h' with
      | binary h' hl hr =>
          obtain ⟨rfl, rfl, rfl⟩ := ExprNode.binary.inj (Option.some.inj (h.symm.trans h'))
          rw [ihl hl, ihr hr]
      | dim h' | sym h' | const h' => simp_all

theorem leftUnique_denotesExpr : Relator.LeftUnique tables.DenotesExpr := by
  intro number number' e h h'
  induction h generalizing number' with
  | dim h | sym h | const h =>
      cases h'
      exact Table.get?_injective h ‹_›
  | binary h _ _ ihl ihr =>
      cases h' with
      | binary h' hl hr =>
          obtain rfl := ihl hl
          obtain rfl := ihr hr
          exact Table.get?_injective h h'

theorem rightUnique_denotesMap : Relator.RightUnique tables.DenotesMap := by
  rintro number ⟨dims, syms, results⟩ ⟨dims', syms', results'⟩ ⟨numbers, h, hresults⟩
    ⟨numbers', h', hresults'⟩
  obtain ⟨rfl, rfl, rfl⟩ := MapNode.mk.inj (Option.some.inj (h.symm.trans h'))
  obtain rfl : results = results' := rightUnique_denotesExpr.forall₂ hresults hresults'
  rfl

theorem leftUnique_denotesMap : Relator.LeftUnique tables.DenotesMap := by
  rintro number number' map ⟨results, h, hresults⟩ ⟨results', h', hresults'⟩
  obtain rfl := leftUnique_denotesExpr.forall₂ hresults hresults'
  exact Table.get?_injective h h'

theorem rightUnique_denotesConstraint : Relator.RightUnique tables.DenotesConstraint := by
  rintro ⟨relation, number⟩ ⟨_, e⟩ ⟨_, e'⟩ ⟨rfl, he⟩ ⟨rfl, he'⟩
  obtain rfl : e = e' := rightUnique_denotesExpr he he'
  rfl

theorem leftUnique_denotesConstraint : Relator.LeftUnique tables.DenotesConstraint := by
  rintro ⟨_, number⟩ ⟨_, number'⟩ constraint ⟨rfl, he⟩ ⟨rfl, he'⟩
  obtain rfl : number = number' := leftUnique_denotesExpr he he'
  rfl

theorem rightUnique_denotesSet : Relator.RightUnique tables.DenotesSet := by
  rintro number ⟨dims, syms, constraints⟩ ⟨dims', syms', constraints'⟩ ⟨pairs, h, hpairs⟩
    ⟨pairs', h', hpairs'⟩
  obtain ⟨rfl, rfl, rfl⟩ := SetNode.mk.inj (Option.some.inj (h.symm.trans h'))
  obtain rfl : constraints = constraints' := rightUnique_denotesConstraint.forall₂ hpairs hpairs'
  rfl

theorem leftUnique_denotesSet : Relator.LeftUnique tables.DenotesSet := by
  rintro number number' set ⟨pairs, h, hpairs⟩ ⟨pairs', h', hpairs'⟩
  obtain rfl := leftUnique_denotesConstraint.forall₂ hpairs hpairs'
  exact Table.get?_injective h h'

theorem rightUnique_denotesLayout : Relator.RightUnique tables.DenotesLayout := by
  rintro number (map | _) (map' | _) h h'
  · rw [rightUnique_denotesMap h h']
  · cases h'
  · cases h
  · cases h

theorem leftUnique_denotesLayout : Relator.LeftUnique tables.DenotesLayout := by
  rintro number number' (map | _) h h'
  · exact leftUnique_denotesMap h h'
  · cases h

theorem rightUnique_denotesType : Relator.RightUnique tables.DenotesType := by
  intro number type type' h h'
  induction h generalizing type' with
  | index h | integer h | float h => cases h' <;> simp_all
  | memref h _ hlayouts ih =>
      cases h' with
      | memref h' helement hlayouts' =>
          obtain ⟨rfl, rfl, rfl⟩ := TyNode.memref.inj (Option.some.inj (h.symm.trans h'))
          rw [ih helement, rightUnique_denotesLayout.forall₂ hlayouts hlayouts']
      | index h' | integer h' | float h' | vector h' => simp_all
  | vector h _ ih =>
      cases h' with
      | vector h' helement =>
          obtain ⟨rfl, rfl⟩ := TyNode.vector.inj (Option.some.inj (h.symm.trans h'))
          rw [ih helement]
      | index h' | integer h' | float h' | memref h' => simp_all

theorem leftUnique_denotesType : Relator.LeftUnique tables.DenotesType := by
  intro number number' type h h'
  induction h generalizing number' with
  | index h | integer h | float h =>
      cases h'
      exact Table.get?_injective h ‹_›
  | memref h _ hlayouts ih =>
      cases h' with
      | memref h' helement hlayouts' =>
          obtain rfl := ih helement
          obtain rfl := leftUnique_denotesLayout.forall₂ hlayouts hlayouts'
          exact Table.get?_injective h h'
  | vector h _ ih =>
      cases h' with
      | vector h' helement =>
          obtain rfl := ih helement
          exact Table.get?_injective h h'

end Unique

/-! ## Tables with more nodes -/

/-- Every node has the same number in other tables. -/
structure Extends (tables tables' : Tables) : Prop where
  exprs : tables.exprs.Extends tables'.exprs
  maps : tables.maps.Extends tables'.maps
  sets : tables.sets.Extends tables'.sets
  types : tables.types.Extends tables'.types

section Extending

variable {tables tables' tables'' : Tables} {number : Nat}

theorem Extends.refl (tables : Tables) : tables.Extends tables :=
  ⟨.refl _, .refl _, .refl _, .refl _⟩

theorem Extends.trans (h : tables.Extends tables') (h' : tables'.Extends tables'') :
    tables.Extends tables'' :=
  ⟨h.exprs.trans h'.exprs, h.maps.trans h'.maps, h.sets.trans h'.sets, h.types.trans h'.types⟩

theorem DenotesExpr.extend {e : Expr} (h : tables.DenotesExpr number e)
    (hextends : tables.Extends tables') : tables'.DenotesExpr number e := by
  induction h with
  | dim h => exact .dim (hextends.exprs _ _ h)
  | sym h => exact .sym (hextends.exprs _ _ h)
  | const h => exact .const (hextends.exprs _ _ h)
  | binary h _ _ ihl ihr => exact .binary (hextends.exprs _ _ h) ihl ihr

theorem DenotesMap.extend {map : AffineMap} (h : tables.DenotesMap number map)
    (hextends : tables.Extends tables') : tables'.DenotesMap number map := by
  obtain ⟨results, h, hresults⟩ := h
  exact ⟨results, hextends.maps _ _ h, hresults.imp fun _ _ he => he.extend hextends⟩

theorem DenotesSet.extend {set : IntegerSet} (h : tables.DenotesSet number set)
    (hextends : tables.Extends tables') : tables'.DenotesSet number set := by
  obtain ⟨pairs, h, hpairs⟩ := h
  exact ⟨pairs, hextends.sets _ _ h, hpairs.imp fun _ _ he => ⟨he.1, he.2.extend hextends⟩⟩

theorem DenotesLayout.extend {layout : Layout} (h : tables.DenotesLayout number layout)
    (hextends : tables.Extends tables') : tables'.DenotesLayout number layout := by
  cases layout with
  | map map => exact DenotesMap.extend h hextends
  | numbered _ => cases h

theorem DenotesType.extend {type : Ty} (h : tables.DenotesType number type)
    (hextends : tables.Extends tables') : tables'.DenotesType number type := by
  induction h with
  | index h => exact .index (hextends.types _ _ h)
  | integer h => exact .integer (hextends.types _ _ h)
  | float h => exact .float (hextends.types _ _ h)
  | memref h _ hlayouts ih =>
      exact .memref (hextends.types _ _ h) ih
        (hlayouts.imp fun _ _ hlayout => hlayout.extend hextends)
  | vector h _ ih => exact .vector (hextends.types _ _ h) ih

end Extending

end Tables

/-! ## Objects of all kinds -/

/-- The sorts of objects that a context keeps. -/
inductive Kind where
  | expr
  | map
  | set
  | type
  deriving DecidableEq

/-- An object that a context keeps, as a tree. -/
inductive Object where
  | expr (e : Expr)
  | map (map : AffineMap)
  | set (set : IntegerSet)
  | type (type : Ty)
  deriving DecidableEq

/-- The sort of an object. -/
def Object.kind : Object → Kind
  | expr _ => .expr
  | map _ => .map
  | set _ => .set
  | type _ => .type

namespace Tables

/-- The number of stored objects of a sort. -/
def count (tables : Tables) : Kind → Nat
  | .expr => tables.exprs.size
  | .map => tables.maps.size
  | .set => tables.sets.size
  | .type => tables.types.size

/-- A number stands for an object. -/
def Denotes (tables : Tables) (number : Nat) : Object → Prop
  | .expr e => tables.DenotesExpr number e
  | .map map => tables.DenotesMap number map
  | .set set => tables.DenotesSet number set
  | .type type => tables.DenotesType number type

/-- An object has a number. -/
def Stores (tables : Tables) (object : Object) : Prop := ∃ number, tables.Denotes number object

variable {tables tables' : Tables} {number number' : Nat} {object object' : Object}

theorem Denotes.extend (h : tables.Denotes number object) (hextends : tables.Extends tables') :
    tables'.Denotes number object := by
  cases object with
  | expr e => exact DenotesExpr.extend h hextends
  | map map => exact DenotesMap.extend h hextends
  | set set => exact DenotesSet.extend h hextends
  | type type => exact DenotesType.extend h hextends

theorem Stores.extend (h : tables.Stores object) (hextends : tables.Extends tables') :
    tables'.Stores object := by
  obtain ⟨number, hnumber⟩ := h
  exact ⟨number, hnumber.extend hextends⟩

/-- Numbers and trees of one sort agree. -/
theorem Denotes.eq_iff (hkind : object.kind = object'.kind) (h : tables.Denotes number object)
    (h' : tables.Denotes number' object') : number = number' ↔ object = object' := by
  constructor
  · rintro rfl
    cases object <;> cases object' <;> cases hkind
    · exact congrArg Object.expr (rightUnique_denotesExpr h h')
    · exact congrArg Object.map (rightUnique_denotesMap h h')
    · exact congrArg Object.set (rightUnique_denotesSet h h')
    · exact congrArg Object.type (rightUnique_denotesType h h')
  · rintro rfl
    cases object with
    | expr e => exact leftUnique_denotesExpr h h'
    | map map => exact leftUnique_denotesMap h h'
    | set set => exact leftUnique_denotesSet h h'
    | type type => exact leftUnique_denotesType h h'

end Tables

end AffineLoops
