import AffineLoops.BoundMap.Canonical
import AffineLoops.Proofs.Expr.Simplification
import AffineLoops.Proofs.Expr.Substitution

/-!
# Canonicalization keeps the values

An assignment gives every value of a program an integer, and thereby a bound map a list of
integers: its results at the point where every input has the integer of its operand.  A pass of
canonicalization drops, merges, promotes and renumbers inputs all at once, so the argument is
about a single input.

* `Denotes` says that an expression over the operands placed so far stands for an integer.  The
  lists of placed operands only grow at their ends, and `Denotes.extend` carries the statement
  over to the final lists.
* `Placed` says it for all inputs of a kind, as far as they are used; an input that is not used
  may stand for anything in range.
* `pass_spec`, `settle_spec` and `canonical_spec` lift this to a pass, to repeated passes and to
  the canonical form, for any list of expressions, hence for maps and for sets.
-/

namespace AffineLoops

/-! ## Values under an assignment -/

/-- Integers for the values of a program. -/
abbrev Assignment := ValueId → Int

/-- The constants of a program have the integers they are made with. -/
def Store.ConstantsHold (store : Store) (rho : Assignment) : Prop :=
  ∀ value constant, store.constantOf? value = some constant → rho value = constant

/-- There is always an assignment under which the constants hold. -/
theorem Store.constantsHold_default (store : Store) :
    store.ConstantsHold fun value => (store.constantOf? value).getD 0 := by
  intro value constant h
  simp [h]

namespace Assignment

variable (rho : Assignment) {dims syms : List ValueId} {position : Nat} {value : ValueId}

/-- The point at which every input has the integer of its operand. -/
def point (dims syms : List ValueId) : Point := .ofLists (dims.map rho) (syms.map rho)

theorem point_dim (h : dims[position]? = some value) :
    (rho.point dims syms).dim position = rho value := by
  simp [point, Point.ofLists, h]

theorem point_sym (h : syms[position]? = some value) :
    (rho.point dims syms).sym position = rho value := by
  simp [point, Point.ofLists, h]

variable (dims syms position)

theorem dim_point_eq : (rho.point dims syms).dim position = dims[position]?.elim 0 rho := by
  cases h : dims[position]? with
  | none => simp [point, Point.ofLists, h]
  | some value => exact rho.point_dim h

theorem sym_point_eq : (rho.point dims syms).sym position = syms[position]?.elim 0 rho := by
  cases h : syms[position]? with
  | none => simp [point, Point.ofLists, h]
  | some value => exact rho.point_sym h

end Assignment

/-- What a relation asks of the value of its expression. -/
def Relation.Holds : Relation → Int → Prop
  | zero, x => x = 0
  | nonnegative, x => 0 ≤ x

namespace BoundExprs

/-- The integers of the expressions under an assignment. -/
def values (rho : Assignment) (bound : BoundExprs) : List Int :=
  bound.exprs.map
    (Expr.value (rho.point (bound.operands.take bound.dims) (bound.operands.drop bound.dims)))

/-- There is an operand for every input, and every position is an input. -/
structure WellFormed (bound : BoundExprs) : Prop where
  length_eq : bound.operands.length = bound.dims + bound.syms
  inRange : ∀ e ∈ bound.exprs, e.InRange bound.dims bound.syms

end BoundExprs

/-- The integers of the results under an assignment. -/
def BoundMap.values (rho : Assignment) (bound : BoundMap) : List Int :=
  bound.map.results.map (Expr.value (rho.point bound.dimOperands bound.symOperands))

namespace BoundSet

/-- The point of a set under an assignment. -/
def point (rho : Assignment) (bound : BoundSet) : Point :=
  rho.point (bound.operands.take bound.set.dims) (bound.operands.drop bound.set.dims)

/-- The integers of the constraints under an assignment. -/
def values (rho : Assignment) (bound : BoundSet) : List Int :=
  bound.set.exprs.map (Expr.value (bound.point rho))

/-- The operands lie in the set. -/
def Satisfied (rho : Assignment) (bound : BoundSet) : Prop :=
  ∀ constraint ∈ bound.set.constraints,
    constraint.relation.Holds (constraint.expr.value (bound.point rho))

end BoundSet

namespace BoundExprs

/-! ## Placing one input -/

/-- An expression over the placed operands stands for an integer. -/
structure Denotes (rho : Assignment) (dims syms : List ValueId) (e : Expr) (x : Int) : Prop where
  inRange : e.InRange dims.length syms.length
  value_eq : e.value (rho.point dims syms) = x

section Placing

variable {rho : Assignment} {dims syms dims' syms' : List ValueId} {e : Expr} {x : Int}
  {store : Store}

theorem Denotes.extend (h : Denotes rho dims syms e x) (hdims : dims <+: dims')
    (hsyms : syms <+: syms') : Denotes rho dims' syms' e x where
  inRange := h.inRange.mono (fun _ hlt => hlt.trans_le hdims.length_le)
    fun _ hlt => hlt.trans_le hsyms.length_le
  value_eq := by
    rw [← h.value_eq]
    refine Expr.value_congr h.inRange ?_ ?_
    · intro position hlt
      rw [rho.point_dim (List.getElem?_eq_getElem hlt),
        rho.point_dim (List.prefix_iff_getElem?.mp hdims position hlt)]
    · intro position hlt
      rw [rho.point_sym (List.getElem?_eq_getElem hlt),
        rho.point_sym (List.prefix_iff_getElem?.mp hsyms position hlt)]

theorem Denotes.const (x : Int) : Denotes rho dims syms (.const x) x := ⟨trivial, rfl⟩

theorem Denotes.dim {position : Nat} {value : ValueId} (h : dims[position]? = some value) :
    Denotes rho dims syms (.dim position) (rho value) :=
  ⟨(List.getElem?_eq_some_iff.mp h).1, rho.point_dim h⟩

theorem Denotes.sym {position : Nat} {value : ValueId} (h : syms[position]? = some value) :
    Denotes rho dims syms (.sym position) (rho value) :=
  ⟨(List.getElem?_eq_some_iff.mp h).1, rho.point_sym h⟩

/-- A placed value is found at its place, and earlier places do not move. -/
theorem place_spec (values : List ValueId) (value : ValueId) :
    values <+: (place values value).2 ∧
      (place values value).2[(place values value).1]? = some value := by
  unfold place
  split
  · rename_i position hfound
    obtain ⟨hlt, heq, -⟩ := List.idxOf?_eq_some_iff.mp hfound
    exact ⟨List.prefix_rfl, by simp [hlt, heq]⟩
  · exact ⟨List.prefix_append .., by simp⟩

theorem placeSymbol_spec (hrho : store.ConstantsHold rho) (dims symbols : List ValueId)
    (value : ValueId) :
    symbols <+: (placeSymbol store symbols value).2 ∧
      Denotes rho dims (placeSymbol store symbols value).2 (placeSymbol store symbols value).1
        (rho value) := by
  unfold placeSymbol
  split
  · rename_i constant hconstant
    refine ⟨List.prefix_rfl, ?_⟩
    rw [hrho value constant hconstant]
    exact Denotes.const constant
  · obtain ⟨hgrows, hfound⟩ := place_spec symbols value
    exact ⟨hgrows, Denotes.sym hfound⟩

/-! ## Placing all inputs -/

/-- What stands for the inputs from a position on is in range, and for every input that is used
it stands for the integer of its operand. -/
inductive Placed (rho : Assignment) (dims syms : List ValueId) (used : Nat → Bool) :
    Nat → List ValueId → List Expr → Prop
  | nil {position : Nat} : Placed rho dims syms used position [] []
  | cons {position : Nat} {value : ValueId} {values : List ValueId} {e : Expr}
      {exprs : List Expr} {x : Int} (head : Denotes rho dims syms e x)
      (head_eq : used position → x = rho value)
      (tail : Placed rho dims syms used (position + 1) values exprs) :
      Placed rho dims syms used position (value :: values) (e :: exprs)

namespace Placed

variable {used : Nat → Bool} {position : Nat} {values : List ValueId} {exprs : List Expr}

theorem extend (h : Placed rho dims syms used position values exprs) (hdims : dims <+: dims')
    (hsyms : syms <+: syms') : Placed rho dims' syms' used position values exprs := by
  induction h with
  | nil => exact .nil
  | cons head head_eq tail ih => exact .cons (head.extend hdims hsyms) head_eq ih

theorem length_eq (h : Placed rho dims syms used position values exprs) :
    exprs.length = values.length := by
  induction h with
  | nil => rfl
  | cons head head_eq tail ih => simp [ih]

theorem inRange (h : Placed rho dims syms used position values exprs) :
    ∀ e ∈ exprs, e.InRange dims.length syms.length := by
  induction h with
  | nil => simp
  | cons head head_eq tail ih => simpa using ⟨head.inRange, ih⟩

theorem exists_denotes (h : Placed rho dims syms used position values exprs) {index : Nat}
    {value : ValueId} (hvalue : values[index]? = some value) (hused : used (position + index)) :
    ∃ e, exprs[index]? = some e ∧ Denotes rho dims syms e (rho value) := by
  induction h generalizing index with
  | nil => simp at hvalue
  | @cons position first values e exprs x head head_eq tail ih =>
      cases index with
      | zero =>
          obtain rfl : first = value := by simpa using hvalue
          exact ⟨e, rfl, head_eq hused ▸ head⟩
      | succ index =>
          exact ih hvalue (by rwa [Nat.add_right_comm, Nat.add_assoc])

end Placed

theorem placeSymbols_spec (hrho : store.ConstantsHold rho) (used : Nat → Bool) (position : Nat)
    (values dims symbols : List ValueId) :
    symbols <+: (placeSymbols store used position values symbols).2 ∧
      Placed rho dims (placeSymbols store used position values symbols).2 used position values
        (placeSymbols store used position values symbols).1 := by
  -- the first input is placed over fewer values than the rest, which only adds some at the end
  induction values generalizing position symbols with
  | nil => exact ⟨List.prefix_rfl, .nil⟩
  | cons value rest ih =>
      rw [placeSymbols]
      by_cases hused : used position
      · obtain ⟨hgrows, hhead⟩ := placeSymbol_spec hrho dims symbols value
        obtain ⟨hgrows', htail⟩ := ih (position + 1) (placeSymbol store symbols value).2
        simp only [hused, if_true]
        exact ⟨hgrows.trans hgrows',
          .cons (hhead.extend List.prefix_rfl hgrows') (fun _ => rfl) htail⟩
      · obtain ⟨hgrows, htail⟩ := ih (position + 1) symbols
        simp only [hused]
        exact ⟨hgrows, .cons (.const 0) (fun h => absurd h hused) htail⟩

theorem placeDims_spec (hrho : store.ConstantsHold rho) (used : Nat → Bool) (position : Nat)
    (values dims symbols : List ValueId) :
    let placed := placeDims store used position values dims symbols
    dims <+: placed.2.1 ∧ symbols <+: placed.2.2 ∧
      Placed rho placed.2.1 placed.2.2 used position values placed.1 := by
  induction values generalizing position dims symbols with
  | nil => exact ⟨List.prefix_rfl, List.prefix_rfl, .nil⟩
  | cons value rest ih =>
      dsimp only at ih ⊢
      rw [placeDims]
      by_cases hused : used position
      · by_cases hsymbol : store.isSymbolInOwnScope value
        · obtain ⟨hgrows, hhead⟩ := placeSymbol_spec hrho dims symbols value
          obtain ⟨hdims, hsyms, htail⟩ := ih (position + 1) dims (placeSymbol store symbols value).2
          simp only [hused, hsymbol, if_true]
          exact ⟨hdims, hgrows.trans hsyms, .cons (hhead.extend hdims hsyms) (fun _ => rfl) htail⟩
        · obtain ⟨hgrows, hfound⟩ := place_spec dims value
          obtain ⟨hdims, hsyms, htail⟩ := ih (position + 1) (place dims value).2 symbols
          have hhead : Denotes rho (place dims value).2 symbols
            (.dim (place dims value).1) (rho value) := .dim hfound
          simp only [hused, hsymbol, if_true]
          exact ⟨hgrows.trans hdims, hsyms, .cons (hhead.extend hdims hsyms) (fun _ => rfl) htail⟩
      · obtain ⟨hdims, hsyms, htail⟩ := ih (position + 1) dims symbols
        simp only [hused]
        exact ⟨hdims, hsyms, .cons (.const 0) (fun h => absurd h hused) htail⟩

theorem placement_spec (hrho : store.ConstantsHold rho) (bound : BoundExprs) :
    let placement := bound.placement store
    Placed rho placement.dims placement.syms bound.usesDim 0 (bound.operands.take bound.dims)
        placement.dimExprs ∧
      Placed rho placement.dims placement.syms bound.usesSym 0 (bound.operands.drop bound.dims)
        placement.symExprs := by
  obtain ⟨-, hsymbols⟩ :=
    placeSymbols_spec hrho bound.usesSym 0 (bound.operands.drop bound.dims) [] []
  obtain ⟨hdims, hsyms, hplaced⟩ :=
    placeDims_spec hrho bound.usesDim 0 (bound.operands.take bound.dims) []
      (placeSymbols store bound.usesSym 0 (bound.operands.drop bound.dims) []).2
  -- symbols are placed first, before any dimension is there
  exact ⟨hplaced, hsymbols.extend hdims hsyms⟩

end Placing

/-! ## Passes -/

section Passes

variable {rho : Assignment} {store : Store} {bound : BoundExprs}

/-- What stands for the inputs of an expression reproduces its value. -/
theorem value_substitute_placement (hrho : store.ConstantsHold rho) (hbound : bound.WellFormed)
    {e : Expr} (he : e ∈ bound.exprs) :
    let placement := bound.placement store
    (e.substitute placement.dimExprs placement.symExprs).value
        (rho.point placement.dims placement.syms) =
      e.value (rho.point (bound.operands.take bound.dims) (bound.operands.drop bound.dims)) := by
  obtain ⟨hdims, hsyms⟩ := placement_spec hrho bound
  dsimp only
  rw [Expr.value_substitute]
  have hlength := hbound.length_eq
  have hinRange := Expr.within_iff.mp (hbound.inRange e he)
  refine Expr.value_congr (Expr.within_iff.mpr ⟨fun _ h => h, fun _ h => h⟩) ?_ ?_
  · intro position hused
    have hlt : position < (bound.operands.take bound.dims).length := by
      have := hinRange.1 position hused
      simp only [List.length_take]
      omega
    obtain ⟨replacement, hfound, hdenotes⟩ :=
      hdims.exists_denotes (List.getElem?_eq_getElem hlt)
        (by simpa [usesDim] using ⟨e, he, hused⟩)
    rw [rho.point_dim (List.getElem?_eq_getElem hlt), ← hdenotes.value_eq]
    simp [Point.through, hfound]
  · intro position hused
    have hlt : position < (bound.operands.drop bound.dims).length := by
      have := hinRange.2 position hused
      simp only [List.length_drop]
      omega
    obtain ⟨replacement, hfound, hdenotes⟩ :=
      hsyms.exists_denotes (List.getElem?_eq_getElem hlt)
        (by simpa [usesSym] using ⟨e, he, hused⟩)
    rw [rho.point_sym (List.getElem?_eq_getElem hlt), ← hdenotes.value_eq]
    simp [Point.through, hfound]

/-- A pass keeps the operands in step with the inputs and every expression at its value. -/
theorem pass_spec (hrho : store.ConstantsHold rho) (hbound : bound.WellFormed) :
    (bound.pass store).WellFormed ∧ (bound.pass store).values rho = bound.values rho := by
  obtain ⟨hdims, hsyms⟩ := placement_spec hrho bound
  have hlength := hbound.length_eq
  refine ⟨⟨by simp [pass], ?_⟩, ?_⟩
  · intro e he
    obtain ⟨original, horiginal, rfl⟩ := List.mem_map.mp he
    refine Expr.within_substitute ?_ hdims.inRange hsyms.inRange
    rw [hdims.length_eq, hsyms.length_eq, List.length_take, List.length_drop,
      show min bound.dims bound.operands.length = bound.dims by omega,
      show bound.operands.length - bound.dims = bound.syms by omega]
    exact hbound.inRange original horiginal
  · simp only [values, pass, List.take_left, List.drop_left, List.map_map]
    exact List.map_congr_left fun e he => value_substitute_placement hrho hbound he

theorem settle_spec (hrho : store.ConstantsHold rho) (passes : Nat) (hbound : bound.WellFormed) :
    (bound.settle store passes).WellFormed ∧
      (bound.settle store passes).values rho = bound.values rho := by
  induction passes generalizing bound with
  | zero => exact ⟨hbound, rfl⟩
  | succ passes ih =>
      rw [settle]
      split
      · exact ⟨hbound, rfl⟩
      · obtain ⟨hpass, hvalues⟩ := pass_spec hrho hbound
        obtain ⟨hsettled, hvalues'⟩ := ih hpass
        exact ⟨hsettled, hvalues'.trans hvalues⟩

/-- The canonical form has the values of the original. -/
theorem canonical_spec (hrho : store.ConstantsHold rho) (hbound : bound.WellFormed) :
    (bound.canonical store).WellFormed ∧ (bound.canonical store).values rho = bound.values rho := by
  unfold canonical
  split
  · exact ⟨hbound, rfl⟩
  · exact settle_spec hrho _ hbound

end Passes

end BoundExprs

/-! ## Maps -/

namespace BoundMap

variable {rho : Assignment} {store : Store} {bound : BoundMap}

theorem canonical_spec (hrho : store.ConstantsHold rho) (hbound : bound.toExprs.WellFormed) :
    (bound.canonical store).toExprs.WellFormed ∧
      (bound.canonical store).values rho = bound.values rho :=
  BoundExprs.canonical_spec hrho hbound

theorem simplify_spec (rho : Assignment) (hbound : bound.toExprs.WellFormed) :
    BoundExprs.WellFormed (toExprs { bound with map := bound.map.simplify }) ∧
      values rho { bound with map := bound.map.simplify } = bound.values rho := by
  refine ⟨⟨hbound.length_eq, ?_⟩, ?_⟩
  · intro e he
    obtain ⟨result, hresult, rfl⟩ := List.mem_map.mp he
    exact (Expr.simplify_spec (.ofLists [] []) _ _ (hbound.inRange result hresult)).2
  · simp only [values, AffineMap.simplify, List.map_map]
    exact List.map_congr_left fun result hresult =>
      (Expr.simplify_spec _ _ _ (hbound.inRange result hresult)).1

theorem settle_spec (hrho : store.ConstantsHold rho) (rounds : Nat)
    (hbound : bound.toExprs.WellFormed) :
    (bound.settle store rounds).toExprs.WellFormed ∧
      (bound.settle store rounds).values rho = bound.values rho := by
  induction rounds generalizing bound with
  | zero => exact ⟨hbound, rfl⟩
  | succ rounds ih =>
      obtain ⟨hsimple, hvalues⟩ := simplify_spec rho hbound
      rw [settle]
      split
      · exact ⟨hsimple, hvalues⟩
      · obtain ⟨hcanonical, hvalues'⟩ := canonical_spec hrho hsimple
        obtain ⟨hsettled, hvalues''⟩ := ih hcanonical
        exact ⟨hsettled, hvalues''.trans (hvalues'.trans hvalues)⟩

theorem canonicalSimplified_spec (hrho : store.ConstantsHold rho)
    (hbound : bound.toExprs.WellFormed) :
    (bound.canonicalSimplified store).toExprs.WellFormed ∧
      (bound.canonicalSimplified store).values rho = bound.values rho := by
  obtain ⟨hcanonical, hvalues⟩ := canonical_spec hrho hbound
  obtain ⟨hsettled, hvalues'⟩ := settle_spec hrho _ hcanonical
  exact ⟨hsettled, hvalues'.trans hvalues⟩

theorem resultCount_canonicalSimplified (store : Store) (hbound : bound.toExprs.WellFormed) :
    (bound.canonicalSimplified store).map.resultCount = bound.map.resultCount := by
  have hvalues := (canonicalSimplified_spec store.constantsHold_default hbound).2
  simpa [values, AffineMap.resultCount] using congrArg List.length hvalues

end BoundMap

/-! ## Sets -/

namespace IntegerSet

variable {set : IntegerSet} {exprs : List Expr} (h : exprs.length = set.constraints.length)
  (dims syms : Nat)

include h

theorem exprs_withExprs : (set.withExprs dims syms exprs).exprs = exprs :=
  List.ext_getElem (by simp [IntegerSet.exprs, withExprs, h])
    (by simp [IntegerSet.exprs, withExprs])

theorem relations_withExprs :
    (set.withExprs dims syms exprs).constraints.map (·.relation) =
      set.constraints.map (·.relation) :=
  List.ext_getElem (by simp [withExprs, h]) (by simp [withExprs])

end IntegerSet

namespace BoundSet

variable {rho : Assignment} {store : Store} {bound : BoundSet}

/-- Whether a set is satisfied depends on the kinds of its constraints and on their values. -/
theorem satisfied_iff :
    bound.Satisfied rho ↔
      ∀ pair ∈ (bound.set.constraints.map (·.relation)).zip (bound.values rho),
        pair.1.Holds pair.2 := by
  simp [Satisfied, values, IntegerSet.exprs, List.zip_map', List.mem_map]

theorem canonical_spec (hrho : store.ConstantsHold rho) (hset : bound.set.InRange)
    (hlength : bound.operands.length = bound.set.inputs) :
    (bound.canonical store).operands.length = (bound.canonical store).set.inputs ∧
      (bound.canonical store).set.constraints.map (·.relation) =
        bound.set.constraints.map (·.relation) ∧
      (bound.canonical store).values rho = bound.values rho := by
  let exprs : BoundExprs := ⟨bound.set.dims, bound.set.syms, bound.set.exprs, bound.operands⟩
  have hexprs : exprs.WellFormed :=
    ⟨hlength, by simpa [exprs, IntegerSet.exprs, IntegerSet.InRange] using hset⟩
  obtain ⟨hcanonical, hvalues⟩ := BoundExprs.canonical_spec hrho hexprs
  have hcount : (exprs.canonical store).exprs.length = bound.set.constraints.length := by
    simpa [BoundExprs.values, exprs, IntegerSet.exprs] using congrArg List.length hvalues
  refine ⟨hcanonical.length_eq, IntegerSet.relations_withExprs hcount _ _, ?_⟩
  rw [← show exprs.values rho = bound.values rho from rfl, ← hvalues, values, canonical,
    IntegerSet.exprs_withExprs hcount]
  rfl

end BoundSet

/-! ## The result -/

/-- A changed canonical form is the canonical form of something that has passed its check. -/
theorem of_checked_changed {α : Type} [DecidableEq α] {check : Prop} [Decidable check]
    {fault : Fault} {old new result : α}
    (h : Except.map (fun _ => if new = old then none else some new)
      (if check then .ok () else .error fault : Except Fault Unit) = .ok (some result)) :
    check ∧ result = new := by
  by_cases hcheck : check
  · by_cases hnew : new = old <;> simp_all [Except.map]
  · simp [hcheck, Except.map] at h

/-- Canonicalization keeps the values.  Under every assignment that gives the constants of the
program their integers, a map in range and its canonical form have the same results, one by one
and in order, and the canonical form has an operand for every input.  The same holds of the
constraints of a set, whose kinds are unchanged, so that the canonical form is satisfied exactly
if the set is. -/
theorem canonicalize_preserves_values (store : Store) (rho : Assignment)
    (hrho : store.ConstantsHold rho) :
    (∀ bound bound' : BoundMap, bound.map.InRange →
      bound.canonicalize store = .ok (some bound') →
        bound'.operands.length = bound'.map.inputs ∧
        bound'.values rho = bound.values rho) ∧
    ∀ bound bound' : BoundSet, bound.set.InRange →
      bound.canonicalize store = .ok (some bound') →
        bound'.operands.length = bound'.set.inputs ∧
        bound'.set.constraints.map (·.relation) = bound.set.constraints.map (·.relation) ∧
        bound'.values rho = bound.values rho ∧
        (bound'.Satisfied rho ↔ bound.Satisfied rho) := by
  constructor
  · intro bound bound' hmap h
    obtain ⟨hlength, rfl⟩ := of_checked_changed h
    obtain ⟨hcanonical, hvalues⟩ := BoundMap.canonical_spec hrho ⟨hlength, hmap⟩
    exact ⟨hcanonical.length_eq, hvalues⟩
  · intro bound bound' hset h
    obtain ⟨hlength, rfl⟩ := of_checked_changed h
    obtain ⟨hlength', hrelations, hvalues⟩ := BoundSet.canonical_spec hrho hset hlength
    refine ⟨hlength', hrelations, hvalues, ?_⟩
    rw [BoundSet.satisfied_iff, BoundSet.satisfied_iff, hrelations, hvalues]

/-! A function with a loop.  The values are a constant, the argument of the function and the
induction variable. -/

namespace LoopInFunction

def store : Store where
  operations := #[
    ⟨0, 0, .function "f", [.affineScope, .isolatedFromAbove], [], [], [⟨0⟩], none⟩,
    ⟨0, 1, .constant 4, [], [], [⟨0⟩], [], some ⟨0⟩⟩,
    ⟨0, 2, .forLoop (.ofConst 0) (.ofConst 8) 1, [], [], [], [⟨1⟩], some ⟨0⟩⟩]
  blocks := #[⟨0, 0, [⟨1⟩], [⟨1⟩, ⟨2⟩], some ⟨0⟩⟩, ⟨0, 1, [⟨2⟩], [], some ⟨1⟩⟩]
  regions := #[⟨0, 0, [⟨0⟩], some ⟨0⟩⟩, ⟨0, 1, [⟨1⟩], some ⟨2⟩⟩]
  values := #[⟨0, 0, .index, .result ⟨1⟩ 0, []⟩, ⟨0, 1, .index, .argument ⟨0⟩ 0, []⟩,
    ⟨0, 2, .index, .argument ⟨1⟩ 0, []⟩]

def rho : Assignment := fun value => 4 + 3 * value.index

theorem constantsHold : store.ConstantsHold rho := by
  rintro ⟨index⟩ constant h
  match index with
  | 0 => exact Option.some.inj h
  | 1 => cases h
  | 2 => cases h
  | index + 3 => cases h

/-- The induction variable is bound twice, a dimension is a symbol and another one is constant,
and one is not used. -/
def map : BoundMap :=
  ⟨⟨5, 1, [.binary .add (.dim 0) (.dim 1), .binary .floorDiv
      (.binary .add (.dim 2) (.binary .add (.dim 3) (.sym 0))) (.const 2)]⟩,
    [⟨2⟩, ⟨0⟩, ⟨1⟩, ⟨2⟩, ⟨2⟩, ⟨1⟩]⟩

def set : BoundSet :=
  ⟨⟨2, 0, [⟨.nonnegative, .binary .add (.dim 1) (.binary .mul (.dim 0) (.const (-1)))⟩,
    ⟨.zero, .binary .add (.dim 1) (.const (-4))⟩]⟩, [⟨0⟩, ⟨2⟩]⟩

end LoopInFunction

open LoopInFunction in
theorem canonicalize_preserves_values_loopInFunction :
    store.ConstantsHold rho ∧ map.map.InRange ∧ set.set.InRange ∧
    map.canonicalize store = .ok (some (map.canonical store)) ∧
    (map.canonical store).operands = [⟨2⟩, ⟨1⟩] ∧
    (map.canonical store).values rho = map.values rho ∧ map.values rho = [14, 12] ∧
    set.canonicalize store = .ok (some (set.canonical store)) ∧
    (set.canonical store).operands = [⟨2⟩] ∧
    ((set.canonical store).Satisfied rho ↔ set.Satisfied rho) := by
  have hmap : map.canonicalize store = .ok (some (map.canonical store)) := by decide
  have hset : set.canonicalize store = .ok (some (set.canonical store)) := by decide
  obtain ⟨hmaps, hsets⟩ := canonicalize_preserves_values store rho constantsHold
  exact ⟨constantsHold, by decide, by decide, hmap, by decide, (hmaps _ _ (by decide) hmap).2,
    by decide, hset, by decide, (hsets _ _ (by decide) hset).2.2.2⟩

end AffineLoops
