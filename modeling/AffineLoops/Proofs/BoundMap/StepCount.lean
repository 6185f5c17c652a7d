import AffineLoops.Proofs.BoundMap.FullComposition
import AffineLoops.Proofs.Identifier.Judgement

/-!
# How many steps a composition takes

Composition replaces one input at a time by the map of the apply operation that produces it, and the
operands of that operation become inputs in their turn.  An operation that is reached in several
ways is put in once for every way, whether the map mentions the input or not.  So the number of
steps can be read off the program: `Store.replacements` is nothing for a value that no apply
operation produces, and for the result of an apply operation it is one more than the sum over the
operands.

The sum of this number over the inputs that still have an operand is a potential of the loop.  Every
step lowers it by exactly one (`Slots.replacements_absorb`), and the loop ends where it is zero
(`Slots.replacements_eq_zero`).  Hence the loop exceeds its limit exactly if the sum over the
operands does (`exceedsLimit_iff`).
-/

namespace AffineLoops

/-! ## Replacements behind a value -/

namespace Store

/-- The replacements behind a value, down to a depth of apply operations. -/
def replacementsWithin (store : Store) : Nat → ValueId → Nat
  | 0, _ => 0
  | depth + 1, value =>
      match store.definingApply? value with
      | none => 0
      | some op => 1 + ((store.op op).operands.map (replacementsWithin store depth)).sum

/-- The replacements after which neither a value nor what has been put in its place is the result
of an apply operation. -/
def replacements (store : Store) (value : ValueId) : Nat :=
  store.replacementsWithin (store.age value) value

variable {store : Store} {value : ValueId}

section Ordered

variable (hordered : store.Ordered)

include hordered

theorem replacementsWithin_congr {depth depth' : Nat} (h : store.age value ≤ depth)
    (h' : store.age value ≤ depth') :
    store.replacementsWithin depth value = store.replacementsWithin depth' value := by
  induction depth generalizing depth' value with
  | zero =>
      have hnone : store.definingApply? value = none := by
        cases happly : store.definingApply? value with
        | none => rfl
        | some op =>
            rw [age_of_definingOp? (definingApply?_eq_some happly).1] at h
            omega
      cases depth' <;> simp [replacementsWithin, hnone]
  | succ depth ih =>
      cases happly : store.definingApply? value with
      | none => cases depth' <;> simp [replacementsWithin, happly]
      | some op =>
          rw [age_of_definingOp? (definingApply?_eq_some happly).1] at h h'
          obtain ⟨depth', rfl⟩ : ∃ less, depth' = less + 1 := ⟨depth' - 1, by omega⟩
          simp only [replacementsWithin, happly]
          congr 2
          refine List.map_congr_left fun operand hmem => ?_
          have hage := hordered.age_le hmem
          exact ih (by omega) (by omega)

/-- The number of replacements, without a bound on the depth. -/
theorem replacements_eq (value : ValueId) :
    store.replacements value =
      match store.definingApply? value with
      | none => 0
      | some op => 1 + ((store.op op).operands.map store.replacements).sum := by
  rw [replacements, replacementsWithin_congr hordered le_rfl (Nat.le_succ _), replacementsWithin]
  cases happly : store.definingApply? value with
  | none => rfl
  | some op =>
      dsimp only
      congr 2
      refine List.map_congr_left fun operand hmem => ?_
      have hage := hordered.age_le hmem
      rw [age_of_definingOp? (definingApply?_eq_some happly).1]
      exact replacementsWithin_congr hordered (by omega) le_rfl

theorem replacements_of_definingApply?_eq_none (h : store.definingApply? value = none) :
    store.replacements value = 0 := by
  rw [replacements_eq hordered, h]

theorem replacements_of_appliedMap? {bound : BoundMap} (h : store.appliedMap? value = some bound) :
    store.replacements value = 1 + (bound.operands.map store.replacements).sum := by
  cases happly : store.definingApply? value with
  | none => simp [appliedMap?, happly] at h
  | some op =>
      obtain ⟨-, map, hkind⟩ := definingApply?_eq_some happly
      obtain rfl : ⟨map, (store.op op).operands⟩ = bound := by
        simpa [appliedMap?, happly, boundMap?, hkind, OpKind.map?] using h
      rw [replacements_eq hordered, happly]

end Ordered

end Store

/-! ## The potential of the loop -/

namespace Slots

variable {store : Store} {slots : Slots} {input : Input} {value : ValueId} {bound : BoundMap}

/-- The replacements behind all inputs that still have an operand. -/
def replacements (store : Store) (slots : Slots) : Nat :=
  (slots.dimOperands.map store.replacements).sum + (slots.symOperands.map store.replacements).sum

/-- A list of slots from which one value is taken has lost this value only. -/
theorem sum_filterMap_set (weight : ValueId → Nat) {values : List (Option ValueId)} {position : Nat}
    (h : values[position]?.join = some value) :
    (((values.set position none).filterMap id).map weight).sum + weight value =
      ((values.filterMap id).map weight).sum := by
  induction values generalizing position with
  | nil => simp at h
  | cons first rest ih =>
      cases position with
      | zero =>
          obtain rfl : first = some value := by simpa using h
          simp [Nat.add_comm]
      | succ position =>
          have hrest := ih h
          cases first with
          | none => simpa using hrest
          | some other =>
              have hkept : ∀ slots : List (Option ValueId),
                  (some other :: slots).filterMap id = other :: slots.filterMap id := fun _ => rfl
              simp only [List.set_cons_succ, hkept, List.map_cons, List.sum_cons]
              omega

theorem replacements_clear (store : Store) (h : slots.value? input = some value) :
    (slots.clear input).replacements store + store.replacements value =
      slots.replacements store := by
  cases input with
  | dim position =>
      have hdims := sum_filterMap_set store.replacements h
      simp only [replacements, clear, dimOperands, symOperands]
      omega
  | sym position =>
      have hsyms := sum_filterMap_set store.replacements h
      simp only [replacements, clear, dimOperands, symOperands]
      omega

theorem replacements_extend (slots : Slots) (bound : BoundMap) :
    (slots.extend bound).replacements store =
      slots.replacements store + (bound.operands.map store.replacements).sum := by
  have hoperands : (bound.operands.map store.replacements).sum =
      (bound.dimOperands.map store.replacements).sum +
        (bound.symOperands.map store.replacements).sum := by
    rw [← List.sum_append, ← List.map_append, BoundMap.dimOperands, BoundMap.symOperands,
      List.take_append_drop]
  simp only [replacements, extend, dimOperands, symOperands, List.filterMap_append,
    List.filterMap_map, Function.id_comp, List.filterMap_some, List.map_append, List.sum_append,
    hoperands]
  omega

/-- A step of the loop is one of the replacements that are due. -/
theorem replacements_absorb (hordered : store.Ordered)
    (hnext : slots.next? store = some (input, value, bound)) :
    ((slots.clear input).extend bound).replacements store + 1 = slots.replacements store := by
  obtain ⟨hvalue, happlied⟩ := next?_eq_some hnext
  have hcleared := replacements_clear store hvalue
  have hunfolded := Store.replacements_of_appliedMap? hordered happlied
  rw [replacements_extend]
  omega

/-- Where the loop ends no replacement is due. -/
theorem replacements_eq_zero (hordered : store.Ordered) (hend : slots.next? store = none) :
    slots.replacements store = 0 := by
  have hnone : ∀ values : List (Option ValueId),
      (∀ value, some value ∈ values → store.definingApply? value = none) →
      ((values.filterMap id).map store.replacements).sum = 0 := by
    intro values hvalues
    rw [List.sum_eq_zero_iff_forall_eq_nat]
    intro count hcount
    obtain ⟨value, hmem, rfl⟩ := List.mem_map.mp hcount
    exact Store.replacements_of_definingApply?_eq_none hordered
      (hvalues value (by simpa using hmem))
  rw [replacements, dimOperands, symOperands,
    hnone _ fun value hmem => definingApply?_of_next? hend (Or.inl hmem),
    hnone _ fun value hmem => definingApply?_of_next? hend (Or.inr hmem)]

end Slots

namespace Composing

variable {store : Store} {state : Composing}

/-- The loop exceeds a limit exactly if more replacements are due. -/
theorem run?_eq_none_iff (hordered : store.Ordered) {steps : Nat} :
    state.run? store steps = none ↔ steps < state.slots.replacements store := by
  induction steps generalizing state with
  | zero =>
      rw [run?, step?]
      cases hnext : state.slots.next? store with
      | none => simp [Slots.replacements_eq_zero hordered hnext]
      | some next =>
          have hfalls := Slots.replacements_absorb hordered hnext
          simp only [true_iff]
          omega
  | succ steps ih =>
      rw [run?, step?]
      cases hnext : state.slots.next? store with
      | none => simp [Slots.replacements_eq_zero hordered hnext]
      | some next =>
          obtain ⟨input, value, bound⟩ := next
          have hfalls := Slots.replacements_absorb hordered hnext
          have hslots : (state.absorb input bound).slots =
              (state.slots.clear input).extend bound := rfl
          dsimp only
          rw [ih, hslots]
          omega

end Composing

/-! ## The limit of a composition -/

namespace BoundMap

variable {store : Store} {bound : BoundMap} {limit : Nat}

theorem exceedsLimit_iff (hordered : store.Ordered) :
    bound.ExceedsLimit store limit ↔ limit < (bound.operands.map store.replacements).sum := by
  have hempty : (⟨[], []⟩ : Slots).extend bound = bound.slots := rfl
  have hstart : bound.slots.replacements store = (bound.operands.map store.replacements).sum := by
    rw [← hempty, Slots.replacements_extend]
    simp [Slots.replacements, Slots.dimOperands, Slots.symOperands]
  rw [ExceedsLimit, Composing.run?_eq_none_iff hordered, toComposing, hstart]

/-- Composition absorbs every apply operation, in a number of steps that is known beforehand.  A map
with results is composed exactly if the replacements behind its operands, counted once for every
operand and every way to an apply operation, are not more than the limit; otherwise the limit is
what composition fails with.  The operands of a composed map are no results of apply operations, so
composing until none is left gives the same map or the same fault. -/
theorem compose_absorbs_applies (hstore : store.Reachable) (hmap : bound.map.InRange)
    (hlength : bound.operands.length = bound.map.inputs) (limit : Nat) :
    (∀ value, store.replacements value =
      match store.definingApply? value with
      | none => 0
      | some op => 1 + ((store.op op).operands.map store.replacements).sum) ∧
    (bound.map.resultCount ≠ 0 →
      (bound.compose store limit = .error (.compositionLimit limit) ↔
        limit < (bound.operands.map store.replacements).sum) ∧
      ((∃ composed, bound.compose store limit = .ok composed) ↔
        (bound.operands.map store.replacements).sum ≤ limit)) ∧
    (∀ composed, bound.compose store limit = .ok composed →
      ∀ operand ∈ composed.operands, store.definingApply? operand = none) ∧
    bound.fullyCompose store limit = bound.compose store limit := by
  have hordered := hstore.ordered
  refine ⟨Store.replacements_eq hordered, fun hcount => ?_,
    fun composed hcompose => (bindsOnce_compose hcompose).allowed,
    fullyCompose_eq_compose store limit bound⟩
  have hresults : bound.map.results ≠ [] := by
    intro hnone
    exact hcount (congrArg List.length hnone)
  rw [← not_lt, ← exceedsLimit_iff hordered]
  rcases compose_cases hstore ⟨hlength, hmap⟩ hresults limit with
    ⟨hexceeds, hcompose⟩ | ⟨hfits, composed, hcompose, -⟩
  · simp [hexceeds, hcompose]
  · simp [hfits, hcompose]

end BoundMap

open NestedApply in
/-- The second operand is met a second time behind the first one. -/
theorem compose_absorbs_applies_nestedApply :
    store.Reachable ∧ bound.map.InRange ∧ bound.operands.length = bound.map.inputs ∧
    bound.operands.map store.replacements = [2, 1] ∧
    (∃ composed, bound.compose store 3 = .ok composed) ∧
    bound.compose store 2 = .error (.compositionLimit 2) ∧
    bound.fullyCompose store 2 = .error (.compositionLimit 2) := by
  have hcounts : bound.operands.map store.replacements = [2, 1] := by decide
  have hmap : bound.map.InRange := by decide
  have hlength : bound.operands.length = bound.map.inputs := by decide
  obtain ⟨-, hlow, -, hfull⟩ := BoundMap.compose_absorbs_applies reachable hmap hlength 2
  obtain ⟨-, hhigh, -⟩ := BoundMap.compose_absorbs_applies reachable hmap hlength 3
  have hlimit := (hlow (by decide)).1.mpr (by rw [hcounts]; decide)
  exact ⟨reachable, hmap, hlength, hcounts, (hhigh (by decide)).2.mpr (by rw [hcounts]; decide),
    hlimit, hfull.trans hlimit⟩

end AffineLoops
