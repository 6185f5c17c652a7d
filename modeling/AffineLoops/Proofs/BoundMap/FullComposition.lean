import AffineLoops.Proofs.BoundMap.Composition
import AffineLoops.Proofs.BoundMap.Operands

/-!
# Full composition

The loop of a composition ends when no input is left that an apply operation produces, and neither
the new numbers nor canonicalization bring such an input back.  So one composition is enough
(`fullyCompose_eq_compose`), and its operands are neither results of apply operations nor bound
twice to dimensions or twice to symbols (`bindsOnce_compose`).

How many steps the loop takes depends on the operands alone.  Two maps over the same operands
therefore exceed the limit together (`exceedsLimit_congr`).
-/

namespace AffineLoops

namespace Store

variable {store : Store} {value : ValueId}

theorem definingApply?_eq_some {op : OpId} (h : store.definingApply? value = some op) :
    store.definingOp? value = some op ∧ ∃ map, (store.op op).kind = .apply map := by
  unfold definingApply? at h
  split at h
  · cases h
  · rename_i definer hdefining
    split at h
    · rename_i map hkind
      obtain rfl := Option.some.inj h
      exact ⟨hdefining, map, hkind⟩
    · cases h

/-- An apply operation has a map. -/
theorem definingApply?_eq_none (h : store.appliedMap? value = none) :
    store.definingApply? value = none := by
  cases hdefining : store.definingApply? value with
  | none => rfl
  | some op =>
      obtain ⟨-, map, hkind⟩ := definingApply?_eq_some hdefining
      simp [appliedMap?, hdefining, boundMap?, hkind, OpKind.map?] at h

end Store

/-! ## The end of the loop -/

namespace Slots

variable {store : Store} {slots : Slots} {value : ValueId}

theorem definingApply?_of_firstApplied? {position : Nat} {values : List (Option ValueId)}
    (h : firstApplied? store position values = none) (hvalue : some value ∈ values) :
    store.definingApply? value = none := by
  fun_induction firstApplied? store position values with
  | case1 => cases hvalue
  | case2 position rest ih => exact ih h (by simpa using hvalue)
  | case3 => cases h
  | case4 position first rest hnone ih =>
      rcases List.mem_cons.mp hvalue with heq | hrest
      · obtain rfl := Option.some.inj heq
        exact Store.definingApply?_eq_none hnone
      · exact ih h hrest

theorem definingApply?_of_next? (h : slots.next? store = none)
    (hvalue : some value ∈ slots.dims ∨ some value ∈ slots.syms) :
    store.definingApply? value = none := by
  unfold next? at h
  split at h
  · cases h
  · rename_i hdims
    split at h
    · cases h
    · rename_i hsyms
      rcases hvalue with hdim | hsym
      · exact definingApply?_of_firstApplied? hdims hdim
      · exact definingApply?_of_firstApplied? hsyms hsym

end Slots

namespace Composing

variable {store : Store} {state state' : Composing} {steps : Nat}

theorem next?_eq_none_of_run? (h : state.run? store steps = some state') :
    state'.slots.next? store = none := by
  have hend : ∀ {state : Composing}, state.step? store = none →
      state.slots.next? store = none := by
    intro state hstep
    unfold step? at hstep
    split at hstep
    · cases hstep
    · assumption
  induction steps generalizing state with
  | zero =>
      unfold run? at h
      split at h
      · rename_i hstep
        obtain rfl := Option.some.inj h
        exact hend hstep
      · cases h
  | succ steps ih =>
      unfold run? at h
      split at h
      · rename_i hstep
        obtain rfl := Option.some.inj h
        exact hend hstep
      · exact ih h

/-- Which inputs are replaced, and in which order, does not depend on the results. -/
theorem run?_eq_none_congr (hslots : state.slots = state'.slots) :
    state.run? store steps = none ↔ state'.run? store steps = none := by
  have hstep : ∀ {state state' : Composing}, state.slots = state'.slots →
      (state.step? store).map slots = (state'.step? store).map slots := by
    intro state state' hslots
    simp only [step?, hslots]
    cases state'.slots.next? store <;> simp [absorb, hslots]
  induction steps generalizing state state' with
  | zero =>
      have hfirst := hstep hslots
      unfold run?
      cases hleft : state.step? store <;> cases hright : state'.step? store <;>
        simp_all
  | succ steps ih =>
      have hfirst := hstep hslots
      unfold run?
      cases hleft : state.step? store with
      | none =>
          cases hright : state'.step? store with
          | none => simp
          | some next' => simp [hleft, hright] at hfirst
      | some next =>
          cases hright : state'.step? store with
          | none => simp [hleft, hright] at hfirst
          | some next' =>
              have hnext : next.slots = next'.slots := by simpa [hleft, hright] using hfirst
              exact ih hnext

/-- The operands of the finished map are the ones that the inputs still have, dimensions before
symbols. -/
theorem finish_eq_ok {bound : BoundMap} (h : state.finish = .ok bound) :
    bound.map.dims = state.slots.dimOperands.length ∧
      bound.operands = state.slots.dimOperands ++ state.slots.symOperands := by
  dsimp only [finish, AffineMap.ofResults] at h
  cases hcheck : checkAllPositions state.slots.dimOperands.length
      state.slots.symOperands.length
      (state.results.map (Expr.substitute state.slots.dimExprs state.slots.symExprs)) with
  | error fault =>
      rw [hcheck] at h
      cases h
  | ok map =>
      rw [hcheck] at h
      obtain rfl := Except.ok.inj h
      exact ⟨rfl, rfl⟩

/-- The operands of the finished map are dimensions and symbols as they were in the slots. -/
theorem allows_of_finish {bound : BoundMap} {dimAllowed symAllowed : ValueId → Prop}
    (h : state.finish = .ok bound)
    (hdims : ∀ value, some value ∈ state.slots.dims → dimAllowed value)
    (hsyms : ∀ value, some value ∈ state.slots.syms → symAllowed value) :
    bound.toExprs.Allows dimAllowed symAllowed := by
  obtain ⟨hcount, hoperands⟩ := finish_eq_ok h
  refine ⟨fun value hmem => hdims value ?_, fun value hmem => hsyms value ?_⟩
  · have hmem : value ∈ bound.operands.take bound.map.dims := hmem
    rw [hoperands, hcount, List.take_left] at hmem
    simpa [Slots.dimOperands] using hmem
  · have hmem : value ∈ bound.operands.drop bound.map.dims := hmem
    rw [hoperands, hcount, List.drop_left] at hmem
    simpa [Slots.symOperands] using hmem

end Composing

/-! ## One composition is enough -/

namespace BoundMap

variable {store : Store} {bound composed : BoundMap} {limit : Nat}

/-- What is known of the values that the inputs have at the end of the loop is known of the operands
of the composed map. -/
theorem binds_compose {dimAllowed symAllowed : ValueId → Prop}
    (hpromotes : BoundExprs.Promotes store dimAllowed symAllowed)
    (h : bound.compose store limit = .ok composed)
    (hend : ∀ state, bound.toComposing.run? store limit = some state →
      (∀ value, some value ∈ state.slots.dims → dimAllowed value) ∧
        ∀ value, some value ∈ state.slots.syms → symAllowed value) :
    composed.toExprs.Binds dimAllowed symAllowed := by
  unfold compose at h
  split at h
  · obtain ⟨rfl, -, hoperands, -⟩ := of_composeMiscounted_eq_ok h
    exact .of_no_operands hoperands
  · split at h
    · rename_i hresults
      obtain rfl := Except.ok.inj h
      exact binds_canonicalSimplified hpromotes fun hsome => absurd hresults hsome
    · split at h
      · cases h
      · rename_i state hrun
        cases hfinish : state.finish with
        | error fault =>
            rw [hfinish] at h
            cases h
        | ok finished =>
            rw [hfinish] at h
            obtain rfl := Except.ok.inj h
            obtain ⟨hdims, hsyms⟩ := hend state hrun
            exact binds_canonicalSimplified hpromotes fun _ =>
              Composing.allows_of_finish hfinish hdims hsyms

/-- The operands of a composed map are no results of apply operations, and no value is bound to
two dimensions or to two symbols. -/
theorem bindsOnce_compose (h : bound.compose store limit = .ok composed) :
    composed.toExprs.BindsOnce (store.definingApply? · = none) := by
  refine (binds_compose (fun _ hvalue _ => hvalue) h fun state hrun => ?_).bindsOnce
  have hend := Composing.next?_eq_none_of_run? hrun
  exact ⟨fun _ hmem => Slots.definingApply?_of_next? hend (Or.inl hmem),
    fun _ hmem => Slots.definingApply?_of_next? hend (Or.inr hmem)⟩

theorem fullyCompose_eq_compose (store : Store) (limit : Nat) (bound : BoundMap) :
    bound.fullyCompose store limit = bound.compose store limit := by
  unfold fullyCompose
  cases hcompose : bound.compose store limit with
  | error fault => rfl
  | ok composed =>
      have hoperands := (bindsOnce_compose hcompose).allowed
      have hnone :
          ¬ composed.operands.any fun operand => (store.definingApply? operand).isSome := by
        rw [List.any_eq_true]
        rintro ⟨operand, hmem, hsome⟩
        simp [hoperands operand hmem] at hsome
      dsimp only
      unfold composeRounds
      rw [if_neg hnone]

/-- Replacing the operands that apply operations produce takes more steps than allowed. -/
def ExceedsLimit (store : Store) (limit : Nat) (bound : BoundMap) : Prop :=
  bound.toComposing.run? store limit = none

theorem exceedsLimit_congr {other : BoundMap} (hdims : bound.map.dims = other.map.dims)
    (hoperands : bound.operands = other.operands) :
    bound.ExceedsLimit store limit ↔ other.ExceedsLimit store limit := by
  refine Composing.run?_eq_none_congr ?_
  simp only [toComposing, slots, dimOperands, symOperands, hdims, hoperands]

theorem spec_of_compose (hstore : store.Reachable) (hbound : bound.toExprs.WellFormed)
    (h : bound.compose store limit = .ok composed) :
    composed.toExprs.WellFormed ∧ composed.map.resultCount = bound.map.resultCount ∧
      ∀ rho, store.Consistent rho → composed.values rho = bound.values rho := by
  rcases compose_spec hstore hbound limit with hlimit | ⟨found, hfound, hspec⟩
  · rw [hlimit] at h
    cases h
  · obtain rfl := Except.ok.inj (hfound.symm.trans h)
    exact hspec

/-- Without results there is nothing to compose. -/
theorem compose_of_no_results (hbound : bound.toExprs.WellFormed)
    (hresults : bound.map.results = []) :
    bound.compose store limit = .ok (bound.canonicalSimplified store) := by
  have hlength : bound.operands.length = bound.map.inputs := hbound.length_eq
  rw [compose, if_neg (not_not.mpr hlength), if_pos hresults]

/-- A map with results is composed exactly if the limit is not exceeded. -/
theorem compose_cases (hstore : store.Reachable) (hbound : bound.toExprs.WellFormed)
    (hresults : bound.map.results ≠ []) (limit : Nat) :
    bound.ExceedsLimit store limit ∧
      bound.compose store limit = .error (.compositionLimit limit) ∨
    ¬ bound.ExceedsLimit store limit ∧
      ∃ composed, bound.compose store limit = .ok composed ∧ composed.toExprs.WellFormed ∧
        composed.map.resultCount = bound.map.resultCount ∧
        ∀ rho, store.Consistent rho → composed.values rho = bound.values rho := by
  have hlength : bound.operands.length = bound.map.inputs := hbound.length_eq
  by_cases hexceeds : bound.ExceedsLimit store limit
  · have hrun : bound.toComposing.run? store limit = none := hexceeds
    refine .inl ⟨hexceeds, ?_⟩
    simp only [compose, if_neg (not_not.mpr hlength), if_neg hresults, hrun]
  · obtain ⟨state, hrun⟩ := Option.ne_none_iff_exists'.mp hexceeds
    refine .inr ⟨hexceeds, ?_⟩
    rcases compose_spec hstore hbound limit with hlimit | hcomposed
    · -- a run that ends leaves a map whose positions pass their last check
      obtain ⟨hstate, -⟩ := Composing.run?_spec hstore (toComposing_valid hbound) hrun
      obtain ⟨finished, hfinish, -⟩ := Composing.finish_spec hstate
      simp only [compose, if_neg (not_not.mpr hlength), if_neg hresults, hrun, hfinish,
        Except.map, reduceCtorEq] at hlimit
    · exact hcomposed

end BoundMap

end AffineLoops
