import AffineLoops.Proofs.BoundMap.FullComposition
import AffineLoops.Proofs.IR.Traits
import AffineLoops.Proofs.Identifier.Judgement
import AffineLoops.Verification

/-!
# Composition keeps operands legal

An operation may apply a map to operands if they are dimensions and symbols in the scope of the
operation.  Composition puts the operands of apply operations in their place, and then turns
dimensions into symbols by another judgement, the one in their own scope.  Neither makes legal
operands illegal.

* `legal_operands_of_isSymbol` and `legal_operands_of_isDim`: if the result of a verified apply
  operation is legal in a scope, then so are its operands.  Either the result is judged by them, or
  it is at the top level of the scope; then the scope is that of the apply operation itself, in
  which its operands have been verified.
* `Slots.Legal.absorb` and `Composing.legal_run?`: one replacement and hence the whole loop keep
  the values of all inputs legal.
* `promotes_isDim`: a dimension that is no result of an apply operation and is a symbol in its own
  scope is a symbol in every scope in which it is a dimension.  The only dimensions that are not
  symbols are induction variables, and loops begin no scope.
-/

namespace AffineLoops

namespace Store

variable {store : Store} {value : ValueId} {definer op : OpId} {scope : Option RegionId}

/-- The value is the result of an apply operation that has the operand. -/
def AppliesTo (store : Store) (value operand : ValueId) : Prop :=
  ∃ definer, store.definingApply? value = some definer ∧ operand ∈ (store.op definer).operands

/-- All apply operations that are reached from a value through operands of apply operations
verify. -/
def AppliesVerified (store : Store) (value : ValueId) : Prop :=
  ∀ reached definer, Relation.ReflTransGen store.AppliesTo value reached →
    store.definingApply? reached = some definer → store.verify? definer = some (.ok ())

theorem AppliesVerified.operand (h : store.AppliesVerified value)
    (hdefining : store.definingApply? value = some definer) {operand : ValueId}
    (hmem : operand ∈ (store.op definer).operands) : store.AppliesVerified operand :=
  fun reached definer' hpath => h reached definer' (.head ⟨definer, hdefining, hmem⟩ hpath)

/-! ## What verification says -/

theorem verifyIdentifiers_eq_ok_iff {dims : Nat} {operands : List ValueId} :
    store.verifyIdentifiers scope dims operands = .ok () ↔
      (∀ operand ∈ operands.take dims, store.isDim operand scope) ∧
        ∀ operand ∈ operands.drop dims, store.isSymbol operand scope := by
  fun_induction verifyIdentifiers store scope dims operands with
  | case1 => simp
  | case2 operand rest hsymbol ih => simpa [hsymbol] using ih
  | case3 operand rest hsymbol => simp [hsymbol]
  | case4 dims operand rest hdim ih => simpa [hdim] using ih
  | case5 dims operand rest hdim => simp [hdim]

/-- A verified apply operation has legal operands in its own scope. -/
theorem verifyOperands_of_verify? {map : AffineMap} (hkind : (store.op definer).kind = .apply map)
    (h : store.verify? definer = some (.ok ())) :
    store.verifyOperands definer (store.op definer).operands map.dims = .ok () := by
  have hverify : store.verifyApply definer ⟨map, (store.op definer).operands⟩ = .ok () := by
    simpa [verify?, hkind, boundMap?, OpKind.map?] using h
  obtain ⟨_, -, hverify⟩ := Build.of_bind_eq_ok hverify
  obtain ⟨_, -, hverify⟩ := Build.of_bind_eq_ok hverify
  obtain ⟨_, -, hverify⟩ := Build.of_bind_eq_ok hverify
  exact hverify

/-! ## The operands of an apply operation whose result is legal -/

section Judgements

variable (hordered : store.Ordered)

include hordered

theorem isIndex_of_isSymbol (h : store.isSymbol value scope) : (store.typeOf value).isIndex := by
  rw [isSymbol_eq hordered] at h
  exact (Bool.and_eq_true_iff.mp h).1

theorem isDim_of_isSymbol (h : store.isSymbol value scope) : store.isDim value scope := by
  rw [isDim_eq hordered, isIndex_of_isSymbol hordered h, h]
  rfl

theorem legal_operands_of_isSymbol {map : AffineMap}
    (hdefining : store.definingOp? value = some definer)
    (hkind : (store.op definer).kind = .apply map)
    (hverified : store.verify? definer = some (.ok ()))
    (hsymbol : store.isSymbol value (store.scope? op)) :
    store.verifyIdentifiers (store.scope? op) map.dims (store.op definer).operands = .ok () := by
  rw [isSymbol_eq hordered] at hsymbol
  simp only [hdefining, hkind, Bool.and_eq_true, Bool.or_eq_true, List.all_eq_true] at hsymbol
  rcases hsymbol.2 with htop | hoperands
  · cases hscope : store.scope? op with
    | none =>
        rw [hscope] at htop
        cases htop
    | some region =>
        -- the result is at the top level of the scope, which is that of its operation as well
        rw [hscope] at htop
        have hregion := (isTopLevel_of_definingOp? hdefining).mp htop
        obtain ⟨owner, howner, htrait⟩ := exists_owner_of_scope? hscope
        rw [← scope?_of_hasTrait hregion howner htrait]
        exact verifyOperands_of_verify? hkind hverified
  · rw [verifyIdentifiers_eq_ok_iff]
    refine ⟨fun operand hmem => ?_, fun operand hmem => ?_⟩
    · exact isDim_of_isSymbol hordered (hoperands operand (List.mem_of_mem_take hmem))
    · exact hoperands operand (List.mem_of_mem_drop hmem)

theorem legal_operands_of_isDim {map : AffineMap}
    (hdefining : store.definingOp? value = some definer)
    (hkind : (store.op definer).kind = .apply map)
    (hverified : store.verify? definer = some (.ok ()))
    (hdim : store.isDim value (store.scope? op)) :
    store.verifyIdentifiers (store.scope? op) map.dims (store.op definer).operands = .ok () := by
  rw [isDim_eq hordered] at hdim
  simp only [hdefining, hkind, Bool.and_eq_true, Bool.or_eq_true, List.all_eq_true] at hdim
  rcases hdim.2 with hsymbol | hoperands
  · exact legal_operands_of_isSymbol hordered hdefining hkind hverified hsymbol
  · exact verifyIdentifiers_eq_ok_iff.mpr hoperands

end Judgements

/-! ## Dimensions that become symbols -/

/-- An induction variable is no symbol in its own scope. -/
theorem Constructed.not_isSymbolInOwnScope (hstore : store.Constructed)
    (hvariable : store.isInductionVariable value) : ¬ store.isSymbolInOwnScope value := by
  intro hown
  unfold isInductionVariable isArgumentOf at hvariable
  split at hvariable
  · cases hvariable
  · rename_i block index howner
    split at hvariable
    · cases hvariable
    · rename_i loop hparent
      have htrait : store.hasTrait loop .affineScope := by
        simpa [isSymbolInOwnScope, isTopLevelOfScope, definingOp?, valueParent?, howner, hparent]
          using (Bool.and_eq_true_iff.mp hown).2
      exact hstore.not_hasTrait_of_isLoop hvariable htrait

theorem promotes_isDim (hstore : store.Constructed) :
    BoundExprs.Promotes store
      (fun value => store.isDim value scope ∧ store.definingApply? value = none)
      fun value => store.isSymbol value scope := by
  rintro value ⟨hdim, hnoApply⟩ hown
  have hordered := hstore.reachable.ordered
  rw [isDim_eq hordered] at hdim
  obtain ⟨hindex, hdim⟩ := Bool.and_eq_true_iff.mp hdim
  rcases Bool.or_eq_true_iff.mp hdim with hsymbol | hother
  · exact hsymbol
  · cases hdefining : store.definingOp? value with
    | none =>
        rw [hdefining] at hother
        exact absurd hown (hstore.not_isSymbolInOwnScope hother)
    | some definer =>
        simp only [hdefining] at hother
        split at hother
        · rename_i map hkind
          simp [definingApply?, hdefining, hkind] at hnoApply
        · -- the size of a reference at the top level of a scope is fixed in every scope
          rename_i hkind
          split at hother
          · cases hother
          · rename_i source hsource
            rw [isSymbol_eq hordered]
            simp [hindex, hdefining, hkind, isFixedSize, hsource, hother]
        · cases hother

end Store

/-! ## The loop of a composition -/

namespace Slots

variable {store : Store} {scope : Option RegionId} {slots : Slots}

/-- The values of all inputs are legal in a scope, and the apply operations behind them verify. -/
structure Legal (store : Store) (scope : Option RegionId) (slots : Slots) : Prop where
  dims : ∀ value, some value ∈ slots.dims → store.isDim value scope ∧ store.AppliesVerified value
  syms : ∀ value, some value ∈ slots.syms →
    store.isSymbol value scope ∧ store.AppliesVerified value

theorem Legal.clear (h : slots.Legal store scope) (input : Input) :
    (slots.clear input).Legal store scope := by
  have hkept : ∀ {values : List (Option ValueId)} {position : Nat} {value : ValueId},
      some value ∈ values.set position none → some value ∈ values := by
    intro values position value hmem
    rcases List.mem_or_eq_of_mem_set hmem with hmem | hnone
    · exact hmem
    · cases hnone
  cases input with
  | dim position => exact ⟨fun value hmem => h.dims value (hkept hmem), h.syms⟩
  | sym position => exact ⟨h.dims, fun value hmem => h.syms value (hkept hmem)⟩

theorem Legal.extend {bound : BoundMap} (h : slots.Legal store scope)
    (hlegal : store.verifyIdentifiers scope bound.map.dims bound.operands = .ok ())
    (hverified : ∀ operand ∈ bound.operands, store.AppliesVerified operand) :
    (slots.extend bound).Legal store scope := by
  obtain ⟨hdims, hsyms⟩ := Store.verifyIdentifiers_eq_ok_iff.mp hlegal
  refine ⟨fun value hmem => ?_, fun value hmem => ?_⟩
  · rcases List.mem_append.mp hmem with hold | hnew
    · exact h.dims value hold
    · have hnew : value ∈ bound.dimOperands := by simpa using hnew
      exact ⟨hdims value hnew, hverified value (List.mem_of_mem_take hnew)⟩
  · rcases List.mem_append.mp hmem with hold | hnew
    · exact h.syms value hold
    · have hnew : value ∈ bound.symOperands := by simpa using hnew
      exact ⟨hsyms value hnew, hverified value (List.mem_of_mem_drop hnew)⟩

/-- The operands of a legal input that an apply operation produces are legal, each in its place. -/
theorem Legal.absorb (hordered : store.Ordered) {op : OpId} {input : Input} {value : ValueId}
    {bound : BoundMap} (h : slots.Legal store (store.scope? op))
    (hnext : slots.next? store = some (input, value, bound)) :
    ((slots.clear input).extend bound).Legal store (store.scope? op) := by
  obtain ⟨hvalue, happlied⟩ := next?_eq_some hnext
  obtain ⟨definer, happly⟩ : ∃ definer, store.definingApply? value = some definer := by
    cases happly : store.definingApply? value with
    | none => simp [Store.appliedMap?, happly] at happlied
    | some definer => exact ⟨definer, rfl⟩
  obtain ⟨hdefining, map, hkind⟩ := Store.definingApply?_eq_some happly
  obtain rfl : ⟨map, (store.op definer).operands⟩ = bound := by
    simpa [Store.appliedMap?, happly, Store.boundMap?, hkind, OpKind.map?] using happlied
  have hinput : (store.isDim value (store.scope? op) ∨ store.isSymbol value (store.scope? op)) ∧
      store.AppliesVerified value := by
    cases input with
    | dim position =>
        have hmem : some value ∈ slots.dims :=
          List.mem_of_getElem? (Option.join_eq_some_iff.mp hvalue)
        exact (h.dims value hmem).imp_left Or.inl
    | sym position =>
        have hmem : some value ∈ slots.syms :=
          List.mem_of_getElem? (Option.join_eq_some_iff.mp hvalue)
        exact (h.syms value hmem).imp_left Or.inr
  have hverified := hinput.2 value definer .refl happly
  refine (h.clear input).extend ?_ fun operand hmem => hinput.2.operand happly hmem
  rcases hinput.1 with hdim | hsymbol
  · exact Store.legal_operands_of_isDim hordered hdefining hkind hverified hdim
  · exact Store.legal_operands_of_isSymbol hordered hdefining hkind hverified hsymbol

end Slots

namespace Composing

variable {store : Store} {op : OpId} {state state' : Composing}

theorem legal_step? (hordered : store.Ordered)
    (hstate : state.slots.Legal store (store.scope? op)) (h : state.step? store = some state') :
    state'.slots.Legal store (store.scope? op) := by
  unfold step? at h
  split at h
  · rename_i input value bound hnext
    obtain rfl := Option.some.inj h
    exact hstate.absorb hordered hnext
  · cases h

theorem legal_run? (hordered : store.Ordered) {steps : Nat}
    (hstate : state.slots.Legal store (store.scope? op))
    (h : state.run? store steps = some state') : state'.slots.Legal store (store.scope? op) := by
  induction steps generalizing state with
  | zero =>
      unfold run? at h
      split at h
      · obtain rfl := Option.some.inj h
        exact hstate
      · cases h
  | succ steps ih =>
      unfold run? at h
      split at h
      · obtain rfl := Option.some.inj h
        exact hstate
      · rename_i next hstep
        exact ih (legal_step? hordered hstate hstep) h

end Composing

namespace BoundMap

variable {store : Store} {bound composed : BoundMap} {limit : Nat} {op : OpId}

theorem legal_toComposing
    (hlegal : store.verifyOperands op bound.operands bound.map.dims = .ok ())
    (hverified : ∀ operand ∈ bound.operands, store.AppliesVerified operand) :
    bound.toComposing.slots.Legal store (store.scope? op) := by
  have hnone : Slots.Legal store (store.scope? op) ⟨[], []⟩ := ⟨by simp, by simp⟩
  exact hnone.extend hlegal hverified

/-- If the operands of a map are legal at an operation, and all apply operations behind them
verify, then the operands of the composed map are legal at the operation. -/
theorem verifyOperands_compose (hstore : store.Constructed)
    (hlegal : store.verifyOperands op bound.operands bound.map.dims = .ok ())
    (hverified : ∀ operand ∈ bound.operands, store.AppliesVerified operand)
    (hcompose : bound.compose store limit = .ok composed) :
    store.verifyOperands op composed.operands composed.map.dims = .ok () := by
  have hordered := hstore.reachable.ordered
  have hstart := legal_toComposing hlegal hverified
  have hbinds : composed.toExprs.Binds
      (fun value => store.isDim value (store.scope? op) ∧ store.definingApply? value = none)
      fun value => store.isSymbol value (store.scope? op) := by
    refine binds_compose (Store.promotes_isDim hstore) hcompose fun state hrun => ?_
    have hstate := Composing.legal_run? hordered hstart hrun
    have hend := Composing.next?_eq_none_of_run? hrun
    refine ⟨fun value hmem => ?_, fun value hmem => (hstate.syms value hmem).1⟩
    exact ⟨(hstate.dims value hmem).1, Slots.definingApply?_of_next? hend (Or.inl hmem)⟩
  refine Store.verifyIdentifiers_eq_ok_iff.mpr ⟨fun operand hmem => ?_, fun operand hmem => ?_⟩
  · exact (hbinds.dims.allowed operand hmem).1
  · exact hbinds.syms.allowed operand hmem

end BoundMap

/-! A function with an index `n` and a loop over `i`.  The loop computes `i + n`, as a map of two
dimensions, and then twice that sum. -/

namespace ApplyInLoop

def loop : Store :=
  (Build.appendOp ⟨0⟩ ⟨2⟩
    (Build.forLoop 0 ⟨0, .ofConst 0⟩ [] ⟨0, .ofConst 8⟩ [] 1
      (Build.function 0 "f" [.index] .empty).2).2).2

def sum : Owned AffineMap := ⟨0, ⟨2, 0, [.binary .add (.dim 0) (.dim 1)]⟩⟩

def double : Owned AffineMap := ⟨0, ⟨1, 0, [.binary .mul (.dim 0) (.const 2)]⟩⟩

def store : Store :=
  let summed := (Build.apply 0 sum [⟨1⟩, ⟨0⟩] loop).2
  let placed := (Build.insertBeforeTerminator ⟨1⟩ ⟨3⟩ summed).2
  let doubled := (Build.apply 0 double [⟨2⟩] placed).2
  (Build.insertBeforeTerminator ⟨1⟩ ⟨4⟩ doubled).2

theorem constructed : store.Constructed :=
  .construct (.insertBeforeTerminator (by decide) (by decide)) <|
    .construct (.apply (by decide) (by decide)) <|
      .construct (.insertBeforeTerminator (by decide) (by decide)) <|
        .construct (.apply (by decide) (by decide)) <|
          .construct (.appendOp (by decide) (by decide)) <|
            .construct (.forLoop (by decide) (by decide) (by decide)) <|
              .construct (.function 0 "f" [.index]) .empty

set_option maxRecDepth 800 in
theorem appliesVerified (value : ValueId) : store.AppliesVerified value := by
  rintro ⟨index⟩ definer - hdefining
  match index with
  | 0 => cases hdefining
  | 1 => cases hdefining
  | 2 => cases hdefining; decide
  | 3 => cases hdefining; decide
  | index + 4 => cases hdefining

def bound : BoundMap := ⟨⟨1, 0, [.binary .add (.dim 0) (.const 1)]⟩, [⟨3⟩]⟩

end ApplyInLoop

set_option maxRecDepth 800 in
open ApplyInLoop in
/-- At the end of the loop one more than the double is composed into a map of the dimension `i` and
the symbol `n`. -/
theorem verifyOperands_compose_applyInLoop :
    store.Constructed ∧ store.verifyOperands ⟨1⟩ bound.operands bound.map.dims = .ok () ∧
      (∀ operand ∈ bound.operands, store.AppliesVerified operand) ∧
      ∃ composed, bound.compose store 2 = .ok composed ∧ composed.operands = [⟨1⟩, ⟨0⟩] ∧
        composed.map.dims = 1 ∧
        store.verifyOperands ⟨1⟩ composed.operands composed.map.dims = .ok () := by
  have hlegal : store.verifyOperands ⟨1⟩ bound.operands bound.map.dims = .ok () := by decide
  obtain ⟨composed, hcomposed⟩ : ∃ composed, bound.compose store 2 = .ok composed := ⟨_, rfl⟩
  refine ⟨constructed, hlegal, fun operand _ => appliesVerified operand, composed, hcomposed,
    ?_, ?_,
    BoundMap.verifyOperands_compose constructed hlegal (fun operand _ => appliesVerified operand)
      hcomposed⟩
  · obtain rfl := Except.ok.inj hcomposed
    decide
  · obtain rfl := Except.ok.inj hcomposed
    decide

end AffineLoops
