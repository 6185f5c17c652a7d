import AffineLoops.Proofs.AffineMap.Folding
import AffineLoops.Proofs.BoundMap.Canonical

/-!
# Folding at known operands

A map with operands is folded at the constants that its operands hold.  Under an assignment in which
these constants hold, the point at which the results are evaluated agrees with them
(`agrees_constantsOf`), so folding keeps the values of all results (`values_foldConstants`).
-/

namespace AffineLoops.BoundMap

variable {store : Store} {rho : Assignment} {bound : BoundMap}

theorem agrees_constantsOf (hrho : store.ConstantsHold rho) (bound : BoundMap) :
    (rho.point bound.dimOperands bound.symOperands).Agrees bound.map.dims
      (store.constantsOf bound.operands) := by
  have hheld {position : Nat} {constant : Int}
      (h : (store.constantsOf bound.operands)[position]? = some (some constant)) :
      ∃ value, bound.operands[position]? = some value ∧ rho value = constant := by
    rw [Store.constantsOf, List.getElem?_map] at h
    obtain ⟨value, hvalue, hconstant⟩ := Option.map_eq_some_iff.mp h
    exact ⟨value, hvalue, hrho value constant hconstant⟩
  constructor
  · intro position constant hlt h
    obtain ⟨value, hvalue, rfl⟩ := hheld h
    have hdim : bound.dimOperands[position]? = some value := by
      rw [dimOperands, List.getElem?_take_of_lt hlt, hvalue]
    exact rho.point_dim hdim
  · intro position constant h
    obtain ⟨value, hvalue, rfl⟩ := hheld h
    have hsym : bound.symOperands[position]? = some value := by
      rw [symOperands, List.getElem?_drop, hvalue]
    exact rho.point_sym hsym

/-- Folding at the constants of the operands keeps the values of all results. -/
theorem values_foldConstants (hrho : store.ConstantsHold rho) {folded : AffineMap}
    {constants : Option (List Int)}
    (h : bound.map.foldConstants (store.constantsOf bound.operands) = .ok (folded, constants)) :
    folded.results.map (Expr.value (rho.point bound.dimOperands bound.symOperands)) =
      bound.values rho := by
  obtain ⟨-, rfl, -⟩ := AffineMap.foldConstants_eq_ok_iff.mp h
  rw [List.map_map]
  exact List.map_congr_left fun e _ =>
    AffineMap.value_foldedResult (agrees_constantsOf hrho bound) e

end AffineLoops.BoundMap
