import AffineLoops.Loop.TripCount
import AffineLoops.Proofs.BoundMap.Difference
import AffineLoops.Proofs.BoundMap.Folding
import AffineLoops.Proofs.Identifier.Ascent
import Mathlib.Data.Set.Card

/-!
# Trip counts are exact

The iterations of a loop are the numbers `k` for which `lower + k * step` is below all upper bounds
(`Bounds.iterations`).  For one lower and one upper bound there are `exactTrips lower upper step` of
them, the quotient of the distance by the step, rounded up in the rational numbers, or none if that
is negative.

For bounds that are not both constants the trip count is a map.  It is made from the difference of
the bounds, for which the only result of the lower bound is repeated, and a rounded quotient:

* `tripCount_cases_of_single`: with one lower bound there is a map unless a composition
  exceeds its limit, and its results are `exactTrips` of the lower bound and the upper bounds;
* `encard_iterations`: the iterations are counted by the smallest of these, or by zero;
* `isLeast_of_constantTripCount?`: so a constant trip count is that number.
-/

namespace AffineLoops

/-! ## Rounding -/

/-- The quotient of a distance by a step, rounded up. -/
def exactTrips (lower upper step : Int) : Int := ⌈((upper - lower : Int) : ℚ) / step⌉

theorem ceilDiv_sub_eq_exactTrips {lower upper step : Int} (hstep : 0 < step) :
    Word.ceilDiv (upper - lower) step = exactTrips lower upper step :=
  Word.ceilDiv_eq_ceil hstep

theorem lt_exactTrips_iff {lower upper step k : Int} (hstep : 0 < step) :
    k < exactTrips lower upper step ↔ lower + k * step < upper := by
  rw [← ceilDiv_sub_eq_exactTrips hstep, Word.lt_ceilDiv_iff hstep]
  omega

theorem encard_setOf_lt (count : Int) : {k : ℕ | (k : Int) < count}.encard = count.toNat := by
  have hset : {k : ℕ | (k : Int) < count} = ↑(Finset.range count.toNat) := by
    ext k
    simp only [Set.mem_ofPred_eq, Finset.coe_range, Set.mem_Iio]
    omega
  rw [hset, Set.encard_coe_eq_coe_finsetCard, Finset.card_range]

namespace Expr

theorem map_value_of_constants {exprs : List Expr} {constants : List Int}
    (h : exprs.mapM constant? = some constants) (point : Point) :
    exprs.map (value point) = constants := by
  induction exprs generalizing constants with
  | nil => simpa using h
  | cons e rest ih =>
      rw [List.mapM_cons] at h
      obtain ⟨constant, hconstant, h⟩ := Option.bind_eq_some_iff.mp h
      obtain ⟨tail, htail, h⟩ := Option.bind_eq_some_iff.mp h
      rw [← Option.some.inj h, List.map_cons, ih htail, eq_const_of_constant? hconstant]
      rfl

theorem ceilDivAll_eq_ok {step : Int} (hstep : 0 < step) (exprs : List Expr) :
    ceilDivAll step exprs = .ok (exprs.map (fold .ceilDiv · (const step))) := by
  have hbuild : ∀ e, build .ceilDiv e (const step) = .ok (fold .ceilDiv e (const step)) := by
    intro e
    simp only [build, checkAffine, constant?, if_neg (show ¬ step ≤ 0 by omega)]
    rfl
  induction exprs with
  | nil => rfl
  | cons e rest ih => simp only [ceilDivAll, hbuild, ih, List.map_cons]

end Expr

/-! ## The lower bound for every result of the upper bound -/

namespace BoundMap

variable {bound : BoundMap} {result : Expr}

/-- The map with one result, that result repeated. -/
def splat (bound : BoundMap) (result : Expr) (count : Nat) : BoundMap :=
  ⟨⟨bound.map.dims, bound.map.syms, List.replicate count result⟩, bound.operands⟩

theorem wellFormed_splat (hbound : bound.toExprs.WellFormed)
    (hresults : bound.map.results = [result]) (count : Nat) :
    (bound.splat result count).toExprs.WellFormed := by
  refine ⟨hbound.length_eq, ?_⟩
  intro e hmem
  rw [List.eq_of_mem_replicate hmem]
  exact hbound.inRange result (show result ∈ bound.map.results by simp [hresults])

theorem values_splat (hresults : bound.map.results = [result]) (rho : Assignment) :
    ∃ x, bound.values rho = [x] ∧
      ∀ count, (bound.splat result count).values rho = List.replicate count x := by
  refine ⟨result.value (rho.point bound.dimOperands bound.symOperands), ?_, ?_⟩
  · rw [values, hresults]
    rfl
  · exact fun count => List.map_replicate

end BoundMap

/-! ## Quotients of all results -/

namespace BoundMap

variable {bound : BoundMap}

/-- The map whose results are rounded up quotients of the results by a step. -/
def quotients (bound : BoundMap) (step : Int) : BoundMap :=
  ⟨⟨bound.map.dims, bound.map.syms, bound.map.results.map (Expr.fold .ceilDiv · (.const step))⟩,
    bound.operands⟩

theorem wellFormed_quotients (hbound : bound.toExprs.WellFormed) (step : Int) :
    (bound.quotients step).toExprs.WellFormed := by
  refine ⟨hbound.length_eq, ?_⟩
  intro e hmem
  obtain ⟨result, hresult, rfl⟩ := List.mem_map.mp hmem
  exact Expr.within_fold (hbound.inRange result hresult) Expr.within_const .ceilDiv

theorem values_quotients (rho : Assignment) (step : Int) :
    (bound.quotients step).values rho = (bound.values rho).map (Word.ceilDiv · step) := by
  rw [values, values, List.map_map]
  show (bound.map.results.map (Expr.fold .ceilDiv · (.const step))).map _ = _
  rw [List.map_map]
  refine List.map_congr_left fun e _ => ?_
  simp only [Function.comp_apply, Expr.value_fold]
  rfl

end BoundMap

/-! ## Bounds of loops in a program -/

/-- The bounds of a loop that was constructed. -/
structure Bounds.WellFormed (bounds : Bounds) : Prop where
  lower : bounds.lower.toExprs.WellFormed
  upper : bounds.upper.toExprs.WellFormed
  lower_ne_nil : bounds.lower.map.results ≠ []
  upper_ne_nil : bounds.upper.map.results ≠ []
  step_pos : 0 < bounds.step

/-- The operands of two bounds, one after the other, are enough for each of them. -/
theorem BoundMap.wellFormed_of_joined {lower upper : AffineMap} {operands : List ValueId}
    (hlower : lower.InRange) (hupper : upper.InRange)
    (hlength : operands.length = lower.inputs + upper.inputs) :
    (BoundMap.mk lower (operands.take lower.inputs)).toExprs.WellFormed ∧
      (BoundMap.mk upper (operands.drop lower.inputs)).toExprs.WellFormed := by
  refine ⟨⟨?_, hlower⟩, ⟨?_, hupper⟩⟩
  · show (operands.take lower.inputs).length = lower.inputs
    rw [List.length_take]
    omega
  · show (operands.drop lower.inputs).length = upper.inputs
    rw [List.length_drop]
    omega

theorem Store.Reachable.bounds_wellFormed {store : Store} (hstore : store.Reachable) {id : OpId}
    {loop : ForLoop} (h : store.forLoop? id = some loop) : loop.bounds.WellFormed := by
  unfold forLoop? at h
  split at h
  · rename_i lower upper step region regions hkind hregions
    split at h
    · cases h
    · split at h
      · cases h
      · have hfits := hstore.fits id
        rw [hkind] at hfits
        obtain ⟨hlower, hupper, hlength, hlower', hupper', hstep⟩ := hfits
        obtain rfl := Option.some.inj h
        obtain ⟨hlower, hupper⟩ := BoundMap.wellFormed_of_joined hlower hupper hlength
        exact ⟨hlower, hupper, List.ne_nil_of_length_pos (Nat.pos_of_ne_zero hlower'),
          List.ne_nil_of_length_pos (Nat.pos_of_ne_zero hupper'), hstep⟩
  · cases h

namespace Bounds

variable {store : Store} {bounds : Bounds} {limit : Nat} {rho : Assignment}

/-! ## Symbolic trip counts -/

theorem tripCount_eq_ok_none (hconstants : bounds.constants? = none)
    (hseveral : 1 < bounds.lower.map.resultCount) : bounds.tripCount store limit = .ok none := by
  have hnot : ∀ result, bounds.lower.map.results ≠ [result] := by
    intro result hresult
    rw [AffineMap.resultCount, hresult] at hseveral
    exact absurd hseveral (lt_irrefl _)
  unfold tripCount
  rw [hconstants]
  dsimp only
  split
  · rename_i result hresult
    exact absurd hresult (hnot result)
  · rfl

section Single

variable (hbounds : bounds.WellFormed) (hconstants : bounds.constants? = none) {result : Expr}
  (hresult : bounds.lower.map.results = [result])

include hbounds hconstants hresult

theorem tripCount_eq :
    bounds.tripCount store limit =
      (bounds.upper.difference store limit
        (bounds.lower.splat result bounds.upper.map.resultCount)).bind fun difference =>
          (AffineMap.ofResults difference.map.dims difference.map.syms
            (difference.quotients bounds.step).map.results).map
              fun map => some ⟨map.simplify, difference.operands⟩ := by
  have hsplat := BoundMap.wellFormed_splat hbounds.lower hresult bounds.upper.map.resultCount
  have hcheck :
      (bounds.lower.splat result bounds.upper.map.resultCount).checkOperandCount = .ok () :=
    if_pos hsplat.length_eq
  have hmap : AffineMap.ofResults bounds.lower.map.dims bounds.lower.map.syms
      (List.replicate bounds.upper.map.resultCount result) = .ok
        (bounds.lower.splat result bounds.upper.map.resultCount).map :=
    AffineMap.ofResults_eq_ok hsplat.inRange
  unfold tripCount
  simp only [hconstants, hresult, hmap]
  show (BoundMap.checkOperandCount (bounds.lower.splat result bounds.upper.map.resultCount)).bind
    _ = _
  rw [hcheck]
  show (bounds.upper.difference store limit
    (bounds.lower.splat result bounds.upper.map.resultCount)).bind _ = _
  congr 1
  funext difference
  rw [Expr.ceilDivAll_eq_ok hbounds.step_pos]
  rfl

/-- With one lower bound there is a trip count exactly if no composition exceeds the limit, and then
it is exact. -/
theorem tripCount_cases_of_single (hstore : store.Reachable) (limit : Nat) :
    (bounds.upper.ExceedsLimit store limit ∨ bounds.lower.ExceedsLimit store limit) ∧
      bounds.tripCount store limit = .error (.compositionLimit limit) ∨
    ¬ bounds.upper.ExceedsLimit store limit ∧ ¬ bounds.lower.ExceedsLimit store limit ∧
      ∃ trips, bounds.tripCount store limit = .ok (some trips) ∧ trips.toExprs.WellFormed ∧
        trips.map.resultCount = bounds.upper.map.resultCount ∧
        ∀ rho, store.Consistent rho → ∃ lower, bounds.lower.values rho = [lower] ∧
          trips.values rho =
            (bounds.upper.values rho).map fun upper => exactTrips lower upper bounds.step := by
  have hsplat := BoundMap.wellFormed_splat hbounds.lower hresult bounds.upper.map.resultCount
  have hsplat_ne_nil :
      (bounds.lower.splat result bounds.upper.map.resultCount).map.results ≠ [] := by
    show List.replicate bounds.upper.map.results.length result ≠ []
    simpa using hbounds.upper_ne_nil
  -- repeating a result does not change which operands have to be replaced
  have hexceeds :
      (bounds.lower.splat result bounds.upper.map.resultCount).ExceedsLimit store limit ↔
        bounds.lower.ExceedsLimit store limit := BoundMap.exceedsLimit_congr rfl rfl
  rw [tripCount_eq hbounds hconstants hresult, ← hexceeds]
  rcases BoundMap.difference_cases hstore hbounds.upper hsplat hbounds.upper_ne_nil hsplat_ne_nil
    limit with ⟨hlimit, herror⟩ | ⟨hupper, hlower, difference, hdifference, hwell, hcount, hvalues⟩
  · exact .inl ⟨hlimit, by rw [herror]; rfl⟩
  · have hquotients := BoundMap.wellFormed_quotients hwell bounds.step
    obtain ⟨hsimplified, -⟩ := BoundMap.simplify_spec (fun _ => 0) hquotients
    refine .inr ⟨hupper, hlower, _, ?_, hsimplified, ?_, ?_⟩
    · rw [hdifference]
      exact congrArg (Except.map _) (AffineMap.ofResults_eq_ok hquotients.inRange)
    · have hsplatCount :
          (bounds.lower.splat result bounds.upper.map.resultCount).map.resultCount =
            bounds.upper.map.resultCount := List.length_replicate
      rw [hsplatCount, min_self] at hcount
      simpa [AffineMap.resultCount, AffineMap.simplify, BoundMap.quotients] using hcount
    · intro rho hrho
      obtain ⟨lower, hlower, hreplicate⟩ := BoundMap.values_splat hresult rho
      refine ⟨lower, hlower, ?_⟩
      have hlength : bounds.upper.map.resultCount = (bounds.upper.values rho).length := by
        simp [BoundMap.values, AffineMap.resultCount]
      have hdifferences : difference.values rho = (bounds.upper.values rho).map (· - lower) := by
        rw [hvalues rho hrho, hreplicate, hlength, ← List.map_const', List.zipWith_map_right,
          List.zipWith_self]
      rw [(BoundMap.simplify_spec rho hquotients).2, BoundMap.values_quotients, hdifferences,
        List.map_map]
      exact List.map_congr_left fun upper _ => ceilDiv_sub_eq_exactTrips hbounds.step_pos

end Single

/-! ## Iterations -/

/-- The numbers of the iterations of a loop: the induction variable `lower + k * step` is below all
upper bounds, where `lower` is the largest of the lower bounds. -/
def iterations (bounds : Bounds) (rho : Assignment) : Set ℕ :=
  {k | ∀ lower ∈ bounds.lower.values rho, ∀ upper ∈ bounds.upper.values rho,
    lower + k * bounds.step < upper}

/-- The trip counts for all results of the upper bound, none of them negative. -/
def tripCounts (bounds : Bounds) (rho : Assignment) (lower : Int) : Set Int :=
  {count | ∃ upper ∈ bounds.upper.values rho, count = max 0 (exactTrips lower upper bounds.step)}

theorem encard_iterations {lower : Int} {n : ℕ} (hstep : 0 < bounds.step)
    (hlower : bounds.lower.values rho = [lower]) (h : IsLeast (bounds.tripCounts rho lower) n) :
    (bounds.iterations rho).encard = n := by
  have hset : bounds.iterations rho = {k : ℕ | (k : Int) < n} := by
    ext k
    simp only [iterations, Set.mem_ofPred_eq, hlower, List.forall_mem_singleton]
    constructor
    · -- the smallest count is the one for some upper bound, below which `k` stays
      intro hbelow
      obtain ⟨upper, hmem, heq⟩ := h.1
      have hlt := (lt_exactTrips_iff hstep).mpr (hbelow upper hmem)
      omega
    · intro hlt upper hmem
      have hle : (n : Int) ≤ max 0 (exactTrips lower upper bounds.step) := h.2 ⟨upper, hmem, rfl⟩
      exact (lt_exactTrips_iff hstep).mp (by omega)
  rw [hset, encard_setOf_lt, Int.toNat_natCast]

/-- A constant trip count is the smallest count, if the trip count is exact. -/
theorem isLeast_of_constantTripCount? {trips : BoundMap} {lower : Int} {n : ℕ}
    (hrho : store.ConstantsHold rho) (htrips : bounds.tripCount store limit = .ok (some trips))
    (hvalues : trips.values rho =
      (bounds.upper.values rho).map fun upper => exactTrips lower upper bounds.step)
    (h : bounds.constantTripCount? store limit = some n) :
    IsLeast (bounds.tripCounts rho lower) n := by
  unfold constantTripCount? tripResults? at h
  rw [htrips] at h
  dsimp only at h
  cases hfolded : trips.map.foldConstants (store.constantsOf trips.operands) with
  | error fault =>
      rw [hfolded] at h
      cases h
  | ok pair =>
      rw [hfolded] at h
      dsimp only at h
      cases hcounts : pair.1.results.mapM Expr.constant? with
      | none =>
          rw [hcounts] at h
          cases h
      | some counts =>
          rw [hcounts] at h
          have hconstants := Expr.map_value_of_constants hcounts
            (rho.point trips.dimOperands trips.symOperands)
          rw [BoundMap.values_foldConstants hrho hfolded, hvalues] at hconstants
          obtain ⟨hmem, hle⟩ := List.min?_eq_some_iff.mp h
          rw [← hconstants, List.map_map] at hmem hle
          constructor
          · obtain ⟨upper, hupper, heq⟩ := List.mem_map.mp hmem
            refine ⟨upper, hupper, ?_⟩
            rw [← heq]
            exact (Int.toNat_eq_max _).trans (max_comm _ _)
          · rintro count ⟨upper, hupper, rfl⟩
            have hcount := hle _ (List.mem_map_of_mem hupper)
            simp only [Function.comp_apply] at hcount
            omega

end Bounds

/-! ## A loop with symbolic bounds

In the function of `%n`, with `%a` the result of `(d0) -> (d0 + 4)` on `%n`, the loop from `%n` to
the smaller one of `%a + 6` and `%a + 9` by steps of 3 has four iterations, whatever `%n` is. -/

namespace SymbolicLoop

def function : Store := (Build.function 0 "f" [.index] .empty).2

def offset : Owned AffineMap := ⟨0, ⟨1, 0, [.binary .add (.dim 0) (.const 4)]⟩⟩

def lower : Owned AffineMap := ⟨0, ⟨1, 0, [.dim 0]⟩⟩

def upper : Owned AffineMap :=
  ⟨0, ⟨1, 0, [.binary .add (.dim 0) (.const 6), .binary .add (.dim 0) (.const 9)]⟩⟩

def store : Store :=
  (Build.forLoop 0 lower [⟨0⟩] upper [⟨1⟩] 3 (Build.apply 0 offset [⟨0⟩] function).2).2

theorem reachable : store.Reachable :=
  (Construction.forLoop (by decide) (by decide) (by decide)).reachable <|
    (Construction.apply (by decide) (by decide)).reachable <|
      (Construction.function 0 "f" [.index]).reachable .empty

theorem noSelfNesting : store.NoSelfNesting :=
  Store.noSelfNesting_of_depth (fun op => [0, 0, 1, 0].getD op.index 0) (by decide)

def loop : ForLoop :=
  ⟨⟨3⟩, ⟨⟨lower.item, [⟨0⟩]⟩, ⟨upper.item, [⟨1⟩]⟩, 3⟩, ⟨1⟩, ⟨1⟩, ⟨2⟩⟩

theorem forLoop?_eq : store.forLoop? ⟨3⟩ = some loop := rfl

/-- The assignment at a value of `%n`. -/
def rho (n : Int) : Assignment := fun value => [n, n + 4].getD value.index 0

theorem consistent (n : Int) : store.Consistent (rho n) where
  constants := by
    rintro ⟨index⟩ constant h
    match index with
    | 0 | 1 | 2 => cases h
    | index + 3 => cases h
  applied := by
    rintro ⟨index⟩ bound h
    match index with
    | 0 => cases h
    | 1 => cases h; rfl
    | 2 => cases h
    | index + 3 => cases h

end SymbolicLoop

end AffineLoops
