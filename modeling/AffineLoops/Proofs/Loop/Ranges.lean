import AffineLoops.Proofs.Loop.TripCount

/-!
# Ranges of parallel loops are exact

The ranges of a band of parallel loops are the difference of two value maps, the upper bounds and
the lower bounds.  A difference of value maps is the difference of their bound maps, once the
results are equally many and the contexts are the same (`ValueMap.difference_eq_ok_iff`).  The
bounds of a band that was constructed have an operand for every input
(`Store.Reachable.parallelLoops_wellFormed`), so the ranges are exact, and if they are constants
then these constants are the distances between the bounds, whatever the operands are.
-/

namespace AffineLoops

section Ranges

variable {store : Store} {limit : Nat}

theorem Store.Reachable.parallelLoops_wellFormed (hstore : store.Reachable) {id : OpId}
    {loops : ParallelLoops} (h : store.parallelLoops? id = some loops) :
    loops.lower.toExprs.WellFormed ∧ loops.upper.toExprs.WellFormed ∧
      loops.lower.map.resultCount = loops.steps.length ∧
      loops.upper.map.resultCount = loops.steps.length := by
  unfold parallelLoops? at h
  split at h
  · rename_i lower upper steps region regions hkind hregions
    split at h
    · cases h
    · have hfits := hstore.fits id
      rw [hkind] at hfits
      obtain ⟨hlower, hupper, hlength, hlowerCount, hupperCount, -⟩ := hfits
      obtain rfl := Option.some.inj h
      obtain ⟨hlower, hupper⟩ := BoundMap.wellFormed_of_joined hlower hupper hlength
      exact ⟨hlower, hupper, hlowerCount, hupperCount⟩
  · cases h

namespace ValueMap

variable {lhs rhs difference : ValueMap}

theorem difference_eq_ok_iff :
    lhs.difference store limit rhs = .ok difference ↔
      lhs.bound.map.resultCount = rhs.bound.map.resultCount ∧ lhs.context = rhs.context ∧
        ∃ bound, lhs.bound.difference store limit rhs.bound = .ok bound ∧
          ⟨lhs.context, bound, []⟩ = difference := by
  unfold ValueMap.difference
  split
  · rename_i hcount
    exact iff_of_false (by simp) fun h => hcount h.1
  · rename_i hcount
    split
    · rename_i hcontext
      exact iff_of_false (by simp) fun h => hcontext h.2.1
    · rename_i hcontext
      rw [not_not] at hcount hcontext
      simp only [hcount, hcontext, true_and]
      constructor
      · exact of_map_eq_ok
      · rintro ⟨bound, hbound, rfl⟩
        rw [hbound]
        rfl

section Exact

variable (hstore : store.Reachable) (hlhs : lhs.bound.toExprs.WellFormed)
  (hrhs : rhs.bound.toExprs.WellFormed)

include hstore hlhs hrhs

theorem exists_difference_iff :
    (∃ difference, lhs.difference store limit rhs = .ok difference) ↔
      lhs.bound.map.resultCount = rhs.bound.map.resultCount ∧ lhs.context = rhs.context ∧
        (lhs.bound.map.results ≠ [] → ¬ lhs.bound.ExceedsLimit store limit ∧
          ¬ rhs.bound.ExceedsLimit store limit) := by
  constructor
  · rintro ⟨difference, h⟩
    obtain ⟨hcount, hcontext, bound, hbound, -⟩ := difference_eq_ok_iff.mp h
    have hwithin := (BoundMap.exists_difference_iff hstore hlhs hrhs hcount).mp ⟨bound, hbound⟩
    exact ⟨hcount, hcontext, hwithin⟩
  · rintro ⟨hcount, hcontext, hwithin⟩
    obtain ⟨bound, hbound⟩ :=
      (BoundMap.exists_difference_iff hstore hlhs hrhs hcount).mpr hwithin
    exact ⟨_, difference_eq_ok_iff.mpr ⟨hcount, hcontext, bound, hbound, rfl⟩⟩

theorem difference_spec (h : lhs.difference store limit rhs = .ok difference) :
    difference.context = lhs.context ∧
      difference.bound.map.resultCount = lhs.bound.map.resultCount ∧
      (∀ operand ∈ difference.bound.operands, store.definingApply? operand = none) ∧
      ∀ rho, store.Consistent rho → difference.bound.values rho =
        List.zipWith (· - ·) (lhs.bound.values rho) (rhs.bound.values rho) := by
  obtain ⟨hcount, -, bound, hbound, rfl⟩ := difference_eq_ok_iff.mp h
  obtain ⟨-, hresults, hvalues⟩ := BoundMap.difference_spec hstore hlhs hrhs hbound
  rw [← hcount, min_self] at hresults
  exact ⟨rfl, hresults, (BoundMap.bindsOnce_difference hbound).allowed, hvalues⟩

end Exact

end ValueMap

theorem ParallelLoops.constantRanges?_eq_some {loops : ParallelLoops} {ranges : List Int}
    (h : loops.constantRanges? store limit = some ranges) :
    ∃ difference, loops.ranges store limit = .ok difference ∧
      difference.bound.map.results.mapM Expr.constant? = some ranges := by
  unfold constantRanges? at h
  split at h
  · cases h
  · rename_i difference hranges
    exact ⟨difference, hranges, h⟩

/-- Differences of value maps are exact.  Two value maps have a difference exactly if they have
equally many results and the same context and, unless there are no results, neither composition
exceeds the limit.  Its operands are not the results of apply operations, and under every consistent
assignment its results are the differences of the results.  So if the ranges of a band of parallel
loops are found to be constants, there is one for every loop, and they are the distances from the
lower to the upper bounds. -/
theorem ValueMap.difference_exact (hstore : store.Reachable) (limit : Nat) :
    (∀ lhs rhs : ValueMap, lhs.bound.toExprs.WellFormed → rhs.bound.toExprs.WellFormed →
      ((∃ difference, lhs.difference store limit rhs = .ok difference) ↔
        lhs.bound.map.resultCount = rhs.bound.map.resultCount ∧ lhs.context = rhs.context ∧
          (lhs.bound.map.results ≠ [] → ¬ lhs.bound.ExceedsLimit store limit ∧
            ¬ rhs.bound.ExceedsLimit store limit)) ∧
      ∀ difference, lhs.difference store limit rhs = .ok difference →
        difference.context = lhs.context ∧
        difference.bound.map.resultCount = lhs.bound.map.resultCount ∧
        (∀ operand ∈ difference.bound.operands, store.definingApply? operand = none) ∧
        ∀ rho, store.Consistent rho → difference.bound.values rho =
          List.zipWith (· - ·) (lhs.bound.values rho) (rhs.bound.values rho)) ∧
    ∀ id loops ranges, store.parallelLoops? id = some loops →
      loops.constantRanges? store limit = some ranges →
      ranges.length = loops.steps.length ∧
      ∀ rho, store.Consistent rho →
        ranges = List.zipWith (· - ·) (loops.upper.values rho) (loops.lower.values rho) := by
  constructor
  · intro lhs rhs hlhs hrhs
    exact ⟨exists_difference_iff hstore hlhs hrhs, fun difference h =>
      difference_spec hstore hlhs hrhs h⟩
  · intro id loops ranges hloops hranges
    obtain ⟨hlower, hupper, -, hcount⟩ := hstore.parallelLoops_wellFormed hloops
    obtain ⟨difference, hdifference, hconstants⟩ := ParallelLoops.constantRanges?_eq_some hranges
    obtain ⟨-, hresults, -, hvalues⟩ := difference_spec hstore hupper hlower hdifference
    refine ⟨?_, fun rho hrho => ?_⟩
    · calc ranges.length
          = difference.bound.map.resultCount := (mapM_eq_some_iff.mp hconstants).length_eq.symm
        _ = loops.upper.map.resultCount := hresults
        _ = loops.steps.length := hcount
    · calc ranges
          = difference.bound.values rho := (Expr.map_value_of_constants hconstants _).symm
        _ = List.zipWith (· - ·) (loops.upper.values rho) (loops.lower.values rho) :=
          hvalues rho hrho

end Ranges

/-! ## A band over nested apply operations

With `%a` the value of `%n floordiv 4 + 4` and `%b` that of `2 * %a + 1`, the first loop of the band
runs from `2 * %a` to `%b`, and the second one from 0 to 12 by steps of 3. -/

namespace NestedBand

def lower : Owned AffineMap := ⟨0, ⟨1, 0, [.binary .mul (.dim 0) (.const 2), .const 0]⟩⟩

def upper : Owned AffineMap := ⟨0, ⟨1, 0, [.dim 0, .const 12]⟩⟩

def store : Store := (Build.parallel 0 lower [⟨2⟩] upper [⟨3⟩] [1, 3] NestedApply.store).2

theorem reachable : store.Reachable :=
  (Construction.parallel (by decide) (by decide) (by decide)).reachable NestedApply.reachable

def loops : ParallelLoops :=
  ⟨⟨5⟩, ⟨lower.item, [⟨2⟩]⟩, ⟨upper.item, [⟨3⟩]⟩, [1, 3], ⟨1⟩, ⟨1⟩⟩

theorem parallelLoops?_eq : store.parallelLoops? ⟨5⟩ = some loops := rfl

theorem consistent : store.Consistent NestedApply.rho where
  constants := by
    rintro ⟨index⟩ constant h
    match index with
    | 0 => cases h
    | 1 => exact Option.some.inj h
    | 2 | 3 | 4 | 5 => cases h
    | index + 6 => cases h
  applied := by
    rintro ⟨index⟩ bound h
    match index with
    | 0 | 1 => cases h
    | 2 => cases h; rfl
    | 3 => cases h; rfl
    | 4 | 5 => cases h
    | index + 6 => cases h

/-- The results `%b + %a` and `%a mod 4`. -/
def first : ValueMap := ⟨0, NestedApply.bound, []⟩

/-- The results `3 * %a` and `%a + 4`. -/
def second : ValueMap :=
  ⟨0, ⟨⟨1, 1, [.binary .mul (.dim 0) (.const 3), .binary .add (.dim 0) (.sym 0)]⟩,
    [⟨2⟩, ⟨1⟩]⟩, []⟩

end NestedBand

open NestedBand in
theorem difference_exact_nestedBand :
    store.Reachable ∧ store.Consistent NestedApply.rho ∧
    (∃ difference, first.difference store 3 second = .ok difference ∧
      difference.bound.values NestedApply.rho = [1, -8]) ∧
    store.parallelLoops? ⟨5⟩ = some loops ∧ loops.constantRanges? store 2 = some [1, 12] ∧
    List.zipWith (· - ·) (loops.upper.values NestedApply.rho)
      (loops.lower.values NestedApply.rho) = [1, 12] := by
  refine ⟨reachable, consistent, ?_, parallelLoops?_eq, by decide, ?_⟩
  · obtain ⟨difference, h⟩ : ∃ difference, first.difference store 3 second = .ok difference :=
      ⟨_, rfl⟩
    obtain ⟨-, hexact⟩ := (ValueMap.difference_exact reachable 3).1 first second
      ⟨rfl, by decide⟩ ⟨rfl, by decide⟩
    obtain ⟨-, -, -, hvalues⟩ := hexact difference h
    refine ⟨difference, h, ?_⟩
    rw [hvalues NestedApply.rho consistent]
    decide
  · obtain ⟨-, hranges⟩ := (ValueMap.difference_exact reachable 2).2 ⟨5⟩ loops [1, 12]
      parallelLoops?_eq (by decide)
    exact (hranges NestedApply.rho consistent).symm

end AffineLoops
