import AffineLoops.Proofs.AffineMap.WellFormed
import AffineLoops.Proofs.Expr.Divisor

/-!
# The divisor of a trip count divides it

The divisor of a trip count is the greatest common divisor of what is known of the single results,
once the constants that operands hold are put in.  The number of iterations is none of them but the
smallest result, or zero if that is negative.  Zero is divided by everything, so only a smallest
result that is positive matters:

* `resultDivisor_dvd`: what is known of a result divides each positive count to which it evaluates;
  the stand-in for a count that is not positive need not divide anything;
* `tripCountDivisor_dvd_resultDivisor`: the divisor of the trip count divides what is known of each
  result, or is one;
* putting in constants keeps what a result evaluates to, so the positive count is one of these
  (`tripCountDivisor_dvd_of_pos`).
-/

namespace AffineLoops

namespace Bounds

variable {store : Store} {bounds : Bounds} {limit : Nat} {rho : Assignment} {trips : BoundMap}
  {counts : List Int}

/-! ## One result -/

theorem resultDivisor_dvd {e : Expr} {dims syms : List Int} {count : Int}
    (h : e.evaluate? dims syms = some count) (hpos : 0 < count) :
    (resultDivisor e : Int) ∣ count := by
  unfold resultDivisor
  split
  · rename_i constant hconstant
    obtain rfl := Expr.eq_const_of_constant? hconstant
    obtain rfl : constant = count := Option.some.inj h
    rw [if_neg (by omega)]
    exact Int.natAbs_dvd.mpr dvd_rfl
  · exact Expr.knownDivisor_dvd h

theorem resultDivisor_const (count : Int) :
    resultDivisor (.const count) =
      if count.toNat = 0 then Word.maxUnsigned else count.toNat := by
  have hnonpos : count ≤ 0 ↔ count.toNat = 0 := by omega
  unfold resultDivisor
  simp only [Expr.constant?, hnonpos]
  split
  · rfl
  · omega

/-! ## All results -/

theorem tripCountDivisor_pos (store : Store) (limit : Nat) (bounds : Bounds) :
    0 < bounds.tripCountDivisor store limit := by
  unfold tripCountDivisor
  split
  · exact Nat.one_pos
  · dsimp only
    split
    · exact Nat.one_pos
    · exact Nat.pos_of_ne_zero ‹_›

theorem tripCountDivisor_dvd_resultDivisor {results : List Expr} {e : Expr}
    (h : bounds.tripResults? store limit = some results) (he : e ∈ results) :
    bounds.tripCountDivisor store limit ∣ resultDivisor e := by
  unfold tripCountDivisor
  rw [h]
  dsimp only
  split
  · exact Nat.one_dvd _
  · exact (foldl_gcd_dvd resultDivisor results 0).2 e he

theorem tripResults?_eq_some (hupper : bounds.upper.Counted)
    (h : bounds.tripCount store limit = .ok (some trips)) :
    bounds.tripResults? store limit =
      some (trips.map.results.map (trips.map.foldedResult (store.constantsOf trips.operands))) := by
  have hlength : (store.constantsOf trips.operands).length = trips.map.inputs :=
    (List.length_map ..).trans (tripCount_wellFormed hupper h).length_eq
  unfold tripResults?
  rw [h]
  dsimp only
  rw [AffineMap.foldConstants_eq, if_pos hlength]

theorem tripCountDivisor_dvd_of_pos (hupper : bounds.upper.Counted)
    (h : bounds.tripCount store limit = .ok (some trips)) (hrho : store.ConstantsHold rho)
    (hcounts : trips.map.results.map
      (Expr.evaluate? (trips.dimOperands.map rho) (trips.symOperands.map rho)) = counts.map some)
    {count : Int} (hcount : count ∈ counts) (hpos : 0 < count) :
    (bounds.tripCountDivisor store limit : Int) ∣ count := by
  obtain ⟨result, hresult, hevaluate⟩ : ∃ result ∈ trips.map.results,
      result.evaluate? (trips.dimOperands.map rho) (trips.symOperands.map rho) = some count :=
    List.mem_map.mp (hcounts ▸ List.mem_map_of_mem hcount)
  have hdivisor := tripCountDivisor_dvd_resultDivisor (tripResults?_eq_some hupper h)
    (List.mem_map_of_mem hresult)
  have hfolded :=
    AffineMap.evaluate?_foldedResult (BoundMap.agrees_constantsOf hrho trips) hevaluate
  exact (Int.natCast_dvd_natCast.mpr hdivisor).trans (resultDivisor_dvd hfolded hpos)

/-! ## Loops of a program -/

theorem results_ne_nil_of_tripCount (hstore : store.Reachable) (hbounds : bounds.WellFormed)
    (h : bounds.tripCount store limit = .ok (some trips)) : trips.map.results ≠ [] := by
  cases hconstants : bounds.constants? with
  | some pair =>
      unfold tripCount at h
      rw [hconstants] at h
      obtain rfl := Option.some.inj (Except.ok.inj h)
      exact List.cons_ne_nil _ _
  | none =>
      by_cases hseveral : 1 < bounds.lower.map.resultCount
      · rw [tripCount_eq_ok_none hconstants hseveral] at h
        cases h
      · have hpos : 0 < bounds.lower.map.resultCount := List.length_pos_iff.mpr hbounds.lower_ne_nil
        obtain ⟨result, hresult⟩ := List.length_eq_one_iff.mp
          (show bounds.lower.map.resultCount = 1 by omega)
        rcases tripCount_cases_of_single hbounds hconstants hresult hstore limit with
          ⟨-, herror⟩ | ⟨-, -, found, hfound, -, hcount, -⟩
        · rw [herror] at h
          cases h
        · obtain rfl : found = trips := Option.some.inj (Except.ok.inj (hfound.symm.trans h))
          exact List.ne_nil_of_length_pos
            (hcount.trans_gt (List.length_pos_iff.mpr hbounds.upper_ne_nil))

/-- The divisor of a trip count with one result that is a known constant: this constant, or the
largest unsigned word if there are no iterations. -/
theorem tripCountDivisor_of_constantTripCount? {n : Nat} (hupper : bounds.upper.Counted)
    (h : bounds.tripCount store limit = .ok (some trips)) (hsingle : trips.map.resultCount = 1)
    (hconstant : bounds.constantTripCount? store limit = some n) :
    bounds.tripCountDivisor store limit = if n = 0 then Word.maxUnsigned else n := by
  obtain ⟨result, hresult⟩ := List.length_eq_one_iff.mp hsingle
  have hresults := tripResults?_eq_some hupper h
  rw [hresult, List.map_singleton] at hresults
  unfold constantTripCount? at hconstant
  rw [hresults] at hconstant
  dsimp only at hconstant
  split at hconstant
  · cases hconstant
  · rename_i counts hcounts
    rcases mapM_eq_some_iff.mp hcounts with _ | ⟨hcount, ⟨⟩⟩
    rename_i count
    obtain rfl : count.toNat = n := Option.some.inj hconstant
    have hne : (if count.toNat = 0 then Word.maxUnsigned else count.toNat) ≠ 0 := by
      split
      · decide
      · assumption
    unfold tripCountDivisor
    rw [hresults, Expr.eq_const_of_constant? hcount]
    simp only [List.foldl_cons, List.foldl_nil, Nat.gcd_zero_left, resultDivisor_const]
    exact if_neg hne

/-- The divisor of a trip count divides it.  Whatever the trip count of a loop evaluates to, under
an assignment in which the constants of the program hold, the divisor divides the smallest of the
counts, or zero if that is negative.  It is never zero, and for a loop with one upper bound and a
known number of iterations it is this number, or the largest unsigned word if there are none. -/
theorem tripCountDivisor_dvd_least {id : OpId} {loop : ForLoop} (hstore : store.Reachable)
    (hloop : store.forLoop? id = some loop)
    (htrips : loop.bounds.tripCount store limit = .ok (some trips))
    (hrho : store.ConstantsHold rho)
    (hcounts : trips.map.results.map
      (Expr.evaluate? (trips.dimOperands.map rho) (trips.symOperands.map rho)) = counts.map some) :
    (∃ least, IsLeast {count | count ∈ counts} least ∧
      (loop.bounds.tripCountDivisor store limit : Int) ∣ max 0 least) ∧
    0 < loop.bounds.tripCountDivisor store limit ∧
    ∀ n, trips.map.resultCount = 1 → loop.bounds.constantTripCount? store limit = some n →
      loop.bounds.tripCountDivisor store limit = if n = 0 then Word.maxUnsigned else n := by
  have hupper : loop.bounds.upper.Counted :=
    BoundMap.counted_of_length (hstore.bounds_wellFormed hloop).upper.length_eq
  refine ⟨?_, tripCountDivisor_pos store limit loop.bounds, fun n hsingle hconstant =>
    tripCountDivisor_of_constantTripCount? hupper htrips hsingle hconstant⟩
  have hsome : counts ≠ [] := by
    rintro rfl
    exact results_ne_nil_of_tripCount hstore (hstore.bounds_wellFormed hloop) htrips
      (List.map_eq_nil_iff.mp hcounts)
  obtain ⟨least, hleast⟩ := BoundKind.exists_isExtremum .upper hsome
  refine ⟨least, hleast, ?_⟩
  rcases le_or_gt least 0 with hnonpos | hpos
  · rw [max_eq_left hnonpos]
    exact Int.dvd_zero _
  · rw [max_eq_right hpos.le]
    exact tripCountDivisor_dvd_of_pos hupper htrips hrho hcounts hleast.1 hpos

end Bounds

/-! ## A loop with two upper bounds

In the function of `%n`, with `%c` the constant 6, the loop from 0 to the smaller one of `4 * %n`
and `10 * %c` is known to have a multiple of four iterations, once the constant is put in. -/

namespace TwoLimits

def lower : Owned AffineMap := ⟨0, .ofConst 0⟩

def upper : Owned AffineMap :=
  ⟨0, ⟨2, 0, [.binary .mul (.dim 0) (.const 4), .binary .mul (.dim 1) (.const 10)]⟩⟩

def store : Store :=
  (Build.forLoop 0 lower [] upper [⟨0⟩, ⟨1⟩] 1
    (Build.constant 0 6 .index SymbolicLoop.function).2).2

theorem reachable : store.Reachable :=
  (Construction.forLoop (by decide) (by decide) (by decide)).reachable <|
    (Construction.constant 0 6 .index).reachable <|
      (Construction.function 0 "f" [.index]).reachable .empty

def loop : ForLoop :=
  ⟨⟨3⟩, ⟨⟨lower.item, []⟩, ⟨upper.item, [⟨0⟩, ⟨1⟩]⟩, 1⟩, ⟨1⟩, ⟨1⟩, ⟨2⟩⟩

theorem forLoop?_eq : store.forLoop? ⟨3⟩ = some loop := rfl

/-- The operand `%n` has become a symbol, since it is an argument of the function. -/
def trips : BoundMap := ⟨⟨0, 1, [.binary .mul (.sym 0) (.const 4), .const 60]⟩, [⟨0⟩]⟩

theorem tripCount_eq : loop.bounds.tripCount store 1 = .ok (some trips) := by decide

/-- The assignment at a value of `%n`. -/
def rho (n : Int) : Assignment := fun value => [n, 6].getD value.index 0

theorem constantsHold (n : Int) : store.ConstantsHold (rho n) := by
  rintro ⟨index⟩ constant h
  match index with
  | 0 => cases h
  | 1 => cases h; rfl
  | 2 => cases h
  | index + 3 => cases h

end TwoLimits

open TwoLimits in
theorem tripCountDivisor_dvd_least_twoLimits :
    store.Reachable ∧ store.forLoop? ⟨3⟩ = some loop ∧
    loop.bounds.tripCount store 1 = .ok (some trips) ∧ (∀ n, store.ConstantsHold (rho n)) ∧
    loop.bounds.tripCountDivisor store 1 = 4 ∧
    (∃ least, IsLeast {count | count ∈ [(400 : Int), 60]} least ∧ 4 ∣ max 0 least) ∧
    ∃ least, IsLeast {count | count ∈ [(-28 : Int), 60]} least ∧ 4 ∣ max 0 least := by
  have hdivisor : loop.bounds.tripCountDivisor store 1 = 4 := by decide
  have hdvd {n : Int} {counts : List Int} (hcounts : trips.map.results.map
      (Expr.evaluate? (trips.dimOperands.map (rho n)) (trips.symOperands.map (rho n))) =
        counts.map some) :
      ∃ least, IsLeast {count | count ∈ counts} least ∧ 4 ∣ max 0 least := by
    obtain ⟨⟨least, hleast, h⟩, -⟩ :=
      Bounds.tripCountDivisor_dvd_least reachable forLoop?_eq tripCount_eq (constantsHold n)
        hcounts
    rw [hdivisor] at h
    exact ⟨least, hleast, h⟩
  have hlarge := @hdvd 100 [400, 60] (by decide)
  have hnegative := @hdvd (-7) [-28, 60] (by decide)
  exact ⟨reachable, forLoop?_eq, tripCount_eq, constantsHold, hdivisor, hlarge, hnegative⟩

end AffineLoops
