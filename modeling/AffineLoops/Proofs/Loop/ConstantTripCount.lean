import AffineLoops.Proofs.Loop.Construction
import AffineLoops.Proofs.Loop.TripCount
import AffineLoops.Session.Analysis

/-!
# Trip counts between constants

Between constant bounds the trip count is computed on words.  The distance of two words need not be
a word, and then the largest word takes its place, so that iterations from there on are not counted
(`lt_constantTrips_iff`).  The count is right exactly if there are none of them: from the least
word to the largest one by steps of 3 there are 6148914691236517205 iterations, but the count is
3074457345618258603.
-/

namespace AffineLoops

namespace Bounds

variable {lower upper step : Int}

/-- The iterations that are counted between constants: the distance from the lower bound has to be
less than the largest word as well. -/
theorem lt_constantTrips_iff (hstep : 0 < step) (k : ℕ) :
    (k : Int) < constantTrips lower upper step ↔
      lower + k * step < upper ∧ k * step < Word.maxValue := by
  have hnonneg : 0 ≤ (k : Int) * step := by positivity
  rw [constantTrips, Word.lt_ceilDiv_iff hstep]
  unfold Word.clamp Word.minValue Word.maxValue
  -- a distance that is too small to be a word is negative, and so is the one in its place
  split_ifs <;> omega

theorem encard_counted (hstep : 0 < step) :
    {k : ℕ | lower + k * step < upper ∧ k * step < Word.maxValue}.encard =
      (constantTrips lower upper step).toNat := by
  rw [← encard_setOf_lt]
  congr 1
  ext k
  exact (lt_constantTrips_iff hstep k).symm

/-- All iterations are counted if and only if the count is right. -/
theorem encard_eq_constantTrips_iff (hstep : 0 < step) :
    {k : ℕ | lower + k * step < upper}.encard = (constantTrips lower upper step).toNat ↔
      ∀ k : ℕ, lower + k * step < upper → k * step < Word.maxValue := by
  have hcounted : {k : ℕ | lower + k * step < upper ∧ k * step < Word.maxValue}.encard =
      (constantTrips lower upper step).toNat := encard_counted hstep
  have hsub : {k : ℕ | lower + k * step < upper ∧ k * step < Word.maxValue} ⊆
      {k : ℕ | lower + k * step < upper} := fun k hk => hk.1
  constructor
  · -- a finite set that has a part of the same size is that part
    intro hall k hk
    have heq := (Set.finite_of_encard_eq_coe hcounted).eq_of_subset_of_encard_le hsub
      (by rw [hall, hcounted])
    have hmem : k ∈ {k : ℕ | lower + k * step < upper ∧ k * step < Word.maxValue} := by
      rw [heq]
      exact hk
    exact hmem.2
  · intro hword
    rw [← hcounted]
    congr 1
    ext k
    exact ⟨fun hk => ⟨hk, hword k hk⟩, fun hk => hk.1⟩

theorem constantTripCount?_of_constants {bounds : Bounds}
    (h : bounds.constants? = some (lower, upper)) (store : Store) (limit : Nat) :
    bounds.constantTripCount? store limit =
      some (constantTrips lower upper bounds.step).toNat := by
  have htrips : bounds.tripCount store limit =
      .ok (some ⟨.ofConst (constantTrips lower upper bounds.step), []⟩) := by
    rw [tripCount, h]
  rw [constantTripCount?, tripResults?, htrips]
  rfl

end Bounds

namespace Session

/-- A loop between constants has its trip count whatever else is in the session. -/
theorem tripFacts_of_bounds {loop : ForLoop} {lower upper step : Int}
    (h : loop.bounds = ⟨⟨.ofConst lower, []⟩, ⟨.ofConst upper, []⟩, step⟩) (session : Session) :
    ∃ divisor final, tripFacts loop session =
      (.ok (some (Bounds.constantTrips lower upper step).toNat, divisor), final) := by
  have hconstants : loop.bounds.constants? = some (lower, upper) := by
    rw [h]
    rfl
  obtain ⟨divisor, final, hfacts⟩ : ∃ divisor final, tripFacts loop session =
      (.ok (loop.bounds.constantTripCount? session.store session.options.stepLimit, divisor),
        final) := ⟨_, _, rfl⟩
  rw [Bounds.constantTripCount?_of_constants hconstants, h] at hfacts
  exact ⟨divisor, final, hfacts⟩

/-- The trip count of a loop between constants.  In every session the loop can be built, and its
trip count is a constant: the number of the iterations whose distance from the lower bound is less
than the largest word.  This is the number of all iterations exactly if there are no others. -/
theorem tripFacts_forConstant (session : Session) (id : ContextId) (lower upper : Int) {step : Int}
    (hstep : 0 < step) :
    ∃ op built loop n divisor final,
      forConstant id lower upper step session = (.ok op, built) ∧
      built.store.forLoop? op = some loop ∧
      tripFacts loop built = (.ok (some n, divisor), final) ∧
      {k : ℕ | lower + k * step < upper ∧ k * step < Word.maxValue}.encard = n ∧
      ({k : ℕ | lower + k * step < upper}.encard = n ↔
        ∀ k : ℕ, lower + k * step < upper → k * step < Word.maxValue) := by
  obtain ⟨op, built, loop, hbuilt, hloop, hbounds⟩ :=
    forConstant_eq_ok session id lower upper hstep
  obtain ⟨divisor, final, hfacts⟩ := tripFacts_of_bounds hbounds built
  exact ⟨op, built, loop, _, divisor, final, hbuilt, hloop, hfacts, Bounds.encard_counted hstep,
    Bounds.encard_eq_constantTrips_iff hstep⟩

/-- The trip count between words need not be the number of iterations. -/
theorem not_forall_tripFacts_forConstant_exact :
    ¬ ∀ (session : Session) (id : ContextId) (lower upper step : Int), Word.InRange lower →
      Word.InRange upper → Word.InRange step → 0 < step →
      ∃ op built loop n divisor final,
        forConstant id lower upper step session = (.ok op, built) ∧
        built.store.forLoop? op = some loop ∧
        tripFacts loop built = (.ok (some n, divisor), final) ∧
        {k : ℕ | lower + k * step < upper}.encard = n := by
  intro hexact
  obtain ⟨op, built, loop, n, divisor, final, hbuilt, hloop, hfacts, hall⟩ :=
    hexact (start ⟨10, false⟩ 1 []) 0 Word.minValue Word.maxValue 3 (by decide) (by decide)
      (by decide) (by decide)
  -- the loop is the only one that the construction can have made
  obtain ⟨op', built', loop', hbuilt', hloop', hbounds⟩ :=
    forConstant_eq_ok (start ⟨10, false⟩ 1 []) 0 Word.minValue Word.maxValue
      (show (0 : Int) < 3 by decide)
  obtain ⟨hop, rfl⟩ := Prod.mk.inj (hbuilt'.symm.trans hbuilt)
  obtain rfl := Except.ok.inj hop
  obtain rfl := Option.some.inj (hloop'.symm.trans hloop)
  obtain ⟨divisor', final', hfacts'⟩ := tripFacts_of_bounds hbounds built'
  have hresult := Except.ok.inj (congrArg Prod.fst (hfacts'.symm.trans hfacts))
  have hn : (Bounds.constantTrips Word.minValue Word.maxValue 3).toNat = n :=
    Option.some.inj (congrArg Prod.fst hresult)
  rw [← hn, Bounds.encard_eq_constantTrips_iff (by decide)] at hall
  -- the middle of the words is reached by an iteration that is not counted
  exact absurd (hall 3074457345618258603 (by decide)) (by decide)

theorem tripFacts_forConstant_allWords :
    (0 : Int) < 3 ∧ ∃ op built loop n divisor final,
      forConstant 0 Word.minValue Word.maxValue 3 (start ⟨10, false⟩ 1 []) = (.ok op, built) ∧
      built.store.forLoop? op = some loop ∧
      tripFacts loop built = (.ok (some n, divisor), final) ∧
      {k : ℕ | Word.minValue + k * 3 < Word.maxValue ∧ k * 3 < Word.maxValue}.encard = n ∧
      ({k : ℕ | Word.minValue + k * 3 < Word.maxValue}.encard = n ↔
        ∀ k : ℕ, Word.minValue + k * 3 < Word.maxValue → k * 3 < Word.maxValue) :=
  ⟨by decide, tripFacts_forConstant _ 0 Word.minValue Word.maxValue (by decide)⟩

end Session

end AffineLoops
