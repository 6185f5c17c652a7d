import AffineLoops.Proofs.Loop.ConstantTripCount

/-!
# Normalized strides

A loop from `lower` to `upper` by a step is turned into one by steps of one.  The new loop starts at
`lower` as well and ends after as many iterations (`normalizeStride?_of_constants`), and a map takes
its variable `j` to `lower + (j - lower) * step`, the variable of the old loop.

All of this is computed on words.  The distance of the bounds has to be a word, and then the new
upper bound is between the old ones, so that it is a word, too (`inRange_newUpper`).  The map is
built from the negation of `lower`, and here the least word is special: it has no negation, the
product by `-1` is kept as it stands, and evaluating it fails (`evaluate?_recovered_minValue`).
Over the integers the map is right even then (`value_recovered`), and for all other lower bounds it
has the right values on words as well (`evaluate?_recovered`).
-/

namespace AffineLoops

namespace Bounds

variable {lower upper step : Int}

/-! ## The new upper bound -/

theorem tripsBetween?_of_inRange (h : Word.InRange (upper - lower)) (step : Int) :
    tripsBetween? lower upper step = some (constantTrips lower upper step) := by
  have hclamp : Word.clamp (upper - lower) = upper - lower := by
    unfold Word.clamp
    rw [if_neg (not_lt.mpr h.1), if_neg (not_lt.mpr h.2)]
  rw [tripsBetween?, Word.sub?, Word.checked, if_pos h, constantTrips, hclamp]
  rfl

/-- Where the distance is a word, every iteration is counted. -/
theorem encard_eq_constantTrips (hstep : 0 < step) (h : Word.InRange (upper - lower)) :
    {k : ℕ | lower + k * step < upper}.encard = (constantTrips lower upper step).toNat := by
  rw [encard_eq_constantTrips_iff hstep]
  intro k hk
  have hle := h.2
  omega

theorem constantTrips_nonneg (hstep : 0 < step) : 0 ≤ constantTrips lower upper step := by
  refine Int.le_of_sub_one_lt ?_
  rw [constantTrips, Word.lt_ceilDiv_iff hstep]
  split <;> omega

/-- As many steps of one do not go beyond both bounds. -/
theorem add_constantTrips_le (hstep : 0 < step) :
    lower + constantTrips lower upper step ≤ max lower upper := by
  have hnonneg : 0 ≤ constantTrips lower upper step := constantTrips_nonneg hstep
  rcases hnonneg.eq_or_lt with hzero | hpos
  · rw [← hzero, add_zero]
    exact le_max_left lower upper
  · -- the last iteration is below the upper bound, and a step is at least one
    obtain ⟨last, hlast⟩ : ∃ last : ℕ, (last : Int) = constantTrips lower upper step - 1 :=
      ⟨_, Int.toNat_of_nonneg (by omega)⟩
    have hcounted : (last : Int) < constantTrips lower upper step := by omega
    have hbelow := ((lt_constantTrips_iff hstep last).mp hcounted).1
    have hle : (last : Int) ≤ last * step := le_mul_of_one_le_right (by positivity) hstep
    exact le_max_of_le_right (by omega)

theorem inRange_newUpper (hlower : Word.InRange lower) (hupper : Word.InRange upper)
    (hstep : 0 < step) : Word.InRange (lower + constantTrips lower upper step) := by
  have hnonneg : 0 ≤ constantTrips lower upper step := constantTrips_nonneg hstep
  have hle : lower + constantTrips lower upper step ≤ max lower upper := add_constantTrips_le hstep
  obtain ⟨hmin, hmax⟩ := hlower
  exact ⟨by omega, hle.trans (max_le hmax hupper.2)⟩

/-! ## The map to the old variable -/

/-- The variable of a loop, from the variable of the loop by steps of one. -/
def recovered (lower step : Int) : Expr :=
  ((Expr.sub (.dim 0) (.const lower)).mulConst step).addConst lower

theorem value_recovered (lower step : Int) (point : Point) :
    (recovered lower step).value point = lower + (point.dim 0 - lower) * step := by
  rw [recovered, Expr.value_addConst, Expr.value_mulConst, Expr.value_sub, add_comm]
  rfl

theorem inRange_recovered (lower step : Int) : (recovered lower step).InRange 1 0 := by
  have hdim : (Expr.dim 0).InRange 1 0 := Nat.one_pos
  exact Expr.within_addConst
    (Expr.within_mulConst (Expr.within_sub hdim Expr.within_const) step) lower

section Shapes

variable (hstep : 1 < step)

include hstep

theorem recovered_minValue :
    recovered Word.minValue step =
      .binary .add
        (.binary .mul
          (.binary .add (.dim 0) (.binary .mul (.const Word.minValue) (.const (-1))))
          (.const step))
        (.const Word.minValue) := by
  have hdistance : Expr.sub (.dim 0) (.const Word.minValue) =
      .binary .add (.dim 0) (.binary .mul (.const Word.minValue) (.const (-1))) := by decide
  have hmin : Word.minValue ≠ 0 := by decide
  rw [recovered, hdistance, Expr.mulConst, if_neg (by omega), if_neg (by omega), Expr.addConst,
    if_neg hmin] <;> simp

theorem recovered_zero : recovered 0 step = .binary .mul (.dim 0) (.const step) := by
  have hdistance : Expr.sub (.dim 0) (.const 0) = .dim 0 := by decide
  rw [recovered, hdistance, Expr.mulConst, if_neg (by omega), if_neg (by omega), Expr.addConst,
    if_pos rfl] <;> simp

theorem recovered_of_ne (hlower : Word.InRange lower) (hmin : lower ≠ Word.minValue)
    (hzero : lower ≠ 0) :
    recovered lower step =
      .binary .add
        (.binary .mul (.binary .add (.dim 0) (.const (-lower))) (.const step))
        (.const lower) := by
  have hnegation : Word.InRange (lower * -1) := by
    unfold Word.InRange Word.minValue Word.maxValue at *
    omega
  have hneg : Expr.neg (.const lower) = .const (-lower) := by
    rw [Expr.neg, Expr.mulConst, Word.mul?, Word.checked, if_pos hnegation, mul_neg_one]
  have hdistance : Expr.sub (.dim 0) (.const lower) = .binary .add (.dim 0) (.const (-lower)) := by
    rw [Expr.sub, hneg, Expr.add, Expr.addConst, if_neg (neg_ne_zero.mpr hzero)] <;> simp
  rw [recovered, hdistance, Expr.mulConst, if_neg (by omega), if_neg (by omega), Expr.addConst,
    if_neg hzero] <;> simp

end Shapes

/-- The least word has no negation, so a map that needs it has no values. -/
theorem evaluate?_recovered_minValue (hstep : 1 < step) (dims syms : List Int) :
    (recovered Word.minValue step).evaluate? dims syms = none := by
  have hnegation : Word.mul? Word.minValue (-1) = none := by decide
  rw [recovered_minValue hstep]
  simp only [Expr.evaluate?, BinaryOp.evaluate?, BinaryOp.isDivision, hnegation]
  cases dims[0]? <;> rfl

/-- For every other lower bound the map has its exact value, as long as the distances are words. -/
theorem evaluate?_recovered {j : Int} (hstep : 1 < step) (hlower : Word.InRange lower)
    (hmin : lower ≠ Word.minValue) (hdistance : Word.InRange (j - lower))
    (hscaled : Word.InRange ((j - lower) * step))
    (hvalue : Word.InRange (lower + (j - lower) * step)) :
    (recovered lower step).evaluate? [j] [] = some (lower + (j - lower) * step) := by
  by_cases hzero : lower = 0
  · subst hzero
    rw [sub_zero] at hscaled
    rw [recovered_zero hstep]
    simp [Expr.evaluate?, BinaryOp.evaluate?, BinaryOp.isDivision, Word.mul?, Word.checked, hscaled]
  · have hsum : Word.InRange ((j - lower) * step + lower) := by rwa [add_comm]
    rw [recovered_of_ne hstep hlower hmin hzero]
    simp [Expr.evaluate?, BinaryOp.evaluate?, BinaryOp.isDivision, Word.mul?, Word.add?,
      Word.checked, ← sub_eq_add_neg, hdistance, hscaled, hsum, add_comm lower]

/-- An iteration of the new loop stands for one of the old loop. -/
theorem evaluate?_recovered_of_lt {j : Int} (hstep : 1 < step) (hlower : Word.InRange lower)
    (hupper : Word.InRange upper) (hspan : Word.InRange (upper - lower))
    (hmin : lower ≠ Word.minValue) (hle : lower ≤ j)
    (hlt : j < lower + constantTrips lower upper step) :
    (recovered lower step).evaluate? [j] [] = some (lower + (j - lower) * step) := by
  obtain ⟨k, hk⟩ := Int.eq_ofNat_of_zero_le (sub_nonneg.mpr hle)
  have hcounted : (k : Int) < constantTrips lower upper step := by omega
  have hbelow := ((lt_constantTrips_iff (one_pos.trans hstep) k).mp hcounted).1
  rw [← hk] at hbelow
  have hgrows : j - lower ≤ (j - lower) * step :=
    le_mul_of_one_le_right (sub_nonneg.mpr hle) hstep.le
  unfold Word.InRange at hlower hupper hspan
  have hzero := Word.inRange_zero
  unfold Word.InRange at hzero
  refine evaluate?_recovered hstep hlower hmin ⟨?_, ?_⟩ ⟨?_, ?_⟩ ⟨?_, ?_⟩ <;> omega

/-! ## The normalized loop -/

/-- The loop by steps of one, with the map from its variable. -/
def normalized (lower upper step : Int) : StrideNormalization :=
  ⟨⟨⟨.ofConst lower, []⟩, ⟨.ofConst (lower + constantTrips lower upper step), []⟩, 1⟩,
    ⟨1, 0, [recovered lower step]⟩⟩

theorem normalizeStride?_of_constants {bounds : Bounds}
    (hbounds : bounds = ⟨⟨.ofConst lower, []⟩, ⟨.ofConst upper, []⟩, step⟩) (hstep : 1 < step)
    (hlower : Word.InRange lower) (hupper : Word.InRange upper) :
    bounds.normalizeStride? =
      .ok (if Word.InRange (upper - lower) then some (normalized lower upper step) else none) := by
  have hconstants : bounds.constants? = some (lower, upper) := by
    rw [hbounds]
    rfl
  have hbound : bounds.step = step := by rw [hbounds]
  rw [normalizeStride?, hconstants, hbound]
  dsimp only
  rw [if_neg (by omega)]
  by_cases hspan : Word.InRange (upper - lower)
  · have hnew := inRange_newUpper hlower hupper (one_pos.trans hstep)
    have hmap : AffineMap.ofResults 1 0 [recovered lower step] =
        .ok ⟨1, 0, [recovered lower step]⟩ :=
      AffineMap.ofResults_eq_ok (by simpa using inRange_recovered lower step)
    rw [if_pos hspan, tripsBetween?_of_inRange hspan, Option.bind_some, Word.add?, Word.checked,
      if_pos hnew]
    exact congrArg (Except.map _) hmap
  · rw [if_neg hspan, tripsBetween?, Word.sub?, Word.checked, if_neg hspan]
    rfl

end Bounds

namespace Session

theorem normalizeStride_eq_ok {loop : ForLoop} {result : Option StrideNormalization}
    (h : loop.bounds.normalizeStride? = .ok result) (session : Session) :
    ∃ final, normalizeStride loop session = (.ok result, final) := by
  obtain ⟨final, hrun⟩ : ∃ final, normalizeStride loop session =
      ofExcept loop.bounds.normalizeStride? final := ⟨_, rfl⟩
  rw [h] at hrun
  exact ⟨_, hrun⟩

/-- A loop between constants by steps of more than one is normalized exactly if the distance of the
bounds is a word.  The new loop begins at the same lower bound, goes on by steps of one and has as
many iterations, and over the integers the map takes its variable to the one of the old loop.
Evaluating the map on words gives these values exactly if the lower bound is not the least word or
there is no iteration; where the lower bound is the least word, it never gives a value. -/
theorem normalizeStride_forConstant (session : Session) (id : ContextId) {lower upper step : Int}
    (hlower : Word.InRange lower) (hupper : Word.InRange upper) (hstep : 1 < step) :
    ∃ op built loop result final,
      forConstant id lower upper step session = (.ok op, built) ∧
      built.store.forLoop? op = some loop ∧
      normalizeStride loop built = (.ok result, final) ∧
      (result = none ↔ ¬ Word.InRange (upper - lower)) ∧
      ∀ normalized, result = some normalized → ∃ newUpper recovered,
        normalized.bounds = ⟨⟨.ofConst lower, []⟩, ⟨.ofConst newUpper, []⟩, 1⟩ ∧
        lower ≤ newUpper ∧
        {k : ℕ | lower + k * step < upper}.encard = (newUpper - lower).toNat ∧
        normalized.inductionMap = ⟨1, 0, [recovered]⟩ ∧
        (∀ point, recovered.value point = lower + (point.dim 0 - lower) * step) ∧
        ((∀ j, lower ≤ j → j < newUpper →
          recovered.evaluate? [j] [] = some (lower + (j - lower) * step)) ↔
            lower ≠ Word.minValue ∨ upper ≤ lower) ∧
        (lower = Word.minValue → ∀ j, recovered.evaluate? [j] [] = none) := by
  have hpos : 0 < step := one_pos.trans hstep
  obtain ⟨op, built, loop, hbuilt, hloop, hbounds⟩ :=
    forConstant_eq_ok session id lower upper hpos
  obtain ⟨final, hfinal⟩ := normalizeStride_eq_ok
    (Bounds.normalizeStride?_of_constants hbounds hstep hlower hupper) built
  refine ⟨op, built, loop, _, final, hbuilt, hloop, hfinal, by simp, ?_⟩
  intro normalized hnormalized
  obtain ⟨hspan, ⟨⟩⟩ := Option.ite_none_right_eq_some.mp hnormalized
  have hnonneg : 0 ≤ Bounds.constantTrips lower upper step := Bounds.constantTrips_nonneg hpos
  refine ⟨_, _, rfl, by omega, ?_, rfl, Bounds.value_recovered lower step, ?_, ?_⟩
  · rw [add_sub_cancel_left]
    exact Bounds.encard_eq_constantTrips hpos hspan
  · constructor
    · intro hrecovers
      by_contra hfails
      obtain ⟨rfl, hlt⟩ := not_or.mp hfails |>.imp not_not.mp not_le.mp
      -- there is a first iteration, at which the map has no value
      have hfirst : ((0 : ℕ) : Int) < Bounds.constantTrips Word.minValue upper step :=
        (Bounds.lt_constantTrips_iff hpos 0).mpr
          ⟨by simpa using hlt, by rw [Nat.cast_zero, zero_mul]; decide⟩
      have hvalue := hrecovers Word.minValue le_rfl (by simpa using hfirst)
      rw [Bounds.evaluate?_recovered_minValue hstep] at hvalue
      cases hvalue
    · rintro (hmin | hempty) j hle hlt
      · exact Bounds.evaluate?_recovered_of_lt hstep hlower hupper hspan hmin hle hlt
      · have hend : lower + Bounds.constantTrips lower upper step ≤ max lower upper :=
          Bounds.add_constantTrips_le hpos
        rw [max_eq_left hempty] at hend
        omega
  · rintro rfl j
    exact Bounds.evaluate?_recovered_minValue hstep [j] []

/-- The map of a normalized loop need not have values on words. -/
theorem not_forall_normalizeStride_recovers :
    ¬ ∀ (session : Session) (id : ContextId) (lower upper step : Int), Word.InRange lower →
      Word.InRange upper → Word.InRange step → 1 < step →
      ∀ op built loop normalized final,
        forConstant id lower upper step session = (.ok op, built) →
        built.store.forLoop? op = some loop →
        normalizeStride loop built = (.ok (some normalized), final) →
        ∃ newUpper recovered,
          normalized.bounds = ⟨⟨.ofConst lower, []⟩, ⟨.ofConst newUpper, []⟩, 1⟩ ∧
          lower ≤ newUpper ∧
          {k : ℕ | lower + k * step < upper}.encard = (newUpper - lower).toNat ∧
          normalized.inductionMap = ⟨1, 0, [recovered]⟩ ∧
          ∀ j, lower ≤ j → j < newUpper →
            recovered.evaluate? [j] [] = some (lower + (j - lower) * step) := by
  intro hrecovers
  obtain ⟨op, built, loop, hbuilt, hloop, hbounds⟩ :=
    forConstant_eq_ok (start ⟨10, false⟩ 1 []) 0 Word.minValue (-1) (show (0 : Int) < 2 by decide)
  have hnormalized :=
    Bounds.normalizeStride?_of_constants hbounds (by decide) (by decide) (by decide)
  rw [if_pos (by decide)] at hnormalized
  obtain ⟨final, hfinal⟩ := normalizeStride_eq_ok hnormalized built
  obtain ⟨newUpper, recovered, hnew, -, -, hmap, hvalues⟩ :=
    hrecovers _ 0 Word.minValue (-1) 2 (by decide) (by decide) (by decide) (by decide) op built loop
      _ final hbuilt hloop hfinal
  obtain ⟨⟩ := hmap
  obtain ⟨⟩ := hnew
  have hvalue := hvalues Word.minValue le_rfl (by decide)
  rw [Bounds.evaluate?_recovered_minValue (by decide)] at hvalue
  cases hvalue

/-- Next to the least word the map has all its values. -/
theorem normalizeStride_forConstant_nextToLeast :
    Word.InRange (Word.minValue + 1) ∧ Word.InRange (-1) ∧ (1 : Int) < 2 ∧
    ∃ op built loop normalized final newUpper recovered,
      forConstant 0 (Word.minValue + 1) (-1) 2 (start ⟨10, false⟩ 1 []) = (.ok op, built) ∧
      built.store.forLoop? op = some loop ∧
      normalizeStride loop built = (.ok (some normalized), final) ∧
      normalized.bounds = ⟨⟨.ofConst (Word.minValue + 1), []⟩, ⟨.ofConst newUpper, []⟩, 1⟩ ∧
      {k : ℕ | Word.minValue + 1 + k * 2 < -1}.encard = (newUpper - (Word.minValue + 1)).toNat ∧
      normalized.inductionMap = ⟨1, 0, [recovered]⟩ ∧
      ∀ j, Word.minValue + 1 ≤ j → j < newUpper → recovered.evaluate? [j] [] =
        some (Word.minValue + 1 + (j - (Word.minValue + 1)) * 2) := by
  have hlower : Word.InRange (Word.minValue + 1) := by decide
  have hupper : Word.InRange (-1) := by decide
  have hstep : (1 : Int) < 2 := by decide
  obtain ⟨op, built, loop, result, final, hbuilt, hloop, hfinal, hnone, hsome⟩ :=
    normalizeStride_forConstant (start ⟨10, false⟩ 1 []) 0 hlower hupper hstep
  cases result with
  | none => exact absurd (by decide) (hnone.mp rfl)
  | some normalized =>
      obtain ⟨newUpper, recovered, hnew, -, hcount, hmap, -, hvalues, -⟩ := hsome normalized rfl
      exact ⟨hlower, hupper, hstep, op, built, loop, normalized, final, newUpper, recovered, hbuilt,
        hloop, hfinal, hnew, hcount, hmap, hvalues.mpr (.inl (by decide))⟩

end Session

end AffineLoops
