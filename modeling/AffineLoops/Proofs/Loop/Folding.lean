import AffineLoops.BoundMap.Fold
import AffineLoops.Proofs.Loop.TripCount

/-!
# Folding keeps what operations compute

An apply operation computes the only result of its map, `affine.min` and `affine.max` the smallest
and the largest result, and a loop runs from the largest result of its lower bound to the smallest
result of its upper bound.  All of them can be folded at constant operands, and the maps of the
latter can be composed and canonicalized.

A list of results may gain and lose repetitions there, and a bound with many results may become one
constant.  What stays is the extremum (`BoundKind.IsExtremum`), since it depends on the elements of
the list only (`SameExtremum.of_mem_iff`):

* `values_of_foldConstants`: folding at constants, if it succeeds, gives the values of all results;
* `canonicalBound_spec`: composition and canonicalization keep the values, and leaving out repeated
  results keeps the elements;
* `Bounds.sameRange_of_bounds` treats the two bounds of a loop one by one, and
  `Bounds.sameRange_foldConstants`, `Bounds.sameRange_canonicalize` and `Bounds.sameRange_fold`
  follow for the rewritings of both.
-/

namespace AffineLoops

/-! ## Extrema of lists -/

namespace BoundKind

/-- The integer that counts among several: the largest for a lower bound, the smallest for an upper
bound. -/
def IsExtremum : BoundKind → List Int → Int → Prop
  | lower, results, x => IsGreatest {y | y ∈ results} x
  | upper, results, x => IsLeast {y | y ∈ results} x

/-- Both lists have an extremum, and it is the same. -/
def SameExtremum (kind : BoundKind) (results results' : List Int) : Prop :=
  ∃ x, kind.IsExtremum results x ∧ kind.IsExtremum results' x

variable {kind : BoundKind} {results results' results'' : List Int} {a x y : Int}

theorem isExtremum_of_pick? (h : kind.pick? results = some x) : kind.IsExtremum results x := by
  cases kind with
  | lower => exact List.max?_eq_some_iff.mp h
  | upper => exact List.min?_eq_some_iff.mp h

theorem isExtremum_singleton (kind : BoundKind) (a : Int) : kind.IsExtremum [a] a := by
  cases kind <;> exact isExtremum_of_pick? rfl

theorem exists_isExtremum (kind : BoundKind) (h : results ≠ []) :
    ∃ x, kind.IsExtremum results x := by
  obtain ⟨a, rest, rfl⟩ := List.exists_cons_of_ne_nil h
  cases kind <;> exact ⟨_, isExtremum_of_pick? rfl⟩

theorem IsExtremum.unique (h : kind.IsExtremum results x) (h' : kind.IsExtremum results y) :
    x = y := by
  cases kind with
  | lower => exact IsGreatest.unique h h'
  | upper => exact IsLeast.unique h h'

/-- An extremum depends on the elements of a list only. -/
theorem IsExtremum.of_mem_iff (h : kind.IsExtremum results x)
    (hmem : ∀ y, y ∈ results' ↔ y ∈ results) : kind.IsExtremum results' x := by
  cases kind <;> simpa only [IsExtremum, hmem] using h

theorem SameExtremum.of_mem_iff (kind : BoundKind) (hsome : results ≠ [])
    (hmem : ∀ y, y ∈ results' ↔ y ∈ results) : kind.SameExtremum results' results := by
  obtain ⟨x, hx⟩ := exists_isExtremum kind hsome
  exact ⟨x, hx.of_mem_iff hmem, hx⟩

theorem SameExtremum.trans (h : kind.SameExtremum results results')
    (h' : kind.SameExtremum results' results'') : kind.SameExtremum results results'' := by
  obtain ⟨x, hx, hx'⟩ := h
  obtain ⟨y, hy, hy'⟩ := h'
  obtain rfl := hx'.unique hy
  exact ⟨x, hx, hy'⟩

end BoundKind

/-! ## Maps -/

theorem AffineMap.mem_firstOccurrences {seen exprs : List Expr} {e : Expr} :
    e ∈ firstOccurrences seen exprs ↔ e ∈ exprs ∧ e ∉ seen := by
  fun_induction firstOccurrences seen exprs with
  | case1 seen => simp
  | case2 seen first rest hseen ih =>
      rw [ih, List.mem_cons]
      constructor
      · exact fun h => ⟨Or.inr h.1, h.2⟩
      · rintro ⟨rfl | hmem, hnew⟩
        · exact absurd hseen hnew
        · exact ⟨hmem, hnew⟩
  | case3 seen first rest hnew ih =>
      rw [List.mem_cons, ih, List.mem_cons, List.mem_cons]
      by_cases hfirst : e = first
      · simp [hfirst, hnew]
      · simp [hfirst]

namespace BoundMap

variable {store : Store} {rho : Assignment} {bound composed folded : BoundMap} {kind : BoundKind}
  {limit : Nat}

/-- The constants to which all results fold are their values. -/
theorem values_of_foldConstants (hrho : store.ConstantsHold rho) {map : AffineMap}
    {constants : List Int}
    (h : bound.map.foldConstants (store.constantsOf bound.operands) = .ok (map, some constants)) :
    bound.values rho = constants := by
  obtain ⟨-, hmap, hvalues⟩ := AffineMap.foldConstants_eq_ok_iff.mp h
  rw [← values_foldConstants hrho h, ← hmap]
  dsimp only
  rw [AffineMap.mapM_constant?_eq_some_iff.mp hvalues, List.map_map]
  exact List.map_id constants

/-- Folding at constants keeps the inputs of a map and mentions no others. -/
theorem inputs_of_foldConstants {map map' : AffineMap} {known : List (Option Int)}
    {constants : Option (List Int)} (hmap : map.InRange)
    (h : map.foldConstants known = .ok (map', constants)) :
    map'.dims = map.dims ∧ map'.syms = map.syms ∧ map'.InRange := by
  obtain ⟨-, rfl, -⟩ := AffineMap.foldConstants_eq_ok_iff.mp h
  refine ⟨rfl, rfl, fun e he => ?_⟩
  obtain ⟨result, hresult, rfl⟩ := List.mem_map.mp he
  rcases AffineMap.foldedResult_cases map known result with hkept | ⟨constant, hfolded, -⟩
  · rw [hkept]
    exact hmap result hresult
  · rw [hfolded]
    trivial

theorem values_dedupe (rho : Assignment) (bound : BoundMap) (y : Int) :
    y ∈ values rho { bound with map := bound.map.dedupe } ↔ y ∈ bound.values rho := by
  simp only [values, AffineMap.dedupe, List.mem_map, AffineMap.mem_firstOccurrences,
    List.not_mem_nil, not_false_eq_true, and_true]
  rfl

/-- The canonical form of a bound is well formed and has the same results, though maybe not as
often. -/
theorem canonicalBound_spec (hstore : store.Reachable) (hrho : store.Consistent rho)
    (hbound : bound.toExprs.WellFormed) (h : bound.canonicalBound store limit = .ok folded) :
    folded.toExprs.WellFormed ∧ ∀ y, y ∈ folded.values rho ↔ y ∈ bound.values rho := by
  unfold canonicalBound normalize at h
  rcases compose_spec hstore hbound limit with hlimit | ⟨composed, hcompose, hwell, -, hvalues⟩
  · simp [hlimit, Except.map] at h
  · obtain rfl : { composed.canonical store with map := (composed.canonical store).map.dedupe } =
        folded := by simpa [hcompose, Except.map] using h
    obtain ⟨hcanonical, hvalues'⟩ := canonical_spec hrho.constants hwell
    refine ⟨⟨hcanonical.length_eq, fun e he => ?_⟩, fun y => ?_⟩
    · exact hcanonical.inRange e (AffineMap.mem_firstOccurrences.mp he).1
    · rw [values_dedupe, hvalues', hvalues rho hrho]

/-- An operand or a constant to which the application of a map folds is its only result. -/
theorem values_of_foldApply (hrho : store.ConstantsHold rho) (hbound : bound.toExprs.WellFormed)
    (hcount : bound.map.resultCount = 1) {result : Folded}
    (h : bound.foldApply store = some result) :
    (∃ value, result = .value value ∧ bound.values rho = [rho value]) ∨
      ∃ constant, result = .constant constant ∧ bound.values rho = [constant] := by
  obtain ⟨e, hresults⟩ := List.length_eq_one_iff.mp hcount
  have hinRange : e.InRange bound.map.dims bound.map.syms :=
    hbound.inRange e (by simp [toExprs, hresults])
  unfold foldApply at h
  rw [hresults] at h
  split at h
  · cases ‹[e] = []›
  · rename_i position rest heq
    obtain ⟨rfl, -⟩ := List.cons.inj heq
    obtain ⟨value, hvalue, rfl⟩ := Option.map_eq_some_iff.mp h
    have hplace : bound.dimOperands[position]? = some value := by
      rw [dimOperands, List.getElem?_take_of_lt hinRange, hvalue]
    exact Or.inl ⟨value, rfl, by simp [values, hresults, rho.point_dim hplace]⟩
  · rename_i position rest heq
    obtain ⟨rfl, -⟩ := List.cons.inj heq
    obtain ⟨value, hvalue, rfl⟩ := Option.map_eq_some_iff.mp h
    have hplace : bound.symOperands[position]? = some value := by
      rw [symOperands, List.getElem?_drop, hvalue]
    exact Or.inl ⟨value, rfl, by simp [values, hresults, rho.point_sym hplace]⟩
  · split at h
    · rename_i map constant rest hfolded
      have hvalues := values_of_foldConstants hrho hfolded
      have hrest : rest = [] := by
        have hlength := congrArg List.length hvalues
        simpa [values, hresults] using hlength
      exact Or.inr ⟨constant, (Option.some.inj h).symm, by rw [hvalues, hrest]⟩
    · cases h

/-- A constant to which the extremum of the results folds is the extremum, and a map to which it
folds has the same results at the same operands. -/
theorem values_of_foldExtremum (hrho : store.ConstantsHold rho) (hbound : bound.toExprs.WellFormed)
    {result : Folded} (h : bound.foldExtremum store kind = some result) :
    (∃ constant, result = .constant constant ∧ kind.IsExtremum (bound.values rho) constant) ∨
      ∃ map, result = .map map ∧ (BoundMap.mk map bound.operands).toExprs.WellFormed ∧
        values rho ⟨map, bound.operands⟩ = bound.values rho := by
  unfold foldExtremum at h
  split at h
  · cases h
  · rename_i map constants hfolded
    obtain ⟨constant, hconstant, rfl⟩ := Option.map_eq_some_iff.mp h
    rw [values_of_foldConstants hrho hfolded]
    exact Or.inl ⟨constant, rfl, BoundKind.isExtremum_of_pick? hconstant⟩
  · rename_i map hfolded
    split at h
    · cases h
    · obtain ⟨hdims, hsyms, hinRange⟩ := inputs_of_foldConstants hbound.inRange hfolded
      refine Or.inr ⟨map, (Option.some.inj h).symm, ⟨?_, hinRange⟩, ?_⟩
      · simpa only [toExprs, hdims, hsyms] using hbound.length_eq
      · rw [← values_foldConstants hrho hfolded]
        simp only [values, dimOperands, symOperands, hdims]

theorem sameExtremum_canonicalBound (hstore : store.Reachable) (hrho : store.Consistent rho)
    (hbound : bound.toExprs.WellFormed) (hresults : bound.map.results ≠ [])
    (h : bound.canonicalBound store limit = .ok folded) :
    folded.toExprs.WellFormed ∧ folded.map.results ≠ [] ∧
      kind.SameExtremum (folded.values rho) (bound.values rho) := by
  obtain ⟨hwell, hmem⟩ := canonicalBound_spec hstore hrho hbound h
  have hsome : bound.values rho ≠ [] := by simpa [values] using hresults
  refine ⟨hwell, fun hnone => ?_, .of_mem_iff kind hsome hmem⟩
  obtain ⟨y, hy⟩ := List.exists_mem_of_ne_nil _ hsome
  simpa [values, hnone] using (hmem y).mpr hy

theorem sameExtremum_canonicalizeExtremum (hstore : store.Reachable) (hrho : store.Consistent rho)
    (hbound : bound.toExprs.WellFormed) (hresults : bound.map.results ≠ [])
    (h : bound.canonicalizeExtremum store limit = .ok (some folded)) :
    folded.toExprs.WellFormed ∧ kind.SameExtremum (folded.values rho) (bound.values rho) := by
  unfold canonicalizeExtremum at h
  cases hcanonical : bound.canonicalBound store limit with
  | error fault => simp [hcanonical, Except.map] at h
  | ok canonical =>
      obtain ⟨-, rfl⟩ : canonical ≠ bound ∧ canonical = folded := by
        simpa [hcanonical, Except.map] using h
      obtain ⟨hwell, -, hsame⟩ :=
        sameExtremum_canonicalBound hstore hrho hbound hresults hcanonical
      exact ⟨hwell, hsame⟩

/-- A constant to which a bound folds is its extremum. -/
theorem isExtremum_of_foldBound? (hrho : store.ConstantsHold rho) {constant : Int}
    (h : bound.foldBound? store kind = .ok (some constant)) :
    kind.IsExtremum (bound.values rho) constant := by
  unfold foldBound? at h
  split at h
  · cases h
  · cases hfolded : bound.map.foldConstants (store.constantsOf bound.operands) with
    | error fault => simp [hfolded, Except.map] at h
    | ok pair =>
        obtain ⟨map, constants⟩ := pair
        obtain ⟨values, rfl, hpick⟩ : ∃ values, constants = some values ∧
            kind.pick? values = some constant := by
          simpa [hfolded, Except.map, Option.bind_eq_some_iff] using h
        rw [values_of_foldConstants hrho hfolded]
        exact BoundKind.isExtremum_of_pick? hpick

end BoundMap

/-! ## Loops -/

namespace Bounds

variable {store : Store} {rho : Assignment} {bounds bounds' bounds'' : Bounds} {limit : Nat}

/-- The bounds give a loop the same start, the same end and the same step. -/
structure SameRange (rho : Assignment) (bounds bounds' : Bounds) : Prop where
  lower : BoundKind.lower.SameExtremum (bounds.lower.values rho) (bounds'.lower.values rho)
  upper : BoundKind.upper.SameExtremum (bounds.upper.values rho) (bounds'.upper.values rho)
  step : bounds.step = bounds'.step

theorem SameRange.trans (h : bounds.SameRange rho bounds') (h' : bounds'.SameRange rho bounds'') :
    bounds.SameRange rho bounds'' :=
  ⟨h.lower.trans h'.lower, h.upper.trans h'.upper, h.step.trans h'.step⟩

/-- A bound with its constant in its place is well formed and has the same extremum. -/
theorem withConstant_spec (hrho : store.ConstantsHold rho) {kind : BoundKind} {bound : BoundMap}
    (hbound : bound.toExprs.WellFormed) (hresults : bound.map.results ≠ [])
    {constant : Option Int} (h : bound.foldBound? store kind = .ok constant) :
    (withConstant bound constant).toExprs.WellFormed ∧
      (withConstant bound constant).map.results ≠ [] ∧
      kind.SameExtremum ((withConstant bound constant).values rho) (bound.values rho) := by
  cases constant with
  | none =>
      have hsome : bound.values rho ≠ [] := by simpa [BoundMap.values] using hresults
      exact ⟨hbound, hresults, .of_mem_iff kind hsome fun _ => Iff.rfl⟩
  | some constant =>
      have hextremum := BoundMap.isExtremum_of_foldBound? hrho h
      have hconstant : (withConstant bound (some constant)).values rho = [constant] := rfl
      refine ⟨⟨rfl, ?_⟩, by simp [withConstant, AffineMap.ofConst], constant, ?_, hextremum⟩
      · simp [withConstant, BoundMap.toExprs, AffineMap.ofConst]
      · rw [hconstant]
        exact BoundKind.isExtremum_singleton kind constant

/-- Bounds may be replaced one by one. -/
theorem sameRange_of_bounds {lower upper : BoundMap} (hbounds : bounds.WellFormed)
    (hlower : lower.toExprs.WellFormed ∧ lower.map.results ≠ [] ∧
      BoundKind.lower.SameExtremum (lower.values rho) (bounds.lower.values rho))
    (hupper : upper.toExprs.WellFormed ∧ upper.map.results ≠ [] ∧
      BoundKind.upper.SameExtremum (upper.values rho) (bounds.upper.values rho)) :
    WellFormed { bounds with lower, upper } ∧
      SameRange rho { bounds with lower, upper } bounds := by
  obtain ⟨hlowerWell, hlowerSome, hlowerSame⟩ := hlower
  obtain ⟨hupperWell, hupperSome, hupperSame⟩ := hupper
  exact ⟨⟨hlowerWell, hupperWell, hlowerSome, hupperSome, hbounds.step_pos⟩,
    hlowerSame, hupperSame, rfl⟩

theorem sameRange_foldConstants (hrho : store.ConstantsHold rho) (hbounds : bounds.WellFormed)
    (h : bounds.foldConstants store = .ok (some bounds')) :
    bounds'.WellFormed ∧ bounds'.SameRange rho bounds := by
  unfold foldConstants at h
  split at h
  · cases h
  · rename_i lower hlower
    split at h
    · cases h
    · rename_i upper hupper
      split at h
      · obtain rfl := Option.some.inj (Except.ok.inj h)
        exact sameRange_of_bounds hbounds
          (withConstant_spec hrho hbounds.lower hbounds.lower_ne_nil hlower)
          (withConstant_spec hrho hbounds.upper hbounds.upper_ne_nil hupper)
      · cases h

theorem sameRange_canonicalize (hstore : store.Reachable) (hrho : store.Consistent rho)
    (hbounds : bounds.WellFormed) (h : bounds.canonicalize store limit = .ok (some bounds')) :
    bounds'.WellFormed ∧ bounds'.SameRange rho bounds := by
  unfold canonicalize at h
  split at h
  · cases h
  · rename_i lower hlower
    split at h
    · cases h
    · rename_i upper hupper
      obtain ⟨-, rfl⟩ : ({ bounds with lower, upper } : Bounds) ≠ bounds ∧
          { bounds with lower, upper } = bounds' := by simpa using h
      exact sameRange_of_bounds hbounds
        (BoundMap.sameExtremum_canonicalBound hstore hrho hbounds.lower hbounds.lower_ne_nil hlower)
        (BoundMap.sameExtremum_canonicalBound hstore hrho hbounds.upper hbounds.upper_ne_nil hupper)

theorem sameRange_fold (hstore : store.Reachable) (hrho : store.Consistent rho)
    (hbounds : bounds.WellFormed) (h : bounds.fold store limit = .ok (some bounds')) :
    bounds'.WellFormed ∧ bounds'.SameRange rho bounds := by
  unfold fold at h
  split at h
  · cases h
  · rename_i folded hfolded
    -- the bounds are folded first, and what is then canonicalized are the folded ones, if any
    cases hcanonical : (folded.getD bounds).canonicalize store limit with
    | error fault => simp [hcanonical, Except.map] at h
    | ok canonical =>
        have hresult : canonical.or folded = some bounds' := by
          simpa [hcanonical, Except.map] using h
        cases folded with
        | none =>
            obtain rfl : canonical = some bounds' := by simpa using hresult
            exact sameRange_canonicalize hstore hrho hbounds hcanonical
        | some folded =>
            obtain ⟨hwell, hsame⟩ := sameRange_foldConstants hrho.constants hbounds hfolded
            cases canonical with
            | none =>
                obtain rfl : folded = bounds' := by simpa using hresult
                exact ⟨hwell, hsame⟩
            | some canonical =>
                obtain rfl : canonical = bounds' := by simpa using hresult
                obtain ⟨hwell', hsame'⟩ := sameRange_canonicalize hstore hrho hwell hcanonical
                exact ⟨hwell', hsame'.trans hsame⟩

end Bounds

/-! ## The result -/

/-- Which of the results of its map an operation computes, if it is not the only one. -/
def OpKind.extremum? : OpKind → Option BoundKind
  | .min _ => some .upper
  | .max _ => some .lower
  | _ => none

namespace Store

variable {store : Store} {rho : Assignment} {op : OpId} {map : AffineMap} {bound : BoundMap}
  {kind : BoundKind} {result : Folded}

theorem boundMap?_of_apply (hkind : (store.op op).kind = .apply map) :
    store.boundMap? op = some ⟨map, (store.op op).operands⟩ := by
  simp [boundMap?, hkind, OpKind.map?]

/-- The value of an apply operation, its results included, is what it folds to. -/
theorem foldValue?_apply (hstore : store.Reachable) (hrho : store.Consistent rho)
    (hkind : (store.op op).kind = .apply map) (hbound : store.boundMap? op = some bound)
    (h : store.foldValue? op = some (some result)) :
    ∃ x, bound.values rho = [x] ∧
      (∀ value, store.definingOp? value = some op → rho value = x) ∧
      ((∃ operand, result = .value operand ∧ rho operand = x) ∨ result = .constant x) := by
  have hfits := hstore.fits op
  rw [hkind] at hfits
  obtain ⟨hinRange, hcount, hlength⟩ := hfits
  have hwell : (BoundMap.mk map (store.op op).operands).toExprs.WellFormed :=
    ⟨hlength, hinRange⟩
  have happlied := boundMap?_of_apply hkind
  obtain rfl := Option.some.inj (hbound.symm.trans happlied)
  have hresults : ∀ value, store.definingOp? value = some op →
      BoundMap.values rho ⟨map, (store.op op).operands⟩ = [rho value] := by
    intro value hdefining
    refine hrho.applied value _ ?_
    simp [appliedMap?, definingApply?, hdefining, hkind, happlied]
  have hfolded : BoundMap.foldApply store ⟨map, (store.op op).operands⟩ = some result := by
    simpa [foldValue?, hkind, happlied] using h
  rcases BoundMap.values_of_foldApply hrho.constants hwell hcount hfolded with
    ⟨operand, rfl, hvalues⟩ | ⟨constant, rfl, hvalues⟩
  · refine ⟨rho operand, hvalues, fun value hdefining => ?_, Or.inl ⟨operand, rfl, rfl⟩⟩
    simpa [hvalues] using (hresults value hdefining).symm
  · refine ⟨constant, hvalues, fun value hdefining => ?_, Or.inr rfl⟩
    simpa [hvalues] using (hresults value hdefining).symm

theorem boundMap?_of_extremum? (hstore : store.Reachable)
    (hkind : (store.op op).kind.extremum? = some kind) (hbound : store.boundMap? op = some bound) :
    bound.toExprs.WellFormed ∧ bound.map.results ≠ [] ∧
      store.foldValue? op = some (bound.foldExtremum store kind) := by
  have hfits := hstore.fits op
  obtain ⟨map, hop⟩ : ∃ map, (store.op op).kind = .min map ∧ kind = .upper ∨
      (store.op op).kind = .max map ∧ kind = .lower := by
    cases hop : (store.op op).kind <;> simp_all [OpKind.extremum?]
  obtain ⟨hinRange, hcount, hlength⟩ : map.InRange ∧ map.resultCount ≠ 0 ∧
      (store.op op).operands.length = map.inputs := by
    rcases hop with ⟨hop, -⟩ | ⟨hop, -⟩ <;> simpa [hop, OpKind.Fits] using hfits
  obtain rfl : ⟨map, (store.op op).operands⟩ = bound := by
    rcases hop with ⟨hop, -⟩ | ⟨hop, -⟩ <;> simpa [boundMap?, hop, OpKind.map?] using hbound
  refine ⟨⟨hlength, hinRange⟩, List.ne_nil_of_length_pos (Nat.pos_of_ne_zero hcount), ?_⟩
  rcases hop with ⟨hop, rfl⟩ | ⟨hop, rfl⟩ <;> simp [foldValue?, hop, hbound]

end Store

/-- Folding and canonicalization keep what operations compute, under every consistent assignment.
If an apply operation folds to an operand or to a constant, its map has this value and no other
result, and so has what the operation makes.  If `affine.min` or `affine.max` folds to a constant,
this is the smallest or largest result of its map, and if it folds to a map at the same operands, or
has a canonical map with operands of its own, the extremum of the new results is that of the old
ones.  If the bounds of a loop fold, or change when they are made canonical, or both, the largest
lower bound, the smallest upper bound and the step are those of the loop. -/
theorem folding_preserves_values {store : Store} {rho : Assignment} (hstore : store.Reachable)
    (hrho : store.Consistent rho) (limit : Nat) :
    (∀ op map bound, (store.op op).kind = .apply map → store.boundMap? op = some bound →
      ∀ result, store.foldValue? op = some (some result) →
        ∃ x, bound.values rho = [x] ∧
          (∀ value, store.definingOp? value = some op → rho value = x) ∧
          ((∃ operand, result = .value operand ∧ rho operand = x) ∨ result = .constant x)) ∧
    (∀ op kind bound, (store.op op).kind.extremum? = some kind → store.boundMap? op = some bound →
      (∀ result, store.foldValue? op = some (some result) →
        (∃ x, result = .constant x ∧ kind.IsExtremum (bound.values rho) x) ∨
          ∃ map, result = .map map ∧ (BoundMap.mk map bound.operands).toExprs.WellFormed ∧
            kind.SameExtremum (BoundMap.values rho ⟨map, bound.operands⟩) (bound.values rho)) ∧
      ∀ bound', bound.canonicalizeExtremum store limit = .ok (some bound') →
        bound'.toExprs.WellFormed ∧
          kind.SameExtremum (bound'.values rho) (bound.values rho)) ∧
    ∀ op loop, store.forLoop? op = some loop →
      (∀ bounds, loop.bounds.foldConstants store = .ok (some bounds) →
        bounds.WellFormed ∧ bounds.SameRange rho loop.bounds) ∧
      (∀ bounds, loop.bounds.canonicalize store limit = .ok (some bounds) →
        bounds.WellFormed ∧ bounds.SameRange rho loop.bounds) ∧
      ∀ bounds, loop.bounds.fold store limit = .ok (some bounds) →
        bounds.WellFormed ∧ bounds.SameRange rho loop.bounds := by
  refine ⟨?_, ?_, ?_⟩
  · intro op map bound hkind hbound result h
    exact Store.foldValue?_apply hstore hrho hkind hbound h
  · intro op kind bound hkind hbound
    obtain ⟨hwell, hresults, hfold⟩ := Store.boundMap?_of_extremum? hstore hkind hbound
    refine ⟨fun result h => ?_, fun bound' h =>
      BoundMap.sameExtremum_canonicalizeExtremum hstore hrho hwell hresults h⟩
    rw [hfold] at h
    rcases BoundMap.values_of_foldExtremum hrho.constants hwell (Option.some.inj h) with
      ⟨x, rfl, hx⟩ | ⟨map, rfl, hmap, hvalues⟩
    · exact Or.inl ⟨x, rfl, hx⟩
    · have hsome : bound.values rho ≠ [] := by simpa [BoundMap.values] using hresults
      refine Or.inr ⟨map, rfl, hmap, ?_⟩
      rw [hvalues]
      exact .of_mem_iff kind hsome fun _ => Iff.rfl
  · intro op loop hloop
    have hbounds := hstore.bounds_wellFormed hloop
    exact ⟨fun bounds h => Bounds.sameRange_foldConstants hrho.constants hbounds h,
      fun bounds h => Bounds.sameRange_canonicalize hstore hrho hbounds h,
      fun bounds h => Bounds.sameRange_fold hstore hrho hbounds h⟩

/-! A function of `%n` with the constant 4, the values of `(d0) -> (d0)` on `%n` and of
`(d0) -> (d0 * 2 + 1)` on the constant, the smaller one of `%n` and 6, and a loop from `%n`, written
as the larger one of `%n` and the first value, to the smaller one of 10 and 13 by steps of 3. -/

namespace FoldedLoop

def constants : Store := (Build.constant 0 4 .index (Build.function 0 "f" [.index] .empty).2).2

def identity : Owned AffineMap := ⟨0, ⟨1, 0, [.dim 0]⟩⟩

def affine : Owned AffineMap :=
  ⟨0, ⟨1, 0, [.binary .add (.binary .mul (.dim 0) (.const 2)) (.const 1)]⟩⟩

def smaller : Owned AffineMap := ⟨0, ⟨2, 0, [.dim 0, .binary .add (.dim 1) (.const 2)]⟩⟩

def lower : Owned AffineMap := ⟨0, ⟨2, 0, [.dim 0, .dim 1]⟩⟩

def upper : Owned AffineMap :=
  ⟨0, ⟨1, 0, [.binary .add (.dim 0) (.const 6), .binary .add (.dim 0) (.const 9)]⟩⟩

def store : Store :=
  let applied := (Build.apply 0 affine [⟨1⟩] (Build.apply 0 identity [⟨0⟩] constants).2).2
  let minimum := (Build.extremum 0 .min smaller [⟨0⟩, ⟨1⟩] applied).2
  (Build.forLoop 0 lower [⟨0⟩, ⟨2⟩] upper [⟨1⟩] 3 minimum).2

theorem reachable : store.Reachable :=
  (Construction.forLoop (by decide) (by decide) (by decide)).reachable <|
    (Construction.extremum (Or.inl rfl) (by decide) (by decide)).reachable <|
      (Construction.apply (by decide) (by decide)).reachable <|
        (Construction.apply (by decide) (by decide)).reachable <|
          (Construction.constant 0 4 .index).reachable <|
            (Construction.function 0 "f" [.index]).reachable .empty

/-- The assignment at a value of `%n`. -/
def rho (n : Int) : Assignment := fun value => [n, 4, n, 9].getD value.index 0

theorem consistent (n : Int) : store.Consistent (rho n) where
  constants := by
    rintro ⟨index⟩ constant h
    match index with
    | 0 => cases h
    | 1 => exact Option.some.inj h
    | 2 | 3 | 4 | 5 => cases h
    | index + 6 => cases h
  applied := by
    rintro ⟨index⟩ bound h
    match index with
    | 0 | 1 => cases h
    | 2 => cases h; rfl
    | 3 => cases h; rfl
    | 4 | 5 => cases h
    | index + 6 => cases h

def loop : ForLoop :=
  ⟨⟨6⟩, ⟨⟨lower.item, [⟨0⟩, ⟨2⟩]⟩, ⟨upper.item, [⟨1⟩]⟩, 3⟩, ⟨1⟩, ⟨1⟩, ⟨5⟩⟩

theorem forLoop?_eq : store.forLoop? ⟨6⟩ = some loop := rfl

/-- The bounds after folding: `%n` and 10. -/
def folded : Bounds := ⟨⟨⟨0, 1, [.sym 0]⟩, [⟨0⟩]⟩, ⟨.ofConst 10, []⟩, 3⟩

end FoldedLoop

open FoldedLoop in
theorem folding_preserves_values_foldedLoop :
    store.Reachable ∧ (∀ n, store.Consistent (rho n)) ∧
    store.foldValue? ⟨2⟩ = some (some (.value ⟨0⟩)) ∧ (∀ n, rho n ⟨2⟩ = rho n ⟨0⟩) ∧
    store.foldValue? ⟨3⟩ = some (some (.constant 9)) ∧ (∀ n, rho n ⟨3⟩ = 9) ∧
    store.foldValue? ⟨4⟩ = some (some (.map ⟨2, 0, [.dim 0, .const 6]⟩)) ∧
    (∀ n, BoundKind.upper.SameExtremum [n, 6]
      (BoundMap.values (rho n) ⟨smaller.item, [⟨0⟩, ⟨1⟩]⟩)) ∧
    loop.bounds.fold store 1 = .ok (some folded) ∧
    ∀ n, folded.SameRange (rho n) loop.bounds := by
  have hoperand : store.foldValue? ⟨2⟩ = some (some (.value ⟨0⟩)) := by decide
  have hconstant : store.foldValue? ⟨3⟩ = some (some (.constant 9)) := by decide
  have hmap : store.foldValue? ⟨4⟩ = some (some (.map ⟨2, 0, [.dim 0, .const 6]⟩)) := by decide
  have hfolded : loop.bounds.fold store 1 = .ok (some folded) := by decide
  have hspec := fun n => folding_preserves_values reachable (consistent n) 1
  refine ⟨reachable, consistent, hoperand, fun n => ?_, hconstant, fun n => ?_, hmap, fun n => ?_,
    hfolded, fun n => ?_⟩
  · obtain ⟨x, -, hvalue, hresult⟩ := (hspec n).1 ⟨2⟩ _ _ rfl rfl _ hoperand
    obtain ⟨operand, heq, hx⟩ := hresult.resolve_right (by simp)
    cases heq
    exact (hvalue ⟨2⟩ rfl).trans hx.symm
  · obtain ⟨x, -, hvalue, hresult⟩ := (hspec n).1 ⟨3⟩ _ _ rfl rfl _ hconstant
    obtain heq := hresult.resolve_left (by simp)
    cases heq
    exact hvalue ⟨3⟩ rfl
  · obtain ⟨map, heq, -, hsame⟩ :=
      (((hspec n).2.1 ⟨4⟩ .upper _ rfl rfl).1 _ hmap).resolve_left (by simp)
    cases heq
    exact hsame
  · exact (((hspec n).2.2 ⟨6⟩ loop forLoop?_eq).2.2 folded hfolded).2

end AffineLoops
