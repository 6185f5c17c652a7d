import AffineLoops.Loop.Contiguity
import AffineLoops.Proofs.Loop.Invariance
import AffineLoops.Verification

/-!
# Contiguous accesses and variables bound twice

A contiguity verdict says how the position of an access moves when an induction variable grows by
one (`Contiguity.Describes`).  It is read off the linear form of the composed position: the
coefficient of the input that is bound to the variable is the distance by which a result moves.

Composition leaves no apply operations among the operands and binds no value to two dimensions or
to two symbols.  It may still bind one value to a dimension and to a symbol
(`BoundMap.BindsTwice`), and then the coefficient of the first of these inputs is taken for the
whole distance: `(d0)[s0] -> (d0 + s0)` on a variable bound twice passes for a step of one, while
the position moves by two.  Without such a variable verdicts are right:

* `LinearForm.value_move`: a form moves by the coefficient of the only term that moves;
* `BoundMap.value_of_coefficientAt?`: so does a result with a known coefficient;
* `BoundMap.describes_of_contiguity?`: so the verdict on a composed position is right;
* `Store.contiguityWithin_cases`: the loops that depend on a loop only make its verdict coarser.
-/

namespace AffineLoops

/-! ## Forms in which one term moves -/

namespace LinearForm

variable {term term' : Nat → Int} {place : Nat}

theorem rowValue_move {row : List Int} {index : Nat}
    (h : ∀ offset, index + offset ≠ place → row.getD offset 0 ≠ 0 →
      term' (index + offset) = term (index + offset)) :
    rowValue term' index row = rowValue term index row +
      if index ≤ place then row.getD (place - index) 0 * (term' place - term place) else 0 := by
  induction row generalizing index with
  | nil => simp
  | cons coefficient row ih =>
      have htail : ∀ offset, index + 1 + offset ≠ place → row.getD offset 0 ≠ 0 →
          term' (index + 1 + offset) = term (index + 1 + offset) := by
        intro offset hne hcoefficient
        have hlater := h (offset + 1) (by omega) (by simpa using hcoefficient)
        rwa [show index + (offset + 1) = index + 1 + offset by omega] at hlater
      rw [rowValue_cons, rowValue_cons, ih htail]
      by_cases hplace : index = place
      · -- the moving term is the first one, and none of the others moves
        subst hplace
        rw [if_neg (by omega), if_pos le_rfl, Nat.sub_self, List.getD_cons_zero]
        ring
      · have hhead : coefficient * term' index = coefficient * term index := by
          by_cases hzero : coefficient = 0
          · rw [hzero, zero_mul, zero_mul]
          · rw [show term' index = term index from h 0 hplace hzero]
        rw [hhead]
        by_cases hle : index ≤ place
        · have hnext : place - index = place - (index + 1) + 1 := by omega
          rw [if_pos hle, if_pos (by omega), hnext, List.getD_cons_succ]
          ring
        · rw [if_neg hle, if_neg (by omega)]
          ring

/-- A form in which only one term moves does so by the coefficient of that term. -/
theorem value_move {form : LinearForm}
    (h : ∀ index, index ≠ place → form.coefficient index ≠ 0 → term' index = term index) :
    form.value term' = form.value term + form.coefficient place * (term' place - term place) := by
  have hterms : ∀ offset, 0 + offset ≠ place → form.coefficients.getD offset 0 ≠ 0 →
      term' (0 + offset) = term (0 + offset) := by
    simpa [coefficient] using h
  have hrow := rowValue_move hterms
  rw [if_pos (Nat.zero_le place), Nat.sub_zero] at hrow
  rw [value, value, hrow, coefficient]
  ring

end LinearForm

namespace BoundMap

variable {bound : BoundMap} {place : Nat} {point point' : Point} {e : Expr}

/-! ## Results with a known coefficient -/

/-- The input at a place of the operand list. -/
def inputAt (bound : BoundMap) (place : Nat) : Input :=
  if place < bound.map.dims then .dim place else .sym (place - bound.map.dims)

theorem inputAt_injective : Function.Injective bound.inputAt := by
  intro place other h
  unfold inputAt at h
  split at h <;> split at h
  · exact Input.dim.inj h
  · cases h
  · cases h
  · have hposition := Input.sym.inj h
    omega

theorem termValue_eq_get (locals : List Expr) (hplace : place < bound.map.inputs) :
    Expr.termValue point bound.map.dims bound.map.syms locals place =
      point.get (bound.inputAt place) := by
  have hinputs : place < bound.map.dims + bound.map.syms := hplace
  rw [Expr.termValue, Expr.termAt, inputAt]
  by_cases hdim : place < bound.map.dims
  · rw [if_pos hdim, if_pos hdim]
    rfl
  · rw [if_neg hdim, if_neg hdim, if_pos hinputs]
    rfl

/-- A local term that a form uses does not mention the input at a place, if none of them does. -/
theorem not_mentions_local {form : LinearForm} {locals : List Expr} {offset : Nat}
    (hlocals : ¬ (locals.zip (form.coefficients.drop bound.map.inputs)).any
      fun (term, coefficient) => coefficient != 0 && bound.mentions place term)
    (hlt : offset < locals.length)
    (hcoefficient : form.coefficient (bound.map.inputs + offset) ≠ 0) :
    ¬ bound.mentions place (locals.getD offset (.const 0)) := by
  intro hmentions
  have hterm : locals[offset]? = some (locals.getD offset (.const 0)) := by
    simp [List.getD_eq_getElem?_getD, List.getElem?_eq_getElem hlt]
  have hentry : (form.coefficients.drop bound.map.inputs)[offset]? =
      some (form.coefficient (bound.map.inputs + offset)) := by
    rw [LinearForm.coefficient, List.getD_eq_getElem?_getD] at hcoefficient ⊢
    rw [List.getElem?_drop]
    cases hget : form.coefficients[bound.map.inputs + offset]? with
    | none => exact absurd (by rw [hget]; rfl) hcoefficient
    | some entry => rfl
  have hpair : (_, _) ∈ locals.zip (form.coefficients.drop bound.map.inputs) :=
    List.mem_of_getElem? (List.getElem?_zip_eq_some.mpr ⟨hterm, hentry⟩)
  exact hlocals (List.any_eq_true.mpr ⟨_, hpair, by simpa using ⟨hcoefficient, hmentions⟩⟩)

section Move

variable (hother : ∀ other, other ≠ bound.inputAt place → point'.get other = point.get other)

include hother

theorem value_eq_of_not_mentions (h : ¬ bound.mentions place e) :
    e.value point' = e.value point := by
  refine Expr.value_congr e.within_uses ?_ ?_
  · intro position hused
    refine hother (.dim position) ?_
    intro hinput
    unfold inputAt at hinput
    split at hinput
    · rename_i hlt
      obtain rfl := Input.dim.inj hinput
      exact h (mentions_of_usesDim hlt hused)
    · cases hinput
  · intro position hused
    refine hother (.sym position) ?_
    intro hinput
    unfold inputAt at hinput
    split at hinput
    · cases hinput
    · have hposition := Input.sym.inj hinput
      have hplace : place = bound.map.dims + position := by omega
      rw [hplace] at h
      exact h (mentions_of_usesSym hused)

/-- A result whose coefficient at a place is known moves by that coefficient times the distance by
which the input there moves. -/
theorem value_of_coefficientAt? {coefficient : Int} (hplace : place < bound.map.inputs)
    (h : bound.coefficientAt? place e = some coefficient) :
    e.value point' = e.value point +
      coefficient * (point'.get (bound.inputAt place) - point.get (bound.inputAt place)) := by
  unfold coefficientAt? at h
  split at h
  · split at h
    · cases h
    · rename_i form locals hflatten
      dsimp only at h
      split at h
      · cases h
      · rename_i hlocals
        have hbefore := (Expr.flattened_flattenWith e.within_uses (by simp) hflatten :
          Expr.Flattened point ..).flat
        have hafter := (Expr.flattened_flattenWith e.within_uses (by simp) hflatten :
          Expr.Flattened point' ..).flat
        -- the other inputs stay where they are, and no local term mentions the moving one
        have hterms : ∀ index, index ≠ place → form.coefficient index ≠ 0 →
            Expr.termValue point' bound.map.dims bound.map.syms locals index =
              Expr.termValue point bound.map.dims bound.map.syms locals index := by
          intro index hne hcoefficient
          by_cases hindex : index < bound.map.inputs
          · rw [termValue_eq_get locals hindex, termValue_eq_get locals hindex]
            exact hother _ fun hinput => hne (inputAt_injective hinput)
          · obtain ⟨offset, rfl⟩ := Nat.exists_eq_add_of_le (Nat.le_of_not_lt hindex)
            have hlt : bound.map.inputs + offset < bound.map.inputs + locals.length :=
              hbefore.lt_of_coefficient_ne_zero hcoefficient
            have hterm : Expr.termAt bound.map.dims bound.map.syms locals
                (bound.map.inputs + offset) = locals.getD offset (.const 0) :=
              Expr.termAt_local offset
            rw [Expr.termValue, Expr.termValue, hterm]
            exact value_eq_of_not_mentions hother
              (not_mentions_local hlocals (by omega) hcoefficient)
        have hmove := LinearForm.value_move hterms
        rw [hbefore.value_eq, hafter.value_eq, termValue_eq_get locals hplace,
          termValue_eq_get locals hplace] at hmove
        rw [hmove, ← Option.some.inj h]
        rfl
  · rename_i hunused
    rw [← Option.some.inj h, zero_mul, add_zero]
    exact value_eq_of_not_mentions hother hunused

end Move

/-- Every result moves by its coefficient, which is a step of one or none, and by none unless the
result is listed. -/
theorem coefficient_of_varyingResults? {index : Nat} {results : List Expr} {varying : List Nat}
    (h : bound.varyingResults? place index results = some varying) {offset : Nat}
    (hresult : results[offset]? = some e) :
    ∃ coefficient, bound.coefficientAt? place e = some coefficient ∧
      (coefficient = -1 ∨ coefficient = 0 ∨ coefficient = 1) ∧
      (index + offset ∉ varying → coefficient = 0) := by
  induction results generalizing index varying offset with
  | nil => cases hresult
  | cons result results ih =>
      unfold varyingResults? at h
      split at h
      · rename_i coefficient later hcoefficient hlater
        -- what is listed further on stays listed
        have hsub : ∀ other ∈ later, other ∈ varying := by
          split at h
          · obtain rfl := Option.some.inj h
            exact fun _ hmem => hmem
          · split at h
            · obtain rfl := Option.some.inj h
              exact fun _ hmem => List.mem_cons_of_mem _ hmem
            · cases h
        cases offset with
        | succ offset =>
            obtain ⟨other, hother, hunit, hzero⟩ := ih hlater (by simpa using hresult)
            refine ⟨other, hother, hunit, fun hnot => hzero fun hmem => hnot ?_⟩
            rw [show index + (offset + 1) = index + 1 + offset by omega]
            exact hsub _ hmem
        | zero =>
            obtain rfl : result = e := by simpa using hresult
            refine ⟨coefficient, hcoefficient, ?_⟩
            split at h
            · rename_i hzero
              exact ⟨.inr (.inl hzero), fun _ => hzero⟩
            · split at h
              · rename_i hunit
                obtain rfl := Option.some.inj h
                refine ⟨by omega, fun hnot => absurd (List.mem_cons_self ..) hnot⟩
              · cases h
      · cases h

/-! ## Positions along a variable -/

/-- A value stands for a dimension and for a symbol. -/
def BindsTwice (bound : BoundMap) (value : ValueId) : Prop :=
  value ∈ bound.dimOperands ∧ value ∈ bound.symOperands

instance (bound : BoundMap) (value : ValueId) : Decidable (bound.BindsTwice value) :=
  inferInstanceAs (Decidable (_ ∧ _))

theorem getElem?_dimOperands (hlt : place < bound.map.dims) :
    bound.dimOperands[place]? = bound.operands[place]? := by
  rw [dimOperands, List.getElem?_take, if_pos hlt]

theorem getElem?_symOperands (hle : bound.map.dims ≤ place) :
    bound.symOperands[place - bound.map.dims]? = bound.operands[place]? := by
  rw [symOperands, List.getElem?_drop, Nat.add_sub_cancel' hle]

variable {store : Store} {value : ValueId} {rho rho' : Assignment}

theorem get_point_inputAt (h : bound.operands[place]? = some value) :
    (rho.point bound.dimOperands bound.symOperands).get (bound.inputAt place) = rho value := by
  unfold inputAt
  split
  · rename_i hlt
    exact rho.point_dim ((getElem?_dimOperands hlt).trans h)
  · rename_i hge
    exact rho.point_sym ((getElem?_symOperands (by omega)).trans h)

theorem place_unique {allowed : ValueId → Prop} (hbinds : bound.toExprs.BindsOnce allowed)
    (honce : ¬ bound.BindsTwice value) {other : Nat}
    (hplace : bound.operands[place]? = some value) (hother : bound.operands[other]? = some value) :
    other = place := by
  have hdims : bound.dimOperands.Nodup := hbinds.dims
  have hsyms : bound.symOperands.Nodup := hbinds.syms
  by_cases hlt : place < bound.map.dims
  · rw [← getElem?_dimOperands hlt] at hplace
    by_cases hlt' : other < bound.map.dims
    · rw [← getElem?_dimOperands hlt'] at hother
      obtain ⟨hbound, -⟩ := List.getElem?_eq_some_iff.mp hother
      exact (List.getElem?_inj hbound hdims).mp (hother.trans hplace.symm)
    · rw [← getElem?_symOperands (by omega)] at hother
      exact absurd ⟨List.mem_of_getElem? hplace, List.mem_of_getElem? hother⟩ honce
  · rw [← getElem?_symOperands (by omega)] at hplace
    by_cases hlt' : other < bound.map.dims
    · rw [← getElem?_dimOperands hlt'] at hother
      exact absurd ⟨List.mem_of_getElem? hother, List.mem_of_getElem? hplace⟩ honce
    · rw [← getElem?_symOperands (by omega)] at hother
      obtain ⟨hbound, -⟩ := List.getElem?_eq_some_iff.mp hother
      have hposition := (List.getElem?_inj hbound hsyms).mp (hother.trans hplace.symm)
      omega

/-- If a value is bound once and no operand is the result of an apply operation, varying the value
moves only the input that is bound to it. -/
theorem get_point_of_varies (hvaries : store.Varies value rho rho')
    (hbinds : bound.toExprs.BindsOnce (store.definingApply? · = none))
    (honce : ¬ bound.BindsTwice value) (hplace : bound.operands[place]? = some value)
    {other : Input} (hne : other ≠ bound.inputAt place) :
    (rho'.point bound.dimOperands bound.symOperands).get other =
      (rho.point bound.dimOperands bound.symOperands).get other := by
  have hsame : ∀ {place' operand}, bound.operands[place']? = some operand →
      bound.inputAt place' = other → rho' operand = rho operand := by
    rintro place' operand hoperand rfl
    refine hvaries.agree operand ?_ (hbinds.allowed operand (List.mem_of_getElem? hoperand))
    rintro rfl
    exact hne (congrArg bound.inputAt (place_unique hbinds honce hplace hoperand))
  cases other with
  | dim position =>
      simp only [Point.get, Assignment.dim_point_eq]
      cases hoperand : bound.dimOperands[position]? with
      | none => rfl
      | some operand =>
          obtain ⟨hlt, hoperand⟩ := getElem?_operands_of_dim hoperand
          exact hsame hoperand (if_pos hlt)
  | sym position =>
      simp only [Point.get, Assignment.sym_point_eq]
      cases hoperand : bound.symOperands[position]? with
      | none => rfl
      | some operand =>
          refine hsame (getElem?_operands_of_sym hoperand) ?_
          rw [inputAt, if_neg (by omega), Nat.add_sub_cancel_left]

end BoundMap

/-- How positions in a reference of the given rank move, if the verdict is right: not at all, or in
one dimension by at most one. -/
def Contiguity.Describes (rank : Nat) (before after : List Int) : Contiguity → Prop
  | .invariant => after = before
  | .varying dimension => dimension < rank ∧ after.length = before.length ∧
      ∀ index x y, before[index]? = some x → after[index]? = some y →
        (index ≠ rank - 1 - dimension → y = x) ∧ (y = x - 1 ∨ y = x ∨ y = x + 1)

theorem Contiguity.Describes.of_eq {rank : Nat} {values : List Int} {contiguity : Contiguity}
    (h : ∀ dimension, contiguity = .varying dimension → dimension < rank) :
    contiguity.Describes rank values values := by
  cases contiguity with
  | invariant => rfl
  | varying dimension =>
      refine ⟨h dimension rfl, rfl, ?_⟩
      intro index x y hx hy
      obtain rfl := Option.some.inj (hx.symm.trans hy)
      exact ⟨fun _ => rfl, .inr (.inl rfl)⟩

namespace BoundMap

variable {bound : BoundMap} {store : Store} {value : ValueId} {rho rho' : Assignment} {rank : Nat}
  {contiguity : Contiguity}

theorem lt_rank_of_contiguity? {dimension : Nat}
    (h : bound.contiguity? rank value = some (.varying dimension)) : dimension < rank := by
  unfold contiguity? at h
  split at h
  · cases h
  · split at h
    · cases h
    · split at h
      · obtain rfl := Contiguity.varying.inj (Option.some.inj h)
        omega
      · cases h
    · cases h

section Step

variable (hbound : bound.toExprs.WellFormed)
  (hbinds : bound.toExprs.BindsOnce (store.definingApply? · = none))
  (honce : ¬ bound.BindsTwice value) (hvaries : store.Varies value rho rho')
  (hnext : rho' value = rho value + 1)

include hbound hbinds honce hvaries hnext

/-- When the value grows by one, every result moves by its coefficient. -/
theorem value_of_varyingResults? {place index : Nat} {varying : List Nat} {e : Expr}
    (hplace : bound.operands[place]? = some value)
    (h : bound.varyingResults? place 0 bound.map.results = some varying)
    (hresult : bound.map.results[index]? = some e) :
    ∃ coefficient : Int, (coefficient = -1 ∨ coefficient = 0 ∨ coefficient = 1) ∧
      (index ∉ varying → coefficient = 0) ∧
      e.value (rho'.point bound.dimOperands bound.symOperands) =
        e.value (rho.point bound.dimOperands bound.symOperands) + coefficient := by
  obtain ⟨coefficient, hcoefficient, hunit, hzero⟩ := coefficient_of_varyingResults? h hresult
  have hlt : place < bound.map.inputs := by
    obtain ⟨hlt, -⟩ := List.getElem?_eq_some_iff.mp hplace
    have hlength : bound.operands.length = bound.map.inputs := hbound.length_eq
    omega
  have hmove := value_of_coefficientAt?
    (fun other hne => get_point_of_varies hvaries hbinds honce hplace hne) hlt hcoefficient
  rw [get_point_inputAt hplace, get_point_inputAt hplace, hnext] at hmove
  refine ⟨coefficient, hunit, by simpa using hzero, ?_⟩
  rw [hmove]
  ring

/-- The verdict on a position without apply operations that does not bind the value twice. -/
theorem describes_of_contiguity? (h : bound.contiguity? rank value = some contiguity) :
    contiguity.Describes rank (bound.values rho) (bound.values rho') := by
  unfold contiguity? at h
  split at h
  · -- a position without the value does not move
    rename_i hnone
    obtain rfl := Option.some.inj h
    refine List.map_congr_left fun e _ => value_eq_of_varies hvaries hbinds.allowed ?_
    intro place hplace
    exact absurd (List.mem_of_getElem? hplace) (List.idxOf?_eq_none_iff.mp hnone)
  · rename_i place hfound
    have hplace : bound.operands[place]? = some value := by
      obtain ⟨hlt, heq, -⟩ := List.idxOf?_eq_some_iff.mp hfound
      rw [List.getElem?_eq_getElem hlt, heq]
    split at h
    · rename_i hvarying
      obtain rfl := Option.some.inj h
      refine List.map_congr_left fun e hmem => ?_
      obtain ⟨index, hresult⟩ := List.getElem?_of_mem hmem
      obtain ⟨coefficient, -, hzero, hvalue⟩ :=
        value_of_varyingResults? hbound hbinds honce hvaries hnext hplace hvarying hresult
      rw [hvalue, hzero (List.not_mem_nil), add_zero]
    · rename_i varying hvarying
      split at h
      · rename_i hrank
        obtain rfl := Option.some.inj h
        refine ⟨by omega, by simp [values], ?_⟩
        intro index x y hx hy
        simp only [values, List.getElem?_map, Option.map_eq_some_iff] at hx hy
        obtain ⟨e, hresult, rfl⟩ := hx
        obtain ⟨e', hresult', rfl⟩ := hy
        obtain rfl := Option.some.inj (hresult.symm.trans hresult')
        obtain ⟨coefficient, hunit, hzero, hvalue⟩ :=
          value_of_varyingResults? hbound hbinds honce hvaries hnext hplace hvarying hresult
        refine ⟨fun hne => ?_, by omega⟩
        -- counted from the innermost dimension, the listed result is the varying one
        have hnot : index ∉ [varying] := by
          rw [List.mem_singleton]
          omega
        rw [hvalue, hzero hnot, add_zero]
      · cases h
    · cases h

end Step

end BoundMap

/-! ## Accesses of constructed operations -/

theorem OpKind.Fits.of_map? {kind : OpKind} {operands : List ValueId} {map : AffineMap}
    {offset : Nat} (hfits : kind.Fits operands) (h : kind.map? = some (map, offset)) :
    map.InRange ∧ operands.length = map.inputs + offset := by
  cases kind <;> cases h
  case apply => exact ⟨hfits.1, hfits.2.2⟩
  case min => exact ⟨hfits.1, hfits.2.2⟩
  case max => exact ⟨hfits.1, hfits.2.2⟩
  all_goals exact hfits

namespace Store

variable {store : Store} {access : Access}

theorem Reachable.boundMap?_wellFormed (hstore : store.Reachable) {op : OpId} {bound : BoundMap}
    (h : store.boundMap? op = some bound) : bound.toExprs.WellFormed := by
  have hfits := hstore.fits op
  unfold boundMap? at h
  split at h
  · cases h
  · rename_i map offset hmap
    obtain ⟨hrange, hlength⟩ := OpKind.Fits.of_map? hfits hmap
    obtain rfl := Option.some.inj h
    refine ⟨?_, hrange⟩
    simp only [BoundMap.toExprs, List.length_drop, hlength, Nat.add_sub_cancel]
    rfl

theorem Reachable.access?_wellFormed (hstore : store.Reachable) {op : OpId}
    (h : store.access? op = some access) : access.position.toExprs.WellFormed := by
  obtain ⟨position, hposition, rfl⟩ : ∃ position, store.boundMap? op = some position ∧
      access.position = position := by
    unfold access? at h
    split at h
    · rename_i place position hplace hposition
      split at h
      · cases h
      · split at h
        · cases h
        · exact ⟨position, hposition, by rw [← Option.some.inj h]⟩
    · cases h
  exact hstore.boundMap?_wellFormed hposition

end Store

/-! ## Verdicts along dependent loops -/

theorem Contiguity.merge_cases {own merged : Contiguity}
    {other : Except ContiguityObstacle Contiguity} (h : own.merge other = .ok merged) :
    (own = .invariant ∨ own = merged) ∧ (merged = own ∨ other = .ok merged) := by
  unfold merge at h
  split at h
  · cases h
  · split at h
    · rename_i hmerge
      obtain rfl := Except.ok.inj h
      unfold merge? at hmerge
      split at hmerge
      · exact ⟨.inl rfl, .inr (congrArg _ (Option.some.inj hmerge))⟩
      · exact ⟨.inr (Option.some.inj hmerge), .inl (Option.some.inj hmerge).symm⟩
      · split at hmerge
        · exact ⟨.inr (Option.some.inj hmerge), .inl (Option.some.inj hmerge).symm⟩
        · cases hmerge
    · cases h

/-- What a walk over loops leaves of the verdict it starts from, where `Known` holds of all verdicts
that it meets. -/
theorem Contiguity.foldl_merge_cases {along : ForLoop → Except ContiguityObstacle Contiguity}
    {Known : Contiguity → Prop} (halong : ∀ loop other, along loop = .ok other → Known other)
    {loops : List ForLoop} {start : Except ContiguityObstacle Contiguity} {verdict : Contiguity}
    (hstart : ∀ first, start = .ok first → Known first)
    (h : loops.foldl (fun verdict loop =>
      match verdict with
      | .error obstacle => .error obstacle
      | .ok contiguity => contiguity.merge (along loop)) start = .ok verdict) :
    (∃ own, start = .ok own ∧ (own = .invariant ∨ own = verdict)) ∧ Known verdict := by
  induction loops generalizing start with
  | nil => exact ⟨⟨verdict, h, .inr rfl⟩, hstart verdict h⟩
  | cons loop loops ih =>
      rw [List.foldl_cons] at h
      cases start with
      | error obstacle =>
          obtain ⟨⟨own, herror, -⟩, -⟩ := ih hstart h
          cases herror
      | ok own =>
          have hmerged : ∀ merged, own.merge (along loop) = .ok merged → Known merged := by
            intro merged hmerge
            rcases (merge_cases hmerge).2 with rfl | hother
            · exact hstart _ rfl
            · exact halong loop merged hother
          obtain ⟨⟨merged, hmerge, hverdict⟩, hknown⟩ := ih hmerged h
          refine ⟨⟨own, rfl, ?_⟩, hknown⟩
          rcases (merge_cases hmerge).1 with hown | rfl
          · exact .inl hown
          · exact hverdict

namespace Store

variable {store : Store} {limit : Nat} {access : Access} {value : ValueId} {verdict : Contiguity}

/-- The verdict along a value and its dependent loops is the own verdict along one of them, and
the own verdict along the value is the same or `invariant`. -/
theorem contiguityWithin_cases {depth : Nat}
    (h : store.contiguityWithin limit access depth value = .ok verdict) :
    (∃ own, store.ownContiguity limit access value = .ok own ∧
      (own = .invariant ∨ own = verdict)) ∧
    ∃ other, store.ownContiguity limit access other = .ok verdict := by
  induction depth generalizing value verdict with
  | zero => exact ⟨⟨verdict, h, .inr rfl⟩, value, h⟩
  | succ depth ih =>
      unfold contiguityWithin at h
      split at h
      · exact ⟨⟨verdict, h, .inr rfl⟩, value, h⟩
      · exact Contiguity.foldl_merge_cases (fun loop other hother => (ih hother).2)
          (fun first hfirst => ⟨value, hfirst⟩) h

theorem ownContiguity_eq_ok (h : store.ownContiguity limit access value = .ok verdict) :
    ∃ composed, access.position.fullyCompose store limit = .ok composed ∧
      composed.contiguity? access.type.rank value = some verdict := by
  unfold ownContiguity at h
  split at h
  · split at h
    · cases h
    · rename_i composed hcomposed
      split at h
      · rename_i contiguity hcontiguity
        exact ⟨composed, hcomposed, Except.ok.inj h ▸ hcontiguity⟩
      · cases h
  · cases h

/-- Verdicts on contiguity are right unless the composed position binds the variable twice.  When
the variable grows by one, and all else but the results of apply operations stays, the position of
an access that is judged invariant stays, and the position of one that is judged to vary moves in
the given dimension only and there by at most one. -/
theorem describes_of_contiguity {op : OpId} {iv : ValueId} {rho rho' : Assignment}
    (hstore : store.Reachable) (haccess : store.access? op = some access)
    (hverdict : store.contiguity limit access iv = .ok verdict)
    (honce : ∀ composed, access.position.fullyCompose store limit = .ok composed →
      ¬ composed.BindsTwice iv)
    (hvaries : store.Varies iv rho rho') (hnext : rho' iv = rho iv + 1) :
    verdict.Describes access.type.rank (access.position.values rho)
      (access.position.values rho') := by
  obtain ⟨⟨own, hown, hverdict⟩, other, hother⟩ := contiguityWithin_cases hverdict
  obtain ⟨composed, hcomposed, hcontiguity⟩ := ownContiguity_eq_ok hown
  have honce := honce composed hcomposed
  rw [BoundMap.fullyCompose_eq_compose] at hcomposed
  -- the position and the composed one have the same values before and after
  obtain ⟨hbound, hvalues⟩ : composed.toExprs.WellFormed ∧
      ∀ rho, store.Consistent rho → composed.values rho = access.position.values rho := by
    rcases BoundMap.compose_spec hstore (hstore.access?_wellFormed haccess) limit with
      hlimit | ⟨composed', hcomposed', hbound, -, hvalues⟩
    · cases hlimit.symm.trans hcomposed
    · obtain rfl := Except.ok.inj (hcomposed'.symm.trans hcomposed)
      exact ⟨hbound, hvalues⟩
  have hdescribes := BoundMap.describes_of_contiguity? hbound (BoundMap.bindsOnce_compose hcomposed)
    honce hvaries hnext hcontiguity
  rw [hvalues rho hvaries.before, hvalues rho' hvaries.after] at hdescribes
  rcases hverdict with rfl | rfl
  · -- an invariant position also moves as the coarser verdict says
    have hsame : access.position.values rho' = access.position.values rho := hdescribes
    rw [hsame]
    refine Contiguity.Describes.of_eq ?_
    rintro dimension rfl
    obtain ⟨_, -, hvarying⟩ := ownContiguity_eq_ok hother
    exact BoundMap.lt_rank_of_contiguity? hvarying
  · exact hdescribes

end Store

/-! ## A variable that is a dimension and a symbol

The body of a loop over `%iv` accesses a reference twice: in its row `%n floordiv 2` at
`-%iv + %n floordiv 4`, and at `(d0)[s0] -> (d0 + s0, 0)` on `%iv` and `%iv`.  The first access
moves by one position in the innermost dimension, the second one by two in the outermost. -/

namespace DimAndSymbol

open RepeatedVariable (withLoop place loop)

set_option maxRecDepth 800

def skewed : Owned AffineMap :=
  ⟨0, ⟨1, 1, [.binary .add (.binary .mul (.dim 0) (.const (-1)))
    (.binary .floorDiv (.sym 0) (.const 4))]⟩⟩

def inRow : Owned AffineMap := ⟨0, ⟨2, 0, [.binary .floorDiv (.dim 1) (.const 2), .dim 0]⟩⟩

def doubled : Owned AffineMap := ⟨0, ⟨1, 1, [.binary .add (.dim 0) (.sym 0), .const 0]⟩⟩

def store : Store :=
  place ⟨5⟩ (Build.load 0 ⟨0⟩ doubled [⟨2⟩, ⟨2⟩]
    (place ⟨4⟩ (Build.load 0 ⟨0⟩ inRow [⟨3⟩, ⟨1⟩]
      (place ⟨3⟩ (Build.apply 0 skewed [⟨2⟩, ⟨1⟩] withLoop).2)).2)).2

theorem reachable : store.Reachable :=
  (Construction.insertBeforeTerminator (by decide) (by decide)).reachable <|
    (Construction.read (.inl rfl) (by decide) (by decide)).reachable <|
      (Construction.insertBeforeTerminator (by decide) (by decide)).reachable <|
        (Construction.read (.inl rfl) (by decide) (by decide)).reachable <|
          (Construction.insertBeforeTerminator (by decide) (by decide)).reachable <|
            (Construction.apply (by decide) (by decide)).reachable <|
              (Construction.appendOp (by decide) (by decide)).reachable <|
                (Construction.forLoop (by decide) (by decide) (by decide)).reachable <|
                  (Construction.function 0 "f" _).reachable .empty

/-- The assignment at a value of `%iv`, where `%n` is 7. -/
def rho (iv : Int) : Assignment := fun value => [0, 7, iv, iv * -1 + 1].getD value.index 0

theorem consistent (iv : Int) : store.Consistent (rho iv) where
  constants := by
    rintro ⟨index⟩ constant h
    match index with
    | 0 | 1 | 2 | 3 | 4 | 5 => cases h
    | index + 6 => cases h
  applied := by
    rintro ⟨index⟩ bound h
    match index with
    | 0 | 1 | 2 => cases h
    | 3 => cases h; rfl
    | 4 | 5 => cases h
    | index + 6 => cases h

theorem varies (before after : Int) : store.Varies ⟨2⟩ (rho before) (rho after) where
  before := consistent before
  after := consistent after
  agree := by
    rintro ⟨index⟩ hne hdefining
    match index with
    | 0 | 1 => rfl
    | 2 => exact absurd rfl hne
    | 3 => cases hdefining
    | index + 4 => rfl

def inRowAccess : Access :=
  ⟨⟨4⟩, ⟨0⟩, ⟨[.static 16, .static 16], .float 32, []⟩, ⟨inRow.item, [⟨3⟩, ⟨1⟩]⟩⟩

def doubledAccess : Access :=
  ⟨⟨5⟩, ⟨0⟩, ⟨[.static 16, .static 16], .float 32, []⟩, ⟨doubled.item, [⟨2⟩, ⟨2⟩]⟩⟩

theorem access?_inRow : store.access? ⟨4⟩ = some inRowAccess := rfl

theorem access?_doubled : store.access? ⟨5⟩ = some doubledAccess := rfl

theorem kind_doubled : (store.op ⟨5⟩).kind = .load doubled.item := rfl

theorem verifyAccess_doubled : store.verifyAccess doubledAccess = .ok () := by decide

theorem loopOf?_eq : store.loopOf? ⟨2⟩ = some loop := rfl

theorem contiguity_inRow : store.contiguity 10 inRowAccess ⟨2⟩ = .ok (.varying 0) := by decide

theorem contiguity_doubled : store.contiguity 10 doubledAccess ⟨2⟩ = .ok (.varying 1) := by decide

theorem not_bindsTwice_inRow :
    ∀ composed, inRowAccess.position.fullyCompose store 10 = .ok composed →
      ¬ composed.BindsTwice ⟨2⟩ := by
  intro composed hcomposed
  obtain rfl := Except.ok.inj hcomposed
  decide

end DimAndSymbol

open DimAndSymbol in
/-- Verdicts on contiguity can be wrong. -/
theorem not_forall_contiguity_describes :
    ¬ ∀ (store : Store) (op : OpId) (access : Access) (iv : ValueId) (loop : ForLoop) (limit : Nat)
      (verdict : Contiguity) (rho rho' : Assignment), store.Reachable →
      store.access? op = some access → (∃ map, (store.op op).kind ∈ [.load map, .store map]) →
      access.type.hasIdentityLayout → access.position.map.resultCount = access.type.rank →
      store.verifyAccess access = .ok () → store.loopOf? iv = some loop →
      store.contiguity limit access iv = .ok verdict →
      store.Varies iv rho rho' → rho' iv = rho iv + 1 →
      verdict.Describes access.type.rank (access.position.values rho)
        (access.position.values rho') := by
  intro hdescribes
  obtain ⟨-, -, hmoves⟩ := hdescribes store ⟨5⟩ doubledAccess ⟨2⟩ _ 10 (.varying 1) (rho 0) (rho 1)
    reachable access?_doubled ⟨doubled.item, by simp [kind_doubled]⟩ (by decide) (by decide)
    verifyAccess_doubled loopOf?_eq contiguity_doubled (varies 0 1) rfl
  have hmove := (hmoves 0 0 2 rfl rfl).2
  omega

open DimAndSymbol in
theorem describes_of_contiguity_inRow :
    store.Reachable ∧ store.access? ⟨4⟩ = some inRowAccess ∧
    store.contiguity 10 inRowAccess ⟨2⟩ = .ok (.varying 0) ∧
    store.Varies ⟨2⟩ (rho 0) (rho 1) ∧ rho 1 ⟨2⟩ = rho 0 ⟨2⟩ + 1 ∧
    inRowAccess.position.values (rho 0) = [3, 1] ∧ inRowAccess.position.values (rho 1) = [3, 0] ∧
    (Contiguity.varying 0).Describes 2 [3, 1] [3, 0] :=
  ⟨reachable, access?_inRow, contiguity_inRow, varies 0 1, rfl, rfl, rfl,
    Store.describes_of_contiguity reachable access?_inRow contiguity_inRow not_bindsTwice_inRow
      (varies 0 1) rfl⟩

end AffineLoops
