import AffineLoops.BoundMap.Composition
import AffineLoops.Proofs.BoundMap.Canonical
import AffineLoops.Proofs.IR.Construction

/-!
# Composition keeps the values

An assignment is consistent with a program if constants have their integers and every result of
an apply operation has the value of its map.  Composition does not change the results of a map
under any consistent assignment.

While a map is composed, an input is in one of two states: it still has an operand, or it has
been replaced and is not mentioned any more.  This is the invariant of the loop
(`Composing.Valid`): every result mentions inputs only that still have an operand.  Under it, the
results have a value at the point that the operands define (`Composing.values`), and

* `absorb_valid`, `values_absorb`: replacing an input by the map that produces it keeps the
  invariant and the values.  The inputs of that map come after all others, so none of them is
  captured;
* `run?_spec`: so does the whole loop;
* `finish_spec`: numbering the remaining inputs anew keeps the values, and since replaced inputs
  are not mentioned the final check of positions cannot fail.
-/

namespace AffineLoops

/-- An assignment under which every operation on constants and maps has the value it computes. -/
structure Store.Consistent (store : Store) (rho : Assignment) : Prop where
  constants : store.ConstantsHold rho
  applied : ∀ value bound, store.appliedMap? value = some bound → bound.values rho = [rho value]

theorem Store.Reachable.appliedMap?_wellFormed {store : Store} (hstore : store.Reachable)
    {value : ValueId} {bound : BoundMap} (h : store.appliedMap? value = some bound) :
    bound.toExprs.WellFormed ∧ bound.map.resultCount = 1 := by
  unfold appliedMap? at h
  split at h
  · cases h
  · rename_i op hdefining
    obtain ⟨map, hkind⟩ : ∃ map, (store.op op).kind = .apply map := by
      unfold definingApply? at hdefining
      split at hdefining
      · cases hdefining
      · split at hdefining
        · rename_i map hkind
          exact ⟨map, Option.some.inj hdefining ▸ hkind⟩
        · cases hdefining
    have hbound : bound = ⟨map, (store.op op).operands⟩ := by
      simpa [boundMap?, hkind, OpKind.map?] using h.symm
    have hfits := hstore.fits op
    rw [hkind] at hfits
    rw [hbound]
    exact ⟨⟨hfits.2.2, hfits.1⟩, hfits.2.1⟩

namespace BoundMap

variable {bound : BoundMap} (hbound : bound.toExprs.WellFormed)

include hbound

theorem length_dimOperands : bound.dimOperands.length = bound.map.dims := by
  have hlength : bound.operands.length = bound.map.dims + bound.map.syms := hbound.length_eq
  rw [dimOperands, List.length_take]
  omega

theorem length_symOperands : bound.symOperands.length = bound.map.syms := by
  have hlength : bound.operands.length = bound.map.dims + bound.map.syms := hbound.length_eq
  rw [symOperands, List.length_drop]
  omega

end BoundMap

/-! ## Points with one coordinate changed -/

namespace Point

/-- The coordinate of an input. -/
def get (point : Point) : Input → Int
  | .dim position => point.dim position
  | .sym position => point.sym position

/-- The point that differs from another one in one input. -/
def set (point : Point) (x : Int) : Input → Point
  | .dim position => ⟨Function.update point.dim position x, point.sym⟩
  | .sym position => ⟨point.dim, Function.update point.sym position x⟩

theorem get_set_self (point : Point) (x : Int) (input : Input) :
    (point.set x input).get input = x := by
  cases input <;> exact Function.update_self ..

theorem get_set_of_ne (point : Point) (x : Int) {input other : Input} (hne : other ≠ input) :
    (point.set x input).get other = point.get other := by
  cases input <;> cases other
  case dim.dim => exact Function.update_of_ne (fun heq => hne (congrArg _ heq)) ..
  case sym.sym => exact Function.update_of_ne (fun heq => hne (congrArg _ heq)) ..
  all_goals rfl

end Point

theorem Expr.value_replace_toExpr (input : Input) (replacement : Expr) (point : Point) (e : Expr) :
    (Expr.replace input.toExpr replacement e).value point =
      e.value (point.set (replacement.value point) input) := by
  refine value_replace ?_ ?_ ?_ e
  · have htarget := point.get_set_self (replacement.value point) input
    cases input <;> exact htarget.symm
  · intro position hne
    have hne : Input.dim position ≠ input := fun heq => hne (congrArg Input.toExpr heq)
    exact (point.get_set_of_ne _ hne).symm
  · intro position hne
    have hne : Input.sym position ≠ input := fun heq => hne (congrArg Input.toExpr heq)
    exact (point.get_set_of_ne _ hne).symm

namespace Slots

variable {rho : Assignment} {slots : Slots} {bound : BoundMap} {input other : Input}
  {value : ValueId} {store : Store}

/-! ## Inputs with and without an operand -/

/-- The operand of an input that has not been replaced. -/
def value? (slots : Slots) : Input → Option ValueId
  | .dim position => slots.dims[position]?.join
  | .sym position => slots.syms[position]?.join

/-- The point at which every input that still has an operand has its integer. -/
def point (rho : Assignment) (slots : Slots) : Point where
  dim position := (slots.value? (.dim position)).elim 0 rho
  sym position := (slots.value? (.sym position)).elim 0 rho

theorem get_point (input : Input) :
    (slots.point rho).get input = (slots.value? input).elim 0 rho := by
  cases input <;> rfl

/-- An expression mentions only inputs that still have an operand. -/
abbrev Covers (slots : Slots) (e : Expr) : Prop :=
  e.Within (fun position => (slots.value? (.dim position)).isSome)
    fun position => (slots.value? (.sym position)).isSome

theorem firstApplied?_eq_some {position found : Nat} {values : List (Option ValueId)}
    (h : firstApplied? store position values = some (found, value, bound)) :
    ∃ index, found = position + index ∧ values[index]? = some (some value) ∧
      store.appliedMap? value = some bound := by
  fun_induction firstApplied? store position values with
  | case1 => cases h
  | case2 position rest ih =>
      obtain ⟨index, hfound, hvalue, happlied⟩ := ih h
      exact ⟨index + 1, by omega, hvalue, happlied⟩
  | case3 position first rest applied happlied =>
      obtain ⟨rfl, rfl, rfl⟩ : position = found ∧ first = value ∧ applied = bound := by
        simpa using h
      exact ⟨0, rfl, rfl, happlied⟩
  | case4 position first rest hnone ih =>
      obtain ⟨index, hfound, hvalue, happlied⟩ := ih h
      exact ⟨index + 1, by omega, hvalue, happlied⟩

/-- The next input to replace has an operand, which an apply operation produces. -/
theorem next?_eq_some (h : slots.next? store = some (input, value, bound)) :
    slots.value? input = some value ∧ store.appliedMap? value = some bound := by
  unfold next? at h
  split at h
  · rename_i position applied hfirst
    obtain ⟨rfl, rfl⟩ : .dim position = input ∧ applied = (value, bound) := by simpa using h
    obtain ⟨index, rfl, hvalue, happlied⟩ := firstApplied?_eq_some hfirst
    exact ⟨by simp [value?, hvalue], happlied⟩
  · split at h
    · rename_i position applied hfirst
      obtain ⟨rfl, rfl⟩ : .sym position = input ∧ applied = (value, bound) := by simpa using h
      obtain ⟨index, rfl, hvalue, happlied⟩ := firstApplied?_eq_some hfirst
      exact ⟨by simp [value?, hvalue], happlied⟩
    · cases h

/-! ## Replacing an input -/

theorem join_getElem?_append {values : List (Option ValueId)} {position : Nat}
    (hlive : values[position]?.join.isSome) (more : List (Option ValueId)) :
    (values ++ more)[position]?.join = values[position]?.join := by
  have hlt : position < values.length := by
    by_contra hout
    simp [List.getElem?_eq_none (not_lt.mp hout)] at hlive
  rw [List.getElem?_append_left hlt]

theorem join_getElem?_append_map {values : List (Option ValueId)} {length : Nat}
    (hlength : values.length = length) (more : List ValueId) (position : Nat) :
    (values ++ more.map some)[position + length]?.join = more[position]? := by
  rw [List.getElem?_append_right (by omega), hlength, Nat.add_sub_cancel, List.getElem?_map]
  cases more[position]? <;> rfl

/-- An input that is not replaced keeps its operand. -/
theorem value?_absorbed_of_ne (hne : other ≠ input) (hlive : (slots.value? other).isSome) :
    ((slots.clear input).extend bound).value? other = slots.value? other := by
  cases other with
  | dim position =>
      cases input with
      | dim cleared =>
          have hkept : (slots.clear (.dim cleared)).dims[position]?.join =
              slots.dims[position]?.join :=
            congrArg _ (List.getElem?_set_ne fun heq => hne (congrArg Input.dim heq.symm))
          exact (join_getElem?_append (by rw [hkept]; exact hlive) _).trans hkept
      | sym cleared => exact join_getElem?_append hlive _
  | sym position =>
      cases input with
      | dim cleared => exact join_getElem?_append hlive _
      | sym cleared =>
          have hkept : (slots.clear (.sym cleared)).syms[position]?.join =
              slots.syms[position]?.join :=
            congrArg _ (List.getElem?_set_ne fun heq => hne (congrArg Input.sym heq.symm))
          exact (join_getElem?_append (by rw [hkept]; exact hlive) _).trans hkept

/-- The inputs of the map that is put in have its operands. -/
theorem value?_absorbed_dim (position : Nat) :
    ((slots.clear input).extend bound).value? (.dim (position + slots.dims.length)) =
      bound.dimOperands[position]? :=
  join_getElem?_append_map (by cases input <;> simp [clear]) _ position

theorem value?_absorbed_sym (position : Nat) :
    ((slots.clear input).extend bound).value? (.sym (position + slots.syms.length)) =
      bound.symOperands[position]? :=
  join_getElem?_append_map (by cases input <;> simp [clear]) _ position

/-- The map that is put in has its value at the inputs that come with it. -/
theorem value_replacement (hbound : bound.toExprs.WellFormed) {result : Expr}
    (hresults : bound.map.results = [result]) (input : Input) :
    (slots.replacement bound).value (((slots.clear input).extend bound).point rho) =
      result.value (rho.point bound.dimOperands bound.symOperands) := by
  rw [replacement, hresults, List.headD_cons, Expr.value_moveSyms, Expr.value_moveDims]
  refine Expr.value_congr (hbound.inRange result (by simp [BoundMap.toExprs, hresults])) ?_ ?_
  · intro position hlt
    have hlt : position < bound.map.dims := hlt
    have hoperand : position < bound.dimOperands.length := by
      rwa [BoundMap.length_dimOperands hbound]
    rw [rho.point_dim (List.getElem?_eq_getElem hoperand)]
    simp [Point.moveDims, Point.moveSyms, point, hlt, value?_absorbed_dim, hoperand]
  · intro position hlt
    have hlt : position < bound.map.syms := hlt
    have hoperand : position < bound.symOperands.length := by
      rwa [BoundMap.length_symOperands hbound]
    rw [rho.point_sym (List.getElem?_eq_getElem hoperand)]
    simp [Point.moveDims, Point.moveSyms, point, hlt, value?_absorbed_sym, hoperand]

theorem covers_replacement (hbound : bound.toExprs.WellFormed) (input : Input) :
    ((slots.clear input).extend bound).Covers (slots.replacement bound) := by
  have hresult : (bound.map.results.headD (.const 0)).InRange bound.map.dims bound.map.syms := by
    cases hresults : bound.map.results with
    | nil => trivial
    | cons result rest => exact hbound.inRange result (by simp [BoundMap.toExprs, hresults])
  refine Expr.within_moveSyms (Expr.within_moveDims hresult ?_ ?_) ?_ ?_
  · intro position hlt _ _
    rw [value?_absorbed_dim]
    simpa [BoundMap.length_dimOperands hbound] using hlt
  · intro position hlt hkept
    exact absurd ⟨Nat.zero_le _, hlt⟩ hkept
  · intro position hlt _ _
    rw [value?_absorbed_sym]
    simpa [BoundMap.length_symOperands hbound] using hlt
  · intro position hlt hkept
    exact absurd ⟨Nat.zero_le _, hlt⟩ hkept

end Slots

namespace Composing

variable {rho : Assignment} {store : Store} {state state' : Composing}

/-- The integers of the results under an assignment. -/
def values (rho : Assignment) (state : Composing) : List Int :=
  state.results.map (Expr.value (state.slots.point rho))

/-- Every result mentions inputs only that still have an operand. -/
def Valid (state : Composing) : Prop := ∀ e ∈ state.results, state.slots.Covers e

/-! ## One step -/

section Absorb

variable {input : Input} {value : ValueId} {bound : BoundMap}

theorem absorb_valid (hstate : state.Valid) (hbound : bound.toExprs.WellFormed) :
    (state.absorb input bound).Valid := by
  intro e he
  obtain ⟨original, horiginal, rfl⟩ := List.mem_map.mp he
  refine Expr.within_replace (hstate original horiginal)
    (Slots.covers_replacement hbound input) ?_ ?_
  · intro position hlive hne
    have hne : Input.dim position ≠ input := fun heq => hne (congrArg Input.toExpr heq)
    rwa [absorb, Slots.value?_absorbed_of_ne hne hlive]
  · intro position hlive hne
    have hne : Input.sym position ≠ input := fun heq => hne (congrArg Input.toExpr heq)
    rwa [absorb, Slots.value?_absorbed_of_ne hne hlive]

theorem values_absorb (hstate : state.Valid) (hvalue : state.slots.value? input = some value)
    (hbound : bound.toExprs.WellFormed) (happlied : bound.values rho = [rho value]) :
    (state.absorb input bound).values rho = state.values rho := by
  obtain ⟨result, hresults⟩ : ∃ result, bound.map.results = [result] :=
    List.length_eq_one_iff.mp (by simpa [BoundMap.values] using congrArg List.length happlied)
  have hreplacement : (state.slots.replacement bound).value
      (((state.slots.clear input).extend bound).point rho) = rho value := by
    rw [Slots.value_replacement hbound hresults]
    simpa [BoundMap.values, hresults] using happlied
  simp only [values, absorb, List.map_map]
  refine List.map_congr_left fun e he => ?_
  rw [Function.comp_apply, Expr.value_replace_toExpr, hreplacement]
  -- where the new point differs from the old one, it is no input of the old results
  have hsame : ∀ other, (state.slots.value? other).isSome →
      ((((state.slots.clear input).extend bound).point rho).set (rho value) input).get other =
        (state.slots.point rho).get other := by
    intro other hlive
    by_cases hinput : other = input
    · rw [hinput, Point.get_set_self, Slots.get_point, hvalue, Option.elim_some]
    · rw [Point.get_set_of_ne _ _ hinput, Slots.get_point, Slots.get_point,
        Slots.value?_absorbed_of_ne hinput hlive]
  exact Expr.value_congr (hstate e he) (fun position => hsame (.dim position))
    fun position => hsame (.sym position)

end Absorb

/-! ## The loop -/

theorem step?_spec (hstore : store.Reachable) (hstate : state.Valid)
    (h : state.step? store = some state') :
    state'.Valid ∧ state'.results.length = state.results.length ∧
      ∀ rho, store.Consistent rho → state'.values rho = state.values rho := by
  unfold step? at h
  split at h
  · rename_i input value bound hnext
    obtain rfl := Option.some.inj h
    obtain ⟨hvalue, happlied⟩ := Slots.next?_eq_some hnext
    obtain ⟨hbound, -⟩ := hstore.appliedMap?_wellFormed happlied
    exact ⟨absorb_valid hstate hbound, by simp [absorb],
      fun rho hrho => values_absorb hstate hvalue hbound (hrho.applied value bound happlied)⟩
  · cases h

theorem run?_spec (hstore : store.Reachable) (hstate : state.Valid) {steps : Nat}
    (h : state.run? store steps = some state') :
    state'.Valid ∧ state'.results.length = state.results.length ∧
      ∀ rho, store.Consistent rho → state'.values rho = state.values rho := by
  induction steps generalizing state with
  | zero =>
      unfold run? at h
      split at h
      · obtain rfl := Option.some.inj h
        exact ⟨hstate, rfl, fun _ _ => rfl⟩
      · cases h
  | succ steps ih =>
      unfold run? at h
      split at h
      · obtain rfl := Option.some.inj h
        exact ⟨hstate, rfl, fun _ _ => rfl⟩
      · rename_i next hstep
        obtain ⟨hnext, hcount, hvalues⟩ := step?_spec hstore hstate hstep
        obtain ⟨hvalid, hcount', hvalues'⟩ := ih hnext h
        exact ⟨hvalid, hcount'.trans hcount,
          fun rho hrho => (hvalues' rho hrho).trans (hvalues rho hrho)⟩

end Composing

/-! ## Numbering the inputs anew -/

namespace Slots

variable {rho : Assignment} {slots : Slots} {input : Nat → Expr} {next : Nat}
  {values : List (Option ValueId)}

theorem length_renumber : (renumber input next values).length = values.length := by
  fun_induction renumber input next values <;> simp_all

theorem exists_renumber {position : Nat} {value : ValueId}
    (h : values[position]?.join = some value) :
    ∃ index, (renumber input next values)[position]? = some (input (next + index)) ∧
      (values.filterMap id)[index]? = some value := by
  fun_induction renumber input next values generalizing position with
  | case1 => simp at h
  | case2 next rest ih =>
      cases position with
      | zero => simp at h
      | succ position =>
          obtain ⟨index, hexpr, hvalue⟩ := ih h
          exact ⟨index, hexpr, by simpa using hvalue⟩
  | case3 next first rest ih =>
      cases position with
      | zero => exact ⟨0, rfl, by simpa using h⟩
      | succ position =>
          obtain ⟨index, hexpr, hvalue⟩ := ih h
          refine ⟨index + 1, ?_, by simpa using hvalue⟩
          rw [List.getElem?_cons_succ, hexpr, Nat.add_right_comm, Nat.add_assoc]

theorem within_renumber {dimOk symOk : Nat → Prop}
    (hinput : ∀ index < (values.filterMap id).length,
      (input (next + index)).Within dimOk symOk) :
    ∀ e ∈ renumber input next values, e.Within dimOk symOk := by
  fun_induction renumber input next values with
  | case1 => simp
  | case2 next rest ih =>
      have hrest := ih (by simpa using hinput)
      simpa using hrest
  | case3 next first rest ih =>
      have hfirst := hinput 0 (by simp)
      have hrest := ih fun index hlt => by
        have hlater := hinput (index + 1) (by simpa using hlt)
        rwa [show next + (index + 1) = next + 1 + index by omega] at hlater
      simpa using ⟨hfirst, hrest⟩

end Slots

namespace Composing

variable {state : Composing} {e : Expr}

theorem inRange_substitute_renumber (he : state.slots.Covers e) :
    (e.substitute state.slots.dimExprs state.slots.symExprs).InRange
      state.slots.dimOperands.length state.slots.symOperands.length := by
  refine Expr.within_substitute (he.mono ?_ ?_) ?_ ?_
  · intro position hlive
    rw [Slots.dimExprs, Slots.length_renumber]
    by_contra hout
    simp [Slots.value?, List.getElem?_eq_none (not_lt.mp hout)] at hlive
  · intro position hlive
    rw [Slots.symExprs, Slots.length_renumber]
    by_contra hout
    simp [Slots.value?, List.getElem?_eq_none (not_lt.mp hout)] at hlive
  · exact Slots.within_renumber fun index hlt => by simpa [Slots.dimOperands] using hlt
  · exact Slots.within_renumber fun index hlt => by simpa [Slots.symOperands] using hlt

theorem value_substitute_renumber (rho : Assignment) (he : state.slots.Covers e) :
    (e.substitute state.slots.dimExprs state.slots.symExprs).value
        (rho.point state.slots.dimOperands state.slots.symOperands) =
      e.value (state.slots.point rho) := by
  rw [Expr.value_substitute]
  refine Expr.value_congr he ?_ ?_
  · intro position hlive
    obtain ⟨value, hvalue⟩ := Option.isSome_iff_exists.mp hlive
    obtain ⟨index, hexpr, hoperand⟩ := Slots.exists_renumber hvalue
    have hexpr : state.slots.dimExprs[position]? = some (.dim (0 + index)) := hexpr
    rw [Nat.zero_add] at hexpr
    simp only [Point.through, hexpr, Slots.point, hvalue]
    exact rho.point_dim hoperand
  · intro position hlive
    obtain ⟨value, hvalue⟩ := Option.isSome_iff_exists.mp hlive
    obtain ⟨index, hexpr, hoperand⟩ := Slots.exists_renumber hvalue
    have hexpr : state.slots.symExprs[position]? = some (.sym (0 + index)) := hexpr
    rw [Nat.zero_add] at hexpr
    simp only [Point.through, hexpr, Slots.point, hvalue]
    exact rho.point_sym hoperand

/-- The last check of positions succeeds, and numbering the inputs anew keeps the values. -/
theorem finish_spec (hstate : state.Valid) :
    ∃ bound, state.finish = .ok bound ∧ bound.toExprs.WellFormed ∧
      bound.map.resultCount = state.results.length ∧
      ∀ rho, bound.values rho = state.values rho := by
  have hinRange : ∀ e ∈ state.results.map
      (Expr.substitute state.slots.dimExprs state.slots.symExprs),
      e.InRange state.slots.dimOperands.length state.slots.symOperands.length := by
    intro e he
    obtain ⟨original, horiginal, rfl⟩ := List.mem_map.mp he
    exact inRange_substitute_renumber (hstate original horiginal)
  refine ⟨⟨⟨_, _, _⟩, state.slots.dimOperands ++ state.slots.symOperands⟩, ?_, ⟨?_, hinRange⟩,
    ?_, ?_⟩
  · rw [finish, AffineMap.ofResults, checkAllPositions_eq_ok_iff.mpr hinRange]
    rfl
  · exact List.length_append
  · exact List.length_map _
  · intro rho
    simp only [BoundMap.values, BoundMap.dimOperands, BoundMap.symOperands, List.take_left,
      List.drop_left, List.map_map, values]
    exact List.map_congr_left fun e he => value_substitute_renumber rho (hstate e he)

end Composing

/-! ## The whole composition -/

namespace BoundMap

variable {store : Store} {bound : BoundMap}

theorem point_slots (rho : Assignment) :
    bound.slots.point rho = rho.point bound.dimOperands bound.symOperands := by
  have hsame : ∀ (values : List ValueId) (position : Nat),
      (values.map some)[position]?.join.elim 0 rho = (values.map rho).getD position 0 := by
    intro values position
    rw [List.getD_eq_getElem?_getD, List.getElem?_map, List.getElem?_map]
    cases values[position]? <;> rfl
  simp only [Slots.point, Slots.value?, slots, hsame]
  rfl

theorem toComposing_valid (hbound : bound.toExprs.WellFormed) : bound.toComposing.Valid := by
  intro e he
  refine (hbound.inRange e he).mono ?_ ?_
  · intro position hlt
    have hoperand : position < bound.dimOperands.length := by rwa [length_dimOperands hbound]
    simp [toComposing, slots, Slots.value?, hoperand]
  · intro position hlt
    have hoperand : position < bound.symOperands.length := by rwa [length_symOperands hbound]
    simp [toComposing, slots, Slots.value?, hoperand]

/-- A map with an operand for every input is composed, or the limit is exceeded. -/
theorem compose_spec (hstore : store.Reachable) (hbound : bound.toExprs.WellFormed) (limit : Nat) :
    bound.compose store limit = .error (.compositionLimit limit) ∨
    ∃ composed, bound.compose store limit = .ok composed ∧ composed.toExprs.WellFormed ∧
      composed.map.resultCount = bound.map.resultCount ∧
      ∀ rho, store.Consistent rho → composed.values rho = bound.values rho := by
  have hlength : bound.operands.length = bound.map.inputs := hbound.length_eq
  rw [compose, if_neg (not_not.mpr hlength)]
  -- without results there is nothing to replace an input in
  by_cases hresults : bound.map.results = []
  · rw [if_pos hresults]
    refine .inr ⟨_, rfl, ?_, resultCount_canonicalSimplified store hbound, ?_⟩
    · exact (canonicalSimplified_spec store.constantsHold_default hbound).1
    · exact fun rho hrho => (canonicalSimplified_spec hrho.constants hbound).2
  · rw [if_neg hresults]
    cases hrun : bound.toComposing.run? store limit with
    | none => exact .inl rfl
    | some state =>
        obtain ⟨hstate, hcount, hvalues⟩ :=
          Composing.run?_spec hstore (toComposing_valid hbound) hrun
        obtain ⟨finished, hfinish, hfinished, hcount', hvalues'⟩ := Composing.finish_spec hstate
        refine .inr ⟨finished.canonicalSimplified store, ?_, ?_, ?_, ?_⟩
        · simp only [hfinish, Except.map]
        · exact (canonicalSimplified_spec store.constantsHold_default hfinished).1
        · rw [resultCount_canonicalSimplified store hfinished, hcount', hcount]
          rfl
        · intro rho hrho
          rw [(canonicalSimplified_spec hrho.constants hfinished).2, hvalues', hvalues rho hrho,
            Composing.values, toComposing, point_slots]
          rfl

/-! ### Wrong numbers of operands -/

theorem compose_of_miscounted (hlength : bound.operands.length ≠ bound.map.inputs) (limit : Nat) :
    bound.compose store limit = bound.composeMiscounted :=
  if_pos hlength

/-- Only a map without results and operands is let through, as it is, with a wrong number of
operands. -/
theorem of_composeMiscounted_eq_ok {composed : BoundMap}
    (h : bound.composeMiscounted = .ok composed) :
    composed = bound ∧ bound.map.results = [] ∧ bound.operands = [] ∧ bound.map.inputCount = 0 := by
  unfold composeMiscounted at h
  dsimp only at h
  split_ifs at h with hcount hresults hoperands
  rw [not_not] at hcount hresults hoperands
  refine ⟨(Except.ok.inj h).symm, hresults, hoperands, ?_⟩
  rw [← hcount, hoperands, List.length_nil]

/-- A wrong number of operands is told as such, unless the count of the inputs has wrapped around to
it. -/
theorem composeMiscounted_eq_error_iff :
    bound.composeMiscounted = .error (.operandCount bound.map.inputCount bound.operands.length) ↔
      bound.operands.length ≠ bound.map.inputCount := by
  unfold composeMiscounted
  dsimp only
  split_ifs with hcount hresults hoperands <;> simp_all

/-! ### The result -/

end BoundMap

/-! A function with an index `n`, the constant 4, the value of `n floordiv 4 + 4` and that of one
more than twice the latter. -/

namespace NestedApply

def start : Store := (Build.constant 0 4 .index (Build.function 0 "f" [.index] .empty).2).2

def inner : Owned AffineMap :=
  ⟨0, ⟨1, 1, [.binary .add (.binary .floorDiv (.dim 0) (.const 4)) (.sym 0)]⟩⟩

def outer : Owned AffineMap :=
  ⟨0, ⟨1, 0, [.binary .add (.binary .mul (.dim 0) (.const 2)) (.const 1)]⟩⟩

def store : Store := (Build.apply 0 outer [⟨2⟩] (Build.apply 0 inner [⟨0⟩, ⟨1⟩] start).2).2

theorem reachable : store.Reachable :=
  (Construction.apply (by decide) (by decide)).reachable <|
    (Construction.apply (by decide) (by decide)).reachable <|
      (Construction.constant 0 4 .index).reachable <|
        (Construction.function 0 "f" [.index]).reachable .empty

def rho : Assignment := fun value => [10, 4, 6, 13].getD value.index 0

theorem consistent : store.Consistent rho where
  constants := by
    rintro ⟨index⟩ constant h
    match index with
    | 0 => cases h
    | 1 => exact Option.some.inj h
    | 2 => cases h
    | 3 => cases h
    | index + 4 => cases h
  applied := by
    rintro ⟨index⟩ bound h
    match index with
    | 0 => cases h
    | 1 => cases h
    | 2 => cases h; rfl
    | 3 => cases h; rfl
    | index + 4 => cases h

def bound : BoundMap :=
  ⟨⟨2, 0, [.binary .add (.dim 0) (.dim 1), .binary .mod (.dim 1) (.const 4)]⟩, [⟨3⟩, ⟨2⟩]⟩

end NestedApply

/-- A map with one input more than a word can count, so that its inputs are counted as none. -/
def uncountedInputs (results : List Expr) : AffineMap := ⟨Word.maxUnsigned, 1, results⟩

end AffineLoops
