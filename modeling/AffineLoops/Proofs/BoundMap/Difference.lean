import AffineLoops.BoundMap.Difference
import AffineLoops.Proofs.BoundMap.FullComposition
import AffineLoops.Proofs.Session.Steps

/-!
# Differences of bound maps

The difference of two bound maps is taken over the operands of both: the dimensions of the second
map come after those of the first, and so do its symbols.  At the point that the joined operands
give, an expression of the first map has the value it has there (`value_first`), and a moved
expression of the second map has the value that it had at its own place (`value_second`).  So the
difference is exact (`difference_spec`), and there is one unless a composition exceeds its limit
(`exists_difference_iff`).  Its operands are those of the composed maps, so none of them is the
result of an apply operation (`bindsOnce_difference`).
-/

namespace AffineLoops

namespace Expr

theorem value_sub (point : Point) (lhs rhs : Expr) :
    (sub lhs rhs).value point = lhs.value point - rhs.value point := by
  rw [sub, neg, value_add, value_mulConst]
  ring

theorem within_sub {dimOk symOk : Nat → Prop} {lhs rhs : Expr} (hlhs : lhs.Within dimOk symOk)
    (hrhs : rhs.Within dimOk symOk) : (sub lhs rhs).Within dimOk symOk :=
  within_add hlhs (within_mulConst hrhs (-1))

end Expr

theorem AffineMap.ofResults_eq_ok {dims syms : Nat} {results : List Expr}
    (h : ∀ e ∈ results, e.InRange dims syms) :
    AffineMap.ofResults dims syms results = .ok ⟨dims, syms, results⟩ := by
  rw [ofResults, checkAllPositions_eq_ok_iff.mpr h]
  rfl

namespace BoundMap

variable {store : Store} {lhs rhs : BoundMap} {e : Expr}

/-! ## Joined operands -/

section Joined

variable (rho : Assignment) (hlhs : lhs.toExprs.WellFormed)

include hlhs

theorem value_first (he : e.InRange lhs.map.dims lhs.map.syms) :
    e.value (rho.point (lhs.dimOperands ++ rhs.dimOperands) (lhs.symOperands ++ rhs.symOperands)) =
      e.value (rho.point lhs.dimOperands lhs.symOperands) := by
  refine Expr.value_congr he ?_ ?_
  · intro position hlt
    rw [rho.dim_point_eq, rho.dim_point_eq,
      List.getElem?_append_left (by rwa [length_dimOperands hlhs])]
  · intro position hlt
    rw [rho.sym_point_eq, rho.sym_point_eq,
      List.getElem?_append_left (by rwa [length_symOperands hlhs])]

theorem value_second (he : e.InRange rhs.map.dims rhs.map.syms) :
    (e.substitute (lhs.laterDims rhs) (lhs.laterSyms rhs)).value
        (rho.point (lhs.dimOperands ++ rhs.dimOperands) (lhs.symOperands ++ rhs.symOperands)) =
      e.value (rho.point rhs.dimOperands rhs.symOperands) := by
  rw [Expr.value_substitute]
  refine Expr.value_congr he ?_ ?_
  · intro position hlt
    have hlater : (lhs.laterDims rhs)[position]? = some (.dim (lhs.map.dims + position)) := by
      simp [laterDims, hlt]
    have hindex : lhs.map.dims + position - lhs.dimOperands.length = position := by
      rw [length_dimOperands hlhs]
      omega
    have hle : lhs.dimOperands.length ≤ lhs.map.dims + position := by
      rw [length_dimOperands hlhs]
      omega
    simp only [Point.through, hlater, Expr.value, rho.dim_point_eq,
      List.getElem?_append_right hle, hindex]
  · intro position hlt
    have hlater : (lhs.laterSyms rhs)[position]? = some (.sym (lhs.map.syms + position)) := by
      simp [laterSyms, hlt]
    have hindex : lhs.map.syms + position - lhs.symOperands.length = position := by
      rw [length_symOperands hlhs]
      omega
    have hle : lhs.symOperands.length ≤ lhs.map.syms + position := by
      rw [length_symOperands hlhs]
      omega
    simp only [Point.through, hlater, Expr.value, rho.sym_point_eq,
      List.getElem?_append_right hle, hindex]

end Joined

theorem inRange_second (he : e.InRange rhs.map.dims rhs.map.syms) :
    (e.substitute (lhs.laterDims rhs) (lhs.laterSyms rhs)).InRange
      (lhs.map.dims + rhs.map.dims) (lhs.map.syms + rhs.map.syms) := by
  refine Expr.within_substitute (by simpa [laterDims, laterSyms] using he) ?_ ?_
  · intro replacement hmem
    obtain ⟨position, hposition, rfl⟩ := List.mem_map.mp hmem
    have hlt := List.mem_range.mp hposition
    show lhs.map.dims + position < lhs.map.dims + rhs.map.dims
    omega
  · intro replacement hmem
    obtain ⟨position, hposition, rfl⟩ := List.mem_map.mp hmem
    have hlt := List.mem_range.mp hposition
    show lhs.map.syms + position < lhs.map.syms + rhs.map.syms
    omega

/-! ## Exact differences -/

/-- The differences of the results over the joined inputs. -/
def differences (lhs rhs : BoundMap) : List Expr :=
  lhs.map.results.zipWith
    (fun a b => Expr.sub a (b.substitute (lhs.laterDims rhs) (lhs.laterSyms rhs))) rhs.map.results

section Exact

variable (hlhs : lhs.toExprs.WellFormed) (hrhs : rhs.toExprs.WellFormed)

include hlhs hrhs

theorem inRange_differences : ∀ e ∈ lhs.differences rhs,
    e.InRange (lhs.map.dims + rhs.map.dims) (lhs.map.syms + rhs.map.syms) := by
  intro e hmem
  rw [differences, ← List.map_uncurry_zip_eq_zipWith] at hmem
  obtain ⟨⟨a, b⟩, hpair, rfl⟩ := List.mem_map.mp hmem
  obtain ⟨ha, hb⟩ := List.of_mem_zip hpair
  have hfirst : a.InRange (lhs.map.dims + rhs.map.dims) (lhs.map.syms + rhs.map.syms) :=
    (hlhs.inRange a ha).mono (fun _ hlt => Nat.lt_add_right _ hlt)
      (fun _ hlt => Nat.lt_add_right _ hlt)
  exact Expr.within_sub hfirst (inRange_second (hrhs.inRange b hb))

theorem value_differences (rho : Assignment) :
    (lhs.differences rhs).map (Expr.value
      (rho.point (lhs.dimOperands ++ rhs.dimOperands) (lhs.symOperands ++ rhs.symOperands))) =
      List.zipWith (· - ·) (lhs.values rho) (rhs.values rho) := by
  rw [differences, values, values, List.map_zipWith, List.zipWith_map,
    ← List.map_uncurry_zip_eq_zipWith, ← List.map_uncurry_zip_eq_zipWith]
  refine List.map_congr_left ?_
  rintro ⟨a, b⟩ hpair
  obtain ⟨ha, hb⟩ := List.of_mem_zip hpair
  simp only [Function.uncurry, Expr.value_sub]
  rw [value_first rho hlhs (hlhs.inRange a ha), value_second rho hlhs (hrhs.inRange b hb)]

theorem subtract_spec :
    ∃ difference, lhs.subtract rhs = .ok difference ∧ difference.toExprs.WellFormed ∧
      difference.map.resultCount = min lhs.map.resultCount rhs.map.resultCount ∧
      ∀ rho, difference.values rho = List.zipWith (· - ·) (lhs.values rho) (rhs.values rho) := by
  have hinRange := inRange_differences hlhs hrhs
  have hdims : (lhs.dimOperands ++ rhs.dimOperands).length = lhs.map.dims + rhs.map.dims := by
    rw [List.length_append, length_dimOperands hlhs, length_dimOperands hrhs]
  have hsyms : (lhs.symOperands ++ rhs.symOperands).length = lhs.map.syms + rhs.map.syms := by
    rw [List.length_append, length_symOperands hlhs, length_symOperands hrhs]
  refine ⟨⟨⟨lhs.map.dims + rhs.map.dims, lhs.map.syms + rhs.map.syms, lhs.differences rhs⟩,
    lhs.dimOperands ++ rhs.dimOperands ++ (lhs.symOperands ++ rhs.symOperands)⟩,
    ?_, ⟨?_, hinRange⟩, List.length_zipWith, ?_⟩
  · rw [← List.append_assoc]
    exact congrArg (Except.map _) (AffineMap.ofResults_eq_ok hinRange)
  · rw [toExprs, List.length_append, hdims, hsyms]
  · intro rho
    rw [← value_differences hlhs hrhs]
    show (lhs.differences rhs).map (Expr.value (rho.point
      ((lhs.dimOperands ++ rhs.dimOperands ++ _).take (lhs.map.dims + rhs.map.dims))
      ((lhs.dimOperands ++ rhs.dimOperands ++ _).drop (lhs.map.dims + rhs.map.dims)))) = _
    rw [List.take_left' hdims, List.drop_left' hdims]

end Exact

/-! ## Differences of composed maps -/

variable {difference : BoundMap} {limit : Nat}

theorem of_difference_eq_ok (h : lhs.difference store limit rhs = .ok difference) :
    ∃ first second joined, lhs.compose store limit = .ok first ∧
      rhs.compose store limit = .ok second ∧ first.subtract second = .ok joined ∧
      joined.canonicalSimplified store = difference := by
  simp only [BoundMap.difference, fullyCompose_eq_compose] at h
  split at h
  · cases h
  · rename_i first hfirst
    split at h
    · cases h
    · rename_i second hsecond
      obtain ⟨joined, hjoined, hdifference⟩ := of_map_eq_ok h
      exact ⟨first, second, joined, hfirst, hsecond, hjoined, hdifference⟩

/-- The operands of a difference are no results of apply operations, and no value is bound to two
dimensions or to two symbols. -/
theorem bindsOnce_difference (h : lhs.difference store limit rhs = .ok difference) :
    difference.toExprs.BindsOnce (store.definingApply? · = none) := by
  obtain ⟨first, second, joined, hfirst, hsecond, hjoined, rfl⟩ := of_difference_eq_ok h
  obtain ⟨map, -, rfl⟩ := of_map_eq_ok hjoined
  have hoperands : ∀ operand ∈ first.dimOperands ++ second.dimOperands ++ first.symOperands ++
      second.symOperands, store.definingApply? operand = none := by
    have hfirst := (bindsOnce_compose hfirst).allowed
    have hsecond := (bindsOnce_compose hsecond).allowed
    intro operand hmem
    simp only [List.mem_append] at hmem
    rcases hmem with ((hmem | hmem) | hmem) | hmem
    · exact hfirst operand (List.mem_of_mem_take hmem)
    · exact hsecond operand (List.mem_of_mem_take hmem)
    · exact hfirst operand (List.mem_of_mem_drop hmem)
    · exact hsecond operand (List.mem_of_mem_drop hmem)
  refine BoundExprs.Binds.bindsOnce ?_
  refine binds_canonicalSimplified (fun _ hvalue _ => hvalue) fun _ => ?_
  exact ⟨fun value hmem => hoperands value (List.mem_of_mem_take hmem),
    fun value hmem => hoperands value (List.mem_of_mem_drop hmem)⟩

section Exact

variable (hstore : store.Reachable) (hlhs : lhs.toExprs.WellFormed) (hrhs : rhs.toExprs.WellFormed)

include hstore hlhs hrhs

/-- A difference is exact. -/
theorem difference_spec (h : lhs.difference store limit rhs = .ok difference) :
    difference.toExprs.WellFormed ∧
      difference.map.resultCount = min lhs.map.resultCount rhs.map.resultCount ∧
      ∀ rho, store.Consistent rho →
        difference.values rho = List.zipWith (· - ·) (lhs.values rho) (rhs.values rho) := by
  obtain ⟨first, second, joined, hfirst, hsecond, hjoined, rfl⟩ := of_difference_eq_ok h
  obtain ⟨hfirstWell, hfirstCount, hfirstValues⟩ := spec_of_compose hstore hlhs hfirst
  obtain ⟨hsecondWell, hsecondCount, hsecondValues⟩ := spec_of_compose hstore hrhs hsecond
  obtain ⟨_, hjoined', hwell, hcount, hvalues⟩ := subtract_spec hfirstWell hsecondWell
  obtain rfl := Except.ok.inj (hjoined.symm.trans hjoined')
  refine ⟨(canonicalSimplified_spec store.constantsHold_default hwell).1, ?_, ?_⟩
  · rw [resultCount_canonicalSimplified store hwell, hcount, hfirstCount, hsecondCount]
  · intro rho hrho
    rw [(canonicalSimplified_spec hrho.constants hwell).2, hvalues, hfirstValues rho hrho,
      hsecondValues rho hrho]

/-- There is a difference if both maps can be composed: the positions of the joined map pass their
check. -/
theorem exists_difference {first second : BoundMap} (hfirst : lhs.compose store limit = .ok first)
    (hsecond : rhs.compose store limit = .ok second) :
    ∃ difference, lhs.difference store limit rhs = .ok difference := by
  obtain ⟨hfirstWell, -⟩ := spec_of_compose hstore hlhs hfirst
  obtain ⟨hsecondWell, -⟩ := spec_of_compose hstore hrhs hsecond
  obtain ⟨joined, hjoined, -⟩ := subtract_spec hfirstWell hsecondWell
  refine ⟨joined.canonicalSimplified store, ?_⟩
  simp only [BoundMap.difference, fullyCompose_eq_compose, hfirst, hsecond, hjoined, Except.map]

/-- There is a difference exactly if neither composition exceeds the limit, and it is exact. -/
theorem difference_cases (hlhs' : lhs.map.results ≠ []) (hrhs' : rhs.map.results ≠ [])
    (limit : Nat) :
    (lhs.ExceedsLimit store limit ∨ rhs.ExceedsLimit store limit) ∧
      lhs.difference store limit rhs = .error (.compositionLimit limit) ∨
    ¬ lhs.ExceedsLimit store limit ∧ ¬ rhs.ExceedsLimit store limit ∧
      ∃ difference, lhs.difference store limit rhs = .ok difference ∧
        difference.toExprs.WellFormed ∧
        difference.map.resultCount = min lhs.map.resultCount rhs.map.resultCount ∧
        ∀ rho, store.Consistent rho →
          difference.values rho = List.zipWith (· - ·) (lhs.values rho) (rhs.values rho) := by
  rcases compose_cases hstore hlhs hlhs' limit with
    ⟨hexceeds, hlimit⟩ | ⟨hwithin, first, hfirst, -⟩
  · refine .inl ⟨.inl hexceeds, ?_⟩
    simp only [BoundMap.difference, fullyCompose_eq_compose, hlimit]
  rcases compose_cases hstore hrhs hrhs' limit with
    ⟨hexceeds, hlimit⟩ | ⟨hwithin', second, hsecond, -⟩
  · refine .inl ⟨.inr hexceeds, ?_⟩
    simp only [BoundMap.difference, fullyCompose_eq_compose, hfirst, hlimit]
  obtain ⟨difference, hdifference⟩ :=
    exists_difference hstore hlhs hrhs hfirst hsecond
  exact .inr ⟨hwithin, hwithin', difference, hdifference,
    difference_spec hstore hlhs hrhs hdifference⟩

/-- Maps with equally many results have a difference exactly if there is nothing to compose or
neither composition exceeds the limit. -/
theorem exists_difference_iff (hcount : lhs.map.resultCount = rhs.map.resultCount) :
    (∃ difference, lhs.difference store limit rhs = .ok difference) ↔
      (lhs.map.results ≠ [] →
        ¬ lhs.ExceedsLimit store limit ∧ ¬ rhs.ExceedsLimit store limit) := by
  by_cases hlhs' : lhs.map.results = []
  · have hrhs' : rhs.map.results = [] := by
      rw [AffineMap.resultCount, hlhs'] at hcount
      exact List.length_eq_zero_iff.mp hcount.symm
    refine iff_of_true ?_ fun hsome => absurd hlhs' hsome
    exact exists_difference hstore hlhs hrhs (compose_of_no_results hlhs hlhs')
      (compose_of_no_results hrhs hrhs')
  · have hrhs' : rhs.map.results ≠ [] := by
      have hpos : 0 < lhs.map.resultCount := List.length_pos_iff.mpr hlhs'
      rw [hcount] at hpos
      exact List.length_pos_iff.mp hpos
    rcases difference_cases hstore hlhs hrhs hlhs' hrhs' limit with
      ⟨hexceeds, herror⟩ | ⟨hwithin, hwithin', difference, hdifference, -⟩
    · simp only [herror, reduceCtorEq, exists_false, false_iff]
      intro hneither
      exact hexceeds.elim (hneither hlhs').1 (hneither hlhs').2
    · exact iff_of_true ⟨difference, hdifference⟩ fun _ => ⟨hwithin, hwithin'⟩

end Exact

end BoundMap

end AffineLoops
