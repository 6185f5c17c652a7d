import AffineLoops.AffineMap.Checked
import AffineLoops.Proofs.Expr.Irreducible
import AffineLoops.Proofs.Expr.Substitution
import AffineLoops.Proofs.Session.Steps

/-!
# Folding a map at known inputs

A map is folded by putting constants in the place of the inputs that are known (`atKnown`).  At a
point that agrees with the constants the results keep their values (`value_atKnown`), so a result
that becomes a constant had this value all along (`value_foldedResult`).

The folding does not evaluate anything: it substitutes and folds again on the way up, and a part
that contains no input is not folded again.  If the results are irreducible there is no such part
with anything left to fold, so when all inputs are known every result that evaluates becomes the
constant it evaluates to (`foldConstants_agrees`).
-/

namespace AffineLoops

theorem Expr.eq_const_of_constant? {e : Expr} {constant : Int} (h : e.constant? = some constant) :
    e = const constant := by
  cases e with
  | const c => exact congrArg _ (Option.some.inj h)
  | dim position => cases h
  | sym position => cases h
  | binary op lhs rhs => cases h

/-- The point has the constants that are known of the inputs, dimensions before symbols. -/
structure Point.Agrees (point : Point) (dims : Nat) (constants : List (Option Int)) : Prop where
  dim : ∀ position constant, position < dims → constants[position]? = some (some constant) →
    point.dim position = constant
  sym : ∀ position constant, constants[dims + position]? = some (some constant) →
    point.sym position = constant

namespace AffineMap

variable {map folded : AffineMap} {constants : List (Option Int)} {values : Option (List Int)}
  {point : Point} {e : Expr}

/-- An expression over the inputs of a map, with constants for those that are known. -/
def atKnown (map : AffineMap) (constants : List (Option Int)) (e : Expr) : Expr :=
  e.substitute (map.knownInputs constants).1 (map.knownInputs constants).2

/-- The constant that a result becomes, or else the result itself. -/
def foldedResult (map : AffineMap) (constants : List (Option Int)) (e : Expr) : Expr :=
  ((map.atKnown constants e).constant?).elim e .const

/-! ## Results one by one -/

theorem foldedResult_cases (map : AffineMap) (constants : List (Option Int)) (e : Expr) :
    map.foldedResult constants e = e ∨
      ∃ constant, map.foldedResult constants e = .const constant ∧
        map.atKnown constants e = .const constant := by
  unfold foldedResult
  cases hconstant : (map.atKnown constants e).constant? with
  | none => exact .inl rfl
  | some constant => exact .inr ⟨constant, rfl, Expr.eq_const_of_constant? hconstant⟩

/-- A result is a constant afterwards only if it has been folded, since a constant folds to
itself. -/
theorem foldedResult_eq_const_iff {constant : Int} :
    map.foldedResult constants e = .const constant ↔
      (map.atKnown constants e).constant? = some constant := by
  constructor
  · intro h
    rcases foldedResult_cases map constants e with hkept | ⟨found, hfolded, hfound⟩
    · obtain rfl : e = .const constant := hkept.symm.trans h
      rfl
    · rw [hfound]
      exact congrArg Expr.constant? (hfolded.symm.trans h)
  · intro h
    rw [foldedResult, h, Option.elim_some]

theorem value_atKnown (hpoint : point.Agrees map.dims constants) (e : Expr) :
    (map.atKnown constants e).value point = e.value point := by
  rw [atKnown, Expr.value_substitute]
  refine Expr.value_congr e.within_uses ?_ ?_
  · intro position _
    simp only [Point.through, knownInputs, List.getElem?_mapIdx]
    rcases hconstant : (constants.take map.dims)[position]? with _ | _ | constant
    · rfl
    · rfl
    · rw [List.getElem?_take] at hconstant
      split at hconstant
      · rename_i hlt
        exact (hpoint.dim position constant hlt hconstant).symm
      · cases hconstant
  · intro position _
    simp only [Point.through, knownInputs, List.getElem?_mapIdx]
    rcases hconstant : (constants.drop map.dims)[position]? with _ | _ | constant
    · rfl
    · rfl
    · rw [List.getElem?_drop] at hconstant
      exact (hpoint.sym position constant hconstant).symm

theorem value_foldedResult (hpoint : point.Agrees map.dims constants) (e : Expr) :
    (map.foldedResult constants e).value point = e.value point := by
  rcases foldedResult_cases map constants e with hkept | ⟨constant, hfolded, hconstant⟩
  · rw [hkept]
  · rw [hfolded, ← hconstant, value_atKnown hpoint]

/-- A result that evaluates still does so, to the same word. -/
theorem evaluate?_foldedResult {dims syms : List Int} {result : Int}
    (hpoint : (Point.ofLists dims syms).Agrees map.dims constants)
    (h : e.evaluate? dims syms = some result) :
    (map.foldedResult constants e).evaluate? dims syms = some result := by
  rcases foldedResult_cases map constants e with hkept | ⟨constant, hfolded, -⟩
  · rw [hkept, h]
  · have hvalue : constant = result :=
      calc constant
          = (map.foldedResult constants e).value (.ofLists dims syms) := by rw [hfolded]; rfl
        _ = e.value (.ofLists dims syms) := value_foldedResult hpoint e
        _ = result := Expr.value_of_evaluate? h
    rw [hfolded, hvalue]
    rfl

theorem knownInputs_of_all_known {dims syms : List Int} (hdims : dims.length = map.dims) :
    map.knownInputs ((dims ++ syms).map some) = (dims.map .const, syms.map .const) := by
  rw [knownInputs, ← hdims, ← List.map_take, ← List.map_drop, List.take_left, List.drop_left]
  refine Prod.ext (List.ext_getElem? fun position => ?_) (List.ext_getElem? fun position => ?_)
  · simp only [List.getElem?_mapIdx, List.getElem?_map, Option.map_map]
    rfl
  · simp only [List.getElem?_mapIdx, List.getElem?_map, Option.map_map]
    rfl

/-! ## Maps -/

theorem foldConstants_eq (map : AffineMap) (constants : List (Option Int)) :
    map.foldConstants constants =
      if constants.length = map.inputs then
        .ok ({ map with results := map.results.map (map.foldedResult constants) },
          map.results.mapM fun e => (map.atKnown constants e).constant?)
      else .error (.operandCount map.inputCount constants.length) := by
  have hresults : ∀ fold : Expr → Option Int → Expr,
      (∀ e value, fold e value = value.elim e .const) →
      map.results.zipWith fold (map.results.map fun e => (map.atKnown constants e).constant?) =
        map.results.map (map.foldedResult constants) := by
    intro fold hfold
    rw [List.zipWith_map_right, List.zipWith_self]
    exact List.map_congr_left fun e _ => hfold e _
  have hvalues : (map.results.map fun e => (map.atKnown constants e).constant?).mapM id =
      map.results.mapM fun e => (map.atKnown constants e).constant? := List.mapM_map ..
  rw [← hvalues]
  unfold foldConstants
  split
  · refine congrArg (fun results => Except.ok ({ map with results }, _)) ?_
    exact hresults _ fun e value => by cases value <;> rfl
  · rfl

theorem foldConstants_eq_ok_iff :
    map.foldConstants constants = .ok (folded, values) ↔
      constants.length = map.inputs ∧
        { map with results := map.results.map (map.foldedResult constants) } = folded ∧
        (map.results.mapM fun e => (map.atKnown constants e).constant?) = values := by
  rw [foldConstants_eq]
  split
  · rename_i hlength
    simp [hlength]
  · rename_i hlength
    simp [hlength]

/-- The constants are given exactly if all results are constants, and then they are these. -/
theorem mapM_constant?_eq_some_iff {list : List Int} :
    (map.results.mapM fun e => (map.atKnown constants e).constant?) = some list ↔
      map.results.map (map.foldedResult constants) = list.map .const := by
  rw [mapM_eq_some_iff, ← List.forall₂_eq_eq_eq, List.forall₂_map_left_iff,
    List.forall₂_map_right_iff]
  simp only [foldedResult_eq_const_iff]

theorem mapM_constant?_of_evaluate? {dims syms outcome : List Int}
    (hdims : dims.length = map.dims) (hirreducible : ∀ result ∈ map.results, result.Irreducible)
    (hevaluate : map.results.map (Expr.evaluate? dims syms) = outcome.map some) :
    (map.results.mapM fun e => (map.atKnown ((dims ++ syms).map some) e).constant?) =
      some outcome := by
  have hconstant : map.results.map (fun e =>
      (map.atKnown ((dims ++ syms).map some) e).constant?) = outcome.map some := by
    rw [← hevaluate]
    refine List.map_congr_left fun e he => ?_
    obtain ⟨value, -, hvalue⟩ := List.mem_map.mp (hevaluate ▸ List.mem_map_of_mem he)
    rw [atKnown, knownInputs_of_all_known hdims,
      Expr.substitute_eq_const (hirreducible e he) hvalue.symm, ← hvalue]
    rfl
  rw [← List.forall₂_eq_eq_eq, List.forall₂_map_left_iff, List.forall₂_map_right_iff] at hconstant
  exact mapM_eq_some_iff.mpr hconstant

/-- A map with a constant or nothing for every input can be folded.  The counts stay, every result
is kept or becomes a constant, and at every point that agrees with the constants its value stays.
The values are given exactly if all results are constants, and then they are these constants.  If
all inputs are known and the results come from operations that fold, whatever they evaluate to is
found. -/
theorem foldConstants_agrees (hlength : constants.length = map.inputs) :
    ∃ folded values, map.foldConstants constants = .ok (folded, values) ∧
      folded.dims = map.dims ∧ folded.syms = map.syms ∧
      List.Forall₂ (fun kept result => kept = result ∨ ∃ constant, kept = .const constant)
        folded.results map.results ∧
      (∀ point : Point, point.Agrees map.dims constants →
        folded.results.map (Expr.value point) = map.results.map (Expr.value point)) ∧
      (∀ list, values = some list ↔ folded.results = list.map .const) ∧
      ∀ dims syms outcome : List Int, dims.length = map.dims →
        constants = (dims ++ syms).map some → (∀ result ∈ map.results, result.Folded) →
        map.results.map (Expr.evaluate? dims syms) = outcome.map some → values = some outcome := by
  refine ⟨_, _, foldConstants_eq_ok_iff.mpr ⟨hlength, rfl, rfl⟩, rfl, rfl, ?_, ?_,
    fun list => mapM_constant?_eq_some_iff, ?_⟩
  · rw [List.forall₂_map_left_iff, List.forall₂_same]
    exact fun e _ => (foldedResult_cases map constants e).imp_right fun ⟨constant, h, _⟩ =>
      ⟨constant, h⟩
  · intro point hpoint
    rw [List.map_map]
    exact List.map_congr_left fun e _ => value_foldedResult hpoint e
  · rintro dims syms outcome hdims rfl hfolded hevaluate
    exact mapM_constant?_of_evaluate? hdims
      (fun result hresult => (hfolded result hresult).irreducible) hevaluate

/-- A map with two constants that cannot be combined in its first result, since their sum is no
word. -/
def nearLimit : AffineMap where
  dims := 1
  syms := 1
  results := [((Expr.dim 0).add (.const Word.maxValue)).add (.const 1),
    ((Expr.sym 0).mul (.const 3)).add (.dim 0)]

theorem foldConstants_agrees_nearLimit :
    (∃ folded, nearLimit.foldConstants [some (-5), some 7] =
      .ok (folded, some [Word.maxValue - 4, 16])) ∧
    ∃ folded values, nearLimit.foldConstants [some (-5), none] = .ok (folded, values) ∧
      ∀ point : Point, point.dim 0 = -5 →
        folded.results.map (Expr.value point) = [Word.maxValue - 4, point.sym 0 * 3 - 5] := by
  constructor
  · obtain ⟨folded, values, hfold, -, -, -, -, -, hall⟩ :=
      @foldConstants_agrees nearLimit [some (-5), some 7] rfl
    have hresults : ∀ result ∈ nearLimit.results, result.Folded := by
      rintro result (_ | ⟨_, _ | ⟨_, ⟨⟩⟩⟩)
      · exact .add (.add (.dim 0) (.const _)) (.const 1)
      · exact .add (.scale 3 (.sym 0)) (.dim 0)
    rw [hall [-5] [7] [Word.maxValue - 4, 16] rfl rfl hresults (by decide)] at hfold
    exact ⟨folded, hfold⟩
  · obtain ⟨folded, values, hfold, -, -, -, hvalue, -⟩ :=
      @foldConstants_agrees nearLimit [some (-5), none] rfl
    refine ⟨folded, values, hfold, fun point hpoint => ?_⟩
    rw [hvalue point ⟨?_, ?_⟩]
    · simp only [nearLimit, List.map_cons, List.map_nil, Expr.value_add, Expr.value_mul,
        Expr.value, hpoint, List.cons.injEq, and_true]
      omega
    · rintro (_ | position) constant hlt hknown
      · cases hknown
        exact hpoint
      · exact absurd hlt (by simp [nearLimit])
    · rintro (_ | position) constant hknown
      · cases hknown
      · rw [Nat.add_comm] at hknown
        cases hknown

end AffineMap

end AffineLoops
