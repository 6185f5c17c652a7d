import AffineLoops.Proofs.Expr.WrittenSum
import Mathlib.Algebra.BigOperators.Group.Finset.Basic
import Mathlib.Algebra.BigOperators.Intervals

/-!
# Linear expressions

An expression is linear if no local term is left in its linear form; it then has coefficients for
its dimensions and symbols and a constant.

* `value_eq_linearValue`: these coefficients give the value of the expression at every point;
* `eq_of_linearValue_eq`: they are determined by the values, which are probed at the origin and at
  the points with a single coordinate;
* `simplify_eq_of_coefficients?`: the simplified expression is determined by them, since a form is
  put together from its coefficients other than zero alone, whatever the local terms are.

Hence simplification decides whether two linear expressions are equal at every point
(`simplify_eq_iff_of_linear`).
-/

namespace AffineLoops

/-- The value of coefficients for the dimensions, then for the symbols, and a constant. -/
def linearValue (dims syms : Nat) (coefficients : List Int) (point : Point) : Int :=
  ∑ index ∈ Finset.range dims, coefficients.getD index 0 * point.dim index +
    ∑ index ∈ Finset.range syms, coefficients.getD (dims + index) 0 * point.sym index +
      coefficients.getD (dims + syms) 0

/-! ## Coefficients are determined by values -/

section Probes

variable {dims syms : Nat} (coefficients : List Int)

theorem sum_mul_single (f : Nat → Int) {index bound : Nat} (hindex : index < bound) :
    ∑ other ∈ Finset.range bound, f other * (Pi.single index 1 : Nat → Int) other = f index := by
  rw [Finset.sum_eq_single_of_mem index (Finset.mem_range.mpr hindex)]
  · rw [Pi.single_eq_same, mul_one]
  · intro other _ hne
    rw [Pi.single_eq_of_ne hne, mul_zero]

theorem linearValue_origin :
    linearValue dims syms coefficients ⟨0, 0⟩ = coefficients.getD (dims + syms) 0 := by
  simp [linearValue]

theorem linearValue_dim {index : Nat} (hindex : index < dims) :
    linearValue dims syms coefficients ⟨Pi.single index 1, 0⟩ =
      coefficients.getD index 0 + coefficients.getD (dims + syms) 0 := by
  rw [linearValue, sum_mul_single (coefficients.getD · 0) hindex]
  simp only [Pi.zero_apply, mul_zero, Finset.sum_const_zero, add_zero]

theorem linearValue_sym {index : Nat} (hindex : index < syms) :
    linearValue dims syms coefficients ⟨0, Pi.single index 1⟩ =
      coefficients.getD (dims + index) 0 + coefficients.getD (dims + syms) 0 := by
  rw [linearValue, sum_mul_single (fun index => coefficients.getD (dims + index) 0) hindex]
  simp only [Pi.zero_apply, mul_zero, Finset.sum_const_zero, zero_add]

end Probes

/-- Coefficients that give the same value at every point are the same. -/
theorem eq_of_linearValue_eq {dims syms : Nat} {coefficients coefficients' : List Int}
    (h : ∀ point,
      linearValue dims syms coefficients point = linearValue dims syms coefficients' point)
    {index : Nat} (hindex : index ≤ dims + syms) :
    coefficients.getD index 0 = coefficients'.getD index 0 := by
  have hconstant : coefficients.getD (dims + syms) 0 = coefficients'.getD (dims + syms) 0 := by
    rw [← linearValue_origin, ← linearValue_origin, h]
  rcases lt_trichotomy index (dims + syms) with hlt | rfl | hgt
  · by_cases hdim : index < dims
    · have hprobe := h ⟨Pi.single index 1, 0⟩
      rw [linearValue_dim _ hdim, linearValue_dim _ hdim, hconstant] at hprobe
      exact add_right_cancel hprobe
    · obtain ⟨offset, rfl⟩ := Nat.exists_eq_add_of_le (not_lt.mp hdim)
      have hsym : offset < syms := by omega
      have hprobe := h ⟨0, Pi.single offset 1⟩
      rw [linearValue_sym _ hsym, linearValue_sym _ hsym, hconstant] at hprobe
      exact add_right_cancel hprobe
  · exact hconstant
  · omega

/-! ## The value of a form without local terms -/

theorem LinearForm.rowValue_eq_sum (term : Nat → Int) (index : Nat) {row : List Int} {bound : Nat}
    (h : row.length ≤ bound) :
    rowValue term index row =
      ∑ offset ∈ Finset.range bound, row.getD offset 0 * term (index + offset) := by
  induction row generalizing index bound with
  | nil => simp
  | cons coefficient row ih =>
      obtain ⟨bound, rfl⟩ : ∃ rest, bound = rest + 1 := ⟨bound - 1, by simp at h; omega⟩
      rw [rowValue_cons, ih (index + 1) (by simpa using h), Finset.sum_range_succ', add_comm]
      simp only [List.getD_cons_zero, List.getD_cons_succ, add_zero]
      congr 1
      refine Finset.sum_congr rfl fun offset _ => ?_
      rw [show index + 1 + offset = index + (offset + 1) by omega]

theorem LinearForm.value_eq_sum (term : Nat → Int) {form : LinearForm} {bound : Nat}
    (h : form.coefficients.length ≤ bound) :
    form.value term =
      ∑ index ∈ Finset.range bound, form.coefficient index * term index + form.constant := by
  rw [value, rowValue_eq_sum term 0 h]
  simp only [Nat.zero_add, coefficient]

namespace Expr

variable {dims syms : Nat} {e e' : Expr} {coefficients coefficients' : List Int}

/-- A row of coefficients cut off or filled up to a count, and a constant. -/
def padded (row : List Int) (count : Nat) (constant : Int) : List Int :=
  row.take count ++ List.replicate (count - (row.take count).length) 0 ++ [constant]

section Padded

variable (row : List Int) (count : Nat) (constant : Int)

theorem length_padded : (padded row count constant).length = count + 1 := by
  simp [padded]
  omega

theorem getD_padded {index : Nat} (hindex : index < count) :
    (padded row count constant).getD index 0 = row.getD index 0 := by
  rw [padded, List.getD_eq_getElem?_getD, List.getElem?_append_left (by simp; omega),
    List.getElem?_append, List.getElem?_take_of_lt hindex, List.getElem?_replicate,
    List.getD_eq_getElem?_getD]
  split
  · rfl
  · rename_i hge
    rw [List.getElem?_eq_none (l := row) (by simp at hge; omega)]
    split <;> rfl

theorem getD_padded_last : (padded row count constant).getD count 0 = constant := by
  have hlength : (row.take count ++
      List.replicate (count - (row.take count).length) 0).length = count := by
    simp
  rw [padded, List.getD_eq_getElem?_getD, List.getElem?_append_right hlength.le, hlength]
  simp

end Padded

/-- The local terms of a linear expression have no coefficients. -/
theorem of_coefficients? (h : e.coefficients? dims syms = some coefficients) :
    ∃ form locals, e.flatten? dims syms = some (form, locals) ∧
      (∀ index, dims + syms ≤ index → form.coefficient index = 0) ∧
      coefficients.length = dims + syms + 1 ∧
      (∀ index < dims + syms, coefficients.getD index 0 = form.coefficient index) ∧
      coefficients.getD (dims + syms) 0 = form.constant := by
  unfold coefficients? at h
  split at h
  · cases h
  · rename_i form locals hflatten
    obtain ⟨hzero, ⟨⟩⟩ := Option.ite_none_right_eq_some.mp h
    refine ⟨form, locals, hflatten, ?_, ?_, ?_, ?_⟩
    · intro index hindex
      rw [LinearForm.coefficient, List.getD_eq_getElem?_getD]
      cases hat : form.coefficients[index]? with
      | none => rfl
      | some coefficient =>
          have hmem : coefficient ∈ form.coefficients.drop (dims + syms) := by
            refine List.mem_iff_getElem?.mpr ⟨index - (dims + syms), ?_⟩
            rw [List.getElem?_drop, ← hat]
            congr 1
            omega
          exact eq_of_beq (List.all_eq_true.mp hzero coefficient hmem)
    · exact length_padded _ _ _
    · intro index hindex
      exact getD_padded _ _ _ hindex
    · exact getD_padded_last _ _ _

/-- The coefficients of a linear expression give its value at every point. -/
theorem value_eq_linearValue (h : e.coefficients? dims syms = some coefficients) (point : Point) :
    e.value point = linearValue dims syms coefficients point := by
  obtain ⟨form, locals, hflatten, hzero, -, hcoefficients, hconstant⟩ := of_coefficients? h
  have hflat := (flattened_flattenWith e.within_uses (by simp) hflatten : Flattened point ..).flat
  have hlocals : ∑ index ∈ Finset.range locals.length, form.coefficient (dims + syms + index) *
      termValue point dims syms locals (dims + syms + index) = 0 := by
    refine Finset.sum_eq_zero fun index _ => ?_
    rw [hzero _ (Nat.le_add_right _ _), zero_mul]
  have hdims : ∑ index ∈ Finset.range dims, form.coefficient index *
      termValue point dims syms locals index =
        ∑ index ∈ Finset.range dims, coefficients.getD index 0 * point.dim index := by
    refine Finset.sum_congr rfl fun index hindex => ?_
    have hlt : index < dims := Finset.mem_range.mp hindex
    rw [hcoefficients index (by omega), termValue, termAt, if_pos hlt, value_dim]
  have hsyms : ∑ index ∈ Finset.range syms, form.coefficient (dims + index) *
      termValue point dims syms locals (dims + index) =
        ∑ index ∈ Finset.range syms, coefficients.getD (dims + index) 0 * point.sym index := by
    refine Finset.sum_congr rfl fun index hindex => ?_
    have hlt : index < syms := Finset.mem_range.mp hindex
    rw [hcoefficients (dims + index) (by omega), termValue, termAt, if_neg (by omega),
      if_pos (by omega), Nat.add_sub_cancel_left, value_sym]
  rw [← hflat.value_eq, LinearForm.value_eq_sum _ hflat.length_le, Finset.sum_range_add,
    Finset.sum_range_add, hlocals, add_zero, hdims, hsyms, ← hconstant, linearValue]

/-- A form whose local terms have no coefficients is put together without them. -/
theorem ofLinearForm_congr {locals locals' : List Expr} {form form' : LinearForm}
    (hzero : ∀ index, dims + syms ≤ index → form.coefficient index = 0)
    (hzero' : ∀ index, dims + syms ≤ index → form'.coefficient index = 0)
    (hsame : ∀ index < dims + syms, form.coefficient index = form'.coefficient index)
    (hconstant : form.constant = form'.constant) :
    ofLinearForm dims syms locals form = ofLinearForm dims syms locals' form' := by
  have hentries {locals : List Expr} {form : LinearForm}
      (hzero : ∀ index, dims + syms ≤ index → form.coefficient index = 0) :
      entries (formTerms dims syms locals) form.coefficients =
        entries (inputs dims syms) form.coefficients := by
    refine entries_append_of_zero locals fun index hindex => hzero index ?_
    simpa using hindex
  have hinputs : entries (inputs dims syms) form.coefficients =
      entries (inputs dims syms) form'.coefficients := by
    refine entries_congr fun index hindex => hsame index ?_
    simpa using hindex
  rw [ofLinearForm_eq_foldl, ofLinearForm_eq_foldl, hentries hzero, hentries hzero', hinputs,
    hconstant]
  · intro index hindex
    exact hzero' index (by simp at hindex; omega)
  · intro index hindex
    exact hzero index (by simp at hindex; omega)

/-- Linear expressions with the same coefficients are simplified to the same expression. -/
theorem simplify_eq_of_coefficients? (h : e.coefficients? dims syms = some coefficients)
    (h' : e'.coefficients? dims syms = some coefficients')
    (hsame : ∀ index ≤ dims + syms, coefficients.getD index 0 = coefficients'.getD index 0) :
    e.simplify dims syms = e'.simplify dims syms := by
  obtain ⟨form, locals, hflatten, hzero, -, hcoefficients, hconstant⟩ := of_coefficients? h
  obtain ⟨form', locals', hflatten', hzero', -, hcoefficients', hconstant'⟩ := of_coefficients? h'
  rw [simplify, simplify, hflatten, hflatten']
  refine ofLinearForm_congr hzero hzero' ?_ ?_
  · intro index hindex
    rw [← hcoefficients index hindex, ← hcoefficients' index hindex, hsame index hindex.le]
  · rw [← hconstant, ← hconstant', hsame _ le_rfl]

/-- Two linear expressions are simplified to the same expression if and only if they have the same
value at every point. -/
theorem simplify_eq_iff_of_linear {dims syms : Nat} {e e' : Expr}
    {coefficients coefficients' : List Int}
    (h : e.coefficients? dims syms = some coefficients)
    (h' : e'.coefficients? dims syms = some coefficients') :
    e.simplify dims syms = e'.simplify dims syms ↔ ∀ point, e.value point = e'.value point := by
  constructor
  · intro hsame point
    rw [← (simplify_spec point dims syms e.within_uses).1, hsame,
      (simplify_spec point dims syms e'.within_uses).1]
  · intro hvalues
    -- equal values force equal coefficients, and these determine the simplified expression
    refine simplify_eq_of_coefficients? h h' fun index hindex => ?_
    refine eq_of_linearValue_eq (fun point => ?_) hindex
    rw [← value_eq_linearValue h, ← value_eq_linearValue h', hvalues]

end Expr

end AffineLoops
