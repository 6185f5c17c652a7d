import AffineLoops.Proofs.Expr.Value

/-!
# Simplification keeps the value

An expression is flattened into a linear form over dimensions, symbols and local terms, and the
form is put back together.  The list of local terms grows while the expression is walked, and
forms made earlier are read again later, against the longer list.  What makes this sound is that
the list only grows at its end and that a form has no coefficients beyond it:

* `Flat` says that a form stands for an integer, given the local terms, and that every term with
  a coefficient other than zero keeps within the allowed positions;
* `Flat.extend`: it still does so for every longer list;
* `flattened_remainder`, `flattened_quotient`, `flattened_flattenBinary` and
  `flattened_flattenWith`: flattening makes such forms, one lemma for each layer of the recursion;
* `value_ofLinearForm`: the expression of a form has the value of the form.

Quotients rest on three facts about rounding: a common factor of dividend and divisor cancels
(`apply_mul_mul`), a multiple of the divisor can be taken out (`apply_add_mul`), and remainders
see the entries of a form only modulo the divisor (`dvd_value_sub_reduce`).
-/

namespace AffineLoops

/-- The common divisor that is collected along a list divides the size of every element. -/
theorem foldl_gcd_dvd {α : Type} (size : α → Nat) (entries : List α) (start : Nat) :
    entries.foldl (fun divisor entry => Nat.gcd divisor (size entry)) start ∣ start ∧
      ∀ entry ∈ entries,
        entries.foldl (fun divisor entry => Nat.gcd divisor (size entry)) start ∣ size entry := by
  induction entries generalizing start with
  | nil => simp
  | cons entry entries ih =>
      obtain ⟨hstart, hentries⟩ := ih (Nat.gcd start (size entry))
      rw [List.foldl_cons]
      refine ⟨hstart.trans (Nat.gcd_dvd_left ..), ?_⟩
      intro other hother
      rcases List.mem_cons.mp hother with rfl | hother
      · exact hstart.trans (Nat.gcd_dvd_right ..)
      · exact hentries other hother

namespace BinaryOp

theorem apply_mul_mul {op : BinaryOp} (hop : op.isDivision) (hmod : op ≠ .mod) {factor : Int}
    (hfactor : 0 < factor) (a b : Int) : op.apply (a * factor) (b * factor) = op.apply a b := by
  cases op with
  | add => cases hop
  | mul => cases hop
  | mod => exact absurd rfl hmod
  | floorDiv => exact Int.mul_ediv_mul_of_pos_left a b hfactor
  | ceilDiv =>
      simp only [apply, Word.ceilDiv]
      rw [← neg_mul, Int.mul_ediv_mul_of_pos_left (-a) b hfactor]

theorem apply_add_mul {op : BinaryOp} (hop : op.isDivision) (hmod : op ≠ .mod) {divisor : Int}
    (hdivisor : 0 < divisor) (quotient rest : Int) :
    op.apply (quotient * divisor + rest) divisor = quotient + op.apply rest divisor := by
  have hne : divisor ≠ 0 := hdivisor.ne'
  cases op with
  | add => cases hop
  | mul => cases hop
  | mod => exact absurd rfl hmod
  | floorDiv =>
      simp only [apply]
      rw [Int.add_comm, Int.add_mul_ediv_right _ _ hne, Int.add_comm]
  | ceilDiv =>
      simp only [apply, Word.ceilDiv]
      have hneg : -(quotient * divisor + rest) = -rest + -quotient * divisor := by ring
      rw [hneg, Int.add_mul_ediv_right _ _ hne]
      ring

end BinaryOp

/-! ## The value of a linear form -/

namespace LinearForm

/-- The value of a row of coefficients for the terms from an index on. -/
def rowValue (term : Nat → Int) : Nat → List Int → Int
  | _, [] => 0
  | index, coefficient :: row => coefficient * term index + rowValue term (index + 1) row

/-- The value of a form for given values of the terms. -/
def value (term : Nat → Int) (form : LinearForm) : Int :=
  rowValue term 0 form.coefficients + form.constant

variable {term : Nat → Int}

@[simp] theorem rowValue_nil (index : Nat) : rowValue term index [] = 0 := rfl

theorem rowValue_cons (index : Nat) (coefficient : Int) (row : List Int) :
    rowValue term index (coefficient :: row) =
      coefficient * term index + rowValue term (index + 1) row := rfl

theorem rowValue_congr {term' : Nat → Int} {row : List Int} {index : Nat}
    (h : ∀ offset < row.length, term (index + offset) = term' (index + offset)) :
    rowValue term index row = rowValue term' index row := by
  induction row generalizing index with
  | nil => rfl
  | cons coefficient row ih =>
      have hhead : term index = term' index := h 0 (by simp)
      have htail : rowValue term (index + 1) row = rowValue term' (index + 1) row := by
        refine ih fun offset hoffset => ?_
        have hlater := h (offset + 1) (by simpa using hoffset)
        rwa [show index + (offset + 1) = index + 1 + offset by omega] at hlater
      rw [rowValue_cons, rowValue_cons, hhead, htail]

theorem rowValue_addRows? {row row' sum : List Int} {index : Nat}
    (h : addRows? row row' = some sum) :
    rowValue term index sum = rowValue term index row + rowValue term index row' := by
  induction row generalizing row' sum index with
  | nil => simp_all [addRows?]
  | cons a row ih =>
      cases row' with
      | nil =>
          have hsum : a :: row = sum := by simpa [addRows?] using h
          simp [← hsum, rowValue_cons]
      | cons b row' =>
          rw [addRows?] at h
          split at h
          · rename_i head tail hhead htail
            rw [← Option.some.inj h, rowValue_cons, rowValue_cons, rowValue_cons, ih htail,
              ← Word.eq_of_add? hhead]
            ring
          · cases h

theorem rowValue_scaleRow? {factor : Int} {row scaled : List Int} {index : Nat}
    (h : scaleRow? factor row = some scaled) :
    rowValue term index scaled = rowValue term index row * factor := by
  induction row generalizing scaled index with
  | nil => simp_all [scaleRow?]
  | cons a row ih =>
      rw [scaleRow?] at h
      split at h
      · rename_i head tail hhead htail
        rw [← Option.some.inj h, rowValue_cons, rowValue_cons, ih htail, ← Word.eq_of_mul? hhead]
        ring
      · cases h

theorem rowValue_eq_zero {row : List Int} {index : Nat} (h : ∀ coefficient ∈ row, coefficient = 0) :
    rowValue term index row = 0 := by
  induction row generalizing index with
  | nil => rfl
  | cons coefficient row ih =>
      rw [rowValue_cons, h coefficient (by simp), ih fun c hc => h c (List.mem_cons_of_mem _ hc)]
      ring

theorem rowValue_append (row row' : List Int) (index : Nat) :
    rowValue term index (row ++ row') =
      rowValue term index row + rowValue term (index + row.length) row' := by
  induction row generalizing index with
  | nil => simp
  | cons coefficient row ih =>
      rw [List.cons_append, rowValue_cons, rowValue_cons, ih, List.length_cons,
        show index + 1 + row.length = index + (row.length + 1) by omega]
      ring

/-- Exact division of all coefficients divides the value. -/
theorem rowValue_map_ediv_mul {divisor : Int} {row : List Int} {index : Nat}
    (h : ∀ coefficient ∈ row, divisor ∣ coefficient) :
    rowValue term index (row.map (· / divisor)) * divisor = rowValue term index row := by
  induction row generalizing index with
  | nil => simp
  | cons coefficient row ih =>
      have hhead : coefficient / divisor * divisor = coefficient :=
        Int.ediv_mul_cancel (h coefficient (by simp))
      have htail : rowValue term (index + 1) (row.map (· / divisor)) * divisor =
          rowValue term (index + 1) row := ih fun c hc => h c (List.mem_cons_of_mem _ hc)
      rw [List.map_cons, rowValue_cons, rowValue_cons, ← htail]
      nth_rewrite 2 [← hhead]
      ring

theorem dvd_rowValue_sub_map_emod (divisor : Int) (row : List Int) (index : Nat) :
    divisor ∣ rowValue term index row - rowValue term index (row.map (· % divisor)) := by
  induction row generalizing index with
  | nil => simp
  | cons coefficient row ih =>
      have hhead : divisor ∣ coefficient - coefficient % divisor := Int.dvd_self_sub_emod
      have hsplit : rowValue term index (coefficient :: row) -
          rowValue term index ((coefficient :: row).map (· % divisor)) =
            (coefficient - coefficient % divisor) * term index +
              (rowValue term (index + 1) row -
                rowValue term (index + 1) (row.map (· % divisor))) := by
        rw [List.map_cons, rowValue_cons, rowValue_cons]
        ring
      rw [hsplit]
      exact Int.dvd_add (hhead.mul_right _) (ih (index + 1))

theorem value_of_isConst {form : LinearForm} (h : form.isConst) :
    form.value term = form.constant := by
  have hzero : ∀ coefficient ∈ form.coefficients, coefficient = 0 := by
    simpa [isConst] using h
  rw [value, rowValue_eq_zero hzero, zero_add]

theorem value_ofTerm (index : Nat) : (ofTerm index).value term = term index := by
  have hzero : rowValue term 0 (List.replicate index 0) = 0 :=
    rowValue_eq_zero fun c hc => List.eq_of_mem_replicate hc
  simp [value, ofTerm, rowValue_append, hzero, rowValue_cons]

theorem dvd_value_sub_reduce (divisor : Int) (form : LinearForm) :
    divisor ∣ form.value term - (form.reduce divisor).value term := by
  have hrow : divisor ∣ rowValue term 0 form.coefficients -
      rowValue term 0 (form.coefficients.map (· % divisor)) :=
    dvd_rowValue_sub_map_emod divisor form.coefficients 0
  have hconstant : divisor ∣ form.constant - form.constant % divisor := Int.dvd_self_sub_emod
  have hsplit : form.value term - (form.reduce divisor).value term =
      (rowValue term 0 form.coefficients -
        rowValue term 0 (form.coefficients.map (· % divisor))) +
          (form.constant - form.constant % divisor) := by
    simp only [value, reduce]
    ring
  rw [hsplit]
  exact Int.dvd_add hrow hconstant

/-! ## Single coefficients -/

/-- The coefficient of the term with the given index. -/
def coefficient (form : LinearForm) (index : Nat) : Int := form.coefficients.getD index 0

theorem getD_addRows? {row row' sum : List Int} (h : addRows? row row' = some sum) (index : Nat) :
    sum.getD index 0 = row.getD index 0 + row'.getD index 0 := by
  induction row generalizing row' sum index with
  | nil => simp_all [addRows?]
  | cons a row ih =>
      cases row' with
      | nil =>
          have hsum : a :: row = sum := by simpa [addRows?] using h
          simp [← hsum]
      | cons b row' =>
          rw [addRows?] at h
          split at h
          · rename_i head tail hhead htail
            rw [← Option.some.inj h]
            cases index with
            | zero => simp [← Word.eq_of_add? hhead]
            | succ index => simpa using ih htail index
          · cases h

theorem getD_scaleRow? {factor : Int} {row scaled : List Int}
    (h : scaleRow? factor row = some scaled) (index : Nat) :
    scaled.getD index 0 = row.getD index 0 * factor := by
  induction row generalizing scaled index with
  | nil => simp_all [scaleRow?]
  | cons a row ih =>
      rw [scaleRow?] at h
      split at h
      · rename_i head tail hhead htail
        rw [← Option.some.inj h]
        cases index with
        | zero => simp [← Word.eq_of_mul? hhead]
        | succ index => simpa using ih htail index
      · cases h

theorem getD_map {f : Int → Int} (hzero : f 0 = 0) (row : List Int) (index : Nat) :
    (row.map f).getD index 0 = f (row.getD index 0) := by
  rw [List.getD_eq_getElem?_getD, List.getD_eq_getElem?_getD, List.getElem?_map]
  cases row[index]? <;> simp [hzero]

theorem length_addRows?_le {row row' sum : List Int} {bound : Nat}
    (h : addRows? row row' = some sum) (hrow : row.length ≤ bound) (hrow' : row'.length ≤ bound) :
    sum.length ≤ bound := by
  induction row generalizing row' sum bound with
  | nil => simp_all [addRows?]
  | cons a row ih =>
      cases row' with
      | nil =>
          have hsum : a :: row = sum := by simpa [addRows?] using h
          rwa [← hsum]
      | cons b row' =>
          rw [addRows?] at h
          split at h
          · rename_i head tail hhead htail
            rw [← Option.some.inj h]
            simp only [List.length_cons] at hrow hrow' ⊢
            have hlength : tail.length ≤ bound - 1 := ih htail (by omega) (by omega)
            omega
          · cases h

theorem length_scaleRow? {factor : Int} {row scaled : List Int}
    (h : scaleRow? factor row = some scaled) : scaled.length = row.length := by
  induction row generalizing scaled with
  | nil => simp_all [scaleRow?]
  | cons a row ih =>
      rw [scaleRow?] at h
      split at h
      · rename_i head tail hhead htail
        rw [← Option.some.inj h, List.length_cons, List.length_cons, ih htail]
      · cases h

/-! ## Common divisors -/

theorem commonDivisor_dvd (divisor : Int) (form : LinearForm) :
    (form.commonDivisor divisor : Int) ∣ divisor :=
  Int.natCast_dvd.mpr (foldl_gcd_dvd Int.natAbs _ _).1

theorem commonDivisor_dvd_coefficient {divisor coefficient : Int} {form : LinearForm}
    (h : coefficient ∈ form.coefficients) : (form.commonDivisor divisor : Int) ∣ coefficient :=
  Int.natCast_dvd.mpr ((foldl_gcd_dvd Int.natAbs _ _).2 coefficient (List.mem_append_left _ h))

theorem commonDivisor_dvd_constant (divisor : Int) (form : LinearForm) :
    (form.commonDivisor divisor : Int) ∣ form.constant :=
  Int.natCast_dvd.mpr ((foldl_gcd_dvd Int.natAbs _ _).2 form.constant (by simp))

theorem value_cancel {common : Int} {form : LinearForm}
    (hcoefficients : ∀ coefficient ∈ form.coefficients, common ∣ coefficient)
    (hconstant : common ∣ form.constant) :
    (form.cancel common).value term * common = form.value term := by
  rw [value, value, cancel, add_mul, rowValue_map_ediv_mul hcoefficients,
    Int.ediv_mul_cancel hconstant]

end LinearForm

/-! ## Forms that stand for an integer -/

namespace Expr

/-- The values of the terms behind the indices of a form. -/
def termValue (point : Point) (dims syms : Nat) (locals : List Expr) (index : Nat) : Int :=
  (termAt dims syms locals index).value point

/-- A form over dimensions, symbols and local terms stands for an integer: it has no coefficients
beyond the local terms, its value is that integer, and the terms it uses keep within the allowed
positions. -/
structure Flat (point : Point) (dimOk symOk : Nat → Prop) (dims syms : Nat)
    (locals : List Expr) (form : LinearForm) (x : Int) : Prop where
  length_le : form.coefficients.length ≤ dims + syms + locals.length
  value_eq : form.value (termValue point dims syms locals) = x
  within : ∀ index, form.coefficient index ≠ 0 →
    (termAt dims syms locals index).Within dimOk symOk

section Flat

variable {point : Point} {dimOk symOk : Nat → Prop} {dims syms : Nat} {locals locals' : List Expr}
  {form left right : LinearForm} {x y : Int}

theorem termAt_extend (h : locals <+: locals') {index : Nat}
    (hindex : index < dims + syms + locals.length) :
    termAt dims syms locals' index = termAt dims syms locals index := by
  obtain ⟨added, rfl⟩ := h
  unfold termAt
  split
  · rfl
  · split
    · rfl
    · rw [List.getD_eq_getElem?_getD, List.getD_eq_getElem?_getD,
        List.getElem?_append_left (by omega)]

theorem Flat.lt_of_coefficient_ne_zero (h : Flat point dimOk symOk dims syms locals form x)
    {index : Nat} (hne : form.coefficient index ≠ 0) : index < dims + syms + locals.length := by
  by_contra hge
  refine hne ?_
  rw [LinearForm.coefficient, List.getD_eq_getElem?_getD, List.getElem?_eq_none (by
    have := h.length_le; omega)]
  rfl

/-- A form that stands for an integer still does so when more local terms are added. -/
theorem Flat.extend (h : Flat point dimOk symOk dims syms locals form x)
    (hgrows : locals <+: locals') : Flat point dimOk symOk dims syms locals' form x where
  length_le := h.length_le.trans (Nat.add_le_add_left hgrows.length_le _)
  value_eq := by
    rw [← h.value_eq, LinearForm.value, LinearForm.value]
    congr 1
    refine LinearForm.rowValue_congr fun offset hoffset => ?_
    rw [termValue, termValue, termAt_extend hgrows (by have := h.length_le; omega)]
  within := by
    intro index hne
    rw [termAt_extend hgrows (h.lt_of_coefficient_ne_zero hne)]
    exact h.within index hne

theorem Flat.ofConst (constant : Int) :
    Flat point dimOk symOk dims syms locals (.ofConst constant) constant where
  length_le := Nat.zero_le _
  value_eq := by simp [LinearForm.ofConst, LinearForm.value]
  within := by simp [LinearForm.coefficient, LinearForm.ofConst]

theorem Flat.ofTerm {index : Nat} (hindex : index < dims + syms + locals.length)
    (hwithin : (termAt dims syms locals index).Within dimOk symOk) :
    Flat point dimOk symOk dims syms locals (.ofTerm index)
      ((termAt dims syms locals index).value point) where
  length_le := by simp [LinearForm.ofTerm]; omega
  value_eq := LinearForm.value_ofTerm index
  within := by
    intro other hne
    have hsame : other = index := by
      by_contra hdiffers
      refine hne ?_
      rw [LinearForm.coefficient, LinearForm.ofTerm, List.getD_eq_getElem?_getD,
        List.getElem?_append]
      split
      · rename_i hlt
        rw [List.getElem?_replicate, if_pos (by simpa using hlt)]
        rfl
      · rename_i hge
        rw [List.getElem?_eq_none (by simp at hge ⊢; omega)]
        rfl
    rw [hsame]
    exact hwithin

theorem Flat.add? (hleft : Flat point dimOk symOk dims syms locals left x)
    (hright : Flat point dimOk symOk dims syms locals right y)
    (h : left.add? right = some form) :
    Flat point dimOk symOk dims syms locals form (x + y) := by
  unfold LinearForm.add? at h
  split at h
  · rename_i row constant hrow hconstant
    obtain rfl := Option.some.inj h
    refine ⟨LinearForm.length_addRows?_le hrow hleft.length_le hright.length_le, ?_, ?_⟩
    · rw [← hleft.value_eq, ← hright.value_eq, LinearForm.value,
        LinearForm.rowValue_addRows? hrow, ← Word.eq_of_add? hconstant, LinearForm.value,
        LinearForm.value]
      ring
    · intro index hne
      rw [LinearForm.coefficient, LinearForm.getD_addRows? hrow] at hne
      by_cases hzero : left.coefficient index = 0
      · exact hright.within index fun hzero' => hne (by
          simpa [LinearForm.coefficient] using congrArg₂ (· + ·) hzero hzero')
      · exact hleft.within index hzero
  · cases h

theorem Flat.scale? {factor : Int} (hleft : Flat point dimOk symOk dims syms locals left x)
    (h : left.scale? factor = some form) :
    Flat point dimOk symOk dims syms locals form (x * factor) := by
  unfold LinearForm.scale? at h
  split at h
  · rename_i row constant hrow hconstant
    obtain rfl := Option.some.inj h
    refine ⟨(LinearForm.length_scaleRow? hrow).trans_le hleft.length_le, ?_, ?_⟩
    · rw [← hleft.value_eq, LinearForm.value, LinearForm.rowValue_scaleRow? hrow,
        ← Word.eq_of_mul? hconstant, LinearForm.value]
      ring
    · intro index hne
      rw [LinearForm.coefficient, LinearForm.getD_scaleRow? hrow] at hne
      exact hleft.within index (left_ne_zero_of_mul hne)
  · cases h

/-- Changing the coefficients one by one, zero to zero, keeps length and positions. -/
theorem Flat.map {f : Int → Int} (hzero : f 0 = 0)
    (h : Flat point dimOk symOk dims syms locals form x) (constant : Int) :
    Flat point dimOk symOk dims syms locals ⟨form.coefficients.map f, constant⟩
      (LinearForm.value (termValue point dims syms locals)
        ⟨form.coefficients.map f, constant⟩) where
  length_le := by simpa using h.length_le
  value_eq := rfl
  within := by
    intro index hne
    rw [LinearForm.coefficient, LinearForm.getD_map hzero] at hne
    exact h.within index fun heq => hne (by
      rw [show form.coefficients.getD index 0 = 0 from heq, hzero])

/-! ## From a form back to an expression -/

theorem value_sumTerms (index : Nat) (row : List Int) (partialSum : Option Expr) :
    (sumTerms dims syms locals index row partialSum).elim 0 (value point) =
      partialSum.elim 0 (value point) +
        LinearForm.rowValue (termValue point dims syms locals) index row := by
  induction row generalizing index partialSum with
  | nil => simp [sumTerms, LinearForm.rowValue]
  | cons coefficient row ih =>
      rw [sumTerms, LinearForm.rowValue]
      split
      · rename_i hzero
        rw [ih, hzero]
        ring
      · have hterm : (if coefficient = 1 then termAt dims syms locals index
            else mulConst (termAt dims syms locals index) coefficient).value point =
              coefficient * termValue point dims syms locals index := by
          split
          · rename_i hone
            rw [hone, one_mul, termValue]
          · rw [value_mulConst, termValue, mul_comm]
        rw [ih]
        cases partialSum with
        | none =>
            simp only [Option.elim_some, Option.elim_none, hterm]
            ring
        | some sum =>
            simp only [Option.elim_some, value_add, hterm]
            ring

theorem value_ofLinearForm :
    (ofLinearForm dims syms locals form).value point =
      form.value (termValue point dims syms locals) := by
  have hsum : (sumTerms dims syms locals 0 form.coefficients none).elim 0 (value point) = _ :=
    value_sumTerms 0 form.coefficients none
  rw [LinearForm.value, ofLinearForm]
  split
  · rename_i sum heq
    rw [heq] at hsum
    simp only [Option.elim_some, Option.elim_none, zero_add] at hsum
    split
    · rename_i hzero
      rw [hsum, hzero, add_zero]
    · rw [value_addConst, hsum]
  · rename_i heq
    rw [heq] at hsum
    simp only [Option.elim_none, zero_add] at hsum
    rw [value_const, ← hsum, zero_add]

theorem within_sumTerms {index : Nat} {row : List Int} {partialSum : Option Expr}
    (hrow : ∀ offset, row.getD offset 0 ≠ 0 →
      (termAt dims syms locals (index + offset)).Within dimOk symOk)
    (hpartial : ∀ sum ∈ partialSum, sum.Within dimOk symOk) :
    ∀ sum ∈ sumTerms dims syms locals index row partialSum, sum.Within dimOk symOk := by
  induction row generalizing index partialSum with
  | nil => simpa [sumTerms] using hpartial
  | cons coefficient row ih =>
      have htail : ∀ offset, row.getD offset 0 ≠ 0 →
          (termAt dims syms locals (index + 1 + offset)).Within dimOk symOk := by
        intro offset hne
        have hlater := hrow (offset + 1) (by simpa using hne)
        rwa [show index + (offset + 1) = index + 1 + offset by omega] at hlater
      rw [sumTerms]
      split
      · exact ih htail hpartial
      · rename_i hne
        have hterm : (termAt dims syms locals index).Within dimOk symOk :=
          hrow 0 (by simpa using hne)
        have hscaled : (if coefficient = 1 then termAt dims syms locals index
            else mulConst (termAt dims syms locals index) coefficient).Within dimOk symOk := by
          split
          · exact hterm
          · exact within_mulConst hterm coefficient
        refine ih htail ?_
        cases partialSum with
        | none => simpa using hscaled
        | some sum => simpa using within_add (hpartial sum rfl) hscaled

theorem within_ofLinearForm (h : ∀ index, form.coefficient index ≠ 0 →
      (termAt dims syms locals index).Within dimOk symOk) :
    (ofLinearForm dims syms locals form).Within dimOk symOk := by
  have hsum : ∀ sum ∈ sumTerms dims syms locals 0 form.coefficients none,
      sum.Within dimOk symOk :=
    within_sumTerms (by simpa [LinearForm.coefficient] using h) (by simp)
  unfold ofLinearForm
  split
  · rename_i sum heq
    split
    · exact hsum sum heq
    · exact within_addConst (hsum sum heq) _
  · trivial

/-! ## Flattening -/

/-- What flattening a part of an expression leaves behind: the local terms have grown at their
end and keep within the allowed positions, and the form stands for the value of the part. -/
structure Flattened (point : Point) (dimOk symOk : Nat → Prop) (dims syms : Nat)
    (locals : List Expr) (result : LinearForm × List Expr) (x : Int) : Prop where
  grows : locals <+: result.2
  within : ∀ e ∈ result.2, e.Within dimOk symOk
  flat : Flat point dimOk symOk dims syms result.2 result.1 x

theorem termAt_local (index : Nat) :
    termAt dims syms locals (dims + syms + index) = locals.getD index (const 0) := by
  rw [termAt, if_neg (by omega), if_neg (by omega)]
  congr 1
  omega

theorem flattened_localForm {term : Expr} (hterm : term.Within dimOk symOk)
    (hlocals : ∀ e ∈ locals, e.Within dimOk symOk) :
    Flattened point dimOk symOk dims syms locals (localForm dims syms term locals)
      (term.value point) := by
  unfold localForm
  split
  · rename_i index hfound
    obtain ⟨hlt, hat, -⟩ := List.idxOf?_eq_some_iff.mp hfound
    have hterm' : termAt dims syms locals (dims + syms + index) = term := by
      rw [termAt_local, List.getD_eq_getElem?_getD, List.getElem?_eq_getElem hlt]
      exact hat
    refine ⟨List.prefix_rfl, hlocals, ?_⟩
    rw [← hterm'] at hterm ⊢
    exact Flat.ofTerm (Nat.add_lt_add_left hlt _) hterm
  · have hterm' : termAt dims syms (locals ++ [term]) (dims + syms + locals.length) = term := by
      simp [termAt_local]
    refine ⟨List.prefix_append .., ?_, ?_⟩
    · intro e he
      rcases List.mem_append.mp he with he | he
      · exact hlocals e he
      · rw [List.mem_singleton.mp he]
        exact hterm
    · rw [← hterm'] at hterm
      nth_rewrite 3 [← hterm']
      exact Flat.ofTerm (by simp) hterm

/-- A quotient or remainder that cannot be resolved becomes a local term. -/
theorem flattened_divideForm {op : BinaryOp} (hop : op.isDivision)
    (hform : Flat point dimOk symOk dims syms locals form x)
    (hlocals : ∀ e ∈ locals, e.Within dimOk symOk) (divisor : Int) :
    Flattened point dimOk symOk dims syms locals
      (localForm dims syms (divide op (ofLinearForm dims syms locals form) (const divisor)) locals)
      (op.apply x divisor) := by
  have hvalue : (divide op (ofLinearForm dims syms locals form) (const divisor)).value point =
      op.apply x divisor := by
    rw [value_divide point hop, value_ofLinearForm, hform.value_eq, value_const]
  rw [← hvalue]
  exact flattened_localForm
    (within_divide (within_ofLinearForm hform.within) within_const op) hlocals

/-- A remainder depends on the entries of the form only modulo the divisor. -/
theorem flattened_remainder {divisor : Int}
    (hform : Flat point dimOk symOk dims syms locals form x)
    (hlocals : ∀ e ∈ locals, e.Within dimOk symOk) :
    Flattened point dimOk symOk dims syms locals
      (flattenDivision dims syms .mod form divisor locals) (x % divisor) := by
  have hreduced : Flat point dimOk symOk dims syms locals (form.reduce divisor) _ :=
    hform.map (Int.zero_emod divisor) (form.constant % divisor)
  have hsame : x % divisor =
      (form.reduce divisor).value (termValue point dims syms locals) % divisor := by
    rw [← hform.value_eq]
    exact Int.emod_eq_emod_iff_emod_sub_eq_zero.mpr
      (Int.emod_eq_zero_of_dvd (LinearForm.dvd_value_sub_reduce divisor form))
  simp only [flattenDivision, if_true]
  split
  · rename_i hconst
    refine ⟨List.prefix_rfl, hlocals, ?_⟩
    have hvalue : x % divisor = (form.reduce divisor).constant := by
      rw [hsame, LinearForm.value_of_isConst hconst]
      exact Int.emod_emod_of_dvd _ dvd_rfl
    rw [hvalue]
    exact Flat.ofConst _
  · rw [hsame]
    exact flattened_divideForm rfl hreduced hlocals divisor

/-- In a quotient the positive factor that dividend and divisor share cancels, and what is then
a multiple of the divisor is divided term by term. -/
theorem flattened_quotient {op : BinaryOp} (hop : op.isDivision) (hmod : op ≠ .mod)
    {divisor : Int} (hdivisor : 0 < divisor)
    (hform : Flat point dimOk symOk dims syms locals form x)
    (hlocals : ∀ e ∈ locals, e.Within dimOk symOk) :
    Flattened point dimOk symOk dims syms locals
      (flattenDivision dims syms op form divisor locals) (op.apply x divisor) := by
  simp only [flattenDivision, if_neg hmod]
  obtain ⟨common, hdef⟩ : ∃ common : Int, form.commonDivisor divisor = common := ⟨_, rfl⟩
  have hdvd : common ∣ divisor := hdef ▸ form.commonDivisor_dvd divisor
  have hne : common ≠ 0 := by
    rintro rfl
    exact hdivisor.ne' (Int.zero_dvd.mp hdvd)
  have hcommon : 0 < common := by omega
  have hcancelled : Flat point dimOk symOk dims syms locals (form.cancel common) _ :=
    hform.map (f := (· / common)) (Int.zero_ediv _) (form.constant / common)
  have hrest : 0 < divisor / common := Int.ediv_pos_of_pos_of_dvd hdivisor hcommon.le hdvd
  have hsame : op.apply x divisor = op.apply
      ((form.cancel common).value (termValue point dims syms locals)) (divisor / common) := by
    have hmultiple : (form.cancel common).value (termValue point dims syms locals) * common =
        form.value (termValue point dims syms locals) :=
      LinearForm.value_cancel (fun _ hmem => hdef ▸ LinearForm.commonDivisor_dvd_coefficient hmem)
        (hdef ▸ form.commonDivisor_dvd_constant divisor)
    calc op.apply x divisor
        = op.apply ((form.cancel common).value (termValue point dims syms locals) * common)
            (divisor / common * common) := by
          rw [hmultiple, hform.value_eq, Int.ediv_mul_cancel hdvd]
      _ = _ := BinaryOp.apply_mul_mul hop hmod hcommon _ _
  rw [hsame, hdef]
  split
  -- only the coefficients need be multiples, since the constant is rounded as the whole is
  · rename_i hall
    have hmultiple : ∀ coefficient ∈ (form.cancel common).coefficients,
        divisor / common ∣ coefficient := by
      intro coefficient hmem
      exact Int.dvd_of_emod_eq_zero (by simpa using List.all_eq_true.mp hall coefficient hmem)
    refine ⟨List.prefix_rfl, hlocals, ?_⟩
    rw [LinearForm.value, ← LinearForm.rowValue_map_ediv_mul hmultiple,
      BinaryOp.apply_add_mul hop hmod hrest]
    exact hcancelled.map (f := (· / (divisor / common))) (Int.zero_ediv _) _
  · exact flattened_divideForm hop hcancelled hlocals _

/-- The form of an operation on two forms has the value of the operation. -/
theorem flattened_flattenBinary {op : BinaryOp} {left right : LinearForm} {y : Int}
    {result : LinearForm × List Expr}
    (hleft : Flat point dimOk symOk dims syms locals left x)
    (hright : Flat point dimOk symOk dims syms locals right y)
    (hlocals : ∀ e ∈ locals, e.Within dimOk symOk)
    (h : flattenBinary dims syms op left right locals = some result) :
    Flattened point dimOk symOk dims syms locals result (op.apply x y) := by
  have hconst : ∀ {form : LinearForm} {z : Int},
      Flat point dimOk symOk dims syms locals form z → form.isConst → z = form.constant :=
    fun hform hform' => hform.value_eq.symm.trans (LinearForm.value_of_isConst hform')
  cases op with
  | add =>
      obtain ⟨sum, hsum, rfl⟩ := Option.map_eq_some_iff.mp h
      exact ⟨List.prefix_rfl, hlocals, hleft.add? hright hsum⟩
  | mul =>
      unfold flattenBinary at h
      dsimp only at h
      split at h
      · rename_i hisConst
        obtain ⟨product, hproduct, rfl⟩ := Option.map_eq_some_iff.mp h
        rw [hconst hright hisConst]
        exact ⟨List.prefix_rfl, hlocals, hleft.scale? hproduct⟩
      · split at h
        · rename_i hisConst
          obtain ⟨product, hproduct, rfl⟩ := Option.map_eq_some_iff.mp h
          rw [hconst hleft hisConst, BinaryOp.apply, mul_comm]
          exact ⟨List.prefix_rfl, hlocals, hright.scale? hproduct⟩
        · cases h
  | mod =>
      obtain ⟨⟨hisConst, -⟩, ⟨⟩⟩ := Option.ite_none_right_eq_some.mp h
      rw [hconst hright hisConst]
      exact flattened_remainder hleft hlocals
  | floorDiv =>
      obtain ⟨⟨hisConst, hpos⟩, ⟨⟩⟩ := Option.ite_none_right_eq_some.mp h
      rw [hconst hright hisConst]
      exact flattened_quotient rfl (by simp) hpos hleft hlocals
  | ceilDiv =>
      obtain ⟨⟨hisConst, hpos⟩, ⟨⟩⟩ := Option.ite_none_right_eq_some.mp h
      rw [hconst hright hisConst]
      exact flattened_quotient rfl (by simp) hpos hleft hlocals

/-- The linear form of an expression has its value. -/
theorem flattened_flattenWith {e : Expr} {result : LinearForm × List Expr}
    (he : e.Within dimOk symOk) (hlocals : ∀ e ∈ locals, e.Within dimOk symOk)
    (h : flattenWith dims syms e locals = some result) :
    Flattened point dimOk symOk dims syms locals result (e.value point) := by
  induction e generalizing locals result with
  | dim position =>
      obtain ⟨hlt, ⟨⟩⟩ := Option.ite_none_right_eq_some.mp h
      have hterm : termAt dims syms locals position = dim position := if_pos hlt
      refine ⟨List.prefix_rfl, hlocals, ?_⟩
      rw [← hterm]
      exact Flat.ofTerm (by omega) (hterm ▸ he)
  | sym position =>
      obtain ⟨hlt, ⟨⟩⟩ := Option.ite_none_right_eq_some.mp h
      have hterm : termAt dims syms locals (dims + position) = sym position := by
        simp [termAt, hlt]
      refine ⟨List.prefix_rfl, hlocals, ?_⟩
      rw [← hterm]
      exact Flat.ofTerm (by omega) (hterm ▸ he)
  | const constant =>
      obtain rfl := Option.some.inj h
      exact ⟨List.prefix_rfl, hlocals, Flat.ofConst constant⟩
  | binary op lhs rhs ihl ihr =>
      unfold flattenWith at h
      split at h
      · cases h
      · rename_i left locals' hlhs
        split at h
        · cases h
        · rename_i right locals'' hrhs
          -- the right side may add local terms, under which the form on the left keeps its value
          have hleft := ihl he.1 hlocals hlhs
          have hright := ihr he.2 hleft.within hrhs
          have hresult := flattened_flattenBinary (hleft.flat.extend hright.grows) hright.flat
            hright.within h
          exact ⟨(hleft.grows.trans hright.grows).trans hresult.grows, hresult.within,
            hresult.flat⟩

end Flat

/-- Simplification preserves the value of an expression at every point and mentions no position
that the expression does not mention. -/
theorem simplify_spec (point : Point) {dimOk symOk : Nat → Prop} (dims syms : Nat) {e : Expr}
    (he : e.Within dimOk symOk) :
    (e.simplify dims syms).value point = e.value point ∧
      (e.simplify dims syms).Within dimOk symOk := by
  unfold simplify
  split
  · rename_i form locals hflatten
    have hflat := (flattened_flattenWith he (by simp) hflatten : Flattened point ..).flat
    exact ⟨by rw [value_ofLinearForm, hflat.value_eq], within_ofLinearForm hflat.within⟩
  · exact ⟨rfl, he⟩

end Expr

end AffineLoops
