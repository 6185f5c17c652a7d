import AffineLoops.Proofs.Expr.Closure
import AffineLoops.Proofs.Expr.LocalTerms

/-!
# Constants stay words

Expressions whose constants are words are closed under everything that builds expressions.  Sums and
products of constants are checked, so a constant that is no word is never built; quotients and
remainders by positive words need no check, since they are no larger than their dividend or their
divisor (`BinaryOp.inRange_apply`).

* `hasWords_fold` is about the folding operations and `hasWords_transform` about substitutions;
* `LinearForm.HasWords` is the same for linear forms: `formHasWords_flattenWith` shows that the form
  and the local terms of a flattened expression are of words, whichever local terms of words there
  are before;
* `hasWords_simplify` follows.
-/

namespace AffineLoops

theorem Word.inRange_of_add? {a b sum : Int} (h : add? a b = some sum) : InRange sum := by
  obtain ⟨hword, rfl⟩ := checked_eq_some_iff.mp h
  exact hword

theorem Word.inRange_of_mul? {a b product : Int} (h : mul? a b = some product) :
    InRange product := by
  obtain ⟨hword, rfl⟩ := checked_eq_some_iff.mp h
  exact hword

namespace Expr

variable {e lhs rhs : Expr} {constant : Int}

theorem hasWords_dim (position : Nat) : (dim position).HasWords := by
  simp [HasWords, postorder, constant?]

theorem hasWords_sym (position : Nat) : (sym position).HasWords := by
  simp [HasWords, postorder, constant?]

theorem hasWords_const_iff : (const constant).HasWords ↔ Word.InRange constant := by
  simp [HasWords, postorder, constant?]

/-! ## Folding operations -/

theorem hasWords_addConst (he : e.HasWords) (hconstant : Word.InRange constant) :
    (addConst e constant).HasWords := by
  fun_induction addConst e constant with
  | case1 a c sum hsum => exact hasWords_const_iff.mpr (Word.inRange_of_add? hsum)
  | case2 a c hsum => exact hasWords_binary_iff.mpr ⟨he, hasWords_const_iff.mpr hconstant⟩
  | case3 x a => exact he
  | case4 x a c hc sum hsum ih =>
      exact ih (hasWords_binary_iff.mp he).1 (Word.inRange_of_add? hsum)
  | case5 x a c hc hsum => exact hasWords_binary_iff.mpr ⟨he, hasWords_const_iff.mpr hconstant⟩
  | case6 e => exact he
  | case7 e c hc => exact hasWords_binary_iff.mpr ⟨he, hasWords_const_iff.mpr hconstant⟩

theorem hasWords_mulConst (he : e.HasWords) (hconstant : Word.InRange constant) :
    (mulConst e constant).HasWords := by
  fun_induction mulConst e constant with
  | case1 a c product hproduct => exact hasWords_const_iff.mpr (Word.inRange_of_mul? hproduct)
  | case2 a c hproduct => exact hasWords_binary_iff.mpr ⟨he, hasWords_const_iff.mpr hconstant⟩
  | case3 x a => exact hasWords_const_iff.mpr Word.inRange_zero
  | case4 x a => exact he
  | case5 x a c hc hc' product hproduct ih =>
      exact ih (hasWords_binary_iff.mp he).1 (Word.inRange_of_mul? hproduct)
  | case6 x a c hc hc' hproduct =>
      exact hasWords_binary_iff.mpr ⟨he, hasWords_const_iff.mpr hconstant⟩
  | case7 e => exact hasWords_const_iff.mpr Word.inRange_zero
  | case8 e => exact he
  | case9 e c hc hc' => exact hasWords_binary_iff.mpr ⟨he, hasWords_const_iff.mpr hconstant⟩

theorem hasWords_scaledTerm (he : e.HasWords) : e.scaledTerm.1.HasWords := by
  unfold scaledTerm
  split
  · exact (hasWords_binary_iff.mp he).1
  · exact he

theorem hasWords_addTerms (hlhs : lhs.HasWords) (hrhs : rhs.HasWords) :
    (addTerms lhs rhs).HasWords := by
  unfold addTerms
  split
  · split
    · rename_i factor hfactor
      exact hasWords_mulConst (hasWords_scaledTerm hlhs) (Word.inRange_of_add? hfactor)
    · exact hasWords_binary_iff.mpr ⟨hlhs, hrhs⟩
  · exact hasWords_binary_iff.mpr ⟨hlhs, hrhs⟩

theorem hasWords_add (hlhs : lhs.HasWords) (hrhs : rhs.HasWords) : (add lhs rhs).HasWords := by
  fun_induction add lhs rhs with
  | case1 lhs c => exact hasWords_addConst hlhs (hasWords_const_iff.mp hrhs)
  | case2 c rhs => exact hasWords_addConst hrhs (hasWords_const_iff.mp hlhs)
  | case3 x c rhs hconst ih =>
      obtain ⟨hx, hc⟩ := hasWords_binary_iff.mp hlhs
      exact hasWords_addConst (ih hx hrhs) (hasWords_const_iff.mp hc)
  | case4 lhs rhs => exact hasWords_addTerms hlhs hrhs

theorem hasWords_mul (hlhs : lhs.HasWords) (hrhs : rhs.HasWords) : (mul lhs rhs).HasWords := by
  unfold mul
  split
  · exact hasWords_mulConst hlhs (hasWords_const_iff.mp hrhs)
  · exact hasWords_mulConst hrhs (hasWords_const_iff.mp hlhs)
  · exact hasWords_binary_iff.mpr ⟨hlhs, hrhs⟩

variable {op : BinaryOp}

theorem hasWords_divConst {divisor : Int} (hop : op.isDivision) (hlhs : lhs.HasWords)
    (hdivisor : Word.InRange divisor) (hpos : 0 < divisor) :
    (divConst op lhs divisor).HasWords := by
  have hkept : (binary op lhs (const divisor)).HasWords :=
    hasWords_binary_iff.mpr ⟨hlhs, hasWords_const_iff.mpr hdivisor⟩
  unfold divConst
  split
  · exact hasWords_const_iff.mpr
      (BinaryOp.inRange_apply hop (hasWords_const_iff.mp hlhs) hdivisor hpos)
  · split
    · split
      · exact hasWords_const_iff.mpr Word.inRange_zero
      · exact hlhs
    · split
      · obtain ⟨hx, hfactor⟩ := hasWords_binary_iff.mp hlhs
        split
        · split
          · exact hasWords_const_iff.mpr Word.inRange_zero
          · exact hasWords_mulConst hx (Word.inRange_ediv hpos (hasWords_const_iff.mp hfactor))
        · exact hkept
      · exact hkept

theorem hasWords_divide (hop : op.isDivision) (hlhs : lhs.HasWords) (hrhs : rhs.HasWords) :
    (divide op lhs rhs).HasWords := by
  have hkept : (binary op lhs rhs).HasWords := hasWords_binary_iff.mpr ⟨hlhs, hrhs⟩
  unfold divide
  split
  · split
    · rename_i divisor hpos
      exact hasWords_divConst hop hlhs (hasWords_const_iff.mp hrhs) hpos
    · exact hkept
  · exact hkept

/-- A folded operation on expressions of words is one of words. -/
theorem hasWords_fold (hlhs : lhs.HasWords) (hrhs : rhs.HasWords) : (fold op lhs rhs).HasWords := by
  cases op with
  | add => exact hasWords_add hlhs hrhs
  | mul => exact hasWords_mul hlhs hrhs
  | mod | floorDiv | ceilDiv => exact hasWords_divide rfl hlhs hrhs

theorem hasWords_neg (he : e.HasWords) : e.neg.HasWords := hasWords_mulConst he (by decide)

/-! ## Substitution -/

theorem hasWords_transform {replacement? : Expr → Option Expr}
    (hreplacement : ∀ part new, replacement? part = some new → new.HasWords) (he : e.HasWords) :
    (transform replacement? e).HasWords := by
  have hleaf (leaf : Expr) (hleaf : leaf.HasWords) :
      ((replacement? leaf).getD leaf).HasWords := by
    cases hnew : replacement? leaf with
    | none => exact hleaf
    | some new => exact hreplacement leaf new hnew
  induction e with
  | dim position => exact hleaf _ he
  | sym position => exact hleaf _ he
  | const constant => exact hleaf _ he
  | binary op lhs rhs ihl ihr =>
      obtain ⟨hlhs, hrhs⟩ := hasWords_binary_iff.mp he
      unfold transform
      split
      · rename_i new hnew
        exact hreplacement _ new hnew
      · dsimp only
        split
        · exact he
        · exact hasWords_fold (ihl hlhs) (ihr hrhs)

theorem hasWords_inputReplacement? {dims syms : List Expr} (hdims : ∀ d ∈ dims, d.HasWords)
    (hsyms : ∀ s ∈ syms, s.HasWords) {part new : Expr}
    (h : inputReplacement? dims syms part = some new) : new.HasWords := by
  cases part with
  | dim position => exact hdims new (List.mem_of_getElem? h)
  | sym position => exact hsyms new (List.mem_of_getElem? h)
  | const constant => cases h
  | binary op lhs rhs => cases h

theorem hasWords_substitute {dims syms : List Expr} (hdims : ∀ d ∈ dims, d.HasWords)
    (hsyms : ∀ s ∈ syms, s.HasWords) (he : e.HasWords) : (e.substitute dims syms).HasWords :=
  hasWords_transform (fun _ _ => hasWords_inputReplacement? hdims hsyms) he

end Expr

/-! ## Linear forms -/

namespace LinearForm

/-- All entries of a form are words. -/
structure HasWords (form : LinearForm) : Prop where
  coefficients : ∀ coefficient ∈ form.coefficients, Word.InRange coefficient
  constant : Word.InRange form.constant

variable {left right form : LinearForm}

theorem HasWords.fits (h : form.HasWords) {count : Nat}
    (hcount : form.coefficients.length ≤ count) : form.Fits count where
  coefficient_word := forall_coefficient Word.inRange_zero h.coefficients
  constant_word := h.constant
  eq_zero := by
    intro index hindex
    rw [coefficient, List.getD_eq_getElem?_getD, List.getElem?_eq_none (hcount.trans hindex)]
    rfl

theorem Fits.hasWords {count : Nat} (h : form.Fits count) : form.HasWords where
  coefficients := by
    intro c hc
    obtain ⟨index, hat⟩ := List.mem_iff_getElem?.mp hc
    have hword := h.coefficient_word index
    rwa [coefficient, List.getD_eq_getElem?_getD, hat] at hword
  constant := h.constant_word

theorem hasWords_ofTerm (index : Nat) : (ofTerm index).HasWords :=
  (fits_ofTerm (Nat.lt_succ_self index)).hasWords

theorem hasWords_ofConst {constant : Int} (h : Word.InRange constant) :
    (ofConst constant).HasWords :=
  ⟨by simp [ofConst], h⟩

theorem HasWords.add? (hleft : left.HasWords) (hright : right.HasWords)
    (h : left.add? right = some form) : form.HasWords :=
  ((hleft.fits (le_max_left ..)).add? (hright.fits (le_max_right ..)) h).hasWords

theorem HasWords.scale? {factor : Int} (hform : form.HasWords)
    (h : form.scale? factor = some left) : left.HasWords :=
  ((hform.fits le_rfl).scale? h).hasWords

theorem HasWords.reduce {divisor : Int} (hform : form.HasWords) (hpos : 0 < divisor)
    (hdivisor : Word.InRange divisor) : (form.reduce divisor).HasWords :=
  ((hform.fits le_rfl).reduce hpos hdivisor).hasWords

theorem HasWords.cancel {divisor : Int} (hform : form.HasWords) (hpos : 0 < divisor) :
    (form.cancel divisor).HasWords :=
  ((hform.fits le_rfl).cancel hpos).hasWords

end LinearForm

namespace Expr

variable {dims syms : Nat} {locals : List Expr} {form : LinearForm}

theorem hasWords_termAt (hlocals : ∀ term ∈ locals, term.HasWords) (index : Nat) :
    (termAt dims syms locals index).HasWords := by
  unfold termAt
  split
  · exact hasWords_dim index
  · split
    · exact hasWords_sym _
    · rw [List.getD_eq_getElem?_getD]
      cases hat : locals[index - dims - syms]? with
      | none => exact hasWords_const_iff.mpr Word.inRange_zero
      | some term => exact hlocals term (List.mem_of_getElem? hat)

theorem hasWords_sumTerms {index : Nat} {row : List Int} {partialSum : Option Expr}
    (hlocals : ∀ term ∈ locals, term.HasWords) (hrow : ∀ c ∈ row, Word.InRange c)
    (hpartial : ∀ sum ∈ partialSum, sum.HasWords) :
    ∀ sum ∈ sumTerms dims syms locals index row partialSum, sum.HasWords := by
  induction row generalizing index partialSum with
  | nil => simpa [sumTerms] using hpartial
  | cons coefficient row ih =>
      obtain ⟨hcoefficient, hrow⟩ := List.forall_mem_cons.mp hrow
      have hterm : (termAt dims syms locals index).HasWords := hasWords_termAt hlocals index
      have hscaled : (if coefficient = 1 then termAt dims syms locals index
          else (termAt dims syms locals index).mulConst coefficient).HasWords := by
        split
        · exact hterm
        · exact hasWords_mulConst hterm hcoefficient
      rw [sumTerms]
      split
      · exact ih hrow hpartial
      · refine ih hrow ?_
        cases partialSum with
        | none => simpa using hscaled
        | some sum => simpa using hasWords_add (hpartial sum rfl) hscaled

/-- The expression of a form of words is one of words. -/
theorem hasWords_ofLinearForm (hlocals : ∀ term ∈ locals, term.HasWords) (hform : form.HasWords) :
    (ofLinearForm dims syms locals form).HasWords := by
  have hsum : ∀ sum ∈ sumTerms dims syms locals 0 form.coefficients none, sum.HasWords :=
    hasWords_sumTerms hlocals hform.coefficients (by simp)
  unfold ofLinearForm
  split
  · rename_i sum heq
    split
    · exact hsum sum heq
    · exact hasWords_addConst (hsum sum heq) hform.constant
  · exact hasWords_const_iff.mpr hform.constant

/-! ## Flattening -/

/-- A form and the local terms beside it are of words. -/
def FormHasWords (result : LinearForm × List Expr) : Prop :=
  result.1.HasWords ∧ ∀ term ∈ result.2, term.HasWords

theorem formHasWords_localForm {term : Expr} (hterm : term.HasWords)
    (hlocals : ∀ term ∈ locals, term.HasWords) :
    FormHasWords (localForm dims syms term locals) := by
  refine ⟨?_, forall_mem_localForm hterm hlocals⟩
  unfold localForm
  split
  · exact LinearForm.hasWords_ofTerm _
  · exact LinearForm.hasWords_ofTerm _

variable {op : BinaryOp} {divisor : Int}

/-- What the divisor and the entries have in common divides the divisor, and so the rest of it is a
positive word. -/
theorem rest_of_commonDivisor (form : LinearForm) (hdivisor : Word.InRange divisor)
    (hpos : 0 < divisor) :
    Word.InRange (divisor / form.commonDivisor divisor) ∧
      0 < divisor / (form.commonDivisor divisor : Int) :=
  ⟨Word.inRange_ediv (LinearForm.commonDivisor_pos hpos) hdivisor,
    Int.ediv_pos_of_pos_of_dvd hpos (Int.natCast_nonneg _) (form.commonDivisor_dvd divisor)⟩

theorem formHasWords_flattenDivision (hop : op.isDivision) (hform : form.HasWords)
    (hlocals : ∀ term ∈ locals, term.HasWords) (hdivisor : Word.InRange divisor)
    (hpos : 0 < divisor) :
    FormHasWords (flattenDivision dims syms op form divisor locals) := by
  have hlocal {rest : LinearForm} {divisor' : Int} (hrest : rest.HasWords)
      (hdivisor' : Word.InRange divisor') :
      FormHasWords (localForm dims syms
        (divide op (ofLinearForm dims syms locals rest) (const divisor')) locals) :=
    formHasWords_localForm (hasWords_divide hop (hasWords_ofLinearForm hlocals hrest)
      (hasWords_const_iff.mpr hdivisor')) hlocals
  have hreduced := hform.reduce hpos hdivisor
  have hcancelled := hform.cancel (form.commonDivisor_pos hpos)
  obtain ⟨hrest, hrestPos⟩ := rest_of_commonDivisor form hdivisor hpos
  unfold flattenDivision
  dsimp only
  split
  · split
    · exact ⟨LinearForm.hasWords_ofConst hreduced.constant, hlocals⟩
    · exact hlocal hreduced hdivisor
  · split
    · refine ⟨⟨?_, BinaryOp.inRange_apply hop hcancelled.constant hrest hrestPos⟩, hlocals⟩
      intro c hc
      obtain ⟨c', hc', rfl⟩ := List.mem_map.mp hc
      exact Word.inRange_ediv hrestPos (hcancelled.coefficients c' hc')
    · exact hlocal hcancelled hrest

theorem formHasWords_flattenBinary {left right : LinearForm} {result : LinearForm × List Expr}
    (hleft : left.HasWords) (hright : right.HasWords) (hlocals : ∀ term ∈ locals, term.HasWords)
    (h : flattenBinary dims syms op left right locals = some result) : FormHasWords result := by
  have hsame {form? : Option LinearForm} (hform : ∀ form, form? = some form → form.HasWords)
      (h : form?.map (·, locals) = some result) : FormHasWords result := by
    obtain ⟨form, hsome, rfl⟩ := Option.map_eq_some_iff.mp h
    exact ⟨hform form hsome, hlocals⟩
  cases op with
  | add => exact hsame (fun _ => hleft.add? hright) h
  | mul =>
      rw [flattenBinary] at h
      split at h
      · exact hsame (fun _ => hleft.scale?) h
      · split at h
        · exact hsame (fun _ => hright.scale?) h
        · cases h
  | mod | floorDiv | ceilDiv =>
      obtain ⟨⟨-, hpos⟩, ⟨⟩⟩ := Option.ite_none_right_eq_some.mp h
      exact formHasWords_flattenDivision rfl hleft hlocals hright.constant hpos

/-- Flattening an expression of words gives a form of words and local terms of words. -/
theorem formHasWords_flattenWith {e : Expr} {result : LinearForm × List Expr} (he : e.HasWords)
    (hlocals : ∀ term ∈ locals, term.HasWords)
    (h : flattenWith dims syms e locals = some result) : FormHasWords result := by
  induction e generalizing locals result with
  | dim position | sym position =>
      obtain ⟨-, ⟨⟩⟩ := Option.ite_none_right_eq_some.mp h
      exact ⟨LinearForm.hasWords_ofTerm _, hlocals⟩
  | const constant =>
      obtain rfl := Option.some.inj h
      exact ⟨LinearForm.hasWords_ofConst (hasWords_const_iff.mp he), hlocals⟩
  | binary op lhs rhs ihl ihr =>
      obtain ⟨hlhs, hrhs⟩ := hasWords_binary_iff.mp he
      unfold flattenWith at h
      split at h
      · cases h
      · rename_i left locals' hflat
        obtain ⟨hleft, hlocals'⟩ := ihl hlhs hlocals hflat
        split at h
        · cases h
        · rename_i right locals'' hflat'
          obtain ⟨hright, hlocals''⟩ := ihr hrhs hlocals' hflat'
          exact formHasWords_flattenBinary hleft hright hlocals'' h

theorem hasWords_simplify {e : Expr} (he : e.HasWords) : (e.simplify dims syms).HasWords := by
  unfold simplify
  split
  · rename_i form locals hflat
    obtain ⟨hform, hlocals⟩ := formHasWords_flattenWith he (by simp) hflat
    exact hasWords_ofLinearForm hlocals hform
  · exact he

end Expr

end AffineLoops
