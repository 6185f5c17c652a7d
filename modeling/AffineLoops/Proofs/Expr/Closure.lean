import AffineLoops.Proofs.Expr.Simplification

/-!
# Simplification is made of folding operations

To simplify an expression is to flatten it and to put the linear form together again.  Both build
expressions with the folding operations only: sums and multiples of terms, and quotients and
remainders by positive constants.  A property of the inputs and constants that these operations
keep (`FoldClosed`) is therefore a property of every local term (`FoldClosed.flattenWith`), of every
sum of such terms (`FoldClosed.ofLinearForm`), and of the simplified expression
(`FoldClosed.simplify`).
-/

namespace AffineLoops.Expr

/-- A property of inputs and constants that the folding operations keep. -/
structure FoldClosed (p : Expr → Prop) : Prop where
  dim : ∀ position, p (.dim position)
  sym : ∀ position, p (.sym position)
  const : ∀ constant, p (.const constant)
  add : ∀ {lhs rhs : Expr}, p lhs → p rhs → p (lhs.add rhs)
  mulConst : ∀ {e : Expr}, p e → ∀ factor, p (e.mulConst factor)
  divide : ∀ {op : BinaryOp} {lhs : Expr} {divisor : Int}, op.isDivision → p lhs → 0 < divisor →
    p (divide op lhs (.const divisor))

/-- The local terms are those there were, and the one that is looked up. -/
theorem forall_mem_localForm {p : Expr → Prop} {dims syms : Nat} {locals : List Expr} {term : Expr}
    (hterm : p term) (hlocals : ∀ term ∈ locals, p term) :
    ∀ term' ∈ (localForm dims syms term locals).2, p term' := by
  unfold localForm
  split
  · exact hlocals
  · intro term' hmem
    rcases List.mem_append.mp hmem with hmem | hmem
    · exact hlocals term' hmem
    · rw [List.mem_singleton.mp hmem]
      exact hterm

namespace FoldClosed

variable {p : Expr → Prop} {dims syms : Nat} {locals : List Expr} {form : LinearForm}
  (hp : FoldClosed p)

include hp

theorem addConst {e : Expr} (he : p e) (constant : Int) : p (e.addConst constant) := by
  have hsum : e.add (.const constant) = e.addConst constant := by rw [Expr.add]
  rw [← hsum]
  exact hp.add he (hp.const constant)

/-! ## Linear forms -/

theorem termAt (hlocals : ∀ term ∈ locals, p term) (index : Nat) :
    p (termAt dims syms locals index) := by
  unfold Expr.termAt
  split
  · exact hp.dim index
  · split
    · exact hp.sym _
    · rw [List.getD_eq_getElem?_getD]
      cases hat : locals[index - dims - syms]? with
      | none => exact hp.const 0
      | some term => exact hlocals term (List.mem_of_getElem? hat)

theorem sumTerms {index : Nat} {row : List Int} {partialSum : Option Expr}
    (hlocals : ∀ term ∈ locals, p term) (hpartial : ∀ sum ∈ partialSum, p sum) :
    ∀ sum ∈ sumTerms dims syms locals index row partialSum, p sum := by
  induction row generalizing index partialSum with
  | nil => simpa [Expr.sumTerms] using hpartial
  | cons coefficient row ih =>
      have hterm : p (Expr.termAt dims syms locals index) := hp.termAt hlocals index
      have hscaled : p (if coefficient = 1 then Expr.termAt dims syms locals index
          else (Expr.termAt dims syms locals index).mulConst coefficient) := by
        split
        · exact hterm
        · exact hp.mulConst hterm coefficient
      rw [Expr.sumTerms]
      split
      · exact ih hpartial
      · refine ih ?_
        cases partialSum with
        | none => simpa using hscaled
        | some sum => simpa using hp.add (hpartial sum rfl) hscaled

theorem ofLinearForm (hlocals : ∀ term ∈ locals, p term) :
    p (ofLinearForm dims syms locals form) := by
  have hsum : ∀ sum ∈ Expr.sumTerms dims syms locals 0 form.coefficients none, p sum :=
    hp.sumTerms hlocals (by simp)
  unfold Expr.ofLinearForm
  split
  · rename_i sum heq
    split
    · exact hsum sum heq
    · exact hp.addConst (hsum sum heq) _
  · exact hp.const _

/-! ## Local terms -/

theorem flattenDivision {op : BinaryOp} {divisor : Int} (hop : op.isDivision)
    (hdivisor : 0 < divisor) (hlocals : ∀ term ∈ locals, p term) :
    ∀ term ∈ (flattenDivision dims syms op form divisor locals).2, p term := by
  -- what the divisor shares with the entries divides it, so that the rest of it is positive
  have hcommon : 0 < divisor / (form.commonDivisor divisor : Int) :=
    Int.ediv_pos_of_pos_of_dvd hdivisor (Int.natCast_nonneg _) (form.commonDivisor_dvd divisor)
  have hlocal (rest : LinearForm) {divisor' : Int} (hpos : 0 < divisor') :
      ∀ term ∈ (Expr.localForm dims syms
        (Expr.divide op (Expr.ofLinearForm dims syms locals rest) (.const divisor')) locals).2,
        p term :=
    forall_mem_localForm (hp.divide hop (hp.ofLinearForm hlocals) hpos) hlocals
  unfold Expr.flattenDivision
  dsimp only
  split
  · split
    · exact hlocals
    · exact hlocal _ hdivisor
  · split
    · exact hlocals
    · exact hlocal _ hcommon

theorem flattenBinary {op : BinaryOp} {left right : LinearForm}
    {result : LinearForm × List Expr} (hlocals : ∀ term ∈ locals, p term)
    (h : flattenBinary dims syms op left right locals = some result) :
    ∀ term ∈ result.2, p term := by
  have hsame {form? : Option LinearForm} (h : form?.map (·, locals) = some result) :
      ∀ term ∈ result.2, p term := by
    obtain ⟨form, -, rfl⟩ := Option.map_eq_some_iff.mp h
    exact hlocals
  cases op with
  | add => exact hsame h
  | mul =>
      rw [Expr.flattenBinary] at h
      split at h
      · exact hsame h
      · split at h
        · exact hsame h
        · cases h
  | mod | floorDiv | ceilDiv =>
      obtain ⟨⟨-, hpos⟩, ⟨⟩⟩ := Option.ite_none_right_eq_some.mp h
      exact hp.flattenDivision rfl hpos hlocals

theorem flattenWith {e : Expr} {result : LinearForm × List Expr}
    (hlocals : ∀ term ∈ locals, p term) (h : flattenWith dims syms e locals = some result) :
    ∀ term ∈ result.2, p term := by
  induction e generalizing locals result with
  | dim position | sym position =>
      obtain ⟨-, ⟨⟩⟩ := Option.ite_none_right_eq_some.mp h
      exact hlocals
  | const constant =>
      obtain rfl := Option.some.inj h
      exact hlocals
  | binary op lhs rhs ihl ihr =>
      unfold Expr.flattenWith at h
      split at h
      · cases h
      · rename_i left locals' hlhs
        split at h
        · cases h
        · rename_i right locals'' hrhs
          exact hp.flattenBinary (ihr (ihl hlocals hlhs) hrhs) h

/-- A simplified expression has every property that folding keeps, if the expression has it. -/
theorem simplify {e : Expr} (he : p e) : p (e.simplify dims syms) := by
  unfold Expr.simplify
  split
  · rename_i form locals hflat
    exact hp.ofLinearForm (hp.flattenWith (by simp) hflat)
  · exact he

end FoldClosed

end AffineLoops.Expr
