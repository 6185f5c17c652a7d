import AffineLoops.Proofs.Expr.Irreducible

/-!
# Operations that folding keeps

All operations in an expression that is made without raw constructors are irreducible: folding one
of them again gives the same operation.  This file says what that means for the operands.

* Adding zero and multiplying by one or zero are never kept, since they give an operand or a
  constant (`addConst_zero`, `mulConst_one`, `mulConst_zero`);
* a constant on the left of a sum or product is moved to the right.  What comes out is a part of
  the other operand or has a constant on the right (`addConst_eq_binary`, `mulConst_eq_binary`), so
  it is not the operation that went in unless both operands are constants;
* an operation on two constants is kept only if its result is no word, or if it divides by a
  constant that is not positive (`of_kept_constants`).

A divisor that is not positive is refused by the constructors.  It gets into an expression only if
it replaces another one, and constants that are put in the place of inputs later are then not folded
(`kept_remainder_of_constants`).
-/

namespace AffineLoops.Expr

variable {op : BinaryOp} {e lhs rhs l r : Expr} {a b c : Int}

/-! ## Constants that disappear -/

theorem addConst_zero (he : e.HasWords) : addConst e 0 = e := by
  unfold addConst
  split
  · rename_i a
    rw [Word.add?, add_zero, Word.checked, if_pos (inRange_of_hasWords he)]
  · rfl
  · rfl

theorem mulConst_one (he : e.HasWords) : mulConst e 1 = e := by
  unfold mulConst
  split
  · rename_i a
    rw [Word.mul?, mul_one, Word.checked, if_pos (inRange_of_hasWords he)]
  · rfl
  · rfl

theorem mulConst_zero (e : Expr) : mulConst e 0 = const 0 := by
  unfold mulConst
  split
  · rw [Word.mul?, mul_zero, Word.checked, if_pos Word.inRange_zero]
  · rfl
  · rfl

theorem binary_ne_lhs (op : BinaryOp) (lhs rhs : Expr) : binary op lhs rhs ≠ lhs := by
  intro heq
  refine notMem_postorder_lhs op lhs rhs ?_
  rw [heq]
  exact self_mem_postorder lhs

theorem ne_zero_of_kept_add (hlhs : lhs.HasWords)
    (hkept : fold .add lhs (const c) = binary .add lhs (const c)) : c ≠ 0 := by
  rintro rfl
  rw [fold_add_const, addConst_zero hlhs] at hkept
  exact binary_ne_lhs _ _ _ hkept.symm

theorem ne_zero_and_ne_one_of_kept_mul (hlhs : lhs.HasWords)
    (hkept : fold .mul lhs (const c) = binary .mul lhs (const c)) : c ≠ 0 ∧ c ≠ 1 := by
  rw [fold_mul_const] at hkept
  constructor
  · rintro rfl
    rw [mulConst_zero] at hkept
    cases hkept
  · rintro rfl
    rw [mulConst_one hlhs] at hkept
    exact binary_ne_lhs _ _ _ hkept.symm

/-! ## Constants that move to the right -/

/-- An operation that comes out of adding a constant has a constant on the right or was there
before. -/
theorem addConst_eq_binary (h : addConst e c = binary op l r) :
    (∃ constant, r = const constant) ∨ binary op l r ∈ e.postorder := by
  fun_induction addConst e c with
  | case1 a c sum hsum => cases h
  | case2 a c hsum =>
      cases h
      exact .inl ⟨c, rfl⟩
  | case3 x a => exact .inr (h ▸ self_mem_postorder _)
  | case4 x a c hc sum hsum ih => exact (ih h).imp_right fun h => mem_postorder_binary.mpr (.inl h)
  | case5 x a c hc hsum =>
      cases h
      exact .inl ⟨c, rfl⟩
  | case6 e => exact .inr (h ▸ self_mem_postorder _)
  | case7 e c hconst hadd hc =>
      cases h
      exact .inl ⟨c, rfl⟩

theorem mulConst_eq_binary (h : mulConst e c = binary op l r) :
    (∃ constant, r = const constant) ∨ binary op l r ∈ e.postorder := by
  fun_induction mulConst e c with
  | case1 a c product hproduct => cases h
  | case2 a c hproduct =>
      cases h
      exact .inl ⟨c, rfl⟩
  | case3 x a => cases h
  | case4 x a => exact .inr (h ▸ self_mem_postorder _)
  | case5 x a c hc hone product hproduct ih =>
      exact (ih h).imp_right fun h => mem_postorder_binary.mpr (.inl h)
  | case6 x a c hc hone hproduct =>
      cases h
      exact .inl ⟨c, rfl⟩
  | case7 e => cases h
  | case8 e => exact .inr (h ▸ self_mem_postorder _)
  | case9 e c hconst hmul hc hone =>
      cases h
      exact .inl ⟨c, rfl⟩

theorem exists_const_rhs_of_kept (hop : ¬ op.isDivision)
    (hkept : fold op (const a) rhs = binary op (const a) rhs) : ∃ b, rhs = const b := by
  by_contra hconst
  have hne (b : Int) (heq : rhs = const b) : False := hconst ⟨b, heq⟩
  cases op with
  | mod | floorDiv | ceilDiv => exact hop rfl
  | add =>
      rw [fold, add] at hkept
      · exact (addConst_eq_binary hkept).elim hconst (notMem_postorder_rhs _ _ _)
      · exact hne
  | mul =>
      rw [fold, mul] at hkept
      · exact (mulConst_eq_binary hkept).elim hconst (notMem_postorder_rhs _ _ _)
      · exact hne

/-! ## Two constants -/

/-- An operation on two constants is kept only if its result is no word or its divisor is not
positive. -/
theorem of_kept_constants (hkept : fold op (const a) (const b) = binary op (const a) (const b)) :
    op.isDivision ∧ b ≤ 0 ∨ ¬ op.isDivision ∧ ¬ Word.InRange (op.apply a b) := by
  by_cases hop : op.isDivision
  · refine .inl ⟨hop, not_lt.mp fun hpos => ?_⟩
    rw [fold_eq_divide hop, divide, if_pos hpos] at hkept
    cases hkept
  · refine .inr ⟨hop, fun hword => ?_⟩
    have hvalue : op.evaluate? a b = some (op.apply a b) := by
      cases op with
      | add | mul => exact Word.checked_eq_some_iff.mpr ⟨hword, rfl⟩
      | mod | floorDiv | ceilDiv => exact absurd rfl hop
    rw [fold_const_const hvalue] at hkept
    cases hkept

/-! ## The result -/

/-- Folding any operation again in an expression that is made without raw constructors gives that
operation.  So no operation in it adds zero or multiplies by zero or one; a constant is the left
operand of a sum or product only if the right one is a constant too; and an operation on two
constants is a sum or product that is no word, or divides by a constant that is not positive. -/
theorem kept_operations (he : e.Folded) (hwords : e.HasWords)
    (hpart : binary op lhs rhs ∈ e.postorder) :
    fold op lhs rhs = binary op lhs rhs ∧
    (op = .add → rhs ≠ const 0) ∧
    (op = .mul → rhs ≠ const 0 ∧ rhs ≠ const 1) ∧
    (¬ op.isDivision → ∀ a, lhs = const a → ∃ b, rhs = const b) ∧
    ∀ a b, lhs = const a → rhs = const b →
      op.isDivision ∧ b ≤ 0 ∨ ¬ op.isDivision ∧ ¬ Word.InRange (op.apply a b) := by
  have hkept : fold op lhs rhs = binary op lhs rhs := he.irreducible _ hpart
  have hlhs : lhs.HasWords := fun part hmem =>
    hwords part (mem_postorder_trans hpart (mem_postorder_binary.mpr (.inl hmem)))
  refine ⟨hkept, ?_, ?_, ?_, ?_⟩
  · rintro rfl rfl
    exact ne_zero_of_kept_add hlhs hkept rfl
  · rintro rfl
    constructor
    · rintro rfl
      exact (ne_zero_and_ne_one_of_kept_mul hlhs hkept).1 rfl
    · rintro rfl
      exact (ne_zero_and_ne_one_of_kept_mul hlhs hkept).2 rfl
  · rintro hop a rfl
    exact exists_const_rhs_of_kept hop hkept
  · rintro a b rfl rfl
    exact of_kept_constants hkept

/-- The remainder of one more than the largest word. -/
def beyondLargest : Expr :=
  binary .mod (binary .add (const Word.maxValue) (const 1)) (const 2)

theorem kept_operations_beyondLargest :
    beyondLargest.Folded ∧ beyondLargest.HasWords ∧
    binary .add (const Word.maxValue) (const 1) ∈ beyondLargest.postorder ∧
    ¬ Word.InRange (Word.maxValue + 1) := by
  have hfolded : beyondLargest.Folded :=
    .build .mod (.add (.const Word.maxValue) (.const 1)) (.const 2) rfl
  have hwords : beyondLargest.HasWords := by decide
  have hpart : binary .add (const Word.maxValue) (const 1) ∈ beyondLargest.postorder := by decide
  obtain ⟨-, -, -, -, hconstants⟩ := kept_operations hfolded hwords hpart
  refine ⟨hfolded, hwords, hpart, ?_⟩
  exact ((hconstants _ _ rfl rfl).resolve_left fun h => absurd h.1 (by decide)).2

/-- A remainder by two in which the divisor is replaced and the dividend becomes known. -/
def withReplacedDivisor : Expr :=
  substitute [const 5] [] (replace (const 2) (const (-1)) (binary .mod (dim 0) (const 2)))

/-- A remainder of two words is kept, although it is a word. -/
theorem kept_remainder_of_constants :
    ¬ ∀ e : Expr, e.Folded → e.HasWords → ∀ op a b, binary op (const a) (const b) ∈ e.postorder →
      ¬ Word.InRange (op.apply a b) := by
  intro h
  have hparity : Folded (binary .mod (dim 0) (const 2)) := .build .mod (.dim 0) (.const 2) rfl
  have hfolded : withReplacedDivisor.Folded :=
    .substitute (.replace hparity (.const 2) (.const (-1))) (by simpa using .const 5) (by simp)
  exact h _ hfolded (by decide) .mod 5 (-1) (by decide) (by decide)

end AffineLoops.Expr
