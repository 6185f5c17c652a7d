import AffineLoops.Proofs.AffineMap.Folding
import AffineLoops.Proofs.Expr.Machine

/-!
# Maps of words

Folding a map at known inputs puts constants in the place of inputs, so its results and values are
words if the map and the constants are of words (`AffineMap.hasWords_foldConstants`).

This is the last of the operations that build expressions, and `constants_stay_words` sums up what
is known of them: none of them ever builds a constant that is no word, and none of them stops a
machine that divides without a check.
-/

namespace AffineLoops

namespace AffineMap

variable {map folded : AffineMap} {constants : List (Option Int)} {values : Option (List Int)}
  (hconstants : ∀ constant ∈ constants, ∀ value ∈ constant, Word.InRange value)

include hconstants

theorem hasWords_knownInputs (map : AffineMap) :
    (∀ e ∈ (map.knownInputs constants).1, e.HasWords) ∧
      ∀ e ∈ (map.knownInputs constants).2, e.HasWords := by
  refine ⟨fun e he => ?_, fun e he => ?_⟩
  · obtain ⟨position, hlt, rfl⟩ := List.mem_mapIdx.mp he
    dsimp only
    split
    · rename_i value hvalue
      exact Expr.hasWords_const_iff.mpr
        (hconstants _ (List.mem_of_mem_take (List.getElem_mem hlt)) value hvalue)
    · exact Expr.hasWords_dim position
  · obtain ⟨position, hlt, rfl⟩ := List.mem_mapIdx.mp he
    dsimp only
    split
    · rename_i value hvalue
      exact Expr.hasWords_const_iff.mpr
        (hconstants _ (List.mem_of_mem_drop (List.getElem_mem hlt)) value hvalue)
    · exact Expr.hasWords_sym position

theorem hasWords_atKnown {e : Expr} (he : e.HasWords) : (map.atKnown constants e).HasWords :=
  Expr.hasWords_substitute (hasWords_knownInputs hconstants map).1
    (hasWords_knownInputs hconstants map).2 he

/-- The results of a folded map are of words, and so are the values if there are any. -/
theorem hasWords_foldConstants (hmap : ∀ result ∈ map.results, result.HasWords)
    (h : map.foldConstants constants = .ok (folded, values)) :
    (∀ result ∈ folded.results, result.HasWords) ∧
      ∀ list ∈ values, ∀ value ∈ list, Word.InRange value := by
  obtain ⟨-, rfl, rfl⟩ := foldConstants_eq_ok_iff.mp h
  have hresults : ∀ result ∈ map.results.map (map.foldedResult constants), result.HasWords := by
    intro result hresult
    obtain ⟨e, he, rfl⟩ := List.mem_map.mp hresult
    rcases foldedResult_cases map constants e with hkept | ⟨constant, hfolded, hconstant⟩
    · rw [hkept]
      exact hmap e he
    · rw [hfolded, ← hconstant]
      exact hasWords_atKnown hconstants (hmap e he)
  refine ⟨hresults, fun list hlist value hvalue => ?_⟩
  rw [mapM_constant?_eq_some_iff.mp hlist] at hresults
  exact Expr.hasWords_const_iff.mp (hresults _ (List.mem_map_of_mem hvalue))

end AffineMap

/-- Constants never leave the range of words, and no machine stops.  A quotient or remainder by a
positive word is a word.  An operation on expressions of words is folded to one of words, and so are
differences and negations; substituting expressions of words in one of words gives one of words;
flattening an expression gives a form and local terms of words, also where there are local terms of
words before, and simplifying it gives an expression of words; and folding a map at known words
gives results and values that are words.  Where any of this divides, the machine has a divisor other
than zero, and its quotient and the corrected quotient are words. -/
theorem constants_stay_words :
    (∀ (op : BinaryOp) (a b : Int), op.isDivision → Word.InRange a → Word.InRange b → 0 < b →
      Machine.apply op a b = .ok (op.apply a b) ∧ Word.InRange (op.apply a b)) ∧
    (∀ (op : BinaryOp) (lhs rhs : Expr), lhs.HasWords → rhs.HasWords →
      Machine.fold op lhs rhs = .ok (Expr.fold op lhs rhs) ∧ (Expr.fold op lhs rhs).HasWords ∧
        (lhs.sub rhs).HasWords ∧ lhs.neg.HasWords) ∧
    (∀ (dims syms : List Expr) (e : Expr), (∀ d ∈ dims, d.HasWords) → (∀ s ∈ syms, s.HasWords) →
      e.HasWords →
      Machine.substitute dims syms e = .ok (e.substitute dims syms) ∧
        (e.substitute dims syms).HasWords) ∧
    (∀ (dims syms : Nat) (e : Expr) (locals : List Expr), e.HasWords →
      (∀ term ∈ locals, term.HasWords) →
      Machine.flattenWith dims syms e locals = .ok (Expr.flattenWith dims syms e locals) ∧
        ∀ form locals', Expr.flattenWith dims syms e locals = some (form, locals') →
          (∀ coefficient ∈ form.coefficients, Word.InRange coefficient) ∧
            Word.InRange form.constant ∧ ∀ term ∈ locals', term.HasWords) ∧
    (∀ (dims syms : Nat) (e : Expr), e.HasWords →
      Machine.simplify dims syms e = .ok (e.simplify dims syms) ∧
        (e.simplify dims syms).HasWords) ∧
    ∀ (map : AffineMap) (constants : List (Option Int)),
      (∀ result ∈ map.results, result.HasWords) →
      (∀ constant ∈ constants, ∀ value ∈ constant, Word.InRange value) →
      (∀ result ∈ map.results,
        Machine.substitute (map.knownInputs constants).1 (map.knownInputs constants).2 result =
          .ok (map.atKnown constants result)) ∧
      ∀ folded values, map.foldConstants constants = .ok (folded, values) →
        (∀ result ∈ folded.results, result.HasWords) ∧
          ∀ list ∈ values, ∀ value ∈ list, Word.InRange value := by
  refine ⟨?_, ?_, ?_, ?_, ?_, ?_⟩
  · intro op a b hop ha hb hpos
    exact ⟨Machine.apply_eq ha hpos hop hb, BinaryOp.inRange_apply hop ha hb hpos⟩
  · intro op lhs rhs hlhs hrhs
    exact ⟨Machine.fold_eq hlhs hrhs, Expr.hasWords_fold hlhs hrhs,
      Expr.hasWords_add hlhs (Expr.hasWords_neg hrhs), Expr.hasWords_neg hlhs⟩
  · intro dims syms e hdims hsyms he
    exact ⟨Machine.substitute_eq hdims hsyms he, Expr.hasWords_substitute hdims hsyms he⟩
  · intro dims syms e locals he hlocals
    refine ⟨Machine.flattenWith_eq he hlocals, fun form locals' hflat => ?_⟩
    obtain ⟨hform, hlocals'⟩ := Expr.formHasWords_flattenWith he hlocals hflat
    exact ⟨hform.coefficients, hform.constant, hlocals'⟩
  · intro dims syms e he
    exact ⟨Machine.simplify_eq he, Expr.hasWords_simplify he⟩
  · intro map constants hmap hconstants
    obtain ⟨hdims, hsyms⟩ := AffineMap.hasWords_knownInputs hconstants map
    exact ⟨fun result hresult => Machine.substitute_eq hdims hsyms (hmap result hresult),
      fun folded values => AffineMap.hasWords_foldConstants hconstants hmap⟩

/-- A quotient of the smallest multiple and the smallest constant. -/
def halfOfSmallest : Expr :=
  .binary .ceilDiv (.binary .add (.binary .mul (.dim 0) (.const Word.minValue))
    (.const Word.minValue)) (.const 2)

/-- The machine does stop elsewhere, for instance at the same dividend and the divisor `-1`. -/
theorem constants_stay_words_halfOfSmallest :
    Machine.apply .floorDiv Word.minValue (-1) = .error .overflow ∧
    Machine.apply .mod Word.minValue 0 = .error .zeroDivisor ∧
    Machine.apply .floorDiv Word.minValue 1 = .ok Word.minValue ∧
    halfOfSmallest.HasWords ∧
    Machine.simplify 1 0 halfOfSmallest = .ok (halfOfSmallest.simplify 1 0) ∧
    (halfOfSmallest.simplify 1 0).HasWords := by
  obtain ⟨hwords, -, -, -, hsimplify, -⟩ := constants_stay_words
  have hsmallest : halfOfSmallest.HasWords := by decide
  refine ⟨rfl, rfl, ?_, hsmallest, hsimplify 1 0 halfOfSmallest hsmallest⟩
  exact (hwords .floorDiv Word.minValue 1 rfl (by decide) (by decide) (by decide)).1

end AffineLoops
