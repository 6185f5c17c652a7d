import AffineLoops.Proofs.Expr.Words

/-!
# Division by machine

A machine divides words toward zero, and corrects the quotient by one where it is to be rounded down
or up.  It stops at a divisor that is zero, and at a result that is no word.  Sums and products of
constants are checked before they are used, but quotients and remainders are not: folding and
flattening leave them to the machine.

This file does the same, step by step, for everything that builds expressions with quotients and
remainders.  Each function of `Machine` follows the function of expressions of the same name, with
the machine in the place of exact arithmetic, and each of them is shown to give the exact result on
expressions of words (`fold_eq`, `transform_eq`, `flattenWith_eq`, `simplify_eq`).  So the machine
never stops, although nothing asks it beforehand whether it will.

The reasons lie apart.  Divisors are positive words, since no others are folded; what a divisor and
the entries of a form have in common is at most the divisor and at least one; and a quotient is
only corrected if something is left over.
-/

namespace AffineLoops

/-- Why a machine stops. -/
inductive Trap where
  | zeroDivisor
  | overflow
  deriving DecidableEq

namespace Machine

open AffineLoops.Expr

theorem ok_bind {α β : Type} (a : α) (next : α → Except Trap β) : (Except.ok a >>= next) = next a :=
  rfl

/-! ## Words -/

/-- The result of a division. -/
def divided (divisor : Int) (result : Option Int) : Except Trap Int :=
  if divisor = 0 then .error .zeroDivisor
  else
    match result with
    | none => .error .overflow
    | some value => .ok value

/-- The quotient toward zero. -/
def quotient (a b : Int) : Except Trap Int := divided b (Word.checked (a.tdiv b))

/-- What the quotient toward zero leaves.  The machine divides, so it stops where the quotient is no
word. -/
def rest (a b : Int) : Except Trap Int :=
  divided b ((Word.checked (a.tdiv b)).map fun _ => a.tmod b)

/-- A quotient rounded down or up, or a remainder that is not negative. -/
def apply (op : BinaryOp) (a b : Int) : Except Trap Int :=
  divided b <|
    match op with
    | .floorDiv => Word.floorDiv? a b
    | .ceilDiv => Word.ceilDiv? a b
    | _ => (Word.checked (a.tdiv b)).bind fun _ => Word.remainder? a b

section Words

variable {a b : Int} (ha : Word.InRange a) (hb : 0 < b)

include hb in
theorem divided_some {value : Int} : divided b (some value) = .ok value := by
  rw [divided, if_neg hb.ne']

include ha hb

theorem quotient_eq : quotient a b = .ok (a.tdiv b) := by
  rw [quotient, Word.checked_eq_some_iff.mpr ⟨Word.inRange_tdiv hb ha, rfl⟩, divided_some hb]

theorem rest_eq : rest a b = .ok (a.tmod b) := by
  rw [rest, Word.checked_eq_some_iff.mpr ⟨Word.inRange_tdiv hb ha, rfl⟩, Option.map_some,
    divided_some hb]

/-- Where nothing is left over the quotient is exact. -/
theorem quotient_eq_of_dvd (hdvd : b ∣ a) : quotient a b = .ok (a / b) := by
  rw [quotient_eq ha hb, Int.tdiv_eq_ediv_of_dvd hdvd]

theorem apply_eq {op : BinaryOp} (hop : op.isDivision) (hb' : Word.InRange b) :
    apply op a b = .ok (op.apply a b) := by
  unfold apply
  cases op with
  | add | mul => cases hop
  | mod =>
      dsimp only
      rw [Word.checked_eq_some_iff.mpr ⟨Word.inRange_tdiv hb ha, rfl⟩, Option.bind_some,
        Word.remainder?_of_inRange hb hb', divided_some hb]
      rfl
  | floorDiv =>
      dsimp only
      rw [Word.floorDiv?_of_inRange hb ha, divided_some hb]
      rfl
  | ceilDiv =>
      dsimp only
      rw [Word.ceilDiv?_of_inRange hb ha, divided_some hb]
      rfl

end Words

/-! ## Folding operations -/

/-- The folded quotient or remainder by a positive constant. -/
def divConst (op : BinaryOp) (lhs : Expr) (divisor : Int) : Except Trap Expr :=
  match lhs with
  | const a => (apply op a divisor).map const
  | binary .mul x (const factor) =>
      if divisor = 1 then .ok (if op = .mod then const 0 else lhs)
      else do
        let left ← rest factor divisor
        if left = 0 then
          if op = .mod then return const 0 else return mulConst x (← quotient factor divisor)
        else return binary op lhs (const divisor)
  | _ =>
      .ok <| if divisor = 1 then if op = .mod then const 0 else lhs
        else binary op lhs (const divisor)

/-- The folded quotient or remainder. -/
def divide (op : BinaryOp) (lhs rhs : Expr) : Except Trap Expr :=
  match rhs with
  | const divisor => if 0 < divisor then divConst op lhs divisor else .ok (binary op lhs rhs)
  | _ => .ok (binary op lhs rhs)

/-- Builds an operation and folds it. -/
def fold : BinaryOp → Expr → Expr → Except Trap Expr
  | .add, lhs, rhs => .ok (add lhs rhs)
  | .mul, lhs, rhs => .ok (mul lhs rhs)
  | op, lhs, rhs => divide op lhs rhs

section Folding

variable {op : BinaryOp} {lhs rhs : Expr} {divisor : Int}

theorem divConst_eq (hop : op.isDivision) (hlhs : lhs.HasWords) (hdivisor : Word.InRange divisor)
    (hpos : 0 < divisor) : divConst op lhs divisor = .ok (Expr.divConst op lhs divisor) := by
  unfold divConst
  split
  · rename_i a
    rw [apply_eq (hasWords_const_iff.mp hlhs) hpos hop hdivisor]
    rfl
  · rename_i x factor
    have hfactor : Word.InRange factor :=
      hasWords_const_iff.mp (hasWords_binary_iff.mp hlhs).2
    rw [Expr.divConst]
    split
    · rfl
    · rw [rest_eq hfactor hpos, ok_bind]
      by_cases hdvd : divisor ∣ factor
      · rw [if_pos (Int.dvd_iff_tmod_eq_zero.mp hdvd), if_pos (Int.dvd_iff_emod_eq_zero.mp hdvd),
          quotient_eq_of_dvd hfactor hpos hdvd, ok_bind]
        split
        · rfl
        · rfl
      · rw [if_neg fun h => hdvd (Int.dvd_iff_tmod_eq_zero.mpr h),
          if_neg fun h => hdvd (Int.dvd_iff_emod_eq_zero.mpr h)]
        rfl
  · rename_i hconst hmul
    refine congrArg Except.ok (Eq.symm ?_)
    unfold Expr.divConst
    split
    · exact absurd rfl (hconst _)
    · split
      · rfl
      · split
        · exact absurd rfl (hmul _ _)
        · rfl

theorem divide_eq (hop : op.isDivision) (hlhs : lhs.HasWords) (hrhs : rhs.HasWords) :
    divide op lhs rhs = .ok (Expr.divide op lhs rhs) := by
  cases rhs with
  | dim position | sym position | binary op' lhs' rhs' => rfl
  | const divisor =>
      rw [divide, Expr.divide]
      split
      · rename_i hpos
        exact divConst_eq hop hlhs (hasWords_const_iff.mp hrhs) hpos
      · rfl

/-- Folding by machine is exact. -/
theorem fold_eq (hlhs : lhs.HasWords) (hrhs : rhs.HasWords) :
    fold op lhs rhs = .ok (Expr.fold op lhs rhs) := by
  cases op with
  | add | mul => rfl
  | mod | floorDiv | ceilDiv => exact divide_eq rfl hlhs hrhs

end Folding

/-! ## Substitution -/

/-- Replaces the outermost subterms for which `replacement?` has an answer. -/
def transform (replacement? : Expr → Option Expr) : Expr → Except Trap Expr
  | binary op lhs rhs =>
      match replacement? (binary op lhs rhs) with
      | some e => .ok e
      | none => do
          let newLhs ← transform replacement? lhs
          let newRhs ← transform replacement? rhs
          if newLhs = lhs ∧ newRhs = rhs then return binary op lhs rhs else fold op newLhs newRhs
  | leaf => .ok ((replacement? leaf).getD leaf)

/-- Puts expressions in the place of dimensions and symbols. -/
def substitute (dims syms : List Expr) (e : Expr) : Except Trap Expr :=
  transform (inputReplacement? dims syms) e

theorem transform_eq {replacement? : Expr → Option Expr}
    (hreplacement : ∀ part new, replacement? part = some new → new.HasWords) {e : Expr}
    (he : e.HasWords) : transform replacement? e = .ok (Expr.transform replacement? e) := by
  induction e with
  | dim position | sym position | const constant => rfl
  | binary op lhs rhs ihl ihr =>
      obtain ⟨hlhs, hrhs⟩ := hasWords_binary_iff.mp he
      rw [transform, Expr.transform]
      cases replacement? (binary op lhs rhs) with
      | some new => rfl
      | none =>
          dsimp only
          rw [ihl hlhs, ihr hrhs, ok_bind, ok_bind]
          split
          · rfl
          · exact fold_eq (hasWords_transform hreplacement hlhs)
              (hasWords_transform hreplacement hrhs)

theorem substitute_eq {dims syms : List Expr} (hdims : ∀ d ∈ dims, d.HasWords)
    (hsyms : ∀ s ∈ syms, s.HasWords) {e : Expr} (he : e.HasWords) :
    substitute dims syms e = .ok (e.substitute dims syms) :=
  transform_eq (fun _ _ => hasWords_inputReplacement? hdims hsyms) he

/-! ## Linear forms -/

/-- The form of a quotient by a divisor that has nothing in common with all entries. -/
def resolve (dims syms : Nat) (op : BinaryOp) (form : LinearForm) (divisor : Int)
    (locals : List Expr) : Except Trap (Option (LinearForm × List Expr)) := do
  let left ← form.coefficients.mapM (rest · divisor)
  if left.all (· == 0) then
    let row ← form.coefficients.mapM (quotient · divisor)
    let constant ← apply op form.constant divisor
    return some (⟨row, constant⟩, locals)
  else
    let term ← divide op (ofLinearForm dims syms locals form) (const divisor)
    return some (localForm dims syms term locals)

/-- The form of a quotient or remainder of a form by a positive divisor.  What the divisor and the
entries have in common is found as an unsigned word, and no form is given if it is too large. -/
def flattenDivision (dims syms : Nat) (op : BinaryOp) (form : LinearForm) (divisor : Int)
    (locals : List Expr) : Except Trap (Option (LinearForm × List Expr)) :=
  if op = .mod then do
    let row ← form.coefficients.mapM (apply op · divisor)
    let constant ← apply op form.constant divisor
    if LinearForm.isConst ⟨row, constant⟩ then return some (.ofConst constant, locals)
    else
      let term ← divide op (ofLinearForm dims syms locals ⟨row, constant⟩) (const divisor)
      return some (localForm dims syms term locals)
  else
    let common : Int := form.commonDivisor divisor
    if ¬ Word.InRange common then .ok none
    else if 1 < common then do
      let row ← form.coefficients.mapM (quotient · common)
      let constant ← quotient form.constant common
      resolve dims syms op ⟨row, constant⟩ (← quotient divisor common) locals
    else resolve dims syms op form divisor locals

/-- The form of an operation on two forms. -/
def flattenBinary (dims syms : Nat) (op : BinaryOp) (left right : LinearForm)
    (locals : List Expr) : Except Trap (Option (LinearForm × List Expr)) :=
  match op with
  | .add => .ok ((left.add? right).map (·, locals))
  | .mul =>
      .ok <|
        if right.isConst then (left.scale? right.constant).map (·, locals)
        else if left.isConst then (right.scale? left.constant).map (·, locals)
        else none
  | _ =>
      if right.isConst ∧ 0 < right.constant then
        flattenDivision dims syms op left right.constant locals
      else .ok none

/-- The linear form of an expression, beside the local terms met so far. -/
def flattenWith (dims syms : Nat) :
    Expr → List Expr → Except Trap (Option (LinearForm × List Expr))
  | dim position, locals => .ok (if position < dims then some (.ofTerm position, locals) else none)
  | sym position, locals =>
      .ok (if position < syms then some (.ofTerm (dims + position), locals) else none)
  | const value, locals => .ok (some (.ofConst value, locals))
  | binary op lhs rhs, locals => do
      match ← flattenWith dims syms lhs locals with
      | none => return none
      | some (left, locals) =>
          match ← flattenWith dims syms rhs locals with
          | none => return none
          | some (right, locals) => flattenBinary dims syms op left right locals

/-- The expression of the linear form, or the expression itself if it has none. -/
def simplify (dims syms : Nat) (e : Expr) : Except Trap Expr := do
  match ← flattenWith dims syms e [] with
  | some (form, locals) => return ofLinearForm dims syms locals form
  | none => return e

section Forms

variable {dims syms : Nat} {locals : List Expr} {form : LinearForm} {op : BinaryOp} {divisor : Int}

/-- A row is computed entry by entry. -/
theorem mapM_eq_ok {compute : Int → Except Trap Int} {exact : Int → Int} {row : List Int}
    (h : ∀ entry ∈ row, compute entry = .ok (exact entry)) :
    row.mapM compute = .ok (row.map exact) := by
  induction row with
  | nil => rfl
  | cons entry row ih =>
      obtain ⟨hentry, hrow⟩ := List.forall_mem_cons.mp h
      rw [List.mapM_cons, hentry, ih hrow]
      rfl

theorem mapM_quotient_eq (hrow : ∀ entry ∈ form.coefficients, Word.InRange entry)
    (hpos : 0 < divisor) (hdvd : ∀ entry ∈ form.coefficients, divisor ∣ entry) :
    form.coefficients.mapM (quotient · divisor) = .ok (form.coefficients.map (· / divisor)) :=
  mapM_eq_ok fun entry hentry => quotient_eq_of_dvd (hrow entry hentry) hpos (hdvd entry hentry)

/-- The term that a division leaves is the same by machine. -/
theorem divide_ofLinearForm_eq (hop : op.isDivision) (hlocals : ∀ term ∈ locals, term.HasWords)
    (hform : form.HasWords) (hdivisor : Word.InRange divisor) :
    divide op (ofLinearForm dims syms locals form) (const divisor) =
      .ok (Expr.divide op (ofLinearForm dims syms locals form) (const divisor)) :=
  divide_eq hop (hasWords_ofLinearForm hlocals hform) (hasWords_const_iff.mpr hdivisor)

theorem all_tmod_eq (row : List Int) (divisor : Int) :
    (row.map (·.tmod divisor)).all (· == 0) = row.all (· % divisor == 0) := by
  rw [List.all_map]
  refine List.all_congr rfl fun entry => ?_
  rw [Function.comp_apply, Bool.eq_iff_iff, beq_iff_eq, beq_iff_eq, ← Int.dvd_iff_tmod_eq_zero,
    Int.dvd_iff_emod_eq_zero]

theorem resolve_eq (hop : op.isDivision) (hform : form.HasWords)
    (hlocals : ∀ term ∈ locals, term.HasWords) (hdivisor : Word.InRange divisor)
    (hpos : 0 < divisor) :
    resolve dims syms op form divisor locals = .ok (some <|
      if form.coefficients.all (· % divisor == 0) then
        (⟨form.coefficients.map (· / divisor), op.apply form.constant divisor⟩, locals)
      else localForm dims syms
        (Expr.divide op (ofLinearForm dims syms locals form) (const divisor)) locals) := by
  have hleft : form.coefficients.mapM (rest · divisor) =
      .ok (form.coefficients.map (·.tmod divisor)) :=
    mapM_eq_ok fun entry hentry => rest_eq (hform.coefficients entry hentry) hpos
  rw [resolve, hleft, ok_bind, all_tmod_eq]
  split
  · rename_i hall
    have hdvd : ∀ entry ∈ form.coefficients, divisor ∣ entry := fun entry hentry =>
      Int.dvd_of_emod_eq_zero (beq_iff_eq.mp (List.all_eq_true.mp hall entry hentry))
    rw [mapM_quotient_eq hform.coefficients hpos hdvd, ok_bind,
      apply_eq hform.constant hpos hop hdivisor]
    rfl
  · rw [divide_ofLinearForm_eq hop hlocals hform hdivisor]
    rfl

/-- The entries of a form are reduced exactly. -/
theorem flattenDivision_mod_eq (hform : form.HasWords) (hlocals : ∀ term ∈ locals, term.HasWords)
    (hdivisor : Word.InRange divisor) (hpos : 0 < divisor) :
    flattenDivision dims syms .mod form divisor locals =
      .ok (some (Expr.flattenDivision dims syms .mod form divisor locals)) := by
  have hrow : form.coefficients.mapM (apply .mod · divisor) =
      .ok (form.reduce divisor).coefficients :=
    mapM_eq_ok fun entry hentry => apply_eq (hform.coefficients entry hentry) hpos rfl hdivisor
  have hconstant : apply .mod form.constant divisor = .ok (form.reduce divisor).constant :=
    apply_eq hform.constant hpos rfl hdivisor
  rw [flattenDivision, if_pos rfl, hrow, ok_bind, hconstant, ok_bind, Expr.flattenDivision,
    if_pos rfl]
  dsimp only
  split
  · rfl
  · rw [divide_ofLinearForm_eq rfl hlocals (hform.reduce hpos hdivisor) hdivisor]
    rfl

/-- What is common is cancelled exactly, and it is a word. -/
theorem flattenDivision_quotient_eq (hop : op.isDivision) (hmod : op ≠ .mod)
    (hform : form.HasWords) (hlocals : ∀ term ∈ locals, term.HasWords)
    (hdivisor : Word.InRange divisor) (hpos : 0 < divisor) :
    flattenDivision dims syms op form divisor locals =
      .ok (some (Expr.flattenDivision dims syms op form divisor locals)) := by
  have hcommonPos : 0 < (form.commonDivisor divisor : Int) := form.commonDivisor_pos hpos
  have hcommon : Word.InRange (form.commonDivisor divisor) := by
    have hle := Int.le_of_dvd hpos (form.commonDivisor_dvd divisor)
    exact ⟨(show Word.minValue ≤ 0 by decide).trans hcommonPos.le, hle.trans hdivisor.2⟩
  obtain ⟨hrest, hrestPos⟩ := rest_of_commonDivisor form hdivisor hpos
  have hresolve : resolve dims syms op (form.cancel (form.commonDivisor divisor))
      (divisor / form.commonDivisor divisor) locals =
        .ok (some (Expr.flattenDivision dims syms op form divisor locals)) := by
    rw [resolve_eq hop (hform.cancel hcommonPos) hlocals hrest hrestPos, Expr.flattenDivision,
      if_neg hmod]
  rw [flattenDivision, if_neg hmod]
  dsimp only
  rw [if_neg (not_not.mpr hcommon)]
  split
  · have hrow := mapM_quotient_eq hform.coefficients hcommonPos
      fun _ => LinearForm.commonDivisor_dvd_coefficient
    rw [hrow, ok_bind,
      quotient_eq_of_dvd hform.constant hcommonPos (form.commonDivisor_dvd_constant divisor),
      ok_bind, quotient_eq_of_dvd hdivisor hcommonPos (form.commonDivisor_dvd divisor), ok_bind]
    exact hresolve
  · -- nothing is cancelled, which is the same as cancelling one
    have hone : (form.commonDivisor divisor : Int) = 1 := by omega
    rw [← hresolve, hone, LinearForm.cancel]
    simp

theorem flattenDivision_eq (hop : op.isDivision) (hform : form.HasWords)
    (hlocals : ∀ term ∈ locals, term.HasWords) (hdivisor : Word.InRange divisor)
    (hpos : 0 < divisor) :
    flattenDivision dims syms op form divisor locals =
      .ok (some (Expr.flattenDivision dims syms op form divisor locals)) := by
  by_cases hmod : op = .mod
  · subst hmod
    exact flattenDivision_mod_eq hform hlocals hdivisor hpos
  · exact flattenDivision_quotient_eq hop hmod hform hlocals hdivisor hpos

theorem flattenBinary_eq {left right : LinearForm} (hleft : left.HasWords) (hright : right.HasWords)
    (hlocals : ∀ term ∈ locals, term.HasWords) :
    flattenBinary dims syms op left right locals =
      .ok (Expr.flattenBinary dims syms op left right locals) := by
  cases op with
  | add | mul => rfl
  | mod | floorDiv | ceilDiv =>
      unfold flattenBinary Expr.flattenBinary
      dsimp only
      split
      · rename_i hdivisor
        exact flattenDivision_eq rfl hleft hlocals hright.constant hdivisor.2
      · rfl

/-- Flattening by machine is exact. -/
theorem flattenWith_eq {e : Expr} (he : e.HasWords) (hlocals : ∀ term ∈ locals, term.HasWords) :
    flattenWith dims syms e locals = .ok (Expr.flattenWith dims syms e locals) := by
  induction e generalizing locals with
  | dim position | sym position | const constant => rfl
  | binary op lhs rhs ihl ihr =>
      obtain ⟨hlhs, hrhs⟩ := hasWords_binary_iff.mp he
      rw [flattenWith, Expr.flattenWith, ihl hlhs hlocals, ok_bind]
      cases hflat : Expr.flattenWith dims syms lhs locals with
      | none => rfl
      | some result =>
          obtain ⟨hleft, hlocals'⟩ := formHasWords_flattenWith hlhs hlocals hflat
          dsimp only
          rw [ihr hrhs hlocals', ok_bind]
          cases hflat' : Expr.flattenWith dims syms rhs result.2 with
          | none => rfl
          | some result' =>
              obtain ⟨hright, hlocals''⟩ := formHasWords_flattenWith hrhs hlocals' hflat'
              exact flattenBinary_eq hleft hright hlocals''

theorem simplify_eq {e : Expr} (he : e.HasWords) :
    simplify dims syms e = .ok (e.simplify dims syms) := by
  rw [simplify, flattenWith_eq he (by simp), ok_bind, Expr.simplify, flatten?]
  cases Expr.flattenWith dims syms e [] with
  | none => rfl
  | some result => rfl

end Forms

end Machine

end AffineLoops
