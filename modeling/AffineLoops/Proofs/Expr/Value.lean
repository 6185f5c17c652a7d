import AffineLoops.AffineMap.Checked
import AffineLoops.Proofs.Expr.Rounding

/-!
# The exact value of an expression

`Expr.value` reads an expression over unbounded integers: nothing overflows, quotients are
rounded down or up and remainders are not negative (`BinaryOp.apply_eq_meaning`).  The folding
operations work on words and give up where a constant would leave the range of words.  This
file shows that they never change the exact value (`value_fold`) and never mention a position
that their operands do not mention (`within_fold`).

`Expr.Within dimOk symOk` says that all dimensions and symbols of an expression satisfy the
given conditions.  Every statement about the positions of an expression is an instance of it:
positions below the counts of a map (`Expr.InRange`), positions that another expression uses
(`within_iff`), positions that still have an operand.
-/

namespace AffineLoops

/-- Integers for all dimensions and symbols. -/
structure Point where
  dim : Nat → Int
  sym : Nat → Int

/-- The point with the listed coordinates, which is zero beyond the end of the lists. -/
def Point.ofLists (dims syms : List Int) : Point :=
  ⟨fun position => dims.getD position 0, fun position => syms.getD position 0⟩

/-! ## Operators -/

namespace BinaryOp

theorem apply_one {op : BinaryOp} (hop : op.isDivision) (a : Int) :
    op.apply a 1 = if op = .mod then 0 else a := by
  cases op with
  | add => cases hop
  | mul => cases hop
  | mod => exact Int.emod_one a
  | floorDiv => exact Int.ediv_one a
  | ceilDiv => simp [apply, Word.ceilDiv]

theorem apply_mul_of_emod_eq_zero {op : BinaryOp} (hop : op.isDivision) {factor divisor : Int}
    (hfactor : factor % divisor = 0) (a : Int) :
    op.apply (a * factor) divisor = if op = .mod then 0 else a * (factor / divisor) := by
  have hdvd : divisor ∣ factor := Int.dvd_of_emod_eq_zero hfactor
  cases op with
  | add => cases hop
  | mul => cases hop
  | mod => exact Int.emod_eq_zero_of_dvd (hdvd.mul_left a)
  | floorDiv => exact Int.mul_ediv_assoc a hdvd
  | ceilDiv =>
      simp only [apply, Word.ceilDiv, reduceCtorEq, if_false]
      rw [← neg_mul, Int.mul_ediv_assoc _ hdvd, neg_mul, neg_neg]

end BinaryOp

namespace Expr

/-! ## Values -/

/-- The exact value of an expression at a point. -/
def value (point : Point) : Expr → Int
  | dim position => point.dim position
  | sym position => point.sym position
  | const value => value
  | binary op lhs rhs => op.apply (value point lhs) (value point rhs)

section Value

variable (point : Point)

@[simp] theorem value_dim (position : Nat) :
    (dim position).value point = point.dim position := rfl

@[simp] theorem value_sym (position : Nat) :
    (sym position).value point = point.sym position := rfl

@[simp] theorem value_const (constant : Int) : (const constant).value point = constant := rfl

theorem value_binary (op : BinaryOp) (lhs rhs : Expr) :
    (binary op lhs rhs).value point = op.apply (lhs.value point) (rhs.value point) := rfl

@[simp] theorem value_binary_add (lhs rhs : Expr) :
    (binary .add lhs rhs).value point = lhs.value point + rhs.value point := rfl

@[simp] theorem value_binary_mul (lhs rhs : Expr) :
    (binary .mul lhs rhs).value point = lhs.value point * rhs.value point := rfl

/-- An evaluation on words that succeeds gives the exact value. -/
theorem value_of_evaluate? {dims syms : List Int} {e : Expr} {result : Int}
    (h : e.evaluate? dims syms = some result) : e.value (.ofLists dims syms) = result := by
  induction e generalizing result with
  | dim position => simp_all [evaluate?, Point.ofLists]
  | sym position => simp_all [evaluate?, Point.ofLists]
  | const constant => simpa [evaluate?] using h
  | binary op lhs rhs ihl ihr =>
      rw [evaluate?] at h
      split at h
      · cases h
      · rename_i a ha
        split at h
        · cases h
        · rename_i b hb
          rw [value_binary, ihl ha, ihr hb, BinaryOp.eq_of_evaluate? h]

/-! ## Folding keeps the value -/

theorem value_addConst (e : Expr) (c : Int) :
    (addConst e c).value point = e.value point + c := by
  fun_induction addConst e c with
  | case1 a c sum hsum => simp [Word.eq_of_add? hsum]
  | case2 a c hsum => simp
  | case3 x a => simp
  | case4 x a c hc sum hsum ih =>
      rw [ih, ← Word.eq_of_add? hsum, value_binary_add, value_const, add_assoc]
  | case5 x a c hc hsum => simp
  | case6 e hconst hadd => simp
  | case7 e c hconst hadd hc => simp

theorem value_mulConst (e : Expr) (c : Int) :
    (mulConst e c).value point = e.value point * c := by
  fun_induction mulConst e c with
  | case1 a c product hproduct => simp [Word.eq_of_mul? hproduct]
  | case2 a c hproduct => simp
  | case3 x a => simp
  | case4 x a hc => simp
  | case5 x a c hc hone product hproduct ih =>
      rw [ih, ← Word.eq_of_mul? hproduct, value_binary_mul, value_const, mul_assoc]
  | case6 x a c hc hone hproduct => simp
  | case7 e hconst hmul => simp
  | case8 e hconst hmul hc => simp
  | case9 e c hconst hmul hc hone => simp

theorem value_scaledTerm (e : Expr) :
    e.scaledTerm.1.value point * e.scaledTerm.2 = e.value point := by
  unfold scaledTerm
  split <;> simp

theorem value_addTerms (lhs rhs : Expr) :
    (addTerms lhs rhs).value point = lhs.value point + rhs.value point := by
  unfold addTerms
  split
  · rename_i hterm
    split
    · rename_i factor hfactor
      rw [value_mulConst, ← Word.eq_of_add? hfactor, mul_add, value_scaledTerm, hterm,
        value_scaledTerm]
    · rfl
  · rfl

theorem value_add (lhs rhs : Expr) :
    (add lhs rhs).value point = lhs.value point + rhs.value point := by
  fun_induction add lhs rhs with
  | case1 lhs c => exact value_addConst point lhs c
  | case2 c rhs => rw [value_addConst, value_const, add_comm]
  | case3 =>
      simp only [value_addConst, *, value_binary_add, value_const]
      ring
  | case4 lhs rhs => exact value_addTerms point lhs rhs

theorem value_mul (lhs rhs : Expr) :
    (mul lhs rhs).value point = lhs.value point * rhs.value point := by
  unfold mul
  split
  · exact value_mulConst point _ _
  · rw [value_mulConst, value_const, mul_comm]
  · rfl

theorem value_divConst {op : BinaryOp} (hop : op.isDivision) (lhs : Expr) (divisor : Int) :
    (divConst op lhs divisor).value point = op.apply (lhs.value point) divisor := by
  unfold divConst
  split
  · rfl
  · split
    · rename_i hone
      rw [hone, BinaryOp.apply_one hop]
      split <;> rfl
    · split
      · rename_i x factor _
        split
        · rename_i hfactor
          rw [value_binary_mul, value_const, BinaryOp.apply_mul_of_emod_eq_zero hop hfactor]
          split
          · rfl
          · exact value_mulConst point x _
        · rfl
      · rfl

theorem value_divide {op : BinaryOp} (hop : op.isDivision) (lhs rhs : Expr) :
    (divide op lhs rhs).value point = op.apply (lhs.value point) (rhs.value point) := by
  unfold divide
  split
  · split
    · exact value_divConst point hop lhs _
    · rfl
  · rfl

/-- **Folding is exact.**  Whatever is combined, moved or given up, the value stays that of the
operation. -/
theorem value_fold (op : BinaryOp) (lhs rhs : Expr) :
    (fold op lhs rhs).value point = op.apply (lhs.value point) (rhs.value point) := by
  cases op with
  | add => exact value_add point lhs rhs
  | mul => exact value_mul point lhs rhs
  | mod => exact value_divide point rfl lhs rhs
  | floorDiv => exact value_divide point rfl lhs rhs
  | ceilDiv => exact value_divide point rfl lhs rhs

end Value

/-! ## What folding can give -/

/-- Two terms are combined to a multiple of one term, or kept. -/
theorem addTerms_cases (lhs rhs : Expr) :
    (∃ factor, addTerms lhs rhs = mulConst lhs.scaledTerm.1 factor) ∨
      addTerms lhs rhs = binary .add lhs rhs := by
  unfold addTerms
  split
  · split
    · exact .inl ⟨_, rfl⟩
    · exact .inr rfl
  · exact .inr rfl

/-- A quotient or remainder by a constant is a constant, the dividend, a multiple of its term, or
kept. -/
theorem divConst_cases (op : BinaryOp) (lhs : Expr) (divisor : Int) :
    (∃ constant, divConst op lhs divisor = const constant) ∨ divConst op lhs divisor = lhs ∨
      (∃ x factor factor', lhs = binary .mul x (const factor) ∧
        divConst op lhs divisor = mulConst x factor') ∨
      divConst op lhs divisor = binary op lhs (const divisor) := by
  unfold divConst
  split
  · exact .inl ⟨_, rfl⟩
  · split
    · split
      · exact .inl ⟨0, rfl⟩
      · exact .inr (.inl rfl)
    · split
      · split
        · split
          · exact .inl ⟨0, rfl⟩
          · exact .inr (.inr (.inl ⟨_, _, _, rfl, rfl⟩))
        · exact .inr (.inr (.inr rfl))
      · exact .inr (.inr (.inr rfl))

/-! ## Positions -/

/-- Every dimension and every symbol of an expression satisfies a condition. -/
def Within (dimOk symOk : Nat → Prop) : Expr → Prop
  | dim position => dimOk position
  | sym position => symOk position
  | const _ => True
  | binary _ lhs rhs => Within dimOk symOk lhs ∧ Within dimOk symOk rhs

/-- Every position is below the number of dimensions or symbols. -/
abbrev InRange (dims syms : Nat) (e : Expr) : Prop := e.Within (· < dims) (· < syms)

/-- The conditions can be checked one position at a time. -/
def decideWithin (dimOk symOk : Nat → Prop) [DecidablePred dimOk] [DecidablePred symOk] :
    (e : Expr) → Decidable (e.Within dimOk symOk)
  | dim position => inferInstanceAs (Decidable (dimOk position))
  | sym position => inferInstanceAs (Decidable (symOk position))
  | const _ => isTrue trivial
  | binary _ lhs rhs =>
      match decideWithin dimOk symOk lhs, decideWithin dimOk symOk rhs with
      | isTrue hl, isTrue hr => isTrue ⟨hl, hr⟩
      | isFalse hl, _ => isFalse fun h => hl h.1
      | _, isFalse hr => isFalse fun h => hr h.2

instance (dimOk symOk : Nat → Prop) [DecidablePred dimOk] [DecidablePred symOk] (e : Expr) :
    Decidable (e.Within dimOk symOk) := decideWithin dimOk symOk e

section Positions

variable {dimOk symOk : Nat → Prop}

@[simp] theorem within_dim {position : Nat} :
    (dim position).Within dimOk symOk ↔ dimOk position := Iff.rfl

@[simp] theorem within_sym {position : Nat} :
    (sym position).Within dimOk symOk ↔ symOk position := Iff.rfl

@[simp] theorem within_const {constant : Int} : (const constant).Within dimOk symOk := trivial

@[simp] theorem within_binary {op : BinaryOp} {lhs rhs : Expr} :
    (binary op lhs rhs).Within dimOk symOk ↔
      lhs.Within dimOk symOk ∧ rhs.Within dimOk symOk := Iff.rfl

theorem Within.mono {dimOk' symOk' : Nat → Prop} {e : Expr} (h : e.Within dimOk symOk)
    (hdim : ∀ position, dimOk position → dimOk' position)
    (hsym : ∀ position, symOk position → symOk' position) : e.Within dimOk' symOk' := by
  induction e with
  | dim position => exact hdim position h
  | sym position => exact hsym position h
  | const constant => trivial
  | binary op lhs rhs ihl ihr => exact ⟨ihl h.1, ihr h.2⟩

theorem within_iff {e : Expr} :
    e.Within dimOk symOk ↔
      (∀ position, e.usesDim position → dimOk position) ∧
        ∀ position, e.usesSym position → symOk position := by
  induction e with
  | dim position => simp [usesDim, usesSym]
  | sym position => simp [usesDim, usesSym]
  | const constant => simp [usesDim, usesSym]
  | binary op lhs rhs ihl ihr =>
      simp only [within_binary, ihl, ihr, usesDim, usesSym, Bool.or_eq_true]
      constructor
      · rintro ⟨⟨hdim, hsym⟩, hdim', hsym'⟩
        exact ⟨fun position h => h.elim (hdim position) (hdim' position),
          fun position h => h.elim (hsym position) (hsym' position)⟩
      · rintro ⟨hdim, hsym⟩
        exact ⟨⟨fun position h => hdim position (.inl h), fun position h => hsym position (.inl h)⟩,
          fun position h => hdim position (.inr h), fun position h => hsym position (.inr h)⟩

theorem within_uses (e : Expr) : e.Within (e.usesDim ·) (e.usesSym ·) :=
  within_iff.mpr ⟨fun _ h => h, fun _ h => h⟩

/-- The value depends on the coordinates at the positions of the expression only. -/
theorem value_congr {point point' : Point} {e : Expr} (h : e.Within dimOk symOk)
    (hdim : ∀ position, dimOk position → point.dim position = point'.dim position)
    (hsym : ∀ position, symOk position → point.sym position = point'.sym position) :
    e.value point = e.value point' := by
  induction e with
  | dim position => exact hdim position h
  | sym position => exact hsym position h
  | const constant => rfl
  | binary op lhs rhs ihl ihr => rw [value_binary, value_binary, ihl h.1, ihr h.2]

theorem positionFault?_eq_none_iff {dims syms : Nat} {e : Expr} :
    e.positionFault? dims syms = none ↔ e.InRange dims syms := by
  induction e with
  | dim position => by_cases h : position < dims <;> simp [positionFault?, h]
  | sym position => by_cases h : position < syms <;> simp [positionFault?, h]
  | const constant => simp [positionFault?]
  | binary op lhs rhs ihl ihr =>
      rw [positionFault?]
      cases hl : positionFault? dims syms lhs with
      | none => simp [← ihl, ← ihr, hl]
      | some fault => simp [← ihl, hl]

/-! ## Folding keeps within the positions -/

theorem within_addConst {e : Expr} (h : e.Within dimOk symOk) (c : Int) :
    (addConst e c).Within dimOk symOk := by
  fun_induction addConst e c <;> simp_all

theorem within_mulConst {e : Expr} (h : e.Within dimOk symOk) (c : Int) :
    (mulConst e c).Within dimOk symOk := by
  fun_induction mulConst e c <;> simp_all

theorem within_scaledTerm {e : Expr} (h : e.Within dimOk symOk) :
    e.scaledTerm.1.Within dimOk symOk := by
  unfold scaledTerm
  split
  · exact h.1
  · exact h

variable {lhs rhs : Expr} (hlhs : lhs.Within dimOk symOk) (hrhs : rhs.Within dimOk symOk)

include hlhs in
theorem within_divConst (op : BinaryOp) (divisor : Int) :
    (divConst op lhs divisor).Within dimOk symOk := by
  rcases divConst_cases op lhs divisor with
    ⟨constant, heq⟩ | heq | ⟨x, factor, factor', rfl, heq⟩ | heq
  · rw [heq]
    trivial
  · rw [heq]
    exact hlhs
  · rw [heq]
    exact within_mulConst hlhs.1 factor'
  · rw [heq]
    exact ⟨hlhs, trivial⟩

include hlhs hrhs

theorem within_addTerms : (addTerms lhs rhs).Within dimOk symOk := by
  rcases addTerms_cases lhs rhs with ⟨factor, heq⟩ | heq
  · rw [heq]
    exact within_mulConst (within_scaledTerm hlhs) factor
  · rw [heq]
    exact ⟨hlhs, hrhs⟩

theorem within_add : (add lhs rhs).Within dimOk symOk := by
  fun_induction add lhs rhs with
  | case1 lhs c => exact within_addConst hlhs c
  | case2 c rhs => exact within_addConst hrhs c
  | case3 x c rhs hconst ih => exact within_addConst (ih hlhs.1 hrhs) _
  | case4 lhs rhs => exact within_addTerms hlhs hrhs

theorem within_mul : (mul lhs rhs).Within dimOk symOk := by
  unfold mul
  split
  · exact within_mulConst hlhs _
  · exact within_mulConst hrhs _
  · exact ⟨hlhs, hrhs⟩

theorem within_divide (op : BinaryOp) : (divide op lhs rhs).Within dimOk symOk := by
  unfold divide
  split
  · split
    · exact within_divConst hlhs op _
    · exact ⟨hlhs, hrhs⟩
  · exact ⟨hlhs, hrhs⟩

/-- Folding mentions no position that its operands do not mention. -/
theorem within_fold (op : BinaryOp) : (fold op lhs rhs).Within dimOk symOk := by
  cases op with
  | add => exact within_add hlhs hrhs
  | mul => exact within_mul hlhs hrhs
  | mod => exact within_divide hlhs hrhs .mod
  | floorDiv => exact within_divide hlhs hrhs .floorDiv
  | ceilDiv => exact within_divide hlhs hrhs .ceilDiv

end Positions

end Expr

theorem checkAllPositions_eq_ok_iff {dims syms : Nat} {exprs : List Expr} :
    checkAllPositions dims syms exprs = .ok () ↔ ∀ e ∈ exprs, e.InRange dims syms := by
  induction exprs with
  | nil => simp [checkAllPositions]
  | cons e rest ih =>
      rw [checkAllPositions, Expr.checkPositions, List.forall_mem_cons,
        ← Expr.positionFault?_eq_none_iff]
      cases e.positionFault? dims syms with
      | none => simp [ih]
      | some fault => simp

/-- Every position in the results of a map is one of its inputs. -/
def AffineMap.InRange (map : AffineMap) : Prop :=
  ∀ result ∈ map.results, result.InRange map.dims map.syms

instance (map : AffineMap) : Decidable map.InRange :=
  inferInstanceAs (Decidable (∀ result ∈ map.results, _))

/-- Every position in the constraints of a set is one of its inputs. -/
def IntegerSet.InRange (set : IntegerSet) : Prop :=
  ∀ constraint ∈ set.constraints, constraint.expr.InRange set.dims set.syms

instance (set : IntegerSet) : Decidable set.InRange :=
  inferInstanceAs (Decidable (∀ constraint ∈ set.constraints, _))

end AffineLoops
