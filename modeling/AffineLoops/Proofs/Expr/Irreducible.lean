import AffineLoops.Proofs.Expr.Evaluation

/-!
# Expressions that cannot be folded further

The folding operations look at their operands only, not into them.  So it is a property of whole
expressions that nothing in them is left to fold: an expression is irreducible if folding any
operation in it again gives that operation (`Irreducible`).

Where a folding operation keeps an operation as it stands, no rule applied to its operands, and none
would apply the second time; everything else that it builds comes from smaller folding operations.
So folding keeps expressions irreducible (`irreducible_fold`), and so do the rewritings, which
build an operation again as soon as an operand has changed (`irreducible_transform`), and
simplification.  All expressions that are made without raw constructors are therefore irreducible
(`Folded.irreducible`).

An operation on two constants is only left where it has no value on words.  So folding finds
whatever evaluation finds: with constants in the place of its inputs an irreducible expression
becomes the constant to which it evaluates (`substitute_eq_const`).
-/

namespace AffineLoops.Expr

/-- An operation folded again. -/
def refold : Expr → Expr
  | binary op lhs rhs => fold op lhs rhs
  | leaf => leaf

/-- Folding any operation of the expression again gives that operation. -/
def Irreducible (e : Expr) : Prop := ∀ part ∈ e.postorder, part.refold = part

instance (e : Expr) : Decidable e.Irreducible :=
  inferInstanceAs (Decidable (∀ part ∈ e.postorder, part.refold = part))

@[simp] theorem irreducible_dim (position : Nat) : (dim position).Irreducible := by
  simp [Irreducible, postorder, refold]

@[simp] theorem irreducible_sym (position : Nat) : (sym position).Irreducible := by
  simp [Irreducible, postorder, refold]

@[simp] theorem irreducible_const (constant : Int) : (const constant).Irreducible := by
  simp [Irreducible, postorder, refold]

theorem irreducible_binary_iff {op : BinaryOp} {lhs rhs : Expr} :
    (binary op lhs rhs).Irreducible ↔
      lhs.Irreducible ∧ rhs.Irreducible ∧ fold op lhs rhs = binary op lhs rhs :=
  forall_mem_postorder_binary

/-! ## Folding -/

section Folding

variable {op : BinaryOp} {e lhs rhs : Expr}

theorem fold_add_const (e : Expr) (c : Int) : fold .add e (const c) = addConst e c := by
  rw [fold, add]

theorem fold_mul_const (e : Expr) (c : Int) : fold .mul e (const c) = mulConst e c := by
  rw [fold, mul]

theorem fold_eq_divide (hop : op.isDivision) (lhs rhs : Expr) :
    fold op lhs rhs = divide op lhs rhs := by
  cases op with
  | add | mul => cases hop
  | mod | floorDiv | ceilDiv => rfl

/-- A sum with a constant that was kept is kept again. -/
theorem irreducible_add_const {c : Int} (he : e.Irreducible)
    (hkept : addConst e c = binary .add e (const c)) : (binary .add e (const c)).Irreducible :=
  irreducible_binary_iff.mpr ⟨he, irreducible_const c, (fold_add_const e c).trans hkept⟩

theorem irreducible_addConst (he : e.Irreducible) (c : Int) : (addConst e c).Irreducible := by
  fun_induction addConst e c with
  | case1 a c sum hsum => exact irreducible_const sum
  | case2 a c hsum => exact irreducible_add_const he (by rw [addConst, hsum])
  | case3 x a => exact he
  | case4 x a c hc sum hsum ih => exact ih (irreducible_binary_iff.mp he).1
  | case5 x a c hc hsum => exact irreducible_add_const he (by rw [addConst, if_neg hc, hsum])
  | case6 e hconst hadd => exact he
  | case7 e c hconst hadd hc =>
      refine irreducible_add_const he ?_
      rw [addConst, if_neg hc]
      · exact hconst
      · exact hadd

/-- A multiple that was kept is kept again. -/
theorem irreducible_mul_const {c : Int} (he : e.Irreducible)
    (hkept : mulConst e c = binary .mul e (const c)) : (binary .mul e (const c)).Irreducible :=
  irreducible_binary_iff.mpr ⟨he, irreducible_const c, (fold_mul_const e c).trans hkept⟩

theorem irreducible_mulConst (he : e.Irreducible) (c : Int) : (mulConst e c).Irreducible := by
  fun_induction mulConst e c with
  | case1 a c product hproduct => exact irreducible_const product
  | case2 a c hproduct => exact irreducible_mul_const he (by rw [mulConst, hproduct])
  | case3 x a => exact irreducible_const 0
  | case4 x a hc => exact he
  | case5 x a c hc hone product hproduct ih => exact ih (irreducible_binary_iff.mp he).1
  | case6 x a c hc hone hproduct =>
      exact irreducible_mul_const he (by rw [mulConst, if_neg hc, if_neg hone, hproduct])
  | case7 e hconst hmul => exact irreducible_const 0
  | case8 e hconst hmul hc => exact he
  | case9 e c hconst hmul hc hone =>
      refine irreducible_mul_const he ?_
      rw [mulConst, if_neg hc, if_neg hone]
      · exact hconst
      · exact hmul

theorem irreducible_scaledTerm (he : e.Irreducible) : e.scaledTerm.1.Irreducible := by
  unfold scaledTerm
  split
  · exact (irreducible_binary_iff.mp he).1
  · exact he

theorem irreducible_add (hlhs : lhs.Irreducible) (hrhs : rhs.Irreducible) :
    (add lhs rhs).Irreducible := by
  fun_induction add lhs rhs with
  | case1 lhs c => exact irreducible_addConst hlhs c
  | case2 c rhs => exact irreducible_addConst hrhs c
  | case3 x c rhs hconst ih =>
      exact irreducible_addConst (ih (irreducible_binary_iff.mp hlhs).1 hrhs) c
  | case4 lhs rhs hrhsConst hlhsConst hlhsAdd =>
      have hterms : fold .add lhs rhs = addTerms lhs rhs := by
        rw [fold, add] <;> assumption
      rcases addTerms_cases lhs rhs with ⟨factor, hcombined⟩ | hkept
      · rw [hcombined]
        exact irreducible_mulConst (irreducible_scaledTerm hlhs) factor
      · rw [hkept]
        exact irreducible_binary_iff.mpr ⟨hlhs, hrhs, hterms.trans hkept⟩

theorem irreducible_mul (hlhs : lhs.Irreducible) (hrhs : rhs.Irreducible) :
    (mul lhs rhs).Irreducible := by
  unfold mul
  split
  · exact irreducible_mulConst hlhs _
  · exact irreducible_mulConst hrhs _
  · refine irreducible_binary_iff.mpr ⟨hlhs, hrhs, ?_⟩
    rw [fold, mul] <;> assumption

theorem irreducible_divConst {divisor : Int} (hop : op.isDivision) (hlhs : lhs.Irreducible)
    (hpos : 0 < divisor) : (divConst op lhs divisor).Irreducible := by
  rcases divConst_cases op lhs divisor with
    ⟨constant, heq⟩ | heq | ⟨x, factor, factor', rfl, heq⟩ | heq
  · rw [heq]
    exact irreducible_const constant
  · rw [heq]
    exact hlhs
  · rw [heq]
    exact irreducible_mulConst (irreducible_binary_iff.mp hlhs).1 factor'
  · have hkept : fold op lhs (const divisor) = binary op lhs (const divisor) := by
      rw [fold_eq_divide hop, divide, if_pos hpos, heq]
    rw [heq]
    exact irreducible_binary_iff.mpr ⟨hlhs, irreducible_const divisor, hkept⟩

theorem irreducible_divide (hop : op.isDivision) (hlhs : lhs.Irreducible)
    (hrhs : rhs.Irreducible) : (divide op lhs rhs).Irreducible := by
  have hkept (h : divide op lhs rhs = binary op lhs rhs) : (binary op lhs rhs).Irreducible :=
    irreducible_binary_iff.mpr ⟨hlhs, hrhs, (fold_eq_divide hop lhs rhs).trans h⟩
  cases rhs with
  | const divisor =>
      by_cases hpos : 0 < divisor
      · rw [divide, if_pos hpos]
        exact irreducible_divConst hop hlhs hpos
      · rw [divide, if_neg hpos]
        exact hkept (if_neg hpos)
  | dim position | sym position | binary op' lhs' rhs' => exact hkept rfl

/-- Folding irreducible expressions gives an irreducible expression. -/
theorem irreducible_fold (hlhs : lhs.Irreducible) (hrhs : rhs.Irreducible) :
    (fold op lhs rhs).Irreducible := by
  cases op with
  | add => exact irreducible_add hlhs hrhs
  | mul => exact irreducible_mul hlhs hrhs
  | mod | floorDiv | ceilDiv => exact irreducible_divide rfl hlhs hrhs

end Folding

theorem foldClosed_irreducible : FoldClosed Irreducible where
  dim := irreducible_dim
  sym := irreducible_sym
  const := irreducible_const
  add := irreducible_add
  mulConst := irreducible_mulConst
  divide hop hlhs _ := irreducible_divide hop hlhs (irreducible_const _)

/-! ## Rewriting -/

section Rewriting

variable {replacement? : Expr → Option Expr} {e : Expr}

/-- An operation is built again if an operand has changed, so nothing is left to fold. -/
theorem irreducible_transform (he : e.Irreducible)
    (hfound : ∀ part found, replacement? part = some found → found.Irreducible) :
    (transform replacement? e).Irreducible := by
  have hleaf (leaf : Expr) (hleaf : leaf.Irreducible) :
      ((replacement? leaf).getD leaf).Irreducible := by
    cases hreplaced : replacement? leaf with
    | none => exact hleaf
    | some found => exact hfound leaf found hreplaced
  induction e with
  | dim position | sym position | const constant => exact hleaf _ he
  | binary op lhs rhs ihl ihr =>
      obtain ⟨hlhs, hrhs, -⟩ := irreducible_binary_iff.mp he
      rw [transform]
      split
      · rename_i found hreplaced
        exact hfound _ found hreplaced
      · dsimp only
        split
        · exact he
        · exact irreducible_fold (ihl hlhs) (ihr hrhs)

theorem irreducible_substitute {dims syms : List Expr} (he : e.Irreducible)
    (hdims : ∀ found ∈ dims, found.Irreducible) (hsyms : ∀ found ∈ syms, found.Irreducible) :
    (substitute dims syms e).Irreducible := by
  refine irreducible_transform he fun part found hfound => ?_
  cases part with
  | dim position => exact hdims found (List.mem_of_getElem? hfound)
  | sym position => exact hsyms found (List.mem_of_getElem? hfound)
  | const constant => cases hfound
  | binary op lhs rhs => cases hfound

theorem irreducible_replace {target replacement : Expr} (he : e.Irreducible)
    (hreplacement : replacement.Irreducible) : (replace target replacement e).Irreducible := by
  refine irreducible_transform he fun part found hfound => ?_
  obtain ⟨-, ⟨⟩⟩ := Option.ite_none_right_eq_some.mp hfound
  exact hreplacement

theorem irreducible_moveDims {offset count : Nat} {move : Nat → Nat} (he : e.Irreducible) :
    (moveDims offset count move e).Irreducible := by
  refine irreducible_transform he fun part found hfound => ?_
  cases part with
  | dim position =>
      obtain ⟨-, ⟨⟩⟩ := Option.ite_none_right_eq_some.mp hfound
      exact irreducible_dim _
  | sym position | const constant | binary op lhs rhs => cases hfound

theorem irreducible_moveSyms {offset count : Nat} {move : Nat → Nat} (he : e.Irreducible) :
    (moveSyms offset count move e).Irreducible := by
  refine irreducible_transform he fun part found hfound => ?_
  cases part with
  | sym position =>
      obtain ⟨-, ⟨⟩⟩ := Option.ite_none_right_eq_some.mp hfound
      exact irreducible_sym _
  | dim position | const constant | binary op lhs rhs => cases hfound

end Rewriting

/-! ## Expressions made without raw constructors -/

/-- The expressions that the folding constructors and the rewritings make, one from another, with
all their parts. -/
inductive Folded : Expr → Prop
  | dim (position : Nat) : Folded (.dim position)
  | sym (position : Nat) : Folded (.sym position)
  | const (constant : Int) : Folded (.const constant)
  | add {lhs rhs : Expr} : Folded lhs → Folded rhs → Folded (lhs.add rhs)
  | sub {lhs rhs : Expr} : Folded lhs → Folded rhs → Folded (lhs.sub rhs)
  | neg {e : Expr} : Folded e → Folded e.neg
  | scale {e : Expr} (factor : Int) : Folded e → Folded (e.mul (.const factor))
  | build (op : BinaryOp) {lhs rhs e : Expr} : Folded lhs → Folded rhs → lhs.build op rhs = .ok e →
      Folded e
  | part {e part : Expr} : Folded e → part ∈ e.postorder → Folded part
  | moveDims {e : Expr} (offset count : Nat) (move : Nat → Nat) : Folded e →
      Folded (e.moveDims offset count move)
  | moveSyms {e : Expr} (offset count : Nat) (move : Nat → Nat) : Folded e →
      Folded (e.moveSyms offset count move)
  | substitute {e : Expr} {dims syms : List Expr} : Folded e → (∀ found ∈ dims, Folded found) →
      (∀ found ∈ syms, Folded found) → Folded (e.substitute dims syms)
  | replace {e target replacement : Expr} : Folded e → Folded target → Folded replacement →
      Folded (.replace target replacement e)
  | simplify {e : Expr} (dims syms : Nat) : Folded e → Folded (e.simplify dims syms)

theorem Folded.irreducible {e : Expr} (h : e.Folded) : e.Irreducible := by
  induction h with
  | dim position => exact irreducible_dim position
  | sym position => exact irreducible_sym position
  | const constant => exact irreducible_const constant
  | add _ _ hlhs hrhs => exact irreducible_add hlhs hrhs
  | sub _ _ hlhs hrhs => exact irreducible_add hlhs (irreducible_mulConst hrhs _)
  | neg _ he => exact irreducible_mulConst he _
  | scale factor _ he => exact irreducible_mul he (irreducible_const factor)
  | build op _ _ hbuild hlhs hrhs =>
      obtain ⟨-, rfl⟩ := checkAffine_of_map_eq_ok hbuild
      exact irreducible_fold hlhs hrhs
  | part _ hpart he => exact fun inner hinner => he inner (mem_postorder_trans hpart hinner)
  | moveDims offset count move _ he => exact irreducible_moveDims he
  | moveSyms offset count move _ he => exact irreducible_moveSyms he
  | substitute _ _ _ he hdims hsyms => exact irreducible_substitute he hdims hsyms
  | replace _ _ _ he _ hreplacement => exact irreducible_replace he hreplacement
  | simplify dims syms _ he => exact foldClosed_irreducible.simplify he

/-! ## Constants -/

/-- An operation on two constants that has a value on words is folded to it. -/
theorem fold_const_const {op : BinaryOp} {a b result : Int}
    (h : op.evaluate? a b = some result) : fold op (const a) (const b) = const result := by
  have hdivision (hop : op.isDivision) : fold op (const a) (const b) = const result := by
    have hvalue : op.apply a b = result := BinaryOp.eq_of_evaluate? h
    rw [fold_eq_divide hop, divide, if_pos (pos_of_evaluate? hop h), ← hvalue]
    rfl
  cases op with
  | add =>
      have hsum : Word.add? a b = some result := h
      rw [fold_add_const, addConst, hsum]
  | mul =>
      have hproduct : Word.mul? a b = some result := h
      rw [fold_mul_const, mulConst, hproduct]
  | mod | floorDiv | ceilDiv => exact hdivision rfl

/-- With constants in the place of its inputs, an irreducible expression becomes the constant to
which it evaluates. -/
theorem substitute_eq_const {e : Expr} (he : e.Irreducible) {dims syms : List Int} {result : Int}
    (h : e.evaluate? dims syms = some result) :
    e.substitute (dims.map const) (syms.map const) = const result := by
  induction e generalizing result with
  | dim position =>
      have hat : (dims.map const)[position]? = some (const result) := by
        rw [List.getElem?_map, show dims[position]? = some result from h]
        rfl
      rw [substitute, transform, inputReplacement?, hat, Option.getD_some]
      simp
  | sym position =>
      have hat : (syms.map const)[position]? = some (const result) := by
        rw [List.getElem?_map, show syms[position]? = some result from h]
        rfl
      rw [substitute, transform, inputReplacement?, hat, Option.getD_some]
      simp
  | const constant =>
      obtain rfl := Option.some.inj h
      rfl
  | binary op lhs rhs ihl ihr =>
      obtain ⟨hlhs, hrhs, hkept⟩ := irreducible_binary_iff.mp he
      obtain ⟨a, b, ha, hb, hresult⟩ := evaluate?_binary_eq_some_iff.mp h
      have hleft : transform (inputReplacement? (dims.map const) (syms.map const)) lhs = const a :=
        ihl hlhs ha
      have hright : transform (inputReplacement? (dims.map const) (syms.map const)) rhs = const b :=
        ihr hrhs hb
      rw [substitute, transform, hleft, hright]
      dsimp only [inputReplacement?]
      split
      · -- two constants that were there from the start would have been folded
        rename_i hsame
        rw [← hkept, ← hsame.1, ← hsame.2]
        exact fold_const_const hresult
      · exact fold_const_const hresult

end AffineLoops.Expr
