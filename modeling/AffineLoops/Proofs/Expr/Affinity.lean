import AffineLoops.AffineMap.Checked
import AffineLoops.Expr.Substitution
import AffineLoops.Proofs.Expr.Closure

/-!
# Affinity of the expressions that can be made

An expression is affine if every operation in it passes the check of the constructors: a product
has a constant factor, and a quotient or remainder has a positive constant divisor (`IsAffine`).
The constructors make the check, the rewritings do not: they build an operation again from its
changed operands as if the check had been made.

* `isAffine_fold`: folding operands that pass the check gives an affine expression;
* `isAffine_transform`: a rewriting keeps an expression affine if it puts affine expressions in
  the place of its parts, and if it puts constants in the place of constants and positive ones
  in the place of positive ones (`StaysConstant`);
* `isAffine_simplify`: simplification is made of folding operations that pass the check, since
  flattening divides by positive constants only;
* `obtainable_isAffine_iff`: hence all expressions made by constructors and rewritings are affine
  exactly if no replacement puts anything else in the place of a constant.

Shifts and substitutions never touch a constant.  A replacement may, and then the result can be
a remainder by a dimension (`obtainable_remainder_by_dim`).
-/

namespace AffineLoops.Expr

/-! ## Affine expressions -/

/-- Whether every quotient and remainder in an expression is one by a positive constant. -/
def PositiveDivisors (e : Expr) : Prop :=
  ∀ op lhs rhs, binary op lhs rhs ∈ e.postorder → op.isDivision →
    ∃ divisor, rhs = const divisor ∧ 0 < divisor

/-- Every operation in the expression passes the check of the constructors. -/
def IsAffine : Expr → Prop
  | binary op lhs rhs => lhs.IsAffine ∧ rhs.IsAffine ∧ checkAffine op lhs rhs = .ok ()
  | _ => True

@[simp] theorem isAffine_dim {position : Nat} : (dim position).IsAffine := trivial

@[simp] theorem isAffine_sym {position : Nat} : (sym position).IsAffine := trivial

@[simp] theorem isAffine_const {constant : Int} : (const constant).IsAffine := trivial

section Check

variable {op : BinaryOp} {lhs rhs : Expr}

theorem constant?_isSome_iff {e : Expr} : e.constant?.isSome ↔ ∃ constant, e = const constant := by
  cases e <;> simp [constant?]

theorem checkAffine_mul_iff :
    checkAffine .mul lhs rhs = .ok () ↔
      (∃ constant, lhs = const constant) ∨ ∃ constant, rhs = const constant := by
  rw [← constant?_isSome_iff, ← constant?_isSome_iff, checkAffine]
  split
  · rename_i hsome
    simpa using hsome
  · rename_i hnone
    simpa using hnone

theorem checkAffine_division_iff (hop : op.isDivision) :
    checkAffine op lhs rhs = .ok () ↔ ∃ divisor, rhs = const divisor ∧ 0 < divisor := by
  cases op with
  | add => cases hop
  | mul => cases hop
  | mod | floorDiv | ceilDiv =>
      cases rhs with
      | const divisor =>
          by_cases hdivisor : divisor ≤ 0
          · simp [checkAffine, constant?, hdivisor]
          · simp [checkAffine, constant?, hdivisor, not_le.mp hdivisor]
      | dim position | sym position | binary op' lhs' rhs' => simp [checkAffine, constant?]

theorem isAffine_mul_const {constant : Int} (hlhs : lhs.IsAffine) :
    (binary .mul lhs (const constant)).IsAffine :=
  ⟨hlhs, isAffine_const, checkAffine_mul_iff.mpr (Or.inr ⟨constant, rfl⟩)⟩

theorem isAffine_division {divisor : Int} (hop : op.isDivision) (hlhs : lhs.IsAffine)
    (hdivisor : 0 < divisor) : (binary op lhs (const divisor)).IsAffine :=
  ⟨hlhs, isAffine_const, (checkAffine_division_iff hop).mpr ⟨divisor, rfl, hdivisor⟩⟩

end Check

theorem positiveDivisors_binary_iff {op : BinaryOp} {lhs rhs : Expr} :
    (binary op lhs rhs).PositiveDivisors ↔
      lhs.PositiveDivisors ∧ rhs.PositiveDivisors ∧
        (op.isDivision → ∃ divisor, rhs = const divisor ∧ 0 < divisor) := by
  have hmem : ∀ e, e ∈ (binary op lhs rhs).postorder ↔
      e ∈ lhs.postorder ∨ e ∈ rhs.postorder ∨ e = binary op lhs rhs := by
    simp [postorder]
  constructor
  · intro h
    refine ⟨fun op' l r hin => h op' l r ((hmem _).mpr (Or.inl hin)),
      fun op' l r hin => h op' l r ((hmem _).mpr (Or.inr (Or.inl hin))),
      h op lhs rhs ((hmem _).mpr (Or.inr (Or.inr rfl)))⟩
  · rintro ⟨hlhs, hrhs, htop⟩ op' l r hin hop
    rcases (hmem _).mp hin with hin | hin | hin
    · exact hlhs op' l r hin hop
    · exact hrhs op' l r hin hop
    · cases hin
      exact htop hop

/-- To be affine is to multiply and divide by constants only, and to divide by positive ones. -/
theorem isAffine_iff {e : Expr} : e.IsAffine ↔ e.isPureAffine ∧ e.PositiveDivisors := by
  induction e with
  | dim position | sym position | const constant =>
      simp [isPureAffine, PositiveDivisors, postorder]
  | binary op lhs rhs ihl ihr =>
      rw [IsAffine, positiveDivisors_binary_iff, ihl, ihr]
      cases op with
      | add =>
          simp only [isPureAffine, checkAffine, BinaryOp.isDivision, Bool.and_eq_true]
          tauto
      | mul =>
          rw [checkAffine_mul_iff, ← constant?_isSome_iff, ← constant?_isSome_iff]
          simp only [isPureAffine, BinaryOp.isDivision, Bool.and_eq_true, Bool.or_eq_true]
          tauto
      | mod | floorDiv | ceilDiv =>
          rw [checkAffine_division_iff rfl]
          simp only [isPureAffine, BinaryOp.isDivision, Bool.and_eq_true, true_implies]
          constructor
          · rintro ⟨⟨hpure, hlhs⟩, ⟨-, hrhs⟩, divisor, rfl, hpos⟩
            exact ⟨⟨hpure, rfl⟩, hlhs, hrhs, divisor, rfl, hpos⟩
          · rintro ⟨⟨hpure, -⟩, hlhs, hrhs, divisor, rfl, hpos⟩
            exact ⟨⟨hpure, hlhs⟩, ⟨rfl, hrhs⟩, divisor, rfl, hpos⟩

/-! ## Folding -/

section Folding

variable {op : BinaryOp} {e lhs rhs : Expr}

theorem isAffine_addConst (he : e.IsAffine) (c : Int) : (addConst e c).IsAffine := by
  fun_induction addConst e c with
  | case1 | case2 | case3 | case5 | case6 | case7 => simp_all [IsAffine, checkAffine]
  | case4 x a c hc sum hsum ih => exact ih he.1

theorem isAffine_mulConst (he : e.IsAffine) (c : Int) : (mulConst e c).IsAffine := by
  fun_induction mulConst e c with
  | case1 | case3 | case7 => exact isAffine_const
  | case4 | case8 => exact he
  | case2 | case6 | case9 => exact isAffine_mul_const he
  | case5 x a c hc hone product hproduct ih => exact ih he.1

theorem isAffine_scaledTerm (he : e.IsAffine) : e.scaledTerm.1.IsAffine := by
  unfold scaledTerm
  split
  · exact he.1
  · exact he

theorem isAffine_addTerms (hlhs : lhs.IsAffine) (hrhs : rhs.IsAffine) :
    (addTerms lhs rhs).IsAffine := by
  rcases addTerms_cases lhs rhs with ⟨factor, heq⟩ | heq
  · rw [heq]
    exact isAffine_mulConst (isAffine_scaledTerm hlhs) factor
  · rw [heq]
    exact ⟨hlhs, hrhs, rfl⟩

theorem isAffine_add (hlhs : lhs.IsAffine) (hrhs : rhs.IsAffine) : (add lhs rhs).IsAffine := by
  fun_induction add lhs rhs with
  | case1 lhs c => exact isAffine_addConst hlhs c
  | case2 c rhs => exact isAffine_addConst hrhs c
  | case3 x c rhs hconst ih => exact isAffine_addConst (ih hlhs.1 hrhs) _
  | case4 lhs rhs => exact isAffine_addTerms hlhs hrhs

theorem isAffine_mul (hlhs : lhs.IsAffine) (hrhs : rhs.IsAffine)
    (hcheck : checkAffine .mul lhs rhs = .ok ()) : (mul lhs rhs).IsAffine := by
  unfold mul
  split
  · exact isAffine_mulConst hlhs _
  · exact isAffine_mulConst hrhs _
  · exact ⟨hlhs, hrhs, hcheck⟩

theorem isAffine_divConst {divisor : Int} (hop : op.isDivision) (hlhs : lhs.IsAffine)
    (hdivisor : 0 < divisor) : (divConst op lhs divisor).IsAffine := by
  rcases divConst_cases op lhs divisor with
    ⟨constant, heq⟩ | heq | ⟨x, factor, factor', rfl, heq⟩ | heq
  · rw [heq]
    exact isAffine_const
  · rw [heq]
    exact hlhs
  · rw [heq]
    exact isAffine_mulConst hlhs.1 factor'
  · rw [heq]
    exact isAffine_division hop hlhs hdivisor

theorem isAffine_divide {divisor : Int} (hop : op.isDivision) (hlhs : lhs.IsAffine)
    (hdivisor : 0 < divisor) : (divide op lhs (const divisor)).IsAffine := by
  rw [divide, if_pos hdivisor]
  exact isAffine_divConst hop hlhs hdivisor

/-- Folding keeps the promise of the check. -/
theorem isAffine_fold (hlhs : lhs.IsAffine) (hrhs : rhs.IsAffine)
    (hcheck : checkAffine op lhs rhs = .ok ()) : (fold op lhs rhs).IsAffine := by
  have hdivision (hop : op.isDivision) : (divide op lhs rhs).IsAffine := by
    obtain ⟨divisor, rfl, hdivisor⟩ := (checkAffine_division_iff hop).mp hcheck
    exact isAffine_divide hop hlhs hdivisor
  cases op with
  | add => exact isAffine_add hlhs hrhs
  | mul => exact isAffine_mul hlhs hrhs hcheck
  | mod | floorDiv | ceilDiv => exact hdivision rfl

end Folding

/-! ## Rewriting -/

/-- An expression may be replaced by another without harm to the operations around it: a constant
is replaced by a constant, and a positive one by a positive one. -/
def StaysConstant (target replacement : Expr) : Prop :=
  ∀ constant, target = const constant →
    ∃ constant', replacement = const constant' ∧ (0 < constant → 0 < constant')

theorem checkAffine_of_staysConstant {op : BinaryOp} {lhs rhs lhs' rhs' : Expr}
    (hlhs : StaysConstant lhs lhs') (hrhs : StaysConstant rhs rhs')
    (hcheck : checkAffine op lhs rhs = .ok ()) : checkAffine op lhs' rhs' = .ok () := by
  have hdivision (hop : op.isDivision) : checkAffine op lhs' rhs' = .ok () := by
    obtain ⟨divisor, hdivisor, hpos⟩ := (checkAffine_division_iff hop).mp hcheck
    obtain ⟨divisor', hdivisor', hpos'⟩ := hrhs divisor hdivisor
    exact (checkAffine_division_iff hop).mpr ⟨divisor', hdivisor', hpos' hpos⟩
  cases op with
  | add => rfl
  | mul =>
      rw [checkAffine_mul_iff] at hcheck ⊢
      rcases hcheck with ⟨constant, hconst⟩ | ⟨constant, hconst⟩
      · obtain ⟨constant', hconst', -⟩ := hlhs constant hconst
        exact Or.inl ⟨constant', hconst'⟩
      · obtain ⟨constant', hconst', -⟩ := hrhs constant hconst
        exact Or.inr ⟨constant', hconst'⟩
  | mod | floorDiv | ceilDiv => exact hdivision rfl

section Rewriting

variable {replacement? : Expr → Option Expr} {e : Expr}

theorem staysConstant_transform
    (hconst : ∀ part found, replacement? part = some found → StaysConstant part found) :
    StaysConstant e (transform replacement? e) := by
  rintro constant rfl
  rw [transform]
  · cases hfound : replacement? (const constant) with
    | none => exact ⟨constant, rfl, id⟩
    | some found => exact hconst _ _ hfound constant rfl
  · simp

theorem isAffine_transform (he : e.IsAffine)
    (haffine : ∀ part found, replacement? part = some found → found.IsAffine)
    (hconst : ∀ part found, replacement? part = some found → StaysConstant part found) :
    (transform replacement? e).IsAffine := by
  have hleaf (leaf : Expr) (hleaf : leaf.IsAffine) : ((replacement? leaf).getD leaf).IsAffine := by
    cases hfound : replacement? leaf with
    | none => exact hleaf
    | some found => exact haffine _ _ hfound
  induction e with
  | dim position | sym position | const constant => exact hleaf _ trivial
  | binary op lhs rhs ihl ihr =>
      rw [transform]
      split
      · rename_i found hfound
        exact haffine _ _ hfound
      · dsimp only
        split
        · exact he
        · refine isAffine_fold (ihl he.1) (ihr he.2.1) ?_
          exact checkAffine_of_staysConstant (staysConstant_transform hconst)
            (staysConstant_transform hconst) he.2.2

/-- Nothing more is asked of a rewriting that leaves constants alone. -/
theorem isAffine_transform_of_const (he : e.IsAffine)
    (haffine : ∀ part found, replacement? part = some found → found.IsAffine)
    (hkept : ∀ constant, replacement? (const constant) = none) :
    (transform replacement? e).IsAffine := by
  refine isAffine_transform he haffine ?_
  rintro part found hfound constant rfl
  rw [hkept] at hfound
  cases hfound

theorem isAffine_substitute {dims syms : List Expr} (he : e.IsAffine)
    (hdims : ∀ found ∈ dims, found.IsAffine) (hsyms : ∀ found ∈ syms, found.IsAffine) :
    (substitute dims syms e).IsAffine := by
  refine isAffine_transform_of_const he ?_ fun _ => rfl
  intro part found hfound
  cases part with
  | dim position => exact hdims found (List.mem_of_getElem? hfound)
  | sym position => exact hsyms found (List.mem_of_getElem? hfound)
  | const constant => cases hfound
  | binary op lhs rhs => cases hfound

theorem isAffine_moveDims {offset count : Nat} {move : Nat → Nat} (he : e.IsAffine) :
    (moveDims offset count move e).IsAffine := by
  refine isAffine_transform_of_const he ?_ fun _ => rfl
  intro part found hfound
  unfold movedDim? at hfound
  split at hfound
  · obtain ⟨-, ⟨⟩⟩ := Option.ite_none_right_eq_some.mp hfound
    exact isAffine_dim
  · cases hfound

theorem isAffine_moveSyms {offset count : Nat} {move : Nat → Nat} (he : e.IsAffine) :
    (moveSyms offset count move e).IsAffine := by
  refine isAffine_transform_of_const he ?_ fun _ => rfl
  intro part found hfound
  unfold movedSym? at hfound
  split at hfound
  · obtain ⟨-, ⟨⟩⟩ := Option.ite_none_right_eq_some.mp hfound
    exact isAffine_sym
  · cases hfound

theorem isAffine_replace {target replacement : Expr} (he : e.IsAffine)
    (hreplacement : replacement.IsAffine) (hconst : StaysConstant target replacement) :
    (replace target replacement e).IsAffine := by
  refine isAffine_transform he ?_ ?_
  · intro part found hfound
    obtain ⟨-, ⟨⟩⟩ := Option.ite_none_right_eq_some.mp hfound
    exact hreplacement
  · intro part found hfound
    obtain ⟨rfl, ⟨⟩⟩ := Option.ite_none_right_eq_some.mp hfound
    exact hconst

end Rewriting

/-! ## Simplification -/

theorem foldClosed_isAffine : FoldClosed IsAffine where
  dim _ := isAffine_dim
  sym _ := isAffine_sym
  const _ := isAffine_const
  add := isAffine_add
  mulConst := isAffine_mulConst
  divide := isAffine_divide

theorem isAffine_simplify {dims syms : Nat} {e : Expr} (he : e.IsAffine) :
    (simplify dims syms e).IsAffine :=
  foldClosed_isAffine.simplify he

/-! ## All expressions that can be made -/

/-- The expressions that constructors and rewritings make, one from another, where a replacement
is made only if it is allowed. -/
inductive Obtainable (mayReplace : Expr → Expr → Prop) : Expr → Prop
  | dim (position : Nat) : Obtainable mayReplace (.dim position)
  | sym (position : Nat) : Obtainable mayReplace (.sym position)
  | const (constant : Int) : Obtainable mayReplace (.const constant)
  | add {lhs rhs : Expr} : Obtainable mayReplace lhs → Obtainable mayReplace rhs →
      Obtainable mayReplace (lhs.add rhs)
  | sub {lhs rhs : Expr} : Obtainable mayReplace lhs → Obtainable mayReplace rhs →
      Obtainable mayReplace (lhs.sub rhs)
  | neg {e : Expr} : Obtainable mayReplace e → Obtainable mayReplace e.neg
  | scale {e : Expr} (factor : Int) : Obtainable mayReplace e →
      Obtainable mayReplace (e.mul (.const factor))
  | build (op : BinaryOp) {lhs rhs e : Expr} : Obtainable mayReplace lhs →
      Obtainable mayReplace rhs → lhs.build op rhs = .ok e → Obtainable mayReplace e
  | buildRaw (op : BinaryOp) {lhs rhs e : Expr} : Obtainable mayReplace lhs →
      Obtainable mayReplace rhs → lhs.buildRaw op rhs = .ok e → Obtainable mayReplace e
  | moveDims {e : Expr} (offset count : Nat) (move : Nat → Nat) : Obtainable mayReplace e →
      Obtainable mayReplace (e.moveDims offset count move)
  | moveSyms {e : Expr} (offset count : Nat) (move : Nat → Nat) : Obtainable mayReplace e →
      Obtainable mayReplace (e.moveSyms offset count move)
  | substitute {e : Expr} {dims syms : List Expr} : Obtainable mayReplace e →
      (∀ found ∈ dims, Obtainable mayReplace found) →
      (∀ found ∈ syms, Obtainable mayReplace found) →
      Obtainable mayReplace (e.substitute dims syms)
  | replace {e target replacement : Expr} : Obtainable mayReplace e →
      Obtainable mayReplace target → Obtainable mayReplace replacement →
      mayReplace target replacement → Obtainable mayReplace (.replace target replacement e)
  | compose {e : Expr} {map : AffineMap} : Obtainable mayReplace e →
      (∀ result ∈ map.results, Obtainable mayReplace result) →
      Obtainable mayReplace (e.substitute map.results [])
  | simplify {e : Expr} (dims syms : Nat) : Obtainable mayReplace e →
      Obtainable mayReplace (e.simplify dims syms)

theorem checkAffine_of_map_eq_ok {op : BinaryOp} {lhs rhs result e : Expr}
    (h : ((checkAffine op lhs rhs).map fun _ => result) = .ok e) :
    checkAffine op lhs rhs = .ok () ∧ result = e := by
  cases hcheck : checkAffine op lhs rhs with
  | error fault => simp [hcheck, Except.map] at h
  | ok _ => simpa [hcheck, Except.map] using h

section Obtainable

variable {mayReplace : Expr → Expr → Prop}

theorem Obtainable.isAffine {e : Expr} (h : Obtainable mayReplace e)
    (hstays : ∀ target replacement, Obtainable mayReplace target →
      Obtainable mayReplace replacement → mayReplace target replacement →
      StaysConstant target replacement) : e.IsAffine := by
  induction h with
  | dim | sym | const => trivial
  | add _ _ hlhs hrhs => exact isAffine_add hlhs hrhs
  | sub _ _ hlhs hrhs => exact isAffine_add hlhs (isAffine_mulConst hrhs _)
  | neg _ he => exact isAffine_mulConst he _
  | scale factor _ he =>
      exact isAffine_mul he isAffine_const (checkAffine_mul_iff.mpr (Or.inr ⟨factor, rfl⟩))
  | build op _ _ hbuild hlhs hrhs =>
      obtain ⟨hcheck, rfl⟩ := checkAffine_of_map_eq_ok hbuild
      exact isAffine_fold hlhs hrhs hcheck
  | buildRaw op _ _ hbuild hlhs hrhs =>
      obtain ⟨hcheck, rfl⟩ := checkAffine_of_map_eq_ok hbuild
      exact ⟨hlhs, hrhs, hcheck⟩
  | moveDims offset count move _ he => exact isAffine_moveDims he
  | moveSyms offset count move _ he => exact isAffine_moveSyms he
  | substitute _ _ _ he hdims hsyms => exact isAffine_substitute he hdims hsyms
  | replace _ htarget hreplacement hmay he _ haffine =>
      exact isAffine_replace he haffine (hstays _ _ htarget hreplacement hmay)
  | compose _ _ he hresults => exact isAffine_substitute he hresults (by simp)
  | simplify dims syms _ he => exact isAffine_simplify he

/-- A constant that does not stay one shows in a product or in a remainder by it. -/
theorem replace_const_right {op : BinaryOp} {constant : Int} {replacement : Expr}
    (hne : replacement ≠ const constant) :
    replace (const constant) replacement (binary op (dim 0) (const constant)) =
      fold op (dim 0) replacement := by
  simp [replace, transform, targetReplacement?, hne]

theorem staysConstant_of_isAffine (h : ∀ e, Obtainable mayReplace e → e.IsAffine)
    {target replacement : Expr} (htarget : Obtainable mayReplace target)
    (hreplacement : Obtainable mayReplace replacement) (hmay : mayReplace target replacement) :
    StaysConstant target replacement := by
  rintro constant rfl
  have hreplaced {e : Expr} (he : Obtainable mayReplace e) :
      (replace (const constant) replacement e).IsAffine :=
    h _ (he.replace htarget hreplacement hmay)
  by_cases hconst : ∃ constant', replacement = const constant'
  · obtain ⟨constant', rfl⟩ := hconst
    refine ⟨constant', rfl, fun hpos => ?_⟩
    by_contra hnonpos
    have hremainder : Obtainable mayReplace (binary .mod (dim 0) (const constant)) :=
      .buildRaw .mod (.dim 0) (.const constant) (by
        simp [buildRaw, checkAffine, constant?, not_le.mpr hpos, Except.map])
    have hne : const constant' ≠ const constant := by
      simp only [ne_eq, const.injEq]
      omega
    have haffine := hreplaced hremainder
    rw [replace_const_right hne, fold, divide, if_neg hnonpos] at haffine
    · obtain ⟨divisor, ⟨⟩, hdivisor⟩ := (checkAffine_division_iff rfl).mp haffine.2.2
      exact hnonpos hdivisor
    · simp
    · simp
  · have hproduct : Obtainable mayReplace (binary .mul (dim 0) (const constant)) :=
      .buildRaw .mul (.dim 0) (.const constant) rfl
    have hne : replacement ≠ const constant := fun heq => hconst ⟨constant, heq⟩
    have haffine := hreplaced hproduct
    rw [replace_const_right hne, fold, mul] at haffine
    · simpa [hconst] using checkAffine_mul_iff.mp haffine.2.2
    · simp
    · exact fun constant' heq => hconst ⟨constant', heq⟩

end Obtainable

/-- All expressions that constructors and rewritings make are affine exactly if the replacements
that are allowed keep a constant one, and a positive one positive. -/
theorem obtainable_isAffine_iff (mayReplace : Expr → Expr → Prop) :
    (∀ e, Obtainable mayReplace e → e.isPureAffine ∧ e.PositiveDivisors) ↔
      ∀ target replacement, Obtainable mayReplace target → Obtainable mayReplace replacement →
        mayReplace target replacement → StaysConstant target replacement := by
  simp only [← isAffine_iff]
  constructor
  · intro h target replacement htarget hreplacement hmay
    exact staysConstant_of_isAffine h htarget hreplacement hmay
  · intro hstays e he
    exact he.isAffine hstays

/-- The remainder of a dimension by two. -/
def parity : Expr := binary .mod (dim 0) (const 2)

/-- The divisor of a remainder may become another positive constant, and the result is affine. -/
theorem obtainable_isAffine_iff_parity :
    replace (const 2) (const 3) parity = binary .mod (dim 0) (const 3) ∧
      (replace (const 2) (const 3) parity).isPureAffine ∧
      (replace (const 2) (const 3) parity).PositiveDivisors := by
  have hparity : Obtainable StaysConstant parity := .buildRaw .mod (.dim 0) (.const 2) rfl
  have hconst : StaysConstant (const 2) (const 3) := by
    intro constant heq
    exact ⟨3, rfl, fun _ => by decide⟩
  refine ⟨by decide, ?_⟩
  exact (obtainable_isAffine_iff StaysConstant).mpr (fun _ _ _ _ hmay => hmay) _
    (hparity.replace (.const 2) (.const 3) hconst)

/-- Where every replacement is allowed, a remainder by a dimension can be made. -/
theorem obtainable_remainder_by_dim :
    ¬ ∀ e, Obtainable (fun _ _ => True) e → e.isPureAffine ∧ e.PositiveDivisors := by
  intro h
  have hparity : Obtainable (fun _ _ => True) parity := .buildRaw .mod (.dim 0) (.const 2) rfl
  have hpure := (h _ (hparity.replace (.const 2) (.dim 1) trivial)).1
  revert hpure
  decide

end AffineLoops.Expr
