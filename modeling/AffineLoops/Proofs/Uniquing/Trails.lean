import AffineLoops.Proofs.Expr.Value
import AffineLoops.Trail.AffineMap

/-!
# What computations give is on their trails

The trail of a computation lists what the computation makes.  What it gives is either made on the
way or handed on, as a part of what it was given.  So wherever the operands and everything on the
trail are known, and with an operation its operands, the outcome is known too.  This is proved for
one fold after the other, and from these for substitution (`known_transform`).
-/

namespace AffineLoops.Expr

/-- With an operation its operands are known. -/
def SubtermClosed (known : Expr → Prop) : Prop :=
  ∀ op lhs rhs, known (binary op lhs rhs) → known lhs ∧ known rhs

variable {known : Expr → Prop} {e lhs rhs : Expr} {c : Int}

/-! ## Folding -/

section Folding

variable (hknown : SubtermClosed known)

include hknown

theorem known_addConst (he : known e) (htrail : ∀ made ∈ addConstTrail e c, known made) :
    known (addConst e c) := by
  fun_induction addConst e c with
  | case1 a c sum hsum => exact htrail _ (by simp [addConstTrail, hsum])
  | case2 a c hsum => exact htrail _ (by simp [addConstTrail, hsum])
  | case3 x a => exact he
  | case4 x a c hc sum hsum ih =>
      refine ih (hknown _ _ _ he).1 fun made hmem => htrail made ?_
      simp [addConstTrail, hc, hsum, hmem]
  | case5 x a c hc hsum => exact htrail _ (by simp [addConstTrail, hc, hsum])
  | case6 e hconst hbinary => exact he
  | case7 e c hconst hbinary hc => exact htrail _ (by simp [addConstTrail, hc])

theorem known_mulConst (he : known e) (htrail : ∀ made ∈ mulConstTrail e c, known made) :
    known (mulConst e c) := by
  fun_induction mulConst e c with
  | case1 a c product hproduct => exact htrail _ (by simp [mulConstTrail, hproduct])
  | case2 a c hproduct => exact htrail _ (by simp [mulConstTrail, hproduct])
  | case3 x a => exact htrail _ (by simp [mulConstTrail])
  | case4 x a => exact he
  | case5 x a c hzero hone product hproduct ih =>
      refine ih (hknown _ _ _ he).1 fun made hmem => htrail made ?_
      simp [mulConstTrail, hzero, hone, hproduct, hmem]
  | case6 x a c hzero hone hproduct =>
      exact htrail _ (by simp [mulConstTrail, hzero, hone, hproduct])
  | case7 e hconst hbinary => exact htrail _ (by simp [mulConstTrail])
  | case8 e hconst hbinary => exact he
  | case9 e c hconst hbinary hzero hone => exact htrail _ (by simp [mulConstTrail, hzero, hone])

theorem known_scaledTerm (he : known e) : known e.scaledTerm.1 := by
  unfold scaledTerm
  split
  · exact (hknown _ _ _ he).1
  · exact he

theorem known_addTerms (hlhs : known lhs) (htrail : ∀ made ∈ addTermsTrail lhs rhs, known made) :
    known (addTerms lhs rhs) := by
  unfold addTerms
  unfold addTermsTrail at htrail
  split
  · rename_i hsame
    rw [if_pos hsame] at htrail
    split
    · rename_i factor hfactor
      simp only [hfactor, List.forall_mem_cons] at htrail
      exact known_mulConst hknown (known_scaledTerm hknown hlhs) htrail.2
    · rename_i hfactor
      simpa [hfactor] using htrail
  · rename_i hdiffer
    simpa [hdiffer] using htrail

theorem known_add (hlhs : known lhs) (hrhs : known rhs)
    (htrail : ∀ made ∈ addTrail lhs rhs, known made) : known (add lhs rhs) := by
  fun_induction add lhs rhs with
  | case1 lhs c => exact known_addConst hknown hlhs (by simpa [addTrail] using htrail)
  | case2 c rhs hconst => exact known_addConst hknown hrhs (by simpa [addTrail] using htrail)
  | case3 x c rhs hconst ih =>
      have hparts : (∀ made ∈ addTrail x rhs, known made) ∧
          ∀ made ∈ addConstTrail (add x rhs) c, known made := by
        simpa [addTrail, or_imp, forall_and] using htrail
      exact known_addConst hknown (ih (hknown _ _ _ hlhs).1 hrhs hparts.1) hparts.2
  | case4 lhs rhs h₁ h₂ h₃ =>
      exact known_addTerms hknown hlhs (by simpa [addTrail] using htrail)

theorem known_mul (hlhs : known lhs) (hrhs : known rhs)
    (htrail : ∀ made ∈ mulTrail lhs rhs, known made) : known (mul lhs rhs) := by
  fun_cases mul lhs rhs with
  | case1 c => exact known_mulConst hknown hlhs htrail
  | case2 c hconst => exact known_mulConst hknown hrhs (by simpa [mulTrail] using htrail)
  | case3 h₁ h₂ => exact htrail _ (by simp [mulTrail])

theorem known_divConst {op : BinaryOp} {divisor : Int} (hlhs : known lhs)
    (htrail : ∀ made ∈ divConstTrail op lhs divisor, known made) :
    known (divConst op lhs divisor) := by
  fun_cases divConst op lhs divisor with
  | case1 a => exact htrail _ (by simp [divConstTrail])
  | case2 _ hone hmod => exact htrail _ (by simp [divConstTrail, hone, hmod])
  | case3 => exact hlhs
  | case4 hone x factor hfactor hmod hconst =>
      simp only [hfactor, hmod, if_true]
      exact htrail _ (by simp [divConstTrail, hone, hfactor, hmod])
  | case5 hone x factor hfactor hmod hconst =>
      simp only [hfactor, hmod, if_true, if_false]
      refine known_mulConst hknown (hknown _ _ _ hlhs).1 fun made hmem => htrail made ?_
      simp [divConstTrail, hone, hfactor, hmod, hmem]
  | case6 hone x factor hfactor hconst =>
      simp only [hfactor, if_false]
      exact htrail _ (by simp [divConstTrail, hone, hfactor])
  | case7 hone _ hproduct =>
      split
      · exact absurd rfl (hproduct _ _)
      · exact htrail _ (by simp [divConstTrail, hone])

theorem known_divide {op : BinaryOp} (hlhs : known lhs)
    (htrail : ∀ made ∈ divideTrail op lhs rhs, known made) : known (divide op lhs rhs) := by
  unfold divide
  unfold divideTrail at htrail
  split
  · split
    · rename_i hpos
      exact known_divConst hknown hlhs (by simpa [hpos] using htrail)
    · rename_i hpos
      simpa [hpos] using htrail
  · simpa using htrail

theorem known_fold {op : BinaryOp} (hlhs : known lhs) (hrhs : known rhs)
    (htrail : ∀ made ∈ foldTrail op lhs rhs, known made) : known (fold op lhs rhs) := by
  cases op with
  | add => exact known_add hknown hlhs hrhs htrail
  | mul => exact known_mul hknown hlhs hrhs htrail
  | mod | floorDiv | ceilDiv => exact known_divide hknown hlhs htrail

end Folding

/-! ## Substitution -/

theorem transformTraced_fst (replacement? : Expr → Option Expr) (e : Expr) :
    (transformTraced replacement? e).1 = transform replacement? e := by
  induction e with
  | dim position | sym position | const constant => rfl
  | binary op lhs rhs ihl ihr =>
      cases hfound : replacement? (binary op lhs rhs) with
      | some replacement => simp [transformTraced, transform, hfound]
      | none =>
          simp only [transformTraced, transform, hfound, ihl, ihr]
          split <;> rfl

theorem transformTrail_binary {replacement? : Expr → Option Expr} {op : BinaryOp}
    (hkept : replacement? (binary op lhs rhs) = none) :
    transformTrail replacement? (binary op lhs rhs) =
      transformTrail replacement? lhs ++ transformTrail replacement? rhs ++
        if transform replacement? lhs = lhs ∧ transform replacement? rhs = rhs then []
        else foldTrail op (transform replacement? lhs) (transform replacement? rhs) := by
  simp only [transformTrail, transformTraced, hkept, transformTraced_fst]
  split <;> simp

theorem transform_of_replaced {replacement? : Expr → Option Expr} {replacement : Expr}
    (hfound : replacement? e = some replacement) :
    transform replacement? e = replacement ∧ replacement ∈ transformTrail replacement? e := by
  cases e <;> simp [transform, transformTrail, transformTraced, hfound]

theorem known_transform (hknown : SubtermClosed known) {replacement? : Expr → Option Expr}
    (he : known e) (htrail : ∀ made ∈ transformTrail replacement? e, known made) :
    known (transform replacement? e) := by
  induction e with
  | dim position =>
      cases hfound : replacement? (dim position) with
      | none => simpa [transform, hfound] using he
      | some replacement =>
          obtain ⟨heq, hmem⟩ := transform_of_replaced hfound
          exact heq ▸ htrail replacement hmem
  | sym position =>
      cases hfound : replacement? (sym position) with
      | none => simpa [transform, hfound] using he
      | some replacement =>
          obtain ⟨heq, hmem⟩ := transform_of_replaced hfound
          exact heq ▸ htrail replacement hmem
  | const constant =>
      cases hfound : replacement? (const constant) with
      | none => simpa [transform, hfound] using he
      | some replacement =>
          obtain ⟨heq, hmem⟩ := transform_of_replaced hfound
          exact heq ▸ htrail replacement hmem
  | binary op lhs rhs ihl ihr =>
      cases hfound : replacement? (binary op lhs rhs) with
      | some replacement =>
          obtain ⟨heq, hmem⟩ := transform_of_replaced hfound
          exact heq ▸ htrail replacement hmem
      | none =>
          rw [transformTrail_binary hfound] at htrail
          simp only [List.mem_append, or_imp, forall_and] at htrail
          obtain ⟨⟨hlhsTrail, hrhsTrail⟩, hfoldTrail⟩ := htrail
          obtain ⟨hlhs, hrhs⟩ := hknown _ _ _ he
          simp only [transform, hfound]
          split
          · exact he
          · rename_i hchanged
            rw [if_neg hchanged] at hfoldTrail
            exact known_fold hknown (ihl hlhs hlhsTrail) (ihr hrhs hrhsTrail) hfoldTrail

end AffineLoops.Expr
