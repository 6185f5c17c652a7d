import AffineLoops.Proofs.Loop.Construction
import AffineLoops.Proofs.Session.Making

/-!
# Folding and replacing by number

Among expressions of one context, folding by number is folding of the expressions that the numbers
denote (`yields_foldWithin`), and replacing by number is replacing in them
(`yields_transformWithin`).  Both need that the number of steps suffices:

* An operation has a larger number than its operands, so an expression is at most as deep as its
  number (`DenotesExpr.depth_le`), and the count of all expressions bounds every depth.
* Folding a sum goes on with the folded sum of two operands, which is no operand of anything.  It is
  at most as deep as both operands together (`depth_add_le`), and so `lhs.depth + rhs.depth + 2`
  nested steps are enough.
-/

namespace AffineLoops

/-! ## Depths -/

namespace Expr

variable {e lhs rhs : Expr} {c : Int}

/-- How deep operations are nested in an expression. -/
def depth : Expr → Nat
  | binary _ lhs rhs => max lhs.depth rhs.depth + 1
  | _ => 0

theorem depth_addConst_le : (addConst e c).depth ≤ e.depth + 1 := by
  fun_induction addConst e c <;> grind [depth]

theorem depth_mulConst_le : (mulConst e c).depth ≤ e.depth + 1 := by
  fun_induction mulConst e c <;> grind [depth]

theorem depth_scaledTerm_le : e.scaledTerm.1.depth ≤ e.depth := by
  unfold scaledTerm
  split
  · simp only [depth]
    omega
  · exact Nat.le_refl _

theorem depth_addTerms_le : (addTerms lhs rhs).depth ≤ lhs.depth + rhs.depth + 1 := by
  have hwritten : (binary .add lhs rhs).depth ≤ lhs.depth + rhs.depth + 1 := by
    simp only [depth]
    omega
  unfold addTerms
  split
  · split
    · rename_i factor _
      calc (mulConst lhs.scaledTerm.1 factor).depth
          ≤ lhs.scaledTerm.1.depth + 1 := depth_mulConst_le
        _ ≤ lhs.depth + 1 := Nat.succ_le_succ depth_scaledTerm_le
        _ ≤ lhs.depth + rhs.depth + 1 := by omega
    · exact hwritten
  · exact hwritten

theorem depth_add_le : (add lhs rhs).depth ≤ lhs.depth + rhs.depth + 1 := by
  fun_induction add lhs rhs with
  | case1 lhs c =>
      have hsum : (addConst lhs c).depth ≤ lhs.depth + 1 := depth_addConst_le
      omega
  | case2 c rhs hconst =>
      have hsum : (addConst rhs c).depth ≤ rhs.depth + 1 := depth_addConst_le
      omega
  | case3 x c rhs hconst ih =>
      have hlhs : (binary .add x (const c)).depth = x.depth + 1 := by simp [depth]
      calc (addConst (add x rhs) c).depth
          ≤ (add x rhs).depth + 1 := depth_addConst_le
        _ ≤ x.depth + rhs.depth + 1 + 1 := Nat.succ_le_succ ih
        _ = (binary .add x (const c)).depth + rhs.depth + 1 := by omega
  | case4 lhs rhs hright hleft hsum => exact depth_addTerms_le

theorem constant?_eq_none (h : ∀ a, e ≠ const a) : e.constant? = none := by
  cases e with
  | const a => exact absurd rfl (h a)
  | _ => rfl

end Expr

namespace Tables

variable {tables : Tables} {number number' : Nat} {e e' : Expr}

/-- One expression has one number. -/
theorem DenotesExpr.eq_iff (h : tables.DenotesExpr number e) (h' : tables.DenotesExpr number' e') :
    number = number' ↔ e = e' := by
  constructor
  · rintro rfl
    exact rightUnique_denotesExpr h h'
  · rintro rfl
    exact leftUnique_denotesExpr h h'

theorem DenotesExpr.depth_le (h : tables.DenotesExpr number e) (hclosed : tables.Closed) :
    e.depth ≤ number := by
  induction h with
  | dim h | sym h | const h => exact Nat.zero_le _
  | binary h _ _ ihl ihr =>
      have hoperands := hclosed.exprs _ _ h
      simp only [ExprNode.operands, List.forall_mem_cons] at hoperands
      simp only [Expr.depth]
      omega

theorem DenotesExpr.exprWithin_eq {fuel : Nat} (h : tables.DenotesExpr number e)
    (hfuel : e.depth < fuel) : tables.exprWithin fuel number = some e := by
  induction h generalizing fuel with
  | dim h | sym h | const h =>
      obtain _ | fuel := fuel
      · omega
      · simp only [exprWithin, h]
  | binary h _ _ ihl ihr =>
      obtain _ | fuel := fuel
      · omega
      · simp only [Expr.depth] at hfuel
        simp only [exprWithin, h, @ihl fuel (by omega), @ihr fuel (by omega)]

theorem DenotesExpr.readExpr_eq (h : tables.DenotesExpr number e) (hclosed : tables.Closed)
    (order : Order) : tables.readExpr order number = .ok e := by
  have hfuel : e.depth < tables.exprs.size := Nat.lt_of_le_of_lt (h.depth_le hclosed) h.lt_size
  simp only [readExpr, expr?, h.exprWithin_eq hfuel]

end Tables

namespace Session

variable {id : ContextId} {session : Session} {number lhsNumber rhsNumber : Nat}
  {e e' lhs rhs x : Expr} {op : BinaryOp} {a c : Int}

/-! ## Steps that give a number -/

/-- A step enters objects in a context and gives the number of an expression there. -/
def Yields (id : ContextId) (step : SessionM Numbered) (session : Session) (e : Expr) : Prop :=
  ∃ number session', step session = (.ok ⟨id, number⟩, session') ∧ Enters id session session' ∧
    (session'.context id).tables.DenotesExpr number e

theorem yields_pure (h : (session.context id).tables.DenotesExpr number e) :
    Yields id (pure ⟨id, number⟩) session e :=
  ⟨number, session, rfl, .refl id session, h⟩

theorem Yields.bind {step : SessionM Numbered} {next : Numbered → SessionM Numbered}
    (h : Yields id step session e)
    (hnext : ∀ number session', Enters id session session' →
      (session'.context id).tables.DenotesExpr number e →
      Yields id (next ⟨id, number⟩) session' e') :
    Yields id (step >>= next) session e' := by
  obtain ⟨number, between, hrun, henters, hnumber⟩ := h
  obtain ⟨number', session', hrun', henters', hnumber'⟩ := hnext number between henters hnumber
  exact ⟨number', session', (bind_eq_of_ok hrun).trans hrun', henters.trans henters', hnumber'⟩

/-- A step after one that only reads. -/
theorem yields_read {α : Type} {read : SessionM α} {next : α → SessionM Numbered} {a : α}
    (hread : read session = (.ok a, session)) (h : Yields id (next a) session e) :
    Yields id (read >>= next) session e := by
  obtain ⟨number, session', hrun, henters, hnumber⟩ := h
  exact ⟨number, session', (bind_eq_of_ok hread).trans hrun, henters, hnumber⟩

/-! ### Reading -/

theorem nodeOf_run {node : ExprNode}
    (h : (session.context id).tables.exprs.get? number = some node) :
    nodeOf ⟨id, number⟩ session = (.ok node, session) := by
  unfold nodeOf
  refine (bind_eq_of_ok rfl).trans ?_
  dsimp only
  rw [h]
  rfl

theorem constantOf?_run (h : (session.context id).tables.DenotesExpr number e) :
    constantOf? ⟨id, number⟩ session = (.ok e.constant?, session) := by
  cases h with
  | dim hnode | sym hnode | const hnode | binary hnode => exact bind_eq_of_ok (nodeOf_run hnode)

theorem constOperand?_binary
    (h : (session.context id).tables.DenotesExpr number (.binary op x (.const a))) :
    ∃ xNumber aNumber, constOperand? op ⟨id, number⟩ session =
        (.ok (some (⟨id, xNumber⟩, ⟨id, aNumber⟩, a)), session) ∧
      (session.context id).tables.DenotesExpr xNumber x ∧
      (session.context id).tables.DenotesExpr aNumber (.const a) := by
  obtain _ | _ | _ | ⟨hnode, hx, ha⟩ := h
  refine ⟨_, _, ?_, hx, ha⟩
  rw [constOperand?, bind_eq_of_ok (nodeOf_run hnode)]
  dsimp only
  rw [if_pos rfl, bind_eq_of_ok (constantOf?_run ha)]
  rfl

theorem constOperand?_other (h : (session.context id).tables.DenotesExpr number e)
    (hother : ∀ x a, e ≠ .binary op x (.const a)) :
    constOperand? op ⟨id, number⟩ session = (.ok none, session) := by
  cases h with
  | dim hnode | sym hnode | const hnode => exact bind_eq_of_ok (nodeOf_run hnode)
  | @binary _ _ _ found lhs rhs hnode hlhs hrhs =>
      rw [constOperand?, bind_eq_of_ok (nodeOf_run hnode)]
      dsimp only
      split
      · rename_i hfound
        rw [bind_eq_of_ok (constantOf?_run hrhs)]
        cases rhs with
        | const a => exact absurd (by rw [hfound]) (hother lhs a)
        | _ => rfl
      · rfl

theorem scaledTermOf_run (h : (session.context id).tables.DenotesExpr number e) :
    ∃ termNumber, scaledTermOf ⟨id, number⟩ session =
        (.ok (⟨id, termNumber⟩, e.scaledTerm.2), session) ∧
      (session.context id).tables.DenotesExpr termNumber e.scaledTerm.1 := by
  by_cases hproduct : ∃ term factor, e = .binary .mul term (.const factor)
  · obtain ⟨term, factor, rfl⟩ := hproduct
    obtain ⟨termNumber, _, hrun, hterm, -⟩ := constOperand?_binary h
    exact ⟨termNumber, bind_eq_of_ok hrun, hterm⟩
  · have hother : ∀ term factor, e ≠ .binary .mul term (.const factor) := fun term factor heq =>
      hproduct ⟨term, factor, heq⟩
    have hterm : e.scaledTerm = (e, 1) := by
      unfold Expr.scaledTerm
      split
      · exact absurd rfl (hother _ _)
      · rfl
    rw [hterm]
    exact ⟨number, bind_eq_of_ok (constOperand?_other h hother), h⟩

/-! ### Entering -/

theorem yields_enterNode {node : ExprNode} (hid : id < session.contexts.size)
    (hnode : ∀ operand ∈ node.operands, operand < (session.context id).tables.exprs.size)
    (h : ∀ tables number, (session.context id).tables.Extends tables →
      tables.exprs.get? number = some node → tables.DenotesExpr number e) :
    Yields id (enterNode id node) session e := by
  have henters := enters_withTables hid (Tables.grows_internNode hnode)
  refine ⟨_, _, rfl, henters, h _ _ henters.grows.keeps ?_⟩
  rw [tables_withTables_self hid]
  exact Table.get?_intern _ _

theorem yields_enterConst (hid : id < session.contexts.size) (value : Int) :
    Yields id (enterConst id value) session (.const value) :=
  yields_enterNode hid (by simp [ExprNode.operands]) fun _ _ _ => .const

theorem yields_enterBinary (hid : id < session.contexts.size) (op : BinaryOp)
    (hlhs : (session.context id).tables.DenotesExpr lhsNumber lhs)
    (hrhs : (session.context id).tables.DenotesExpr rhsNumber rhs) :
    Yields id (enterBinary op ⟨id, lhsNumber⟩ ⟨id, rhsNumber⟩) session (.binary op lhs rhs) := by
  refine yields_enterNode hid ?_ fun tables number hkeeps hnode =>
    .binary hnode (hlhs.extend hkeeps) (hrhs.extend hkeeps)
  simpa [ExprNode.operands] using ⟨hlhs.lt_size, hrhs.lt_size⟩

/-! ## Folding -/

theorem yields_addConst {steps : Nat} (hid : id < session.contexts.size)
    (he : (session.context id).tables.DenotesExpr lhsNumber e)
    (hc : (session.context id).tables.DenotesExpr rhsNumber (.const c))
    (hsteps : e.depth < steps) :
    Yields id (foldWithin steps .add ⟨id, lhsNumber⟩ ⟨id, rhsNumber⟩) session (e.addConst c) := by
  induction steps generalizing e c session lhsNumber rhsNumber with
  | zero => omega
  | succ steps ih =>
      have hwritten := yields_enterBinary hid .add he hc
      refine yields_read (constantOf?_run he) (yields_read (constantOf?_run hc) ?_)
      fun_cases Expr.addConst e c with
      | case1 a c sum hsum =>
          dsimp only [Expr.constant?]
          rw [hsum]
          exact yields_enterConst hid sum
      | case2 a c hsum =>
          dsimp only [Expr.constant?]
          rw [hsum]
          exact hwritten
      | case3 x a => exact yields_pure he
      | case4 x a c hzero sum hsum =>
          obtain ⟨xNumber, _, hoperand, hx, -⟩ := constOperand?_binary he
          dsimp only [Expr.constant?]
          rw [if_neg hzero]
          refine yields_read hoperand ?_
          dsimp only
          rw [hsum]
          refine (yields_enterConst hid sum).bind fun sumNumber between henters hsumNumber => ?_
          refine ih (by rwa [henters.size_eq]) (hx.extend henters.grows.keeps) hsumNumber ?_
          simp only [Expr.depth] at hsteps
          omega
      | case5 x a c hzero hsum =>
          obtain ⟨xNumber, _, hoperand, -, -⟩ := constOperand?_binary he
          dsimp only [Expr.constant?]
          rw [if_neg hzero]
          refine yields_read hoperand ?_
          dsimp only
          rw [hsum]
          exact hwritten
      | case6 e hconst hbinary =>
          rw [Expr.constant?_eq_none hconst]
          exact yields_pure he
      | case7 e c hconst hbinary hzero =>
          rw [Expr.constant?_eq_none hconst]
          dsimp only [Expr.constant?]
          rw [if_neg hzero]
          exact yields_read (constOperand?_other he hbinary) hwritten

theorem yields_mulConst {steps : Nat} (hid : id < session.contexts.size)
    (he : (session.context id).tables.DenotesExpr lhsNumber e)
    (hc : (session.context id).tables.DenotesExpr rhsNumber (.const c))
    (hsteps : e.depth < steps) :
    Yields id (foldWithin steps .mul ⟨id, lhsNumber⟩ ⟨id, rhsNumber⟩) session (e.mulConst c) := by
  induction steps generalizing e c session lhsNumber rhsNumber with
  | zero => omega
  | succ steps ih =>
      have hwritten := yields_enterBinary hid .mul he hc
      refine yields_read (constantOf?_run he) (yields_read (constantOf?_run hc) ?_)
      fun_cases Expr.mulConst e c with
      | case1 a c product hproduct =>
          dsimp only [Expr.constant?]
          rw [hproduct]
          exact yields_enterConst hid product
      | case2 a c hproduct =>
          dsimp only [Expr.constant?]
          rw [hproduct]
          exact hwritten
      | case3 x a => exact yields_enterConst hid 0
      | case4 x a => exact yields_pure he
      | case5 x a c hzero hone product hproduct =>
          obtain ⟨xNumber, _, hoperand, hx, -⟩ := constOperand?_binary he
          dsimp only [Expr.constant?]
          rw [if_neg hzero, if_neg hone]
          refine yields_read hoperand ?_
          dsimp only
          rw [hproduct]
          refine (yields_enterConst hid product).bind
            fun productNumber between henters hnumber => ?_
          refine ih (by rwa [henters.size_eq]) (hx.extend henters.grows.keeps) hnumber ?_
          simp only [Expr.depth] at hsteps
          omega
      | case6 x a c hzero hone hproduct =>
          obtain ⟨xNumber, _, hoperand, -, -⟩ := constOperand?_binary he
          dsimp only [Expr.constant?]
          rw [if_neg hzero, if_neg hone]
          refine yields_read hoperand ?_
          dsimp only
          rw [hproduct]
          exact hwritten
      | case7 e hconst hbinary =>
          rw [Expr.constant?_eq_none hconst]
          exact yields_enterConst hid 0
      | case8 e hconst hbinary =>
          rw [Expr.constant?_eq_none hconst]
          exact yields_pure he
      | case9 e c hconst hbinary hzero hone =>
          rw [Expr.constant?_eq_none hconst]
          dsimp only [Expr.constant?]
          rw [if_neg hzero, if_neg hone]
          exact yields_read (constOperand?_other he hbinary) hwritten

/-- The sum of two expressions of which neither is a constant nor the left one ends in one. -/
theorem yields_addTerms {steps : Nat} (hid : id < session.contexts.size)
    (hlhs : (session.context id).tables.DenotesExpr lhsNumber lhs)
    (hrhs : (session.context id).tables.DenotesExpr rhsNumber rhs)
    (hleft : ∀ a, lhs ≠ .const a) (hright : ∀ a, rhs ≠ .const a)
    (hsum : ∀ x a, lhs ≠ .binary .add x (.const a)) (hsteps : lhs.depth < steps) :
    Yields id (foldWithin (steps + 1) .add ⟨id, lhsNumber⟩ ⟨id, rhsNumber⟩) session
      (lhs.addTerms rhs) := by
  have hwritten := yields_enterBinary hid .add hlhs hrhs
  obtain ⟨lhsTerm, hlhsTerm, hlhsDenotes⟩ := scaledTermOf_run hlhs
  obtain ⟨rhsTerm, hrhsTerm, hrhsDenotes⟩ := scaledTermOf_run hrhs
  have hsame : (⟨id, lhsTerm⟩ : Numbered) = ⟨id, rhsTerm⟩ ↔
      lhs.scaledTerm.1 = rhs.scaledTerm.1 := by
    rw [Owned.mk.injEq, eq_self, true_and]
    exact hlhsDenotes.eq_iff hrhsDenotes
  refine yields_read (constantOf?_run hlhs) (yields_read (constantOf?_run hrhs) ?_)
  rw [Expr.constant?_eq_none hleft, Expr.constant?_eq_none hright]
  refine yields_read (constOperand?_other hlhs hsum) ?_
  refine yields_read hlhsTerm (yields_read hrhsTerm ?_)
  unfold Expr.addTerms
  dsimp only
  by_cases hterms : lhs.scaledTerm.1 = rhs.scaledTerm.1
  · rw [if_pos (hsame.mpr hterms), if_pos hterms]
    cases hfactor : Word.add? lhs.scaledTerm.2 rhs.scaledTerm.2 with
    | none => exact hwritten
    | some factor =>
        refine (yields_enterConst hid factor).bind fun factorNumber between henters hnumber => ?_
        exact yields_mulConst (by rwa [henters.size_eq]) (hlhsDenotes.extend henters.grows.keeps)
          hnumber (Nat.lt_of_le_of_lt Expr.depth_scaledTerm_le hsteps)
  · rw [if_neg (mt hsame.mp hterms), if_neg hterms]
    exact hwritten

theorem yields_add {steps : Nat} (hid : id < session.contexts.size)
    (hlhs : (session.context id).tables.DenotesExpr lhsNumber lhs)
    (hrhs : (session.context id).tables.DenotesExpr rhsNumber rhs)
    (hsteps : lhs.depth + rhs.depth < steps) :
    Yields id (foldWithin (steps + 1) .add ⟨id, lhsNumber⟩ ⟨id, rhsNumber⟩) session
      (lhs.add rhs) := by
  fun_induction Expr.add lhs rhs generalizing steps session lhsNumber rhsNumber with
  | case1 lhs c => exact yields_addConst hid hlhs hrhs (by omega)
  | case2 c rhs hconst =>
      -- a constant goes to the right
      refine yields_read (constantOf?_run hlhs) (yields_read (constantOf?_run hrhs) ?_)
      rw [Expr.constant?_eq_none hconst]
      exact yields_addConst hid hrhs hlhs (by omega)
  | case3 x c rhs hconst ih =>
      obtain ⟨xNumber, cNumber, hoperand, hx, hc⟩ := constOperand?_binary hlhs
      have hdepth : (Expr.binary .add x (.const c)).depth = x.depth + 1 := by simp [Expr.depth]
      have hbound : (x.add rhs).depth ≤ x.depth + rhs.depth + 1 := Expr.depth_add_le
      obtain _ | steps := steps
      · omega
      refine yields_read (constantOf?_run hlhs) (yields_read (constantOf?_run hrhs) ?_)
      rw [Expr.constant?_eq_none hconst]
      refine yields_read hoperand ?_
      refine (ih hid hx hrhs (by omega)).bind fun sumNumber between henters hsum => ?_
      exact yields_addConst (by rwa [henters.size_eq]) hsum (hc.extend henters.grows.keeps)
        (by omega)
  | case4 lhs rhs hright hleft hsum =>
      exact yields_addTerms hid hlhs hrhs hleft hright hsum (by omega)

theorem yields_mul {steps : Nat} (hid : id < session.contexts.size)
    (hlhs : (session.context id).tables.DenotesExpr lhsNumber lhs)
    (hrhs : (session.context id).tables.DenotesExpr rhsNumber rhs)
    (hsteps : lhs.depth + rhs.depth < steps) :
    Yields id (foldWithin (steps + 1) .mul ⟨id, lhsNumber⟩ ⟨id, rhsNumber⟩) session
      (lhs.mul rhs) := by
  fun_cases Expr.mul lhs rhs with
  | case1 lhs c => exact yields_mulConst hid hlhs hrhs (by omega)
  | case2 c rhs hconst =>
      refine yields_read (constantOf?_run hlhs) (yields_read (constantOf?_run hrhs) ?_)
      rw [Expr.constant?_eq_none hconst]
      exact yields_mulConst hid hrhs hlhs (by omega)
  | case3 lhs rhs hright hleft =>
      refine yields_read (constantOf?_run hlhs) (yields_read (constantOf?_run hrhs) ?_)
      rw [Expr.constant?_eq_none hleft, Expr.constant?_eq_none hright]
      exact yields_enterBinary hid .mul hlhs hrhs

/-! ### Quotients and remainders -/

theorem divConst_one (hconst : ∀ a, e ≠ .const a) :
    e.divConst op 1 = if op = .mod then .const 0 else e := by
  unfold Expr.divConst
  split
  · exact absurd rfl (hconst _)
  · rw [if_pos rfl]

theorem divConst_product {divisor factor : Int} (hone : divisor ≠ 1) :
    (Expr.binary .mul x (.const factor)).divConst op divisor =
      if factor % divisor = 0 then if op = .mod then .const 0 else x.mulConst (factor / divisor)
      else .binary op (.binary .mul x (.const factor)) (.const divisor) := by
  unfold Expr.divConst
  exact if_neg hone

theorem divConst_other {divisor : Int} (hone : divisor ≠ 1) (hconst : ∀ a, e ≠ .const a)
    (hproduct : ∀ x factor, e ≠ .binary .mul x (.const factor)) :
    e.divConst op divisor = .binary op e (.const divisor) := by
  unfold Expr.divConst
  split
  · exact absurd rfl (hconst _)
  · rw [if_neg hone]
    split
    · exact absurd rfl (hproduct _ _)
    · rfl

theorem yields_divConst {steps : Nat} {divisor : Int} (hid : id < session.contexts.size)
    (op : BinaryOp) (hlhs : (session.context id).tables.DenotesExpr lhsNumber lhs)
    (hrhs : (session.context id).tables.DenotesExpr rhsNumber (.const divisor))
    (hpos : 0 < divisor) (hsteps : lhs.depth ≤ steps) :
    Yields id (divideNumbered (foldWithin steps .mul) op ⟨id, lhsNumber⟩ ⟨id, rhsNumber⟩) session
      (lhs.divConst op divisor) := by
  have hwritten := yields_enterBinary hid op hlhs hrhs
  refine yields_read (constantOf?_run hrhs) ?_
  dsimp only [Expr.constant?]
  rw [if_neg (Int.not_le.mpr hpos)]
  refine yields_read (constantOf?_run hlhs) ?_
  by_cases hconst : ∃ a, lhs = .const a
  · obtain ⟨a, rfl⟩ := hconst
    exact yields_enterConst hid _
  have hleft : ∀ a, lhs ≠ .const a := fun a heq => hconst ⟨a, heq⟩
  rw [Expr.constant?_eq_none hleft]
  dsimp only
  by_cases hone : divisor = 1
  · subst hone
    rw [divConst_one hleft, if_pos rfl]
    split
    · exact yields_enterConst hid 0
    · exact yields_pure hlhs
  rw [if_neg hone]
  by_cases hproduct : ∃ x factor, lhs = .binary .mul x (.const factor)
  · obtain ⟨x, factor, rfl⟩ := hproduct
    obtain ⟨xNumber, _, hoperand, hx, -⟩ := constOperand?_binary hlhs
    refine yields_read hoperand ?_
    rw [divConst_product hone]
    dsimp only
    by_cases hfactor : factor % divisor = 0
    · rw [if_neg (not_not.mpr hfactor), if_pos hfactor]
      split
      · exact yields_enterConst hid 0
      · refine (yields_enterConst hid _).bind fun quotientNumber between henters hnumber => ?_
        refine yields_mulConst (by rwa [henters.size_eq]) (hx.extend henters.grows.keeps) hnumber ?_
        simp only [Expr.depth] at hsteps
        omega
    · rw [if_pos hfactor, if_neg hfactor]
      exact hwritten
  · have hother : ∀ x factor, lhs ≠ .binary .mul x (.const factor) := fun x factor heq =>
      hproduct ⟨x, factor, heq⟩
    rw [divConst_other hone hleft hother]
    exact yields_read (constOperand?_other hlhs hother) hwritten

theorem yields_divide {steps : Nat} (hid : id < session.contexts.size) (op : BinaryOp)
    (hlhs : (session.context id).tables.DenotesExpr lhsNumber lhs)
    (hrhs : (session.context id).tables.DenotesExpr rhsNumber rhs) (hsteps : lhs.depth ≤ steps) :
    Yields id (divideNumbered (foldWithin steps .mul) op ⟨id, lhsNumber⟩ ⟨id, rhsNumber⟩) session
      (lhs.divide op rhs) := by
  have hwritten := yields_enterBinary hid op hlhs hrhs
  fun_cases Expr.divide op lhs rhs with
  | case1 divisor hpos => exact yields_divConst hid op hlhs hrhs hpos hsteps
  | case2 divisor hpos =>
      refine yields_read (constantOf?_run hrhs) ?_
      dsimp only [Expr.constant?]
      rw [if_pos (Int.not_lt.mp hpos)]
      exact hwritten
  | case3 rhs hconst =>
      refine yields_read (constantOf?_run hrhs) ?_
      rw [Expr.constant?_eq_none hconst]
      exact hwritten

/-- Folding by number is folding. -/
theorem yields_foldWithin {steps : Nat} (hid : id < session.contexts.size) (op : BinaryOp)
    (hlhs : (session.context id).tables.DenotesExpr lhsNumber lhs)
    (hrhs : (session.context id).tables.DenotesExpr rhsNumber rhs)
    (hsteps : lhs.depth + rhs.depth < steps) :
    Yields id (foldWithin (steps + 1) op ⟨id, lhsNumber⟩ ⟨id, rhsNumber⟩) session
      (.fold op lhs rhs) := by
  cases op with
  | add => exact yields_add hid hlhs hrhs hsteps
  | mul => exact yields_mul hid hlhs hrhs hsteps
  | floorDiv | ceilDiv | mod => exact yields_divide hid _ hlhs hrhs (by omega)

theorem le_foldl_add {α : Type} (size : α → Nat) (list : List α) (count : Nat) :
    count ≤ list.foldl (fun count a => count + size a) count ∧
      ∀ a ∈ list, size a ≤ list.foldl (fun count a => count + size a) count := by
  induction list generalizing count with
  | nil => exact ⟨Nat.le_refl count, by simp⟩
  | cons a rest ih =>
      obtain ⟨hcount, hrest⟩ := ih (count + size a)
      rw [List.foldl_cons, List.forall_mem_cons]
      exact ⟨by omega, by omega, hrest⟩

/-- The count of all expressions is at least the count of those of one context. -/
theorem exprCount_run (session : Session) : ∃ count, exprCount session = (.ok count, session) ∧
    ∀ id, (session.context id).tables.exprs.size ≤ count := by
  refine ⟨_, rfl, fun id => ?_⟩
  rw [← Array.foldl_toList]
  by_cases hid : id < session.contexts.size
  · have hcontext : session.context id = session.contexts[id] := by
      simp [context, Array.getD_eq_getD_getElem?, hid]
    rw [hcontext]
    exact (le_foldl_add (fun context : Context => context.tables.exprs.size) _ 0).2 _
      (Array.getElem_mem_toList hid)
  · have hcontext : session.context id = default := by
      simp [context, Array.getD_eq_getD_getElem?, hid]
    rw [hcontext]
    exact Nat.zero_le _

theorem yields_foldNumbered (hid : id < session.contexts.size)
    (hclosed : (session.context id).tables.Closed) (op : BinaryOp)
    (hlhs : (session.context id).tables.DenotesExpr lhsNumber lhs)
    (hrhs : (session.context id).tables.DenotesExpr rhsNumber rhs) :
    Yields id (foldNumbered op ⟨id, lhsNumber⟩ ⟨id, rhsNumber⟩) session (.fold op lhs rhs) := by
  obtain ⟨count, hcount, hsize⟩ := exprCount_run session
  refine yields_read hcount (yields_foldWithin hid op hlhs hrhs ?_)
  have hlhsCount : lhs.depth < count := calc
    lhs.depth ≤ lhsNumber := hlhs.depth_le hclosed
    _ < (session.context id).tables.exprs.size := hlhs.lt_size
    _ ≤ count := hsize id
  have hrhsCount : rhs.depth < count := calc
    rhs.depth ≤ rhsNumber := hrhs.depth_le hclosed
    _ < (session.context id).tables.exprs.size := hrhs.lt_size
    _ ≤ count := hsize id
  omega

/-! ## Replacing -/

/-- From a session on, replacing by number agrees with replacing expressions, as long as these are
of a certain kind that has with an operation its operands. -/
structure Agrees (id : ContextId) (base : Session)
    (byNumber? : Numbered → SessionM (Option Numbered)) (replacement? : Expr → Option Expr)
    (covered : Expr → Prop) : Prop where
  subterms : Expr.SubtermClosed covered
  found : ∀ {session number e replacement}, Enters id base session →
    (session.context id).tables.DenotesExpr number e → covered e →
    replacement? e = some replacement →
    ∃ number', byNumber? ⟨id, number⟩ session = (.ok (some ⟨id, number'⟩), session) ∧
      (session.context id).tables.DenotesExpr number' replacement
  kept : ∀ {session number e}, Enters id base session →
    (session.context id).tables.DenotesExpr number e → covered e → replacement? e = none →
    byNumber? ⟨id, number⟩ session = (.ok none, session)

section Replacing

variable {base : Session} {byNumber? : Numbered → SessionM (Option Numbered)}
  {replacement? : Expr → Option Expr} {covered : Expr → Prop}

/-- Replacing by number is replacing. -/
theorem yields_transformWithin (hagrees : Agrees id base byNumber? replacement? covered)
    (hbase : id < base.contexts.size) (hclosed : (base.context id).tables.Closed) {depth : Nat}
    (henters : Enters id base session)
    (he : (session.context id).tables.DenotesExpr number e) (hcovered : covered e)
    (hdepth : e.depth < depth) :
    Yields id (transformWithin byNumber? depth ⟨id, number⟩) session
      (e.transform replacement?) := by
  induction depth generalizing session number e with
  | zero => omega
  | succ depth ih =>
      cases hfound : replacement? e with
      | some replacement =>
          obtain ⟨number', hrun, hnumber'⟩ := hagrees.found henters he hcovered hfound
          rw [(Expr.transform_of_replaced hfound).1]
          exact yields_read hrun (yields_pure hnumber')
      | none =>
          have hkept := yields_pure he
          refine yields_read (hagrees.kept henters he hcovered hfound) ?_
          cases he with
          | dim hnode | sym hnode | const hnode =>
              refine yields_read (nodeOf_run hnode) ?_
              simpa only [Expr.transform, hfound, Option.getD_none] using hkept
          | @binary _ lhsNumber rhsNumber op lhs rhs hnode hlhs hrhs =>
              simp only [Expr.depth] at hdepth
              obtain ⟨hcoveredLhs, hcoveredRhs⟩ := hagrees.subterms op lhs rhs hcovered
              refine yields_read (nodeOf_run hnode) ?_
              refine (ih henters hlhs hcoveredLhs (by omega)).bind
                fun newLhs between hfirst hnewLhs => ?_
              have hbetween := henters.trans hfirst
              refine (ih hbetween (hrhs.extend hfirst.grows.keeps) hcoveredRhs (by omega)).bind
                fun newRhs session' hsecond hnewRhs => ?_
              have henters' := hbetween.trans hsecond
              have hkeeps := (hfirst.trans hsecond).grows.keeps
              have hnewLhs := hnewLhs.extend hsecond.grows.keeps
              -- the numbers of the operands stay the same exactly where the operands do
              have hsame : ((⟨id, newLhs⟩ : Numbered) = ⟨id, lhsNumber⟩ ∧
                  (⟨id, newRhs⟩ : Numbered) = ⟨id, rhsNumber⟩) ↔
                  lhs.transform replacement? = lhs ∧ rhs.transform replacement? = rhs := by
                simp only [Owned.mk.injEq, true_and]
                exact and_congr (hnewLhs.eq_iff (hlhs.extend hkeeps))
                  (hnewRhs.eq_iff (hrhs.extend hkeeps))
              rw [Expr.transform, hfound]
              dsimp only
              by_cases hunchanged :
                lhs.transform replacement? = lhs ∧ rhs.transform replacement? = rhs
              · rw [if_pos (hsame.mpr hunchanged), if_pos hunchanged]
                exact yields_pure ((Tables.DenotesExpr.binary hnode hlhs hrhs).extend hkeeps)
              · rw [if_neg (mt hsame.mp hunchanged), if_neg hunchanged]
                exact yields_foldNumbered (by rwa [henters'.size_eq])
                  (henters'.grows.closed hclosed) op
                  hnewLhs hnewRhs

theorem yields_transform (hagrees : Agrees id base byNumber? replacement? covered)
    (hbase : id < base.contexts.size) (hclosed : (base.context id).tables.Closed)
    (henters : Enters id base session)
    (he : (session.context id).tables.DenotesExpr number e) (hcovered : covered e) :
    Yields id (exprCount >>= fun count => transformWithin byNumber? (count + 1) ⟨id, number⟩)
      session (e.transform replacement?) := by
  obtain ⟨count, hcount, hsize⟩ := exprCount_run session
  refine yields_read hcount
    (yields_transformWithin hagrees hbase hclosed henters he hcovered ?_)
  calc e.depth ≤ number := he.depth_le (henters.grows.closed hclosed)
    _ < (session.context id).tables.exprs.size := he.lt_size
    _ ≤ count + 1 := Nat.le_succ_of_le (hsize id)

end Replacing

end Session

end AffineLoops
