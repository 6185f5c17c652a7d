import AffineLoops.Proofs.Session.Making

/-!
# Steps that look at no contexts

Substitutions and types of memory references or vectors may be given objects of several contexts,
and nothing in them looks at that.  Whatever they are given, they keep what is stored in every
context, and the only fault in which they can end is that of a number that stands for nothing
(`Unguarded`).  So they never refuse objects because of their contexts.

The property is proved for each step on numbers, by induction on the number of nested steps for
folding and on the depth for replacing, and carried through sequences of steps by `Unguarded.bind`.
-/

namespace AffineLoops

/-! ## Tables -/

namespace Tables

theorem extends_internLayouts (tables : Tables) (layouts : List Layout) :
    tables.Extends (tables.internLayouts layouts).2 := by
  induction layouts generalizing tables with
  | nil => exact .refl tables
  | cons layout rest ih =>
      cases layout with
      | map map => exact (tables.internMap_spec map).1.keeps.trans (ih _)
      | numbered number => exact ih tables

theorem extends_internType (tables : Tables) (type : Ty) :
    tables.Extends (tables.internType type).2 := by
  induction type generalizing tables with
  | index | integer width | float width =>
      exact ⟨.refl _, .refl _, .refl _, Table.extends_intern _ _⟩
  | memref shape element layouts ih =>
      have hparts := (ih tables).trans (extends_internLayouts (tables.internType element).2 layouts)
      exact hparts.trans ⟨.refl _, .refl _, .refl _, Table.extends_intern _ _⟩
  | vector shape element ih =>
      exact (ih tables).trans ⟨.refl _, .refl _, .refl _, Table.extends_intern _ _⟩
  | numbered number => exact .refl tables

end Tables

namespace Session

/-! ## Sequences of steps -/

/-- A step keeps everything that is stored, and fails only at a number that stands for nothing. -/
def Unguarded {α : Type} (step : SessionM α) : Prop :=
  ∀ session, (∀ id, (session.context id).tables.Extends ((step session).2.context id).tables) ∧
    ∀ fault, (step session).1 = .error fault → ∃ count number, fault = .unknownNumber count number

section Steps

variable {α β : Type} {step : SessionM α} {id : ContextId}

theorem unguarded_pure (a : α) : Unguarded (pure a : SessionM α) :=
  fun _ => ⟨fun _ => .refl _, by rintro _ ⟨⟩⟩

theorem unguarded_get : Unguarded (get : SessionM Session) :=
  fun _ => ⟨fun _ => .refl _, by rintro _ ⟨⟩⟩

theorem Unguarded.bind {next : α → SessionM β} (hfirst : Unguarded step)
    (hnext : ∀ a, Unguarded (next a)) : Unguarded (step >>= next) := by
  intro session
  obtain ⟨hkeeps, hfaults⟩ := hfirst session
  rw [bind_run]
  cases hrun : step session with
  | mk result between =>
      rw [hrun] at hkeeps hfaults
      cases result with
      | error fault =>
          refine ⟨hkeeps, ?_⟩
          rintro _ ⟨⟩
          exact hfaults fault rfl
      | ok a =>
          obtain ⟨hkeeps', hfaults'⟩ := hnext a between
          exact ⟨fun id => (hkeeps id).trans (hkeeps' id), hfaults'⟩

theorem unguarded_mapM {list : List β} {steps : β → SessionM α}
    (h : ∀ b, Unguarded (steps b)) : Unguarded (list.mapM steps) := by
  induction list with
  | nil => exact unguarded_pure []
  | cons b rest ih =>
      rw [List.mapM_cons]
      exact (h b).bind fun _ => ih.bind fun _ => unguarded_pure _

theorem unguarded_ofExcept {result : Except Fault α}
    (h : ∀ fault, result = .error fault → ∃ count number, fault = .unknownNumber count number) :
    Unguarded (ofExcept result) := by
  intro session
  rw [ofExcept_unchanged]
  refine ⟨fun _ => .refl _, ?_⟩
  cases result with
  | ok a => rintro _ ⟨⟩
  | error fault =>
      obtain ⟨count, number, rfl⟩ := h fault rfl
      rintro _ ⟨⟩
      exact ⟨count, number, rfl⟩

theorem extends_withTables {session : Session} {tables : Tables}
    (h : (session.context id).tables.Extends tables) (other : ContextId) :
    (session.context other).tables.Extends
      ((session.withTables id tables).context other).tables := by
  by_cases hother : other = id
  · subst hother
    by_cases hid : other < session.contexts.size
    · rwa [tables_withTables_self hid]
    · have hunchanged : (session.withTables other tables).context other =
          session.context other := by
        simp [context, withTables, Array.getD_eq_getD_getElem?, hid]
      rw [hunchanged]
      exact .refl _
  · rw [context_withTables_of_ne hother]
    exact .refl _

theorem unguarded_lookUp {intern : Tables → Nat × Tables}
    (h : ∀ tables : Tables, tables.Extends (intern tables).2) : Unguarded (lookUp id intern) :=
  fun _ => ⟨extends_withTables (h _), by rintro _ ⟨⟩⟩

end Steps

/-! ## Steps on numbers -/

theorem unguarded_numberOf (e : Owned Expr) : Unguarded (numberOf e) :=
  (unguarded_lookUp fun tables => (tables.internExpr_spec e.item).1.keeps).bind
    fun _ => unguarded_pure _

theorem unguarded_unknown {α : Type} (e : Numbered) : Unguarded (unknown e : SessionM α) :=
  fun _ => ⟨fun _ => .refl _, by rintro _ ⟨⟩; exact ⟨_, _, rfl⟩⟩

theorem unguarded_nodeOf (e : Numbered) : Unguarded (nodeOf e) := by
  refine unguarded_get.bind fun session => ?_
  split
  · exact unguarded_pure _
  · exact unguarded_unknown e

theorem unguarded_enterNode (id : ContextId) (node : ExprNode) : Unguarded (enterNode id node) :=
  (unguarded_lookUp fun tables => tables.extends_internNode node).bind fun _ => unguarded_pure _

theorem unguarded_constantOf? (e : Numbered) : Unguarded (constantOf? e) := by
  refine (unguarded_nodeOf e).bind fun node => ?_
  cases node <;> exact unguarded_pure _

theorem unguarded_constOperand? (op : BinaryOp) (e : Numbered) :
    Unguarded (constOperand? op e) := by
  refine (unguarded_nodeOf e).bind fun node => ?_
  cases node with
  | binary found lhs rhs =>
      dsimp only
      split
      · refine (unguarded_constantOf? _).bind fun value => ?_
        cases value <;> exact unguarded_pure _
      · exact unguarded_pure _
  | _ => exact unguarded_pure _

theorem unguarded_scaledTermOf (e : Numbered) : Unguarded (scaledTermOf e) := by
  refine (unguarded_constOperand? .mul e).bind fun operand => ?_
  cases operand <;> exact unguarded_pure _

theorem unguarded_constOrBinary (op : BinaryOp) (lhs rhs : Numbered) (value : Option Int) :
    Unguarded (constOrBinary op lhs rhs value) := by
  cases value <;> exact unguarded_enterNode _ _

theorem unguarded_divideNumbered {times : Numbered → Numbered → SessionM Numbered}
    (htimes : ∀ lhs rhs, Unguarded (times lhs rhs)) (op : BinaryOp) (lhs rhs : Numbered) :
    Unguarded (divideNumbered times op lhs rhs) := by
  have hwritten : Unguarded (enterBinary op lhs rhs) := unguarded_enterNode _ _
  refine (unguarded_constantOf? rhs).bind fun divisor => ?_
  cases divisor with
  | none => exact hwritten
  | some divisor =>
      dsimp only
      split
      · exact hwritten
      · refine (unguarded_constantOf? lhs).bind fun value => ?_
        cases value with
        | some value => exact unguarded_enterNode _ _
        | none =>
            dsimp only
            split
            · split
              · exact unguarded_enterNode _ _
              · exact unguarded_pure _
            · refine (unguarded_constOperand? .mul lhs).bind fun operand => ?_
              cases operand with
              | none => exact hwritten
              | some operand =>
                  dsimp only
                  split
                  · exact hwritten
                  · split
                    · exact unguarded_enterNode _ _
                    · exact (unguarded_enterNode _ _).bind fun factor => htimes _ factor

theorem unguarded_foldWithin (steps : Nat) (op : BinaryOp) (lhs rhs : Numbered) :
    Unguarded (foldWithin steps op lhs rhs) := by
  induction steps generalizing op lhs rhs with
  | zero => exact unguarded_unknown lhs
  | succ steps ih =>
      have hwritten : Unguarded (enterBinary op lhs rhs) := unguarded_enterNode _ _
      cases op with
      | add =>
          refine (unguarded_constantOf? lhs).bind fun a =>
            (unguarded_constantOf? rhs).bind fun b => ?_
          cases a with
          | some a =>
              cases b with
              | some b => exact unguarded_constOrBinary _ _ _ _
              | none => exact ih .add rhs lhs
          | none =>
              cases b with
              | some b =>
                  dsimp only
                  split
                  · exact unguarded_pure _
                  · refine (unguarded_constOperand? .add lhs).bind fun operand => ?_
                    cases operand with
                    | none => exact hwritten
                    | some operand =>
                        dsimp only
                        split
                        · exact hwritten
                        · exact (unguarded_enterNode _ _).bind fun sum => ih .add _ sum
              | none =>
                  refine (unguarded_constOperand? .add lhs).bind fun operand => ?_
                  cases operand with
                  | some operand => exact (ih .add _ rhs).bind fun sum => ih .add sum _
                  | none =>
                      refine (unguarded_scaledTermOf lhs).bind fun lhsTerm =>
                        (unguarded_scaledTermOf rhs).bind fun rhsTerm => ?_
                      dsimp only
                      split
                      · split
                        · exact hwritten
                        · exact (unguarded_enterNode _ _).bind fun factor => ih .mul _ factor
                      · exact hwritten
      | mul =>
          refine (unguarded_constantOf? lhs).bind fun a =>
            (unguarded_constantOf? rhs).bind fun b => ?_
          cases a with
          | some a =>
              cases b with
              | some b => exact unguarded_constOrBinary _ _ _ _
              | none => exact ih .mul rhs lhs
          | none =>
              cases b with
              | none => exact hwritten
              | some b =>
                  dsimp only
                  split
                  · exact unguarded_enterNode _ _
                  · split
                    · exact unguarded_pure _
                    · refine (unguarded_constOperand? .mul lhs).bind fun operand => ?_
                      cases operand with
                      | none => exact hwritten
                      | some operand =>
                          dsimp only
                          split
                          · exact hwritten
                          · exact (unguarded_enterNode _ _).bind fun product => ih .mul _ product
      | floorDiv | ceilDiv | mod => exact unguarded_divideNumbered (ih .mul) _ lhs rhs

theorem unguarded_exprCount : Unguarded exprCount :=
  unguarded_get.bind fun _ => unguarded_pure _

theorem unguarded_foldNumbered (op : BinaryOp) (lhs rhs : Numbered) :
    Unguarded (foldNumbered op lhs rhs) :=
  unguarded_exprCount.bind fun _ => unguarded_foldWithin _ op lhs rhs

theorem unguarded_transformWithin {replacement? : Numbered → SessionM (Option Numbered)}
    (h : ∀ e, Unguarded (replacement? e)) (depth : Nat) (e : Numbered) :
    Unguarded (transformWithin replacement? depth e) := by
  induction depth generalizing e with
  | zero => exact unguarded_unknown e
  | succ depth ih =>
      refine (h e).bind fun replacement => ?_
      cases replacement with
      | some replacement => exact unguarded_pure replacement
      | none =>
          refine (unguarded_nodeOf e).bind fun node => ?_
          cases node with
          | binary op lhs rhs =>
              refine (ih _).bind fun newLhs => (ih _).bind fun newRhs => ?_
              split
              · exact unguarded_pure e
              · exact unguarded_foldNumbered op newLhs newRhs
          | _ => exact unguarded_pure e

theorem unguarded_substituteNumbered (dims syms : List Numbered) (e : Numbered) :
    Unguarded (substituteNumbered dims syms e) := by
  refine unguarded_exprCount.bind fun count => unguarded_transformWithin (fun current => ?_) _ e
  refine (unguarded_nodeOf current).bind fun node => ?_
  cases node <;> exact unguarded_pure _

theorem unguarded_replaceNumbered (target replacement e : Numbered) :
    Unguarded (replaceNumbered target replacement e) :=
  unguarded_exprCount.bind fun _ => unguarded_transformWithin (fun _ => unguarded_pure _) _ e

/-! ## Reading -/

theorem of_readExpr_eq_error {tables : Tables} {order : Tables.Order} {index : Nat} {fault : Fault}
    (h : tables.readExpr order index = .error fault) :
    ∃ count number, fault = .unknownNumber count number := by
  unfold Tables.readExpr at h
  split at h
  · cases h
  · cases h
    exact ⟨_, _, rfl⟩

theorem of_mapM_eq_error {α β : Type} {f : α → Except Fault β} {list : List α} {fault : Fault}
    (h : list.mapM f = .error fault) : ∃ a ∈ list, f a = .error fault := by
  induction list with
  | nil => cases h
  | cons a rest ih =>
      rw [List.mapM_cons] at h
      cases ha : f a with
      | error first =>
          rw [ha] at h
          cases h
          exact ⟨a, List.mem_cons_self, ha⟩
      | ok b =>
          rw [ha] at h
          have hothers : (rest.mapM f >>= fun bs => pure (b :: bs)) = .error fault := h
          cases hrest : rest.mapM f with
          | ok bs =>
              rw [hrest] at hothers
              cases hothers
          | error later =>
              rw [hrest] at hothers
              cases hothers
              obtain ⟨other, hmem, hother⟩ := ih hrest
              exact ⟨other, List.mem_cons_of_mem a hmem, hother⟩

theorem unguarded_exprOf (order : Tables.Order) (e : Numbered) : Unguarded (exprOf order e) := by
  refine unguarded_get.bind fun session => ?_
  exact (unguarded_ofExcept fun fault => of_readExpr_eq_error).bind fun _ => unguarded_pure _

theorem unguarded_mapOf (id : ContextId) (number : Nat) : Unguarded (mapOf id number) := by
  refine fun session => ⟨fun _ => .refl _, fun fault hfault => ?_⟩
  change (session.context id).tables.readMap number = .error fault at hfault
  unfold Tables.readMap at hfault
  split at hfault
  · cases hfault
    exact ⟨_, _, rfl⟩
  · rename_i node _
    cases hresults : node.results.mapM ((session.context id).tables.readExpr .written) with
    | ok results =>
        rw [hresults] at hfault
        cases hfault
    | error fault' =>
        rw [hresults] at hfault
        cases hfault
        obtain ⟨result, -, hresult⟩ := of_mapM_eq_error hresults
        exact of_readExpr_eq_error hresult

/-! ## Substitutions and types -/

theorem unguarded_enter (id : ContextId) (trail : Trail) : Unguarded (enter id trail) :=
  fun session => ⟨extends_withTables ((session.context id).tables.enterAll_spec trail).1.keeps,
    by rintro _ ⟨⟩⟩

theorem unguarded_substitute (dims syms : List (Owned Expr)) (e : Owned Expr) :
    Unguarded (substitute dims syms e) := by
  unfold substitute
  split
  · exact (unguarded_enter _ _).bind fun _ => unguarded_pure _
  · refine (unguarded_mapM unguarded_numberOf).bind fun _ => ?_
    refine (unguarded_mapM unguarded_numberOf).bind fun _ => ?_
    refine (unguarded_numberOf e).bind fun _ => ?_
    exact (unguarded_substituteNumbered _ _ _).bind (unguarded_exprOf .written)

theorem unguarded_replace (target replacement e : Owned Expr) :
    Unguarded (replace target replacement e) := by
  unfold replace
  split
  · exact (unguarded_enter _ _).bind fun _ => unguarded_pure _
  · refine (unguarded_numberOf target).bind fun _ => ?_
    refine (unguarded_numberOf replacement).bind fun _ => ?_
    refine (unguarded_numberOf e).bind fun _ => ?_
    exact (unguarded_replaceNumbered _ _ _).bind (unguarded_exprOf .written)

section Changing

variable {change : Numbered → SessionM Numbered}

theorem unguarded_changeExprs (h : ∀ e, Unguarded (change e)) (id : ContextId)
    (exprs : List Expr) : Unguarded (changeExprs id change exprs) :=
  unguarded_mapM fun _ => (unguarded_numberOf _).bind fun number =>
    (h number).bind fun _ => unguarded_pure _

theorem unguarded_changeMap (h : ∀ e, Unguarded (change e)) (dims syms : Nat)
    (map : Owned AffineMap) : Unguarded (changeMap change dims syms map) := by
  refine (unguarded_changeExprs h map.context _).bind fun results => ?_
  refine Unguarded.bind (unguarded_lookUp fun tables => ?_) fun number => ?_
  · exact ⟨.refl _, Table.extends_intern _ _, .refl _, .refl _⟩
  · exact (unguarded_mapOf _ _).bind fun _ => unguarded_pure _

theorem unguarded_changeSet (h : ∀ e, Unguarded (change e)) (dims syms : Nat)
    (set : Owned IntegerSet) : Unguarded (changeSet change dims syms set) := by
  refine (unguarded_changeExprs h set.context _).bind fun exprs => ?_
  refine Unguarded.bind (unguarded_lookUp fun tables => ?_) fun number => ?_
  · exact ⟨.refl _, .refl _, Table.extends_intern _ _, .refl _⟩
  · exact (unguarded_mapM fun _ => unguarded_exprOf _ _).bind fun _ => unguarded_pure _

end Changing

theorem unguarded_substituteMap (dimExprs symExprs : List (Owned Expr)) (dims syms : Nat)
    (map : Owned AffineMap) : Unguarded (substituteMap dimExprs symExprs dims syms map) := by
  unfold substituteMap
  split
  · exact (unguarded_enter _ _).bind fun _ => unguarded_pure _
  · refine (unguarded_mapM unguarded_numberOf).bind fun _ => ?_
    refine (unguarded_mapM unguarded_numberOf).bind fun _ => ?_
    exact unguarded_changeMap (unguarded_substituteNumbered _ _) dims syms map

theorem unguarded_replaceMap (target replacement : Owned Expr) (dims syms : Nat)
    (map : Owned AffineMap) : Unguarded (replaceMap target replacement dims syms map) := by
  unfold replaceMap
  split
  · exact (unguarded_enter _ _).bind fun _ => unguarded_pure _
  · refine (unguarded_numberOf target).bind fun _ => ?_
    refine (unguarded_numberOf replacement).bind fun _ => ?_
    exact unguarded_changeMap (unguarded_replaceNumbered _ _) dims syms map

theorem unguarded_substituteSet (dimExprs symExprs : List (Owned Expr)) (dims syms : Nat)
    (set : Owned IntegerSet) : Unguarded (substituteSet dimExprs symExprs dims syms set) := by
  unfold substituteSet
  split
  · exact (unguarded_enter _ _).bind fun _ => unguarded_pure _
  · refine (unguarded_mapM unguarded_numberOf).bind fun _ => ?_
    refine (unguarded_mapM unguarded_numberOf).bind fun _ => ?_
    exact unguarded_changeSet (unguarded_substituteNumbered _ _) dims syms set

theorem unguarded_ownType (id : ContextId) (type : Ty) : Unguarded (ownType id type) :=
  (unguarded_lookUp fun tables => tables.extends_internType type).bind fun _ => unguarded_pure _

theorem unguarded_elementOf (id : ContextId) (element : Owned Ty) :
    Unguarded (elementOf id element) := by
  unfold elementOf
  split
  · exact unguarded_pure _
  · refine (unguarded_lookUp fun tables => ?_).bind fun _ => ?_
    · exact tables.extends_internType element.item
    exact unguarded_get.bind fun _ => unguarded_pure _

theorem unguarded_vectorType (id : ContextId) (shape : List Nat) (element : Owned Ty) :
    Unguarded (vectorType id shape element) :=
  (unguarded_elementOf id element).bind fun _ => unguarded_ownType id _

theorem unguarded_memrefType (id : ContextId) (shape : List Size) (element : Owned Ty)
    (layouts : List (Owned AffineMap)) : Unguarded (memrefType id shape element layouts) := by
  refine (unguarded_elementOf id element).bind fun _ => ?_
  refine Unguarded.bind (unguarded_mapM fun map => ?_) fun _ => ?_
  · unfold layoutOf
    split
    · exact unguarded_pure _
    · refine (unguarded_lookUp fun tables => ?_).bind fun _ => ?_
      · exact (tables.internMap_spec map.item).1.keeps
      exact unguarded_get.bind fun _ => unguarded_pure _
  · exact unguarded_ownType id _

end Session

end AffineLoops
