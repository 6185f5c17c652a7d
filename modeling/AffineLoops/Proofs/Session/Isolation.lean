import AffineLoops.Proofs.Session.Combination

/-!
# Isolation of contexts

Sessions go on by creations in one context and by calls that combine objects of whatever contexts
(`History.Proceeds`).  As long as calls that do not look at contexts stay in one, the tables of
every context stay closed and store what was handed out (`Faithful.proceed`), and objects of several
contexts are never combined (`contexts_isolated`).

Calls that do not look at contexts and do not stay in one mix up objects.  In a composition of a sum
with a map of another context, a constant result of the map stands for whatever has its number where
the sum belongs (`gives_composeWith_foreign`), and so does an element type of another context in a
type of vectors (`gives_vectorType_foreign`).
-/

namespace AffineLoops

open Session

/-! ## Histories with calls -/

theorem lt_size_of_stores {session : Session} {id : ContextId} {e : Expr}
    (h : (session.context id).tables.Stores (.expr e)) : id < session.contexts.size := by
  by_contra hid
  have hempty : (session.context id).tables = .empty := by
    rw [context, Array.getD_eq_getD_getElem?, Array.getElem?_eq_none (Nat.le_of_not_lt hid)]
    rfl
  rw [hempty] at h
  obtain ⟨number, hnumber⟩ := h
  exact Nat.not_lt_zero number hnumber.lt_size

namespace History

/-- A history goes on by a creation from objects of one context, or by a call with objects of
whatever contexts.  A call that does not look at contexts stays in one context. -/
inductive Proceeds : History → History → Prop
  | create {history history' : History} (h : Step history history') : Proceeds history history'
  | combine {history : History} (call : Combination)
      (hid : call.home < history.session.contexts.size)
      (hgiven : ∀ handle ∈ call.handles, handle ∈ history.objects)
      (h : call.Checks ∨ call.Local) : Proceeds history (history.after call.run)

/-- One creation or call keeps all tables closed, and keeps what they store. -/
theorem Faithful.proceed {history history' : History} (h : history.Faithful)
    (hproceeds : Proceeds history history') : history'.Faithful := by
  cases hproceeds with
  | create hstep => exact (h.step hstep).1
  | combine call hid hgiven hcase =>
      have hstored : ∀ handle ∈ call.handles,
          (history.session.context handle.context).tables.Stores handle.item :=
        fun handle hmem => h.stored handle (hgiven handle hmem)
      by_cases hlocal : call.Local
      · obtain ⟨-, henters, hmade⟩ := call.confined hlocal hid (h.closed call.home) hstored
        exact (h.after henters hmade).1
      · obtain ⟨fault, session', hrun, -, hleft⟩ :=
          Combination.refused (hcase.resolve_right hlocal) hlocal history.session
        -- a refused difference has entered the negation of its right operand, where that belongs
        obtain ⟨id, henters⟩ : ∃ id, Enters id history.session session' := by
          rcases hleft with rfl | ⟨e, hmem, rfl⟩
          · exact ⟨0, .refl 0 _⟩
          · have he : (history.session.context e.context).tables.Stores (.expr e.item) :=
              hstored (ofExpr e) hmem
            have hmakes := makes_neg (List.mem_singleton_self (Object.expr e.item)) history.session
              (lt_size_of_stores he) (by simpa using he)
            exact ⟨e.context, hmakes.1⟩
        have hafter : (call.run history.session).2 = session' := congrArg Prod.snd hrun
        rw [← hafter] at henters
        refine (h.after henters fun made hmade => ?_).1
        rw [hrun] at hmade
        cases hmade

theorem Faithful.proceed_all {history history' : History} (h : history.Faithful)
    (hproceeds : Relation.ReflTransGen Proceeds history history') : history'.Faithful := by
  induction hproceeds with
  | refl => exact h
  | tail _ hproceeds ih => exact ih.proceed hproceeds

end History

/-! ## Objects that are mixed up -/

namespace Tables

variable {tables : Tables} {number : Nat}

theorem mapM_expr? {numbers : List Nat} {exprs : List Expr}
    (h : List.Forall₂ tables.DenotesExpr numbers exprs) (hclosed : tables.Closed) :
    numbers.mapM tables.expr? = some exprs := by
  induction h with
  | nil => rfl
  | cons hnumber _ ih =>
      have hdepth := Nat.lt_of_le_of_lt (hnumber.depth_le hclosed) hnumber.lt_size
      rw [List.mapM_cons, ih, expr?, hnumber.exprWithin_eq hdepth]
      rfl

theorem DenotesLayout.resolve_eq {layout : Layout} (h : tables.DenotesLayout number layout)
    (hclosed : tables.Closed) : (Layout.numbered number).resolve tables.map? = layout := by
  cases layout with
  | numbered _ => cases h
  | map map =>
      obtain ⟨results, hnode, hresults⟩ := h
      simp [Layout.resolve, map?, hnode, mapM_expr? hresults hclosed]

/-- The type with a number is read back. -/
theorem DenotesType.typeWithin_eq {type : Ty} {depth : Nat} (h : tables.DenotesType number type)
    (hclosed : tables.Closed) (hdepth : number < depth) :
    tables.typeWithin depth number = type := by
  induction h generalizing depth with
  | index h | integer h | float h =>
      obtain _ | depth := depth
      · omega
      · simp only [typeWithin, h]
  | @memref number elementNumber _ _ layoutNumbers layouts h _ hlayouts ih =>
      have hsmaller : elementNumber < number :=
        (hclosed.types _ _ h).1 _ (by simp [TyNode.elements])
      have hresolved : layoutNumbers.map
          (fun layout => (Layout.numbered layout).resolve tables.map?) = layouts := by
        refine List.forall₂_eq_eq_eq ▸ List.forall₂_map_left_iff.mpr ?_
        exact hlayouts.imp fun _ _ hlayout => hlayout.resolve_eq hclosed
      obtain _ | depth := depth
      · omega
      · simp only [typeWithin, h, @ih depth (by omega), hresolved]
  | @vector number elementNumber _ _ h _ ih =>
      have hsmaller : elementNumber < number :=
        (hclosed.types _ _ h).1 _ (by simp [TyNode.elements])
      obtain _ | depth := depth
      · omega
      · simp only [typeWithin, h, @ih depth (by omega)]

end Tables

namespace Session

variable {session : Session} {id other : ContextId} {number lhsNumber : Nat} {lhs x : Expr}
  {value : Int}

/-- In a sum, a constant of another context stands for whatever has its number. -/
theorem yields_addForeign (steps : Nat) (hid : id < session.contexts.size)
    (hlhs : (session.context id).tables.DenotesExpr lhsNumber lhs) (hconst : lhs.constant? = none)
    (hsum : ∀ e a, lhs ≠ .binary .add e (.const a))
    (hforeign : (session.context other).tables.DenotesExpr number (.const value))
    (hvalue : value ≠ 0) (hx : (session.context id).tables.DenotesExpr number x) :
    Yields id (foldWithin (steps + 2) .add ⟨other, number⟩ ⟨id, lhsNumber⟩) session
      (.binary .add lhs x) := by
  refine yields_read (constantOf?_run hforeign) (yields_read (constantOf?_run hlhs) ?_)
  rw [hconst]
  -- the constant is brought to the right, and found again there
  refine yields_read (constantOf?_run hlhs) (yields_read (constantOf?_run hforeign) ?_)
  rw [hconst]
  dsimp only [Expr.constant?]
  rw [if_neg hvalue]
  exact yields_read (constOperand?_other hlhs hsum) (yields_enterBinary hid .add hlhs hx)

theorem transformWithin_dim_run (depth : Nat) (dims : List Numbered) {position : Nat}
    (hnode : (session.context id).tables.exprs.get? number = some (.dim position)) :
    transformWithin (inputNumber? dims []) (depth + 1) ⟨id, number⟩ session =
      (.ok (dims[position]?.getD ⟨id, number⟩), session) := by
  have hinput : inputNumber? dims [] ⟨id, number⟩ session = (.ok dims[position]?, session) :=
    bind_eq_of_ok (nodeOf_run hnode)
  rw [transformWithin, bind_eq_of_ok hinput]
  cases dims[position]? with
  | some replacement => rfl
  | none => exact bind_eq_of_ok (nodeOf_run hnode)

/-- If a constant of another context is put in the place of a summand, the sum refers to whatever
has the number of the constant. -/
theorem gives_composeWith_foreign {position dims syms : Nat} (hid : id < session.contexts.size)
    (hclosed : (session.context id).tables.Closed) (hother : other ≠ id) (hposition : 0 < position)
    (hsum : (session.context id).tables.Stores
      (.expr (.binary .add (.dim 0) (.dim position))))
    (hforeign : (session.context other).tables.DenotesExpr number (.const value))
    (hvalue : value ≠ 0) (hx : (session.context id).tables.DenotesExpr number x) :
    Gives id (composeWith ⟨id, .binary .add (.dim 0) (.dim position)⟩
        ⟨other, ⟨dims, syms, [.const value]⟩⟩) session
      ⟨id, .binary .add (.dim position) x⟩ (.expr (.binary .add (.dim position) x)) := by
  obtain ⟨sumNumber, hnumber⟩ := hsum
  have hnumbers : [(⟨other, .const value⟩ : Owned Expr)].mapM numberOf session =
      (.ok [⟨other, number⟩], session) := by
    rw [List.mapM_cons, bind_eq_of_ok (numberOf_run hforeign)]
    rfl
  rw [composeWith, substitute, if_neg (by simpa [allIn] using hother)]
  refine gives_read hnumbers (gives_read (b := []) rfl (gives_read (numberOf_run hnumber) ?_))
  refine Yields.gives_exprOf ?_ hclosed
  obtain ⟨count, hcount, hsize⟩ := exprCount_run session
  obtain ⟨depth, rfl⟩ : ∃ depth, count = depth + 1 := by
    have hpositive : 0 < count := calc
      0 ≤ sumNumber := Nat.zero_le _
      _ < (session.context id).tables.exprs.size := hnumber.lt_size
      _ ≤ count := hsize id
    exact ⟨count - 1, by omega⟩
  obtain _ | _ | _ | @⟨_, lhsNumber, rhsNumber, _, _, _, hnode, hlhs, hrhs⟩ := hnumber
  obtain hdim | _ | _ | _ := hlhs
  have hrhsNode : (session.context id).tables.exprs.get? rhsNumber = some (.dim position) := by
    cases hrhs
    assumption
  have hreplaced := transformWithin_dim_run depth [⟨other, number⟩] hdim
  have hkept := transformWithin_dim_run depth [⟨other, number⟩] hrhsNode
  rw [List.getElem?_eq_none (Nat.succ_le_of_lt hposition)] at hkept
  -- the sum itself is no input, and its operands are the constant and the second dimension
  refine yields_read hcount (yields_read (bind_eq_of_ok (nodeOf_run hnode)) ?_)
  refine yields_read (nodeOf_run hnode) (yields_read hreplaced (yields_read hkept ?_))
  rw [if_neg fun hsame => hother (Owned.mk.inj hsame.1).1]
  exact yields_read hcount (yields_addForeign _ hid hrhs rfl (by simp) hforeign hvalue hx)

/-- A type of vectors whose element type belongs to another context refers to whatever has the
number of the element type. -/
theorem gives_vectorType_foreign {shape : List Nat} {element type : Ty}
    (hid : id < session.contexts.size) (hclosed : (session.context id).tables.Closed)
    (hother : other ≠ id) (hforeign : (session.context other).tables.DenotesType number element)
    (htype : (session.context id).tables.DenotesType number type) :
    Gives id (vectorType id shape ⟨other, element⟩) session (.vector shape type)
      (.type (.vector shape type)) := by
  have hlookUp : lookUp other (·.internType element) session = (.ok number, session) := by
    rw [lookUp, Tables.internType_of_denotes hforeign]
    dsimp only
    rw [withTables_self]
  have helement : elementOf id ⟨other, element⟩ session = (.ok type, session) := by
    have hread : (session.context id).tables.lookup.type number = type :=
      htype.typeWithin_eq hclosed htype.lt_size
    rw [elementOf, if_neg hother, bind_eq_of_ok hlookUp, ← hread]
    rfl
  refine gives_read helement ?_
  have helement : type.IsPlain := Tables.isPlain_of_denotes htype
  have hplain : (Ty.vector shape type).IsPlain := helement
  obtain ⟨hgrows, hdenotes⟩ := (session.context id).tables.internType_spec hplain
  refine ⟨_, rfl, enters_withTables hid hgrows, ?_⟩
  rw [tables_withTables_self hid]
  exact ⟨_, hdenotes⟩

end Session

namespace History

/-- The first expression of a context has number zero. -/
theorem first_denotes {history : History} {id : ContextId} {e : Expr}
    (hid : id < history.session.contexts.size) (hempty : (history.tables id).exprs.size = 0)
    (hleaf : e.depth = 0) :
    ((history.after do return [ofExpr (← ownExpr id e)]).tables id).DenotesExpr 0 e := by
  have hnone : ∀ node number, (history.tables id).exprs.get? number ≠ some node := by
    intro node number hnode
    have hlt := Table.lt_size hnode
    omega
  have hnumber : ((history.tables id).internExpr e).1 = 0 := by
    cases e with
    | dim | sym | const => exact (Table.intern_of_new (hnone _)).1.trans hempty
    | binary => simp [Expr.depth] at hleaf
  have htables : (history.after do return [ofExpr (← ownExpr id e)]).tables id =
      ((history.tables id).internExpr e).2 := tables_withTables_self hid
  have hdenotes := ((history.tables id).internExpr_spec e).2
  rwa [htables, ← hnumber]

/-- The first type of a context has number zero. -/
theorem first_denotesType {history : History} {id : ContextId} {type : Ty}
    (hid : id < history.session.contexts.size) (hempty : (history.tables id).types.size = 0)
    (hleaf : type = .index ∨ ∃ width, type = .float width) :
    ((history.after do return [⟨id, .type (← ownType id type)⟩]).tables id).DenotesType 0 type := by
  have hnone : ∀ node number, (history.tables id).types.get? number ≠ some node := by
    intro node number hnode
    have hlt := Table.lt_size hnode
    omega
  have hnumber : ((history.tables id).internType type).1 = 0 := by
    obtain rfl | ⟨width, rfl⟩ := hleaf <;>
      exact (Table.intern_of_new (hnone _)).1.trans hempty
  have hplain : type.IsPlain := by
    obtain rfl | ⟨width, rfl⟩ := hleaf <;> trivial
  have htables : (history.after do return [⟨id, .type (← ownType id type)⟩]).tables id =
      ((history.tables id).internType type).2 := tables_withTables_self hid
  have hdenotes := ((history.tables id).internType_spec hplain).2
  rwa [htables, ← hnumber]

/-- A constant is made in the second of two contexts, and a dimension in the first one. -/
def twoFirst : History := ((start ⟨10, false⟩ 2 []).extend 1 (.const 7)).extend 0 (.dim 0)

/-- Then a map that has the constant as its result, and the sum of two dimensions. -/
def twoContexts : History :=
  ((twoFirst.extend 1 (.map 1 0 [.const 7])).extend 0 (.dim 2)).extend 0 (.add (.dim 0) (.dim 2))

theorem steps_twoFirst : Relation.ReflTransGen Step (start ⟨10, false⟩ 2 []) twoFirst :=
  (Relation.ReflTransGen.refl.tail (.create 1 _ (by decide) (by decide))).tail
    (.create 0 _ (by decide) (by decide))

theorem steps_twoContexts : Relation.ReflTransGen Step twoFirst twoContexts :=
  ((Relation.ReflTransGen.refl.tail (.create 1 _ (by decide) (by decide))).tail
    (.create 0 _ (by decide) (by decide))).tail (.create 0 _ (by decide) (by decide))

/-- Both first expressions have number zero. -/
theorem first_twoFirst : (twoFirst.tables 1).DenotesExpr 0 (.const 7) ∧
    (twoFirst.tables 0).DenotesExpr 0 (.dim 0) := by
  have hstep : Step ((start ⟨10, false⟩ 2 []).extend 1 (.const 7)) twoFirst :=
    .create 0 _ (by decide) (by decide)
  have hbegun : Step (start ⟨10, false⟩ 2 []) ((start ⟨10, false⟩ 2 []).extend 1 (.const 7)) :=
    .create 1 _ (by decide) (by decide)
  obtain ⟨hfaithful, -⟩ := (faithful_start ⟨10, false⟩ 2 []).step hbegun
  obtain ⟨-, hextends⟩ := hfaithful.step hstep
  have hconst : (((start ⟨10, false⟩ 2 []).extend 1 (.const 7)).tables 1).DenotesExpr 0
      (.const 7) := first_denotes (by decide) rfl rfl
  exact ⟨hconst.extend (hextends 1), first_denotes (by decide) rfl rfl⟩

/-- The sum is composed with the map of the other context. -/
def foreignComposition : Combination :=
  .composeWith ⟨0, .binary .add (.dim 0) (.dim 2)⟩ ⟨1, ⟨1, 0, [.const 7]⟩⟩

/-- A type of floats is made in the second of two contexts, and that of indices in the first one. -/
def twoTypes : History :=
  ((start ⟨10, false⟩ 2 []).extend 1 (.floatType 32)).extend 0 .indexType

/-- A type of vectors is made in the first context, with elements of the type of the second. -/
def foreignElement : Combination := .vectorType 0 [4] ⟨1, .float 32⟩

/-! ## The result -/

/-- Contexts are isolated as far as calls look at them.  However a session goes on, as long as calls
that do not look at contexts stay in one, all tables are closed, and whatever was handed out is
stored in the context that it belongs to.  Of the calls that are possible then,

* one that looks at contexts is refused if objects of several contexts would be combined;
* one that stays in one context does there what it would do if it had been given objects of that
  context only, whatever contexts the objects belong to that it does not use;
* one that does not look at contexts refuses nothing because of them: it only fails at a number
  under which nothing is stored. -/
theorem contexts_isolated {options : Options} {contextCount : Nat} {handlers : List Handler}
    {history : History}
    (hhistory : Relation.ReflTransGen Proceeds (start options contextCount handlers) history) :
    history.Faithful ∧ ∀ call : Combination, call.home < history.session.contexts.size →
      (∀ handle ∈ call.handles, handle ∈ history.objects) →
      (call.Checks → ¬ call.Local →
        ∃ fault, (call.run history.session).1 = .error fault ∧ call.Refuses fault) ∧
      (call.Local → call.Confined history.session) ∧
      (¬ call.Checks → Unguarded call.run) := by
  have hfaithful := (faithful_start options contextCount handlers).proceed_all hhistory
  refine ⟨hfaithful, fun call hid hgiven => ⟨?_, ?_, Combination.unguarded⟩⟩
  · intro hchecks hmixed
    obtain ⟨fault, session', hrun, hfault, -⟩ := Combination.refused hchecks hmixed history.session
    exact ⟨fault, congrArg Prod.fst hrun, hfault⟩
  · intro hlocal
    exact call.confined hlocal hid (hfaithful.closed call.home) fun handle hmem =>
      hfaithful.stored handle (hgiven handle hmem)

/-- The difference of the dimension and the constant is refused, and leaves the negation of the
constant behind. -/
def refusedDifference : History :=
  twoContexts.after (Combination.run (.sub ⟨0, .dim 0⟩ ⟨1, .const 7⟩))

theorem contexts_isolated_refusedDifference :
    Relation.ReflTransGen Proceeds (start ⟨10, false⟩ 2 []) refusedDifference ∧
    refusedDifference.Faithful ∧
    ((Combination.add ⟨0, .dim 0⟩ ⟨1, .const 7⟩).run refusedDifference.session).1 =
      .error .mixedContexts ∧
    (Combination.composeWith ⟨0, .dim 2⟩ ⟨1, ⟨1, 0, [.const 7]⟩⟩).Confined
      refusedDifference.session ∧
    Unguarded foreignComposition.run := by
  have hsteps : Relation.ReflTransGen Proceeds (start ⟨10, false⟩ 2 []) twoContexts :=
    Relation.ReflTransGen.mono (fun _ _ => Proceeds.create) _ _
      (steps_twoFirst.trans steps_twoContexts)
  have hhistory := hsteps.tail
    (.combine (.sub ⟨0, .dim 0⟩ ⟨1, .const 7⟩) (by decide) (by decide) (.inl trivial))
  obtain ⟨hfaithful, hcalls⟩ := contexts_isolated hhistory
  refine ⟨hhistory, hfaithful, ?_, ?_, ?_⟩
  · have hmixed : ¬ (Combination.add ⟨0, .dim 0⟩ ⟨1, .const 7⟩).Local := fun hlocal =>
      absurd (hlocal ⟨1, .expr (.const 7)⟩ (by decide)) (by decide)
    obtain ⟨fault, hrun, rfl⟩ := (hcalls (.add ⟨0, .dim 0⟩ ⟨1, .const 7⟩) (by decide)
      (by decide)).1 trivial hmixed
    exact hrun
  · refine (hcalls _ (by decide) (by decide)).2.1 ⟨?_, by simp⟩
    intro position owned huses hgiven
    obtain rfl : 2 = position := by simpa [Expr.usesDim] using huses
    cases hgiven
  · exact (hcalls foreignComposition (by decide) (by decide)).2.2 id

/-- A sum of one context is composed with a map of another one, and a type of vectors is made with
an element type of another one. -/
theorem calls_mix_contexts :
    (Relation.ReflTransGen Step (start ⟨10, false⟩ 2 []) twoContexts ∧
      (∀ handle ∈ foreignComposition.handles, handle ∈ twoContexts.objects) ∧
      ¬ foreignComposition.Local ∧
      (foreignComposition.run twoContexts.session).1 =
        .ok [⟨0, .expr (.binary .add (.dim 2) (.dim 0))⟩]) ∧
    Relation.ReflTransGen Step (start ⟨10, false⟩ 2 []) twoTypes ∧
      (∀ handle ∈ foreignElement.handles, handle ∈ twoTypes.objects) ∧
      ¬ foreignElement.Local ∧
      (foreignElement.run twoTypes.session).1 = .ok [⟨0, .type (.vector [4] .index)⟩] := by
  refine ⟨⟨steps_twoFirst.trans steps_twoContexts, by decide, ?_, ?_⟩, ?_⟩
  · intro hlocal
    exact absurd (hlocal.1 0 ⟨1, .const 7⟩ rfl rfl) (by decide)
  · obtain ⟨hbegun, -⟩ := (faithful_start ⟨10, false⟩ 2 []).steps steps_twoFirst
    obtain ⟨hfaithful, hextends⟩ := hbegun.steps steps_twoContexts
    have hsum := hfaithful.stored ⟨0, .expr (.binary .add (.dim 0) (.dim 2))⟩ (by decide)
    obtain ⟨hconst, hdim⟩ := first_twoFirst
    obtain ⟨session', hrun, -⟩ := gives_composeWith_foreign (by decide) (hfaithful.closed 0)
      (by decide) (by decide) hsum (hconst.extend (hextends 1)) (by decide)
      (hdim.extend (hextends 0))
    exact congrArg Prod.fst (bind_eq_of_ok hrun)
  · have hfloat : Step (start ⟨10, false⟩ 2 [])
        ((start ⟨10, false⟩ 2 []).extend 1 (.floatType 32)) := .create 1 _ (by decide) (by decide)
    have hindex : Step ((start ⟨10, false⟩ 2 []).extend 1 (.floatType 32)) twoTypes :=
      .create 0 _ (by decide) (by decide)
    obtain ⟨hbegun, -⟩ := (faithful_start ⟨10, false⟩ 2 []).step hfloat
    obtain ⟨hfaithful, hextends⟩ := hbegun.step hindex
    have helement : (((start ⟨10, false⟩ 2 []).extend 1 (.floatType 32)).tables 1).DenotesType 0
        (.float 32) := first_denotesType (by decide) rfl (.inr ⟨32, rfl⟩)
    have hfirst : (twoTypes.tables 0).DenotesType 0 .index :=
      first_denotesType (by decide) rfl (.inl rfl)
    have hgives : Gives 0 (vectorType 0 [4] ⟨1, .float 32⟩) twoTypes.session (.vector [4] .index)
        (.type (.vector [4] .index)) :=
      gives_vectorType_foreign (by decide) (hfaithful.closed 0) (by decide)
        (helement.extend (hextends 1)) hfirst
    obtain ⟨session', hrun, -⟩ := hgives
    refine ⟨(Relation.ReflTransGen.single hfloat).tail hindex, by decide, ?_, ?_⟩
    · intro hlocal
      exact absurd (hlocal ⟨1, .type (.float 32)⟩ (by decide)) (by decide)
    · exact congrArg Prod.fst (bind_eq_of_ok hrun)

end History

end AffineLoops
