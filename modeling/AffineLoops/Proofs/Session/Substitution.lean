import AffineLoops.Proofs.BoundMap.Canonical
import AffineLoops.Proofs.Session.Numbered

/-!
# Substitution among several contexts

A substitution that is given expressions of other contexts is carried out by number.  As long as no
such expression is put in the place of anything, it does what the substitution for expressions, maps
or sets does, and enters objects only in the context in which it takes place: `gives_substitute`,
`gives_replace` and their companions for maps and sets.  Here `DrawsFrom` and `Occurs` say which of
the given expressions are put in the place of something.
-/

namespace AffineLoops

namespace Expr

/-- What a substitution puts in the place of the inputs of an expression belongs to a context. -/
def DrawsFrom (id : ContextId) (dims syms : List (Owned Expr)) (e : Expr) : Prop :=
  (∀ position owned, e.usesDim position → dims[position]? = some owned → owned.context = id) ∧
    ∀ position owned, e.usesSym position → syms[position]? = some owned → owned.context = id

/-- An expression occurs in another one. -/
def Occurs (target : Expr) : Expr → Prop
  | binary op lhs rhs => binary op lhs rhs = target ∨ target.Occurs lhs ∨ target.Occurs rhs
  | leaf => leaf = target

theorem occurs_self (e : Expr) : e.Occurs e := by
  cases e with
  | binary op lhs rhs => exact .inl rfl
  | _ => rfl

theorem subtermClosed_drawsFrom (id : ContextId) (dims syms : List (Owned Expr)) :
    SubtermClosed (DrawsFrom id dims syms) := by
  rintro op lhs rhs ⟨hdims, hsyms⟩
  simp only [usesDim, usesSym, Bool.or_eq_true] at hdims hsyms
  exact ⟨⟨fun position owned huses => hdims position owned (.inl huses),
      fun position owned huses => hsyms position owned (.inl huses)⟩,
    ⟨fun position owned huses => hdims position owned (.inr huses),
      fun position owned huses => hsyms position owned (.inr huses)⟩⟩

theorem subtermClosed_occurs (target : Expr) (p : Prop) :
    SubtermClosed fun e => target.Occurs e → p :=
  fun _ _ _ h => ⟨fun hlhs => h (.inr (.inl hlhs)), fun hrhs => h (.inr (.inr hrhs))⟩

end Expr

namespace Session

variable {id : ContextId} {session base : Session} {number : Nat} {e : Expr}

/-! ## Numbers of given expressions -/

theorem withTables_self (session : Session) (id : ContextId) :
    session.withTables id (session.context id).tables = session := by
  have hcontexts : session.contexts.modify id
      ({ · with tables := (session.context id).tables }) = session.contexts := by
    refine Array.ext Array.size_modify fun index hindex _ => ?_
    rw [Array.getElem_modify]
    split
    · rename_i heq
      subst heq
      rw [Array.size_modify] at hindex
      simp [context, Array.getD_eq_getD_getElem?, hindex]
    · rfl
  rw [withTables, hcontexts]
  simp

/-- A number is that of an expression in its own context. -/
def Numbers (session : Session) (e : Owned Expr) (numbered : Numbered) : Prop :=
  numbered.context = e.context ∧
    (session.context e.context).tables.DenotesExpr numbered.item e.item

theorem numberOf_run {e : Owned Expr}
    (h : (session.context e.context).tables.DenotesExpr number e.item) :
    numberOf e session = (.ok ⟨e.context, number⟩, session) := by
  have hlookUp : lookUp e.context (·.internExpr e.item) session = (.ok number, session) := by
    rw [lookUp, Tables.internExpr_of_denotes h]
    dsimp only
    rw [withTables_self]
  exact bind_eq_of_ok hlookUp

theorem mapM_numberOf_run {exprs : List (Owned Expr)}
    (h : ∀ e ∈ exprs, (session.context e.context).tables.Stores (.expr e.item)) :
    ∃ numbers, exprs.mapM numberOf session = (.ok numbers, session) ∧
      List.Forall₂ (Numbers session) exprs numbers := by
  induction exprs with
  | nil => exact ⟨[], rfl, .nil⟩
  | cons e rest ih =>
      obtain ⟨⟨number, hnumber⟩, hrest⟩ := List.forall_mem_cons.mp h
      obtain ⟨numbers, hrun, hnumbers⟩ := ih hrest
      refine ⟨⟨e.context, number⟩ :: numbers, ?_, .cons ⟨rfl, hnumber⟩ hnumbers⟩
      rw [List.mapM_cons, bind_eq_of_ok (numberOf_run hnumber), bind_eq_of_ok hrun]
      rfl

theorem forall₂_getElem? {α β : Type} {relation : α → β → Prop} {as : List α} {bs : List β}
    (h : List.Forall₂ relation as bs) (position : Nat) :
    (as[position]? = none ∧ bs[position]? = none) ∨
      ∃ a b, as[position]? = some a ∧ bs[position]? = some b ∧ relation a b := by
  induction h generalizing position with
  | nil => exact .inl ⟨rfl, rfl⟩
  | cons h _ ih =>
      cases position with
      | zero => exact .inr ⟨_, _, rfl, rfl, h⟩
      | succ position => exact ih position

/-! ## Inputs -/

section Inputs

variable {inputs dims syms : List (Owned Expr)} {numbers dimNumbers symNumbers : List Numbered}
  {position : Nat}

/-- What is put in the place of an input has a number, if it belongs to the context. -/
theorem input_found (h : List.Forall₂ (Numbers base) inputs numbers)
    (henters : Enters id base session) {replacement : Expr}
    (hcontext : ∀ owned, inputs[position]? = some owned → owned.context = id)
    (hfound : (inputs.map (·.item))[position]? = some replacement) :
    ∃ number, numbers[position]? = some ⟨id, number⟩ ∧
      (session.context id).tables.DenotesExpr number replacement := by
  rw [List.getElem?_map] at hfound
  rcases forall₂_getElem? h position with
    ⟨hnone, -⟩ | ⟨owned, ⟨context, number⟩, howned, hnumber, hcontext', hdenotes⟩
  · rw [hnone] at hfound
    cases hfound
  · rw [howned] at hfound
    cases hfound
    have hid : owned.context = id := hcontext owned howned
    obtain rfl : context = id := hcontext'.trans hid
    rw [hid] at hdenotes
    exact ⟨number, hnumber, hdenotes.extend henters.grows.keeps⟩

theorem input_none (h : List.Forall₂ (Numbers base) inputs numbers)
    (hnone : (inputs.map (·.item))[position]? = none) : numbers[position]? = none := by
  rw [List.getElem?_map, Option.map_eq_none_iff] at hnone
  rcases forall₂_getElem? h position with ⟨-, hnumbers⟩ | ⟨_, _, howned, -⟩
  · exact hnumbers
  · rw [hnone] at howned
    cases howned

/-- The number that a substitution puts in the place of a number. -/
def inputNumber? (dims syms : List Numbered) (current : Numbered) :
    SessionM (Option Numbered) := do
  match ← nodeOf current with
  | .dim position => return dims[position]?
  | .sym position => return syms[position]?
  | _ => return none

theorem agrees_inputs (hdims : List.Forall₂ (Numbers base) dims dimNumbers)
    (hsyms : List.Forall₂ (Numbers base) syms symNumbers) :
    Agrees id base (inputNumber? dimNumbers symNumbers)
      (Expr.inputReplacement? (dims.map (·.item)) (syms.map (·.item)))
      (Expr.DrawsFrom id dims syms) where
  subterms := Expr.subtermClosed_drawsFrom id dims syms
  found := by
    intro session number e replacement henters he hdraws hfound
    cases he with
    | @dim _ position hnode =>
        obtain ⟨number', hnumber', hdenotes⟩ := input_found hdims henters
          (fun owned => hdraws.1 position owned (by simp [Expr.usesDim])) hfound
        refine ⟨number', ?_, hdenotes⟩
        rw [inputNumber?, bind_eq_of_ok (nodeOf_run hnode)]
        dsimp only
        rw [hnumber']
        rfl
    | @sym _ position hnode =>
        obtain ⟨number', hnumber', hdenotes⟩ := input_found hsyms henters
          (fun owned => hdraws.2 position owned (by simp [Expr.usesSym])) hfound
        refine ⟨number', ?_, hdenotes⟩
        rw [inputNumber?, bind_eq_of_ok (nodeOf_run hnode)]
        dsimp only
        rw [hnumber']
        rfl
    | const hnode | binary hnode => cases hfound
  kept := by
    intro session number e henters he hdraws hnone
    cases he with
    | dim hnode =>
        rw [inputNumber?, bind_eq_of_ok (nodeOf_run hnode)]
        dsimp only
        rw [input_none hdims hnone]
        rfl
    | sym hnode =>
        rw [inputNumber?, bind_eq_of_ok (nodeOf_run hnode)]
        dsimp only
        rw [input_none hsyms hnone]
        rfl
    | const hnode | binary hnode => exact bind_eq_of_ok (nodeOf_run hnode)

theorem yields_substituteNumbered (hdims : List.Forall₂ (Numbers base) dims dimNumbers)
    (hsyms : List.Forall₂ (Numbers base) syms symNumbers) (hbase : id < base.contexts.size)
    (hclosed : (base.context id).tables.Closed) (henters : Enters id base session)
    (he : (session.context id).tables.DenotesExpr number e) (hdraws : e.DrawsFrom id dims syms) :
    Yields id (substituteNumbered dimNumbers symNumbers ⟨id, number⟩) session
      (e.substitute (dims.map (·.item)) (syms.map (·.item))) :=
  yields_transform (agrees_inputs hdims hsyms) hbase hclosed henters he hdraws

end Inputs

/-! ## Targets -/

section Targets

variable {target : Expr} {replacement : Owned Expr} {targetNumber : Nat} {numbered : Numbered}

/-- The number that a replacement puts in the place of a number. -/
def targetNumber? (target replacement current : Numbered) : SessionM (Option Numbered) :=
  return if current = target then some replacement else none

theorem agrees_target (htarget : (base.context id).tables.DenotesExpr targetNumber target)
    (hreplacement : Numbers base replacement numbered) :
    Agrees id base (targetNumber? ⟨id, targetNumber⟩ numbered)
      (Expr.targetReplacement? target replacement.item)
      fun e => target.Occurs e → replacement.context = id where
  subterms := Expr.subtermClosed_occurs target _
  found := by
    intro session number e found henters he hoccurs hfound
    unfold Expr.targetReplacement? at hfound
    split at hfound
    · rename_i heq
      cases hfound
      subst heq
      obtain ⟨context, replacementNumber⟩ := numbered
      obtain ⟨hcontext, hdenotes⟩ := hreplacement
      have hid : replacement.context = id := hoccurs e.occurs_self
      obtain rfl : context = id := hcontext.trans hid
      rw [hid] at hdenotes
      refine ⟨replacementNumber, ?_, hdenotes.extend henters.grows.keeps⟩
      obtain rfl := (he.eq_iff (htarget.extend henters.grows.keeps)).mpr rfl
      rw [targetNumber?, if_pos rfl]
      rfl
    · cases hfound
  kept := by
    intro session number e henters he _ hnone
    have hne : (⟨id, number⟩ : Numbered) ≠ ⟨id, targetNumber⟩ := by
      intro heq
      have hsame := (he.eq_iff (htarget.extend henters.grows.keeps)).mp (Owned.mk.inj heq).2
      rw [Expr.targetReplacement?, if_pos hsame] at hnone
      cases hnone
    rw [targetNumber?, if_neg hne]
    rfl

theorem yields_replaceNumbered
    (htarget : (base.context id).tables.DenotesExpr targetNumber target)
    (hreplacement : Numbers base replacement numbered) (hbase : id < base.contexts.size)
    (hclosed : (base.context id).tables.Closed) (henters : Enters id base session)
    (he : (session.context id).tables.DenotesExpr number e)
    (hoccurs : target.Occurs e → replacement.context = id) :
    Yields id (replaceNumbered ⟨id, targetNumber⟩ numbered ⟨id, number⟩) session
      (.replace target replacement.item e) :=
  yields_transform (agrees_target htarget hreplacement) hbase hclosed henters he hoccurs

end Targets

/-! ## Objects that are handed out -/

/-- A step enters objects in one context only, and hands out an object that is stored there. -/
def Gives {α : Type} (id : ContextId) (step : SessionM α) (session : Session) (a : α)
    (object : Object) : Prop :=
  ∃ session', step session = (.ok a, session') ∧ Enters id session session' ∧
    (session'.context id).tables.Stores object

theorem gives_read {α β : Type} {read : SessionM β} {next : β → SessionM α} {a : α} {b : β}
    {object : Object} (hread : read session = (.ok b, session))
    (h : Gives id (next b) session a object) : Gives id (read >>= next) session a object := by
  obtain ⟨session', hrun, henters, hstored⟩ := h
  exact ⟨session', (bind_eq_of_ok hread).trans hrun, henters, hstored⟩

theorem gives_of_makes {α : Type} {parts : List Object} {step : SessionM α}
    {made : α → List (Owned Object)} {a : α} {object : Object} (h : Makes id parts step made)
    (hid : id < session.contexts.size)
    (hparts : ∀ part ∈ parts, (session.context id).tables.Stores part)
    (hrun : (step session).1 = .ok a) (hmade : ⟨id, object⟩ ∈ made a) :
    Gives id step session a object := by
  obtain ⟨henters, hstored⟩ := h session hid hparts
  exact ⟨(step session).2, Prod.ext hrun rfl, henters, (hstored a hrun _ hmade).2⟩

/-- Objects of one context are given by what they are. -/
theorem exists_eq_map {α : Type} {list : List (Owned α)}
    (h : ∀ owned ∈ list, owned.context = id) :
    ∃ items : List α, list = items.map fun item => ⟨id, item⟩ := by
  refine ⟨list.map (·.item), ?_⟩
  rw [List.map_map]
  refine ((List.map_congr_left fun owned hmem => ?_).trans (List.map_id list)).symm
  cases h owned hmem
  rfl

theorem exists_eq_map_of_allIn {dims syms : List (Owned Expr)} (h : allIn id (dims ++ syms)) :
    ∃ dimItems symItems : List Expr, dims = dimItems.map (fun item => ⟨id, item⟩) ∧
      syms = symItems.map fun item => ⟨id, item⟩ := by
  obtain ⟨hdims, hsyms⟩ : (∀ e ∈ dims, e.context = id) ∧ ∀ e ∈ syms, e.context = id := by
    simpa [allIn] using h
  obtain ⟨dimItems, rfl⟩ := exists_eq_map hdims
  obtain ⟨symItems, rfl⟩ := exists_eq_map hsyms
  exact ⟨dimItems, symItems, rfl, rfl⟩

theorem exists_eq_of_allIn {target replacement : Owned Expr} (h : allIn id [target, replacement]) :
    ∃ targetItem replacementItem : Expr, target = ⟨id, targetItem⟩ ∧
      replacement = ⟨id, replacementItem⟩ := by
  obtain ⟨htarget, hreplacement⟩ : target.context = id ∧ replacement.context = id := by
    simpa [allIn] using h
  exact ⟨target.item, replacement.item, by rw [← htarget], by rw [← hreplacement]⟩

theorem exprOf_run (h : (session.context id).tables.DenotesExpr number e)
    (hclosed : (session.context id).tables.Closed) (order : Tables.Order) :
    exprOf order ⟨id, number⟩ session = (.ok ⟨id, e⟩, session) := by
  have hrun : exprOf order ⟨id, number⟩ session =
      (ofExcept ((session.context id).tables.readExpr order number) >>= fun e =>
        pure ⟨id, e⟩ : SessionM (Owned Expr)) session := rfl
  rw [hrun, h.readExpr_eq hclosed]
  rfl

theorem Yields.gives_exprOf {step : SessionM Numbered} (h : Yields id step session e)
    (hclosed : (session.context id).tables.Closed) :
    Gives id (step >>= exprOf .written) session ⟨id, e⟩ (.expr e) := by
  obtain ⟨number, session', hrun, henters, hnumber⟩ := h
  have hread := exprOf_run hnumber (henters.grows.closed hclosed) .written
  exact ⟨session', (bind_eq_of_ok hrun).trans hread, henters, number, hnumber⟩

theorem gives_substitute {dims syms : List (Owned Expr)} {e : Owned Expr}
    (hid : e.context < session.contexts.size)
    (hclosed : (session.context e.context).tables.Closed)
    (he : (session.context e.context).tables.Stores (.expr e.item))
    (hinputs : ∀ given ∈ dims ++ syms,
      (session.context given.context).tables.Stores (.expr given.item))
    (hdraws : e.item.DrawsFrom e.context dims syms) :
    Gives e.context (substitute dims syms e) session
      ⟨e.context, e.item.substitute (dims.map (·.item)) (syms.map (·.item))⟩
      (.expr (e.item.substitute (dims.map (·.item)) (syms.map (·.item)))) := by
  by_cases hall : allIn e.context (dims ++ syms)
  · obtain ⟨dims, syms, rfl, rfl⟩ := exists_eq_map_of_allIn hall
    rw [map_item, map_item]
    refine gives_of_makes (makes_substitute dims syms (List.mem_singleton_self _)) hid
      (by simpa using he) ?_ (List.mem_singleton_self _)
    rw [substitute_eq_made]
    rfl
  obtain ⟨number, hnumber⟩ := he
  obtain ⟨hdims, hsyms⟩ := List.forall_mem_append.mp hinputs
  obtain ⟨dimNumbers, hdimRun, hdimNumbers⟩ := mapM_numberOf_run hdims
  obtain ⟨symNumbers, hsymRun, hsymNumbers⟩ := mapM_numberOf_run hsyms
  rw [substitute, if_neg hall]
  refine gives_read hdimRun (gives_read hsymRun (gives_read (numberOf_run hnumber) ?_))
  exact (yields_substituteNumbered hdimNumbers hsymNumbers hid hclosed (.refl _ session) hnumber
    hdraws).gives_exprOf hclosed

theorem gives_replace {target replacement e : Owned Expr}
    (hid : e.context < session.contexts.size)
    (hclosed : (session.context e.context).tables.Closed)
    (hstored : ∀ given ∈ [target, replacement, e],
      (session.context given.context).tables.Stores (.expr given.item))
    (htarget : target.context = e.context)
    (hoccurs : target.item.Occurs e.item → replacement.context = e.context) :
    Gives e.context (replace target replacement e) session
      ⟨e.context, .replace target.item replacement.item e.item⟩
      (.expr (.replace target.item replacement.item e.item)) := by
  simp only [List.forall_mem_cons] at hstored
  obtain ⟨⟨targetNumber, htargetNumber⟩, ⟨replacementNumber, hreplacement⟩, he, -⟩ := hstored
  by_cases hall : allIn e.context [target, replacement]
  · obtain ⟨target, replacement, rfl, rfl⟩ := exists_eq_of_allIn hall
    refine gives_of_makes (makes_replace target replacement (List.mem_singleton_self _)) hid
      (by simpa using he) ?_ (List.mem_singleton_self _)
    rw [replace_eq_made]
    rfl
  obtain ⟨number, hnumber⟩ := he
  have hnumbers : Numbers session replacement ⟨replacement.context, replacementNumber⟩ :=
    ⟨rfl, hreplacement⟩
  rw [replace, if_neg hall]
  refine gives_read (numberOf_run htargetNumber) (gives_read (numberOf_run hreplacement)
    (gives_read (numberOf_run hnumber) ?_))
  rw [htarget] at htargetNumber ⊢
  exact (yields_replaceNumbered htargetNumber hnumbers hid hclosed (.refl _ session) hnumber
    hoccurs).gives_exprOf hclosed

/-! ## Maps and sets -/

section Changing

variable {change : Numbered → SessionM Numbered} {f : Expr → Expr} {numbers : List Nat}
  {exprs : List Expr}

theorem changeExprs_run (henters : Enters id base session)
    (hstored : ∀ e ∈ exprs, (base.context id).tables.Stores (.expr e))
    (hchange : ∀ e ∈ exprs, ∀ {session number}, Enters id base session →
      (session.context id).tables.DenotesExpr number e →
      Yields id (change ⟨id, number⟩) session (f e)) :
    ∃ numbers session', changeExprs id change exprs session = (.ok numbers, session') ∧
      Enters id session session' ∧
      List.Forall₂ (session'.context id).tables.DenotesExpr numbers (exprs.map f) := by
  induction exprs generalizing session with
  | nil => exact ⟨[], session, rfl, .refl id session, .nil⟩
  | cons e rest ih =>
      obtain ⟨⟨number, hstored⟩, hrest⟩ := List.forall_mem_cons.mp hstored
      have hnumber : (session.context id).tables.DenotesExpr number e :=
        Tables.DenotesExpr.extend hstored henters.grows.keeps
      obtain ⟨hfirst, hothers⟩ := List.forall_mem_cons.mp hchange
      obtain ⟨newNumber, between, hrun, hentered, hnew⟩ := hfirst henters hnumber
      obtain ⟨numbers, session', hrun', hentered', hnumbers⟩ :=
        ih (henters.trans hentered) hrest hothers
      refine ⟨newNumber :: numbers, session', ?_, hentered.trans hentered',
        .cons (hnew.extend hentered'.grows.keeps) hnumbers⟩
      have hnumberOf : numberOf ⟨id, e⟩ session = (.ok ⟨id, number⟩, session) :=
        numberOf_run hnumber
      have hstep : (do return (← change (← numberOf ⟨id, e⟩)).item : SessionM Nat) session =
          (.ok newNumber, between) := (bind_eq_of_ok hnumberOf).trans (bind_eq_of_ok hrun)
      rw [changeExprs, List.mapM_cons, bind_eq_of_ok hstep]
      exact bind_eq_of_ok hrun'

theorem mapM_readExpr {tables : Tables} (h : List.Forall₂ tables.DenotesExpr numbers exprs)
    (hclosed : tables.Closed) : numbers.mapM (tables.readExpr .written) = .ok exprs := by
  induction h with
  | nil => rfl
  | cons hnumber _ ih =>
      rw [List.mapM_cons, hnumber.readExpr_eq hclosed, ih]
      rfl

theorem mapM_exprOf_run (h : List.Forall₂ (session.context id).tables.DenotesExpr numbers exprs)
    (hclosed : (session.context id).tables.Closed) :
    numbers.mapM (fun number => exprOf .written ⟨id, number⟩) session =
      (.ok (exprs.map (⟨id, ·⟩)), session) := by
  induction h with
  | nil => rfl
  | cons hnumber _ ih =>
      rw [List.mapM_cons, bind_eq_of_ok (exprOf_run hnumber hclosed .written)]
      exact bind_eq_of_ok ih

theorem stores_of_forall₂ {tables : Tables}
    (h : List.Forall₂ tables.DenotesExpr numbers exprs) :
    ∀ e ∈ exprs, tables.Stores (.expr e) := by
  induction h with
  | nil => simp
  | cons hnumber _ ih => exact List.forall_mem_cons.mpr ⟨⟨_, hnumber⟩, ih⟩

theorem lookUp_mapNode (hid : id < session.contexts.size) (dims syms : Nat)
    (h : List.Forall₂ (session.context id).tables.DenotesExpr numbers exprs) :
    ∃ number session', lookUp id (·.internMapNode ⟨dims, syms, numbers⟩) session =
        (.ok number, session') ∧ Enters id session session' ∧
      (session'.context id).tables.DenotesMap number ⟨dims, syms, exprs⟩ := by
  have hgrows : (session.context id).tables.Grows
      ((session.context id).tables.internMapNode ⟨dims, syms, numbers⟩).2 :=
    Tables.grows_internMapNode (Tables.lt_size_of_forall₂ h)
  refine ⟨_, _, rfl, enters_withTables hid hgrows, ?_⟩
  rw [tables_withTables_self hid]
  exact ⟨numbers, Table.get?_intern _ _, h.imp fun _ _ he => he.extend hgrows.keeps⟩

theorem mapOf_run {map : AffineMap} (h : (session.context id).tables.DenotesMap number map)
    (hclosed : (session.context id).tables.Closed) :
    mapOf id number session = (.ok map, session) := by
  obtain ⟨numbers, hnode, hnumbers⟩ := h
  have hread : (session.context id).tables.readMap number = .ok map := by
    rw [Tables.readMap, hnode]
    dsimp only
    rw [mapM_readExpr hnumbers hclosed]
    rfl
  rw [mapOf, hread]

theorem gives_changeMap {map : Owned AffineMap} (dims syms : Nat)
    (hid : map.context < session.contexts.size)
    (hclosed : (session.context map.context).tables.Closed)
    (hstored : (session.context map.context).tables.Stores (.map map.item))
    (hchange : ∀ e ∈ map.item.results, ∀ {session' number}, Enters map.context session session' →
      (session'.context map.context).tables.DenotesExpr number e →
      Yields map.context (change ⟨map.context, number⟩) session' (f e)) :
    Gives map.context (changeMap change dims syms map) session
      ⟨map.context, ⟨dims, syms, map.item.results.map f⟩⟩
      (.map ⟨dims, syms, map.item.results.map f⟩) := by
  obtain ⟨_, _, -, hresults⟩ := hstored
  obtain ⟨numbers, between, hrun, hchanged, hnumbers⟩ :=
    changeExprs_run (.refl map.context session) (stores_of_forall₂ hresults) hchange
  obtain ⟨number, session', hlookUp, hentered, hmap⟩ :=
    lookUp_mapNode (by rwa [hchanged.size_eq]) dims syms hnumbers
  have henters := hchanged.trans hentered
  refine ⟨session', ?_, henters, number, hmap⟩
  rw [changeMap, bind_eq_of_ok hrun, bind_eq_of_ok hlookUp]
  exact bind_eq_of_ok (mapOf_run hmap (henters.grows.closed hclosed))

theorem lookUp_setNode (hid : id < session.contexts.size) {set : IntegerSet}
    (h : List.Forall₂ (session.context id).tables.DenotesExpr numbers set.exprs) :
    ∃ number session', lookUp id (·.internSetNode
        ⟨set.dims, set.syms, (set.constraints.map (·.relation)).zip numbers⟩) session =
        (.ok number, session') ∧ Enters id session session' ∧
      (session'.context id).tables.DenotesSet number set := by
  have hgrows := Tables.grows_internSetNode
    ⟨set.dims, set.syms, (set.constraints.map (·.relation)).zip numbers⟩
    fun pair hmem => Tables.lt_size_of_forall₂ h pair.2 (List.of_mem_zip hmem).2
  refine ⟨_, _, rfl, enters_withTables hid hgrows, ?_⟩
  rw [tables_withTables_self hid]
  exact ⟨_, Table.get?_intern _ _, (Tables.forall₂_denotesConstraint h).imp
    fun _ _ he => ⟨he.1, he.2.extend hgrows.keeps⟩⟩

theorem gives_changeSet {set : Owned IntegerSet} (dims syms : Nat)
    (hid : set.context < session.contexts.size)
    (hclosed : (session.context set.context).tables.Closed)
    (hstored : (session.context set.context).tables.Stores (.set set.item))
    (hchange : ∀ e ∈ set.item.exprs, ∀ {session' number}, Enters set.context session session' →
      (session'.context set.context).tables.DenotesExpr number e →
      Yields set.context (change ⟨set.context, number⟩) session' (f e)) :
    Gives set.context (changeSet change dims syms set) session
      ⟨set.context, set.item.withExprs dims syms (set.item.exprs.map f)⟩
      (.set (set.item.withExprs dims syms (set.item.exprs.map f))) := by
  obtain ⟨_, pairs, -, hpairs⟩ := hstored
  have hexprs : List.Forall₂ (session.context set.context).tables.DenotesExpr (pairs.map (·.2))
      set.item.exprs :=
    List.forall₂_map_left_iff.mpr (List.forall₂_map_right_iff.mpr (hpairs.imp fun _ _ h => h.2))
  obtain ⟨numbers, between, hrun, hchanged, hnumbers⟩ :=
    changeExprs_run (.refl set.context session) (stores_of_forall₂ hexprs) hchange
  have hlength : (set.item.exprs.map f).length = set.item.constraints.length := by
    simp [IntegerSet.exprs]
  have hnew : List.Forall₂ (between.context set.context).tables.DenotesExpr numbers
      (set.item.withExprs dims syms (set.item.exprs.map f)).exprs := by
    rwa [IntegerSet.exprs_withExprs hlength]
  obtain ⟨number, session', hlookUp, hentered, hset⟩ :=
    lookUp_setNode (by rwa [hchanged.size_eq]) hnew
  rw [IntegerSet.relations_withExprs hlength] at hlookUp
  have henters := hchanged.trans hentered
  have hread := mapM_exprOf_run (hnumbers.imp fun _ _ he => he.extend hentered.grows.keeps)
    (henters.grows.closed hclosed)
  refine ⟨session', ?_, henters, number, hset⟩
  rw [changeSet, bind_eq_of_ok hrun]
  refine (bind_eq_of_ok hlookUp).trans ((bind_eq_of_ok hread).trans ?_)
  rw [map_item]
  rfl

end Changing

section Substituting

variable {dimExprs symExprs : List (Owned Expr)}

theorem gives_substituteMap {map : Owned AffineMap} (dims syms : Nat)
    (hid : map.context < session.contexts.size)
    (hclosed : (session.context map.context).tables.Closed)
    (hmap : (session.context map.context).tables.Stores (.map map.item))
    (hinputs : ∀ given ∈ dimExprs ++ symExprs,
      (session.context given.context).tables.Stores (.expr given.item))
    (hdraws : ∀ e ∈ map.item.results, e.DrawsFrom map.context dimExprs symExprs) :
    Gives map.context (substituteMap dimExprs symExprs dims syms map) session
      ⟨map.context,
        map.item.substitute (dimExprs.map (·.item)) (symExprs.map (·.item)) dims syms⟩
      (.map (map.item.substitute (dimExprs.map (·.item)) (symExprs.map (·.item)) dims syms)) := by
  by_cases hall : allIn map.context (dimExprs ++ symExprs)
  · obtain ⟨dimExprs, symExprs, rfl, rfl⟩ := exists_eq_map_of_allIn hall
    have hmade := mem_remakeTrail map.item
      (map.item.substitute dimExprs symExprs dims syms) (Expr.substituteTrail dimExprs symExprs)
    rw [map_item, map_item, substituteMap_eq_remade]
    exact gives_of_makes (makes_remade hmade) hid (List.forall_mem_nil _) rfl
      (List.mem_singleton_self _)
  obtain ⟨hdims, hsyms⟩ := List.forall_mem_append.mp hinputs
  obtain ⟨dimNumbers, hdimRun, hdimNumbers⟩ := mapM_numberOf_run hdims
  obtain ⟨symNumbers, hsymRun, hsymNumbers⟩ := mapM_numberOf_run hsyms
  rw [substituteMap, if_neg hall]
  refine gives_read hdimRun (gives_read hsymRun ?_)
  exact gives_changeMap dims syms hid hclosed hmap fun e hmem _ _ henters he =>
    yields_substituteNumbered hdimNumbers hsymNumbers hid hclosed henters he (hdraws e hmem)

theorem gives_substituteSet {set : Owned IntegerSet} (dims syms : Nat)
    (hid : set.context < session.contexts.size)
    (hclosed : (session.context set.context).tables.Closed)
    (hset : (session.context set.context).tables.Stores (.set set.item))
    (hinputs : ∀ given ∈ dimExprs ++ symExprs,
      (session.context given.context).tables.Stores (.expr given.item))
    (hdraws : ∀ e ∈ set.item.exprs, e.DrawsFrom set.context dimExprs symExprs) :
    Gives set.context (substituteSet dimExprs symExprs dims syms set) session
      ⟨set.context,
        set.item.substitute (dimExprs.map (·.item)) (symExprs.map (·.item)) dims syms⟩
      (.set (set.item.substitute (dimExprs.map (·.item)) (symExprs.map (·.item)) dims syms)) := by
  by_cases hall : allIn set.context (dimExprs ++ symExprs)
  · obtain ⟨dimExprs, symExprs, rfl, rfl⟩ := exists_eq_map_of_allIn hall
    rw [map_item, map_item]
    refine gives_of_makes (makes_substituteSet dimExprs symExprs dims syms set.item) hid
      (List.forall_mem_nil _) ?_ (List.mem_singleton_self _)
    rw [substituteSet_eq]
    rfl
  obtain ⟨hdims, hsyms⟩ := List.forall_mem_append.mp hinputs
  obtain ⟨dimNumbers, hdimRun, hdimNumbers⟩ := mapM_numberOf_run hdims
  obtain ⟨symNumbers, hsymRun, hsymNumbers⟩ := mapM_numberOf_run hsyms
  rw [substituteSet, if_neg hall]
  refine gives_read hdimRun (gives_read hsymRun ?_)
  exact gives_changeSet dims syms hid hclosed hset fun e hmem _ _ henters he =>
    yields_substituteNumbered hdimNumbers hsymNumbers hid hclosed henters he (hdraws e hmem)

end Substituting

theorem gives_replaceMap {target replacement : Owned Expr} {map : Owned AffineMap} (dims syms : Nat)
    (hid : map.context < session.contexts.size)
    (hclosed : (session.context map.context).tables.Closed)
    (hmap : (session.context map.context).tables.Stores (.map map.item))
    (hgiven : ∀ given ∈ [target, replacement],
      (session.context given.context).tables.Stores (.expr given.item))
    (htarget : target.context = map.context)
    (hoccurs : ∀ e ∈ map.item.results, target.item.Occurs e → replacement.context = map.context) :
    Gives map.context (replaceMap target replacement dims syms map) session
      ⟨map.context, map.item.replace target.item replacement.item dims syms⟩
      (.map (map.item.replace target.item replacement.item dims syms)) := by
  simp only [List.forall_mem_cons] at hgiven
  obtain ⟨⟨targetNumber, htargetNumber⟩, ⟨replacementNumber, hreplacement⟩, -⟩ := hgiven
  by_cases hall : allIn map.context [target, replacement]
  · obtain ⟨target, replacement, rfl, rfl⟩ := exists_eq_of_allIn hall
    have hmade := mem_remakeTrail map.item (map.item.replace target replacement dims syms)
      (Expr.replaceTrail target replacement)
    rw [replaceMap_eq_remade]
    exact gives_of_makes (makes_remade hmade) hid (List.forall_mem_nil _) rfl
      (List.mem_singleton_self _)
  have hnumbers : Numbers session replacement ⟨replacement.context, replacementNumber⟩ :=
    ⟨rfl, hreplacement⟩
  rw [replaceMap, if_neg hall]
  refine gives_read (numberOf_run htargetNumber) (gives_read (numberOf_run hreplacement) ?_)
  rw [htarget] at htargetNumber ⊢
  exact gives_changeMap dims syms hid hclosed hmap fun e hmem _ _ henters he =>
    yields_replaceNumbered htargetNumber hnumbers hid hclosed henters he (hoccurs e hmem)

end Session

end AffineLoops
