import AffineLoops.Session.Objects
import AffineLoops.Session.Substitution
import Mathlib.Data.List.Forall2

/-!
# Steps that may fail

A step of a session either succeeds or ends in a fault, and in both cases leaves a session behind.
A step that succeeds is taken apart here into the steps of which it consists, and so is a partial
function along a list.
-/

namespace AffineLoops

/-- A partial function is defined along a list if it is defined at every element. -/
theorem mapM_eq_some_iff {α β : Type} {f : α → Option β} {list : List α} {results : List β} :
    list.mapM f = some results ↔ List.Forall₂ (fun a b => f a = some b) list results := by
  induction list generalizing results with
  | nil => simp [eq_comm]
  | cons a rest ih =>
      simp only [List.mapM_cons, Option.pure_def, Option.bind_eq_bind, Option.bind_eq_some_iff,
        List.forall₂_cons_left_iff, ih, Option.some.injEq]
      constructor
      · rintro ⟨b, hb, others, hothers, rfl⟩
        exact ⟨b, others, hb, hothers, rfl⟩
      · rintro ⟨b, others, hb, hothers, rfl⟩
        exact ⟨b, hb, others, hothers, rfl⟩

theorem of_map_eq_ok {ε α β : Type} {f : α → β} {result : Except ε α} {b : β}
    (h : result.map f = .ok b) : ∃ a, result = .ok a ∧ f a = b := by
  cases result with
  | error fault => cases h
  | ok a => exact ⟨a, rfl, Except.ok.inj h⟩

namespace Session

variable {α β : Type} {session session' : Session}

theorem bind_run (first : SessionM α) (next : α → SessionM β) (session : Session) :
    (first >>= next) session =
      match first session with
      | (.ok a, between) => next a between
      | (.error fault, between) => (.error fault, between) := by
  have hrun : (first >>= next) session =
      match first session with
      | (result, between) => ExceptT.bindCont next result between := rfl
  rw [hrun]
  cases first session with
  | mk result between => cases result <;> rfl

theorem map_run (f : α → β) (step : SessionM α) (session : Session) :
    (f <$> step) session = ((step session).1.map f, (step session).2) := by
  simp only [Functor.map, ExceptT.map, ExceptT.mk, bind, StateT.bind]
  cases step session with
  | mk result between => cases result <;> rfl

/-- A sequence that succeeds does so in both parts. -/
theorem of_bind_eq_ok {first : SessionM α} {next : α → SessionM β} {b : β}
    (h : (first >>= next) session = (.ok b, session')) :
    ∃ a between, first session = (.ok a, between) ∧ next a between = (.ok b, session') := by
  rw [bind_run] at h
  cases hfirst : first session with
  | mk result between =>
      rw [hfirst] at h
      cases result with
      | error fault => cases h
      | ok a => exact ⟨a, between, rfl, h⟩

theorem of_pure_eq_ok {a b : α} (h : (pure a : SessionM α) session = (.ok b, session')) :
    b = a ∧ session' = session := by
  cases h
  exact ⟨rfl, rfl⟩

/-- A fault is told in one way or another. -/
theorem of_ofExcept_eq_ok {result : Except Fault α} {a : α}
    (h : ofExcept result session = (.ok a, session')) : result = .ok a ∧ session' = session := by
  cases result with
  | ok b => exact (of_pure_eq_ok h).imp (congrArg _ ·.symm) id
  | error fault =>
      obtain ⟨_, between, -, hthrow⟩ := of_bind_eq_ok h
      cases hthrow

/-- Telling a fault changes nothing. -/
theorem ofExcept_unchanged (result : Except Fault α) (session : Session) :
    (ofExcept result session).2 = session := by
  cases result with
  | ok a => rfl
  | error fault =>
      rw [show ofExcept (.error fault : Except Fault α) =
        fault.type?.mapM readType >>= fun _ => throw fault from rfl, bind_run]
      cases fault.type? with
      | none => rfl
      | some type =>
          have hread : Option.mapM readType (some type) session =
              ((readType type session).1.map some, session) := map_run some (readType type) session
          rw [hread]
          cases (readType type session).1 <;> rfl

theorem of_follow_eq_ok {id : ContextId} {trail : Store → Nat → Trail}
    {compute : Store → Nat → Except Fault α} {a : α}
    (h : follow id trail compute session = (.ok a, session')) :
    compute session.store session.options.stepLimit = .ok a := by
  have hcompute : ofExcept (compute session.store session.options.stepLimit)
      (session.withTables id ((session.context id).tables.enterAll
        (trail session.store session.options.stepLimit))) = (.ok a, session') := h
  exact (of_ofExcept_eq_ok hcompute).1

theorem noting_eq (id : ContextId) (program : Noting α) (session : Session) :
    noting id program session = ofExcept (program []).1
      (session.withTables id ((session.context id).tables.enterAll
        (.ofExprs (program []).2))) := rfl

theorem of_noting_eq_ok {id : ContextId} {program : Noting α} {a : α}
    (h : noting id program session = (.ok a, session')) : (program []).1 = .ok a :=
  (of_ofExcept_eq_ok (noting_eq id program session ▸ h)).1

/-! ## Steps that change nothing -/

theorem bind_unchanged {first : SessionM α} {next : α → SessionM β}
    (hfirst : ∀ session, (first session).2 = session)
    (hnext : ∀ a session, (next a session).2 = session) (session : Session) :
    ((first >>= next) session).2 = session := by
  rw [bind_run]
  cases hrun : first session with
  | mk result between =>
      have hbetween := hfirst session
      rw [hrun] at hbetween
      subst hbetween
      cases result with
      | ok a => exact hnext a between
      | error fault => rfl

theorem requireExprs_unchanged (id : ContextId) (dims syms : Nat) (exprs : List (Owned Expr)) :
    ∀ session, (requireExprs id dims syms exprs session).2 = session := by
  induction exprs with
  | nil => exact fun _ => rfl
  | cons e rest ih =>
      exact bind_unchanged (ofExcept_unchanged _) fun _ =>
        bind_unchanged (ofExcept_unchanged _) fun _ => ih

/-! ## Parts of one context -/

section OneContext

variable (id : ContextId)

theorem allIn_map (exprs : List Expr) : allIn id (exprs.map (⟨id, ·⟩)) := by
  simp [allIn]

theorem map_item (items : List α) :
    (items.map fun item => (⟨id, item⟩ : Owned α)).map (·.item) = items := by
  simp [Function.comp_def]

theorem substitute_eq_made (dims syms : List Expr) (e : Expr) :
    substitute (dims.map (⟨id, ·⟩)) (syms.map (⟨id, ·⟩)) ⟨id, e⟩ =
      made id (e.substituteTrail dims syms) (e.substitute dims syms) := by
  rw [substitute, ← List.map_append, if_pos (allIn_map id (dims ++ syms)), map_item, map_item]
  rfl

theorem replace_eq_made (target replacement e : Expr) :
    replace ⟨id, target⟩ ⟨id, replacement⟩ ⟨id, e⟩ =
      made id (Expr.replaceTrail target replacement e) (.replace target replacement e) :=
  if_pos (allIn_map id [target, replacement])

theorem substituteMap_eq_remade (dimExprs symExprs : List Expr) (dims syms : Nat)
    (map : AffineMap) :
    substituteMap (dimExprs.map (⟨id, ·⟩)) (symExprs.map (⟨id, ·⟩)) dims syms ⟨id, map⟩ =
      remade ⟨id, map⟩ (map.substituteTrail dimExprs symExprs dims syms)
        (map.substitute dimExprs symExprs dims syms) := by
  rw [substituteMap, ← List.map_append, if_pos (allIn_map id (dimExprs ++ symExprs)), map_item,
    map_item]
  rfl

theorem replaceMap_eq_remade (target replacement : Expr) (dims syms : Nat) (map : AffineMap) :
    replaceMap ⟨id, target⟩ ⟨id, replacement⟩ dims syms ⟨id, map⟩ =
      remade ⟨id, map⟩ (map.replaceTrail target replacement dims syms)
        (map.replace target replacement dims syms) :=
  if_pos (allIn_map id [target, replacement])

theorem substituteSet_eq (dimExprs symExprs : List Expr) (dims syms : Nat) (set : IntegerSet) :
    substituteSet (dimExprs.map (⟨id, ·⟩)) (symExprs.map (⟨id, ·⟩)) dims syms ⟨id, set⟩ =
      (do
        enter id (set.substituteTrail dimExprs symExprs dims syms)
        return ⟨id, set.substitute dimExprs symExprs dims syms⟩) := by
  rw [substituteSet, ← List.map_append, if_pos (allIn_map id (dimExprs ++ symExprs)), map_item,
    map_item]

theorem elementOf_eq_pure (element : Ty) : elementOf id ⟨id, element⟩ = pure element := if_pos rfl

theorem vectorType_eq_ownType (shape : List Nat) (element : Ty) :
    vectorType id shape ⟨id, element⟩ = ownType id (.vector shape element) := by
  rw [vectorType, elementOf_eq_pure, pure_bind]

theorem memrefType_eq_ownType (shape : List Size) (element : Ty) (layouts : List AffineMap) :
    memrefType id shape ⟨id, element⟩ (layouts.map (⟨id, ·⟩)) =
      ownType id (.memref shape element (layouts.map .map)) := by
  have hlayouts : (layouts.map (⟨id, ·⟩)).mapM (layoutOf id) =
      (pure (layouts.map .map) : SessionM (List Layout)) := by
    induction layouts with
    | nil => rfl
    | cons map rest ih =>
        have hmap : layoutOf id ⟨id, map⟩ = pure (.map map) := if_pos rfl
        rw [List.map_cons, List.mapM_cons, hmap, pure_bind, ih, pure_bind, List.map_cons]
  rw [memrefType, elementOf_eq_pure, pure_bind, hlayouts, pure_bind]

end OneContext

end Session

end AffineLoops
