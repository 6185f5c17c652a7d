import AffineLoops.Proofs.Session.Exactness
import AffineLoops.Proofs.Session.Substitution
import AffineLoops.Proofs.Session.Unguarded
import AffineLoops.Proofs.Session.Uniquing

/-!
# Calls that combine objects

A `Combination` is a call that makes a new object from objects of whatever contexts.  It takes place
in one of them, its home.  The call is `Local` if whatever ends up in the new object belongs to the
home; for substitutions this is less than that all given objects do.

* A call that looks at contexts is refused unless it is local (`refused`).
* A local call does in its home what it would do if it had been given objects of its home only
  (`confined`).
* A call that does not look at contexts never refuses anything because of them (`unguarded`).
-/

namespace AffineLoops

open Session

/-- The calls that combine objects, of whatever contexts, into a new object. -/
inductive Combination where
  | add (lhs rhs : Owned Expr)
  | sub (lhs rhs : Owned Expr)
  | scale (lhs rhs : Owned Expr)
  | operation (op : BinaryOp) (lhs rhs : Owned Expr)
  | rawOperation (op : BinaryOp) (lhs rhs : Owned Expr)
  | map (id : ContextId) (dims syms : Nat) (results : List (Owned Expr))
  | set (id : ContextId) (dims syms : Nat) (constraints : List (Relation × Owned Expr))
  | substitute (dims syms : List (Owned Expr)) (e : Owned Expr)
  | replace (target replacement e : Owned Expr)
  | composeWith (e : Owned Expr) (map : Owned AffineMap)
  | substituteMap (dimExprs symExprs : List (Owned Expr)) (dims syms : Nat)
      (map : Owned AffineMap)
  | replaceMap (target replacement : Owned Expr) (dims syms : Nat) (map : Owned AffineMap)
  | substituteSet (dimExprs symExprs : List (Owned Expr)) (dims syms : Nat)
      (set : Owned IntegerSet)
  | memrefType (id : ContextId) (shape : List Size) (element : Owned Ty)
      (layouts : List (Owned AffineMap))
  | vectorType (id : ContextId) (shape : List Nat) (element : Owned Ty)

namespace Combination

/-- The context in which a call takes place. -/
def home : Combination → ContextId
  | add lhs _ | sub lhs _ | scale lhs _ | operation _ lhs _ | rawOperation _ lhs _ => lhs.context
  | map id _ _ _ | set id _ _ _ | memrefType id _ _ _ | vectorType id _ _ => id
  | substitute _ _ e | replace _ _ e | composeWith e _ => e.context
  | substituteMap _ _ _ _ given | replaceMap _ _ _ _ given => given.context
  | substituteSet _ _ _ _ given => given.context

/-- The objects that a call is given. -/
def handles : Combination → List (Owned Object)
  | add lhs rhs | sub lhs rhs | scale lhs rhs | operation _ lhs rhs | rawOperation _ lhs rhs =>
      [ofExpr lhs, ofExpr rhs]
  | map _ _ _ results => results.map ofExpr
  | set _ _ _ constraints => constraints.map fun constraint => ofExpr constraint.2
  | substitute dims syms e => ofExpr e :: (dims ++ syms).map ofExpr
  | replace target replacement e => [ofExpr target, ofExpr replacement, ofExpr e]
  | composeWith e given => [ofExpr e, ofMap given]
  | substituteMap dimExprs symExprs _ _ given => ofMap given :: (dimExprs ++ symExprs).map ofExpr
  | replaceMap target replacement _ _ given => [ofExpr target, ofExpr replacement, ofMap given]
  | substituteSet dimExprs symExprs _ _ given => ofSet given :: (dimExprs ++ symExprs).map ofExpr
  | memrefType _ _ element layouts =>
      ⟨element.context, .type element.item⟩ :: layouts.map ofMap
  | vectorType _ _ element => [⟨element.context, .type element.item⟩]

/-- Whatever ends up in the new object belongs to the context in which the call takes place.  Of
what a substitution is given, only what is put in the place of something ends up there. -/
def Local : Combination → Prop
  | substitute dims syms e => e.item.DrawsFrom e.context dims syms
  | replace target replacement e =>
      target.context = e.context ∧ (target.item.Occurs e.item → replacement.context = e.context)
  | composeWith e given =>
      e.item.DrawsFrom e.context (given.item.results.map (⟨given.context, ·⟩)) []
  | substituteMap dimExprs symExprs _ _ given =>
      ∀ e ∈ given.item.results, e.DrawsFrom given.context dimExprs symExprs
  | replaceMap target replacement _ _ given => target.context = given.context ∧
    ∀ e ∈ given.item.results, target.item.Occurs e → replacement.context = given.context
  | substituteSet dimExprs symExprs _ _ given =>
      ∀ e ∈ given.item.exprs, e.DrawsFrom given.context dimExprs symExprs
  | call => ∀ handle ∈ call.handles, handle.context = call.home

/-- The call looks at the contexts of what it is given. -/
def Checks : Combination → Prop
  | add _ _ | sub _ _ | scale _ _ | operation _ _ _ | rawOperation _ _ _ | map _ _ _ _
  | set _ _ _ _ => True
  | _ => False

/-- The step of a call, and the object that it hands out. -/
def run : Combination → SessionM (List (Owned Object))
  | add lhs rhs => do return [ofExpr (← Session.add lhs rhs)]
  | sub lhs rhs => do return [ofExpr (← Session.sub lhs rhs)]
  | scale lhs rhs => do return [ofExpr (← Session.scale lhs rhs)]
  | operation op lhs rhs => do return [ofExpr (← Session.operation op lhs rhs)]
  | rawOperation op lhs rhs => do return [ofExpr (← Session.rawOperation op lhs rhs)]
  | map id dims syms results => do return [ofMap (← Session.map id dims syms results)]
  | set id dims syms constraints => do return [ofSet (← Session.set id dims syms constraints)]
  | substitute dims syms e => do return [ofExpr (← Session.substitute dims syms e)]
  | replace target replacement e => do return [ofExpr (← Session.replace target replacement e)]
  | composeWith e given => do return [ofExpr (← Session.composeWith e given)]
  | substituteMap dimExprs symExprs dims syms given => do
      return [ofMap (← Session.substituteMap dimExprs symExprs dims syms given)]
  | replaceMap target replacement dims syms given => do
      return [ofMap (← Session.replaceMap target replacement dims syms given)]
  | substituteSet dimExprs symExprs dims syms given => do
      return [ofSet (← Session.substituteSet dimExprs symExprs dims syms given)]
  | memrefType id shape element layouts => do
      return [⟨id, .type (← Session.memrefType id shape element layouts)⟩]
  | vectorType id shape element => do
      return [⟨id, .type (← Session.vectorType id shape element)⟩]

/-- The creation from the same objects in one context. -/
def within : Combination → Creation
  | add lhs rhs => .add lhs.item rhs.item
  | sub lhs rhs => .sub lhs.item rhs.item
  | scale lhs rhs => .scale lhs.item rhs.item
  | operation op lhs rhs => .operation op lhs.item rhs.item
  | rawOperation op lhs rhs => .rawOperation op lhs.item rhs.item
  | map _ dims syms results => .map dims syms (results.map (·.item))
  | set _ dims syms constraints =>
      .set dims syms (constraints.map fun constraint => (constraint.1, constraint.2.item))
  | substitute dims syms e => .substitute (dims.map (·.item)) (syms.map (·.item)) e.item
  | replace target replacement e => .replace target.item replacement.item e.item
  | composeWith e given => .composeWith e.item given.item
  | substituteMap dimExprs symExprs dims syms given =>
      .substituteMap (dimExprs.map (·.item)) (symExprs.map (·.item)) dims syms given.item
  | replaceMap target replacement dims syms given =>
      .replaceMap target.item replacement.item dims syms given.item
  | substituteSet dimExprs symExprs dims syms given =>
      .substituteSet (dimExprs.map (·.item)) (symExprs.map (·.item)) dims syms given.item
  | memrefType _ shape element layouts => .memrefType shape element.item (layouts.map (·.item))
  | vectorType _ shape element => .vectorType shape element.item

/-! ## Refusals -/

/-- The faults with which a call is refused that would combine objects of several contexts.  The
first expression that is refused decides, and one that belongs to the context may be refused for its
positions. -/
def Refuses : Combination → Fault → Prop
  | add _ _, fault | sub _ _, fault | scale _ _, fault => fault = .mixedContexts
  | operation _ _ _, fault | rawOperation _ _ _, fault => fault = .contextMismatch
  | map id dims syms results, fault => fault = .contextMismatch ∨
    ∃ e ∈ results, e.context = id ∧ e.item.checkPositions dims syms = .error fault
  | set id dims syms constraints, fault => fault = .contextMismatch ∨
    ∃ e ∈ constraints.map (·.2), e.context = id ∧ e.item.checkPositions dims syms = .error fault
  | _, _ => False

theorem bind_eq_of_error {α β : Type} {session session' : Session} {first : SessionM α}
    {next : α → SessionM β} {fault : Fault} (h : first session = (.error fault, session')) :
    (first >>= next) session = (.error fault, session') := by
  rw [bind_run, h]

theorem requireOperators_refused {lhs rhs : Owned Expr} (h : rhs.context ≠ lhs.context)
    (session : Session) :
    requireOperators lhs rhs session = (.error .mixedContexts, session) := by
  rw [requireOperators, if_neg h.symm]
  rfl

theorem requireContext_refused {id : ContextId} {e : Owned Expr} (h : e.context ≠ id)
    (session : Session) :
    requireContext id [e.context] session = (.error .contextMismatch, session) := by
  have hnot : ¬ [e.context].all (· == id) := by simpa using h
  rw [requireContext, if_neg hnot]
  rfl

theorem ofExcept_error {α : Type} {fault : Fault} (h : fault.type? = none) (session : Session) :
    ofExcept (.error fault : Except Fault α) session = (.error fault, session) := by
  rw [show ofExcept (.error fault : Except Fault α) =
    fault.type?.mapM readType >>= fun _ => throw fault from rfl, h]
  rfl

theorem type?_of_positionFault? {dims syms : Nat} {e : Expr} {fault : Fault}
    (h : e.positionFault? dims syms = some fault) : fault.type? = none := by
  induction e with
  | dim position | sym position =>
      simp only [Expr.positionFault?] at h
      split at h
      · cases h
      · cases h
        rfl
  | const value => cases h
  | binary op lhs rhs ihl ihr =>
      simp only [Expr.positionFault?] at h
      split at h
      · exact ihl (by simp_all)
      · exact ihr h

theorem requireExprs_refused {id : ContextId} {dims syms : Nat} {exprs : List (Owned Expr)}
    (h : ∃ e ∈ exprs, e.context ≠ id) (session : Session) :
    ∃ fault, requireExprs id dims syms exprs session = (.error fault, session) ∧
      (fault = .contextMismatch ∨
        ∃ e ∈ exprs, e.context = id ∧ e.item.checkPositions dims syms = .error fault) := by
  induction exprs with
  | nil => simp at h
  | cons e rest ih =>
      by_cases hid : e.context = id
      · have hrest : ∃ other ∈ rest, other.context ≠ id := by simpa [hid] using h
        obtain ⟨fault, hrun, hfault⟩ := ih hrest
        have hcontext : requireContext id [e.context] session = (.ok (), session) := by
          rw [requireContext, if_pos (by simp [hid])]
          rfl
        cases hpositions : e.item.positionFault? dims syms with
        | some first =>
            have hcheck : e.item.checkPositions dims syms = .error first := by
              rw [Expr.checkPositions, hpositions]
            have hrefused : ofExcept (e.item.checkPositions dims syms) session =
                (.error first, session) := by
              rw [hcheck, ofExcept_error (type?_of_positionFault? hpositions)]
            exact ⟨first, (bind_eq_of_ok hcontext).trans (bind_eq_of_error hrefused),
              .inr ⟨e, List.mem_cons_self, hid, hcheck⟩⟩
        | none =>
            -- the first expression passes both checks, so the fault is one of the others
            have hpassed :
                ofExcept (e.item.checkPositions dims syms) session = (.ok (), session) := by
              rw [Expr.checkPositions, hpositions]
              rfl
            refine ⟨fault, (bind_eq_of_ok hcontext).trans ((bind_eq_of_ok hpassed).trans hrun),
              hfault.imp_right ?_⟩
            rintro ⟨other, hmem, hother⟩
            exact ⟨other, List.mem_cons_of_mem e hmem, hother⟩
      · exact ⟨.contextMismatch, bind_eq_of_error (requireContext_refused hid session), .inl rfl⟩

section Operators

variable {lhs rhs : Owned Expr} (h : rhs.context ≠ lhs.context) (session : Session)

include h

theorem add_refused : Session.add lhs rhs session = (.error .mixedContexts, session) :=
  bind_eq_of_error (requireOperators_refused h session)

theorem scale_refused : Session.scale lhs rhs session = (.error .mixedContexts, session) :=
  bind_eq_of_error (requireOperators_refused h session)

/-- The negation of the right operand is made before the difference is refused. -/
theorem sub_refused : Session.sub lhs rhs session =
    (.error .mixedContexts, (Session.neg rhs session).2) := by
  obtain ⟨between, hneg⟩ := neg_eq_ok session rhs.context rhs.item
  have hforeign : (⟨rhs.context, rhs.item.neg⟩ : Owned Expr).context ≠ lhs.context := h
  have hbetween : (Session.neg rhs session).2 = between := congrArg Prod.snd hneg
  rw [hbetween]
  exact (bind_eq_of_ok hneg).trans (add_refused hforeign between)

theorem operation_refused (op : BinaryOp) :
    Session.operation op lhs rhs session = (.error .contextMismatch, session) :=
  bind_eq_of_error (requireContext_refused h session)

theorem rawOperation_refused (op : BinaryOp) :
    Session.rawOperation op lhs rhs session = (.error .contextMismatch, session) :=
  bind_eq_of_error (requireContext_refused h session)

end Operators

/-- A call that looks at contexts is refused where objects of several contexts would be combined.
It leaves behind at most the negation of an operand. -/
theorem refused {call : Combination} (hchecks : call.Checks) (hmixed : ¬ call.Local)
    (session : Session) :
    ∃ fault session', call.run session = (.error fault, session') ∧ call.Refuses fault ∧
      (session' = session ∨
        ∃ e, ofExpr e ∈ call.handles ∧ session' = (Session.neg e session).2) := by
  have hoperands {lhs rhs : Owned Expr}
      (h : ¬ ∀ handle ∈ [ofExpr lhs, ofExpr rhs], handle.context = lhs.context) :
      rhs.context ≠ lhs.context := by simpa [ofExpr] using h
  cases call with
  | add lhs rhs =>
      have hrun := add_refused (hoperands hmixed) session
      exact ⟨_, _, bind_eq_of_error hrun, rfl, .inl rfl⟩
  | sub lhs rhs =>
      have hrun := sub_refused (hoperands hmixed) session
      exact ⟨_, _, bind_eq_of_error hrun, rfl, .inr ⟨rhs, by simp [handles], rfl⟩⟩
  | scale lhs rhs =>
      have hrun := scale_refused (hoperands hmixed) session
      exact ⟨_, _, bind_eq_of_error hrun, rfl, .inl rfl⟩
  | operation op lhs rhs =>
      have hrun := operation_refused (hoperands hmixed) session op
      exact ⟨_, _, bind_eq_of_error hrun, rfl, .inl rfl⟩
  | rawOperation op lhs rhs =>
      have hrun := rawOperation_refused (hoperands hmixed) session op
      exact ⟨_, _, bind_eq_of_error hrun, rfl, .inl rfl⟩
  | map id dims syms results =>
      have hforeign : ∃ e ∈ results, e.context ≠ id := by
        simpa [Local, handles, home, ofExpr] using hmixed
      obtain ⟨fault, hrun, hfault⟩ := requireExprs_refused hforeign session
      exact ⟨fault, _, bind_eq_of_error (bind_eq_of_error hrun), hfault, .inl rfl⟩
  | set id dims syms constraints =>
      have hforeign : ∃ e ∈ constraints.map (·.2), e.context ≠ id := by
        by_contra hnone
        refine hmixed fun handle hmem => ?_
        obtain ⟨constraint, hconstraint, rfl⟩ := List.mem_map.mp hmem
        by_contra hne
        exact hnone ⟨constraint.2, List.mem_map_of_mem hconstraint, hne⟩
      obtain ⟨fault, hrun, hfault⟩ := requireExprs_refused hforeign session
      exact ⟨fault, _, bind_eq_of_error (bind_eq_of_error hrun), hfault, .inl rfl⟩
  | _ => exact absurd hchecks id

/-- A call that does not look at contexts never refuses objects because of them. -/
theorem unguarded {call : Combination} (h : ¬ call.Checks) : Unguarded call.run := by
  cases call with
  | add | sub | scale | operation | rawOperation | map | set => exact absurd trivial h
  | substitute dims syms e =>
      exact (unguarded_substitute dims syms e).bind fun _ => unguarded_pure _
  | replace target replacement e =>
      exact (unguarded_replace target replacement e).bind fun _ => unguarded_pure _
  | composeWith e given => exact (unguarded_substitute _ _ e).bind fun _ => unguarded_pure _
  | substituteMap dimExprs symExprs dims syms given =>
      exact (unguarded_substituteMap dimExprs symExprs dims syms given).bind
        fun _ => unguarded_pure _
  | replaceMap target replacement dims syms given =>
      exact (unguarded_replaceMap target replacement dims syms given).bind fun _ => unguarded_pure _
  | substituteSet dimExprs symExprs dims syms given =>
      exact (unguarded_substituteSet dimExprs symExprs dims syms given).bind
        fun _ => unguarded_pure _
  | memrefType id shape element layouts =>
      exact (unguarded_memrefType id shape element layouts).bind fun _ => unguarded_pure _
  | vectorType id shape element =>
      exact (unguarded_vectorType id shape element).bind fun _ => unguarded_pure _

/-! ## Calls that stay in one context -/

/-- A call does what it would do if it had been given objects of its context only, enters objects
only there, and hands out an object that is stored there. -/
def Confined (call : Combination) (session : Session) : Prop :=
  (call.run session).1 = (call.within.run call.home session).1 ∧
    Enters call.home session (call.run session).2 ∧
    ∀ objects, (call.run session).1 = .ok objects → ∀ object ∈ objects,
      object.context = call.home ∧
        ((call.run session).2.context call.home).tables.Stores object.item

section Confined

variable {call : Combination} {session : Session}

theorem parts_within (call : Combination) : call.within.parts = call.handles.map (·.item) := by
  cases call <;>
    simp [within, handles, Creation.parts, ofExpr, ofMap, ofSet, Function.comp_def]

theorem confined_of_home (hrun : call.run = call.within.run call.home)
    (hhome : ∀ handle ∈ call.handles, handle.context = call.home)
    (hid : call.home < session.contexts.size)
    (hstored : ∀ handle ∈ call.handles,
      (session.context handle.context).tables.Stores handle.item) : call.Confined session := by
  have hparts : ∀ part ∈ call.within.parts, (session.context call.home).tables.Stores part := by
    rw [parts_within]
    intro part hmem
    obtain ⟨handle, hhandle, rfl⟩ := List.mem_map.mp hmem
    rw [← hhome handle hhandle]
    exact hstored handle hhandle
  rw [Confined, hrun]
  exact ⟨rfl, call.within.makes_run call.home session hid hparts⟩

theorem confined_of_gives {α : Type} {step : SessionM α} {a : α} {object : Object}
    {wrap : α → Owned Object} (h : Gives call.home step session a object)
    (hrun : call.run = do return [wrap (← step)]) (hwrap : wrap a = ⟨call.home, object⟩)
    (hwithin : (call.within.run call.home session).1 = .ok [⟨call.home, object⟩]) :
    call.Confined session := by
  obtain ⟨session', hstep, henters, hstored⟩ := h
  have hgiven : call.run session = (.ok [⟨call.home, object⟩], session') := by
    rw [hrun, ← hwrap]
    exact bind_eq_of_ok hstep
  rw [Confined, hgiven, hwithin]
  refine ⟨rfl, henters, ?_⟩
  rintro _ ⟨⟩ given hmem
  obtain rfl := List.mem_singleton.mp hmem
  exact ⟨rfl, hstored⟩

/-- A call that combines objects of its context only is confined to it. -/
theorem confined (hlocal : call.Local) (hid : call.home < session.contexts.size)
    (hclosed : (session.context call.home).tables.Closed)
    (hstored : ∀ handle ∈ call.handles,
      (session.context handle.context).tables.Stores handle.item) : call.Confined session := by
  cases call with
  | add lhs rhs | sub lhs rhs | scale lhs rhs | operation op lhs rhs | rawOperation op lhs rhs =>
      refine confined_of_home ?_ hlocal hid hstored
      obtain ⟨context, rhs⟩ := rhs
      obtain rfl : context = lhs.context := hlocal (ofExpr ⟨context, rhs⟩) (by simp [handles])
      rfl
  | map id dims syms results =>
      refine confined_of_home ?_ hlocal hid hstored
      have hcontexts : ∀ e ∈ results, e.context = id := List.forall_mem_map.mp hlocal
      obtain ⟨results, rfl⟩ := exists_eq_map hcontexts
      rw [run, within, Creation.run, map_item]
      rfl
  | set id dims syms constraints =>
      refine confined_of_home ?_ hlocal hid hstored
      have hconstraints : (constraints.map fun constraint => (constraint.1, constraint.2.item)).map
          (fun constraint => (constraint.1, (⟨id, constraint.2⟩ : Owned Expr))) = constraints := by
        rw [List.map_map]
        refine (List.map_congr_left fun constraint hmem => ?_).trans (List.map_id constraints)
        have hcontext : constraint.2.context = id :=
          hlocal (ofExpr constraint.2) (List.mem_map.mpr ⟨constraint, hmem, rfl⟩)
        simp only [Function.comp_apply, ← hcontext, id_eq]
      rw [run, within, Creation.run, home, hconstraints]
  | substitute dims syms e =>
      obtain ⟨he, hinputs⟩ := List.forall_mem_cons.mp hstored
      refine confined_of_gives (gives_substitute hid hclosed he
        (fun given hmem => hinputs (ofExpr given) (List.mem_map_of_mem hmem)) hlocal) rfl rfl ?_
      rw [within, Creation.run, substitute_eq_made]
      rfl
  | replace target replacement e =>
      refine confined_of_gives (gives_replace hid hclosed (by simpa [handles, ofExpr] using hstored)
        hlocal.1 hlocal.2) rfl rfl ?_
      rw [within, Creation.run, replace_eq_made]
      rfl
  | composeWith e given =>
      obtain ⟨he, hgiven⟩ := List.forall_mem_cons.mp hstored
      -- the results of a stored map are stored where the map belongs
      obtain ⟨_, _, -, hresults⟩ := hgiven (ofMap given) (List.mem_singleton_self _)
      refine confined_of_gives (gives_substitute hid hclosed he ?_ hlocal) rfl rfl ?_
      · rw [List.append_nil]
        exact List.forall_mem_map.mpr (stores_of_forall₂ hresults)
      · obtain ⟨session', hrun⟩ := composeWith_eq_ok session e.context e.item given.item
        rw [map_item]
        exact congrArg Prod.fst (bind_eq_of_ok hrun)
  | substituteMap dimExprs symExprs dims syms given =>
      obtain ⟨hmap, hinputs⟩ := List.forall_mem_cons.mp hstored
      refine confined_of_gives (gives_substituteMap dims syms hid hclosed hmap
        (fun given hmem => hinputs (ofExpr given) (List.mem_map_of_mem hmem)) hlocal) rfl rfl ?_
      rw [within, Creation.run, substituteMap_eq_remade]
      rfl
  | replaceMap target replacement dims syms given =>
      obtain ⟨htarget, hothers⟩ := List.forall_mem_cons.mp hstored
      obtain ⟨hreplacement, hgiven⟩ := List.forall_mem_cons.mp hothers
      have hmap := hgiven (ofMap given) (List.mem_singleton_self _)
      refine confined_of_gives (gives_replaceMap dims syms hid hclosed hmap
        (by simpa using ⟨htarget, hreplacement⟩) hlocal.1 hlocal.2) rfl rfl ?_
      rw [within, Creation.run, replaceMap_eq_remade]
      rfl
  | substituteSet dimExprs symExprs dims syms given =>
      obtain ⟨hset, hinputs⟩ := List.forall_mem_cons.mp hstored
      refine confined_of_gives (gives_substituteSet dims syms hid hclosed hset
        (fun given hmem => hinputs (ofExpr given) (List.mem_map_of_mem hmem)) hlocal) rfl rfl ?_
      rw [within, Creation.run, substituteSet_eq]
      rfl
  | memrefType id shape element layouts =>
      refine confined_of_home ?_ hlocal hid hstored
      obtain ⟨context, element⟩ := element
      obtain ⟨hcontext, hlayouts⟩ := List.forall_mem_cons.mp hlocal
      obtain rfl : context = id := hcontext
      have hcontexts : ∀ layout ∈ layouts, layout.context = context :=
        List.forall_mem_map.mp hlayouts
      obtain ⟨layouts, rfl⟩ := exists_eq_map hcontexts
      rw [run, within, Creation.run, map_item]
      rfl
  | vectorType id shape element =>
      refine confined_of_home ?_ hlocal hid hstored
      obtain ⟨context, element⟩ := element
      obtain rfl : context = id := hlocal ⟨context, .type element⟩ (List.mem_singleton_self _)
      rfl

end Confined

end Combination

end AffineLoops
