import AffineLoops.Proofs.Session.Making
import Mathlib.Logic.Relation

/-!
# Uniquing is faithful

A history is a session together with the objects that it has handed out.  It goes on by
creations of expressions, maps, sets and types, each of which uses objects of one context that
were handed out before (`History.Step`).  In every history all tables are closed and store whatever
was handed out, since one creation keeps both (`Faithful.step`); so numbers and trees agree for
as long as the session lasts (`uniquing_faithful`).
-/

namespace AffineLoops

open Session

/-- The ways of creating objects in a context, from objects of that context. -/
inductive Creation where
  | dim (position : Nat)
  | sym (position : Nat)
  | const (value : Int)
  | add (lhs rhs : Expr)
  | sub (lhs rhs : Expr)
  | neg (e : Expr)
  | scale (lhs rhs : Expr)
  | operation (op : BinaryOp) (lhs rhs : Expr)
  | rawOperation (op : BinaryOp) (lhs rhs : Expr)
  | shiftDims (offset count shift : Nat) (e : Expr)
  | shiftSyms (offset count shift : Nat) (e : Expr)
  | simplify (dims syms : Nat) (e : Expr)
  | substitute (dims syms : List Expr) (e : Expr)
  | replace (target replacement e : Expr)
  | composeWith (e : Expr) (map : AffineMap)
  | map (dims syms : Nat) (results : List Expr)
  | wholeMap (map : AffineMap)
  | mapFrom (source map : AffineMap)
  | shiftMapDims (shift offset : Nat) (map : AffineMap)
  | shiftMapSyms (shift offset : Nat) (map : AffineMap)
  | simplifyMap (map : AffineMap)
  | foldMap (constants : List (Option Int)) (map : AffineMap)
  | compressMaps (maps : List AffineMap)
  | substituteMap (dimExprs symExprs : List Expr) (dims syms : Nat) (map : AffineMap)
  | replaceMap (target replacement : Expr) (dims syms : Nat) (map : AffineMap)
  | set (dims syms : Nat) (constraints : List (Relation × Expr))
  | wholeSet (set : IntegerSet)
  | substituteSet (dimExprs symExprs : List Expr) (dims syms : Nat) (set : IntegerSet)
  | indexType
  | integerType (width : Nat)
  | floatType (width : Nat)
  | memrefType (shape : List Size) (element : Ty) (layouts : List AffineMap)
  | vectorType (shape : List Nat) (element : Ty)
  | trail (trail : Trail)

namespace Creation

/-- The objects that a creation uses. -/
def parts : Creation → List Object
  | add lhs rhs | sub lhs rhs | scale lhs rhs | operation _ lhs rhs | rawOperation _ lhs rhs =>
      [.expr lhs, .expr rhs]
  | neg e | shiftDims _ _ _ e | shiftSyms _ _ _ e | simplify _ _ e => [.expr e]
  | substitute dims syms e => .expr e :: (dims ++ syms).map .expr
  | replace target replacement e => [.expr target, .expr replacement, .expr e]
  | composeWith e given => [.expr e, .map given]
  | map _ _ results => results.map .expr
  | mapFrom source _ => [.map source]
  | shiftMapDims _ _ given | shiftMapSyms _ _ given | simplifyMap given | foldMap _ given =>
      [.map given]
  | compressMaps maps => maps.map .map
  | substituteMap dimExprs symExprs _ _ given => .map given :: (dimExprs ++ symExprs).map .expr
  | replaceMap target replacement _ _ given => [.expr target, .expr replacement, .map given]
  | set _ _ constraints => constraints.map fun constraint => .expr constraint.2
  | substituteSet dimExprs symExprs _ _ given => .set given :: (dimExprs ++ symExprs).map .expr
  | memrefType _ element layouts => .type element :: layouts.map .map
  | vectorType _ element => [.type element]
  | _ => []

/-- The step of a creation in a context, and the objects that it hands out. -/
def run (id : ContextId) : Creation → SessionM (List (Owned Object))
  | dim position => do return [ofExpr (← Session.dim id position)]
  | sym position => do return [ofExpr (← Session.sym id position)]
  | const value => do return [ofExpr (← Session.const id value)]
  | add lhs rhs => do return [ofExpr (← Session.add ⟨id, lhs⟩ ⟨id, rhs⟩)]
  | sub lhs rhs => do return [ofExpr (← Session.sub ⟨id, lhs⟩ ⟨id, rhs⟩)]
  | neg e => do return [ofExpr (← Session.neg ⟨id, e⟩)]
  | scale lhs rhs => do return [ofExpr (← Session.scale ⟨id, lhs⟩ ⟨id, rhs⟩)]
  | operation op lhs rhs => do return [ofExpr (← Session.operation op ⟨id, lhs⟩ ⟨id, rhs⟩)]
  | rawOperation op lhs rhs => do return [ofExpr (← Session.rawOperation op ⟨id, lhs⟩ ⟨id, rhs⟩)]
  | shiftDims offset count shift e => do
      return [ofExpr (← Session.shiftDims offset count shift ⟨id, e⟩)]
  | shiftSyms offset count shift e => do
      return [ofExpr (← Session.shiftSyms offset count shift ⟨id, e⟩)]
  | simplify dims syms e => do return [ofExpr (← Session.simplify dims syms ⟨id, e⟩)]
  | substitute dims syms e => do
      return [ofExpr (← Session.substitute (dims.map (⟨id, ·⟩)) (syms.map (⟨id, ·⟩)) ⟨id, e⟩)]
  | replace target replacement e => do
      return [ofExpr (← Session.replace ⟨id, target⟩ ⟨id, replacement⟩ ⟨id, e⟩)]
  | composeWith e given => do return [ofExpr (← Session.composeWith ⟨id, e⟩ ⟨id, given⟩)]
  | map dims syms results => do return [ofMap (← Session.map id dims syms (results.map (⟨id, ·⟩)))]
  | wholeMap given => do return [ofMap (← ownMap id given)]
  | mapFrom source new => do return [ofMap (← Session.mapFrom ⟨id, source⟩ new)]
  | shiftMapDims shift offset given => do
      return [ofMap (← Session.shiftMapDims shift offset ⟨id, given⟩)]
  | shiftMapSyms shift offset given => do
      return [ofMap (← Session.shiftMapSyms shift offset ⟨id, given⟩)]
  | simplifyMap given => do return [ofMap (← Session.simplifyMap ⟨id, given⟩)]
  | foldMap constants given => do return [ofMap (← Session.foldMap constants ⟨id, given⟩).1]
  | compressMaps maps => do
      return (← Session.compressMaps (maps.map (⟨id, ·⟩))).map fun new => ⟨id, .map new⟩
  | substituteMap dimExprs symExprs dims syms given => do
      return [ofMap (← Session.substituteMap (dimExprs.map (⟨id, ·⟩)) (symExprs.map (⟨id, ·⟩))
        dims syms ⟨id, given⟩)]
  | replaceMap target replacement dims syms given => do
      return [ofMap (← Session.replaceMap ⟨id, target⟩ ⟨id, replacement⟩ dims syms ⟨id, given⟩)]
  | set dims syms constraints => do
      return [ofSet (← Session.set id dims syms
        (constraints.map fun constraint => (constraint.1, ⟨id, constraint.2⟩)))]
  | wholeSet given => do return [ofSet (← ownSet id given)]
  | substituteSet dimExprs symExprs dims syms given => do
      return [ofSet (← Session.substituteSet (dimExprs.map (⟨id, ·⟩)) (symExprs.map (⟨id, ·⟩))
        dims syms ⟨id, given⟩)]
  | indexType => do return [⟨id, .type (← ownType id .index)⟩]
  | integerType width => do return [⟨id, .type (← ownType id (.integer width))⟩]
  | floatType width => do return [⟨id, .type (← ownType id (.float width))⟩]
  | memrefType shape element layouts => do
      return [⟨id, .type (← Session.memrefType id shape ⟨id, element⟩ (layouts.map (⟨id, ·⟩)))⟩]
  | vectorType shape element => do
      return [⟨id, .type (← Session.vectorType id shape ⟨id, element⟩)⟩]
  | trail entries => do
      enter id entries
      return entries.map fun entry => ⟨id, entry.toObject⟩

/-- A step hands out what it makes. -/
theorem makes_handed {α : Type} {id : ContextId} {parts : List Object} {step : SessionM α}
    {made : α → List (Owned Object)} (h : Makes id parts step made) :
    Makes id parts (step >>= fun a => pure (made a)) fun objects => objects :=
  h.bind fun _ hcontext => makes_pure fun object hmem =>
    ⟨hcontext object hmem, List.mem_append_right parts (List.mem_map_of_mem hmem)⟩

/-- Every creation enters objects only in its context, and what it hands out is stored there. -/
theorem makes_run (id : ContextId) (creation : Creation) :
    Makes id creation.parts (creation.run id) fun objects => objects := by
  cases creation with
  | dim position | sym position | const value => exact makes_handed (makes_ownExpr _)
  | add lhs rhs => exact makes_handed (makes_add (by simp [parts]) (by simp [parts]))
  | sub lhs rhs => exact makes_handed (makes_sub (by simp [parts]) (by simp [parts]))
  | neg e => exact makes_handed (makes_neg (by simp [parts]))
  | scale lhs rhs => exact makes_handed (makes_scale (by simp [parts]) (by simp [parts]))
  | operation op lhs rhs =>
      exact makes_handed (makes_operation op (by simp [parts]) (by simp [parts]))
  | rawOperation op lhs rhs => exact makes_handed (makes_rawOperation op)
  | shiftDims offset count shift e =>
      exact makes_handed (makes_transformed (Expr.movedDim? offset count _) (by simp [parts]))
  | shiftSyms offset count shift e =>
      exact makes_handed (makes_transformed (Expr.movedSym? offset count _) (by simp [parts]))
  | simplify dims syms e => exact makes_handed (makes_simplify dims syms)
  | substitute dims syms e => exact makes_handed (makes_substitute dims syms (by simp [parts]))
  | replace target replacement e =>
      exact makes_handed (makes_replace target replacement (by simp [parts]))
  | composeWith e map => exact makes_handed (makes_substitute map.results [] (by simp [parts]))
  | map dims syms results => exact makes_handed (makes_map dims syms _)
  | wholeMap map => exact makes_handed (makes_ownMap map)
  | mapFrom source map => exact makes_handed (makes_remade (by simp))
  | shiftMapDims shift offset map => exact makes_handed (makes_remade (mem_remakeTrail map _ _))
  | shiftMapSyms shift offset map => exact makes_handed (makes_remade (mem_remakeTrail map _ _))
  | simplifyMap map => exact makes_handed (makes_simplifyMap map)
  | foldMap constants map => exact makes_handed (makes_foldMap constants map)
  | compressMaps maps => exact makes_handed (makes_compressMaps maps)
  | substituteMap dimExprs symExprs dims syms map =>
      rw [run, substituteMap_eq_remade]
      exact makes_handed (makes_remade (mem_remakeTrail map _ _))
  | replaceMap target replacement dims syms map =>
      rw [run, replaceMap_eq_remade]
      exact makes_handed (makes_remade (mem_remakeTrail map _ _))
  | set dims syms constraints => exact makes_handed (makes_set dims syms _)
  | wholeSet set => exact makes_handed (makes_ownSet set)
  | substituteSet dimExprs symExprs dims syms set =>
      exact makes_handed (makes_substituteSet dimExprs symExprs dims syms set)
  | indexType | integerType width | floatType width =>
      exact makes_handed (makes_ownType fun _ _ => trivial)
  | memrefType shape element layouts =>
      exact makes_handed (makes_memrefType shape layouts (by simp [parts]))
  | vectorType shape element => exact makes_handed (makes_vectorType shape (by simp [parts]))
  | trail trail => exact makes_handed (makes_enter trail)

end Creation

/-! ## Histories -/

/-- A session and the objects that it has handed out. -/
structure History where
  session : Session
  objects : List (Owned Object)

namespace History

/-- The history of a session that begins. -/
def start (options : Options) (contextCount : Nat) (handlers : List Handler) : History :=
  ⟨.start options contextCount handlers, []⟩

/-- The history after a step that hands out objects, and may be refused. -/
def after (history : History) (step : SessionM (List (Owned Object))) : History :=
  match step history.session with
  | (.ok objects, session) => ⟨session, history.objects ++ objects⟩
  | (.error _, session) => ⟨session, history.objects⟩

/-- The history after a creation in a context. -/
def extend (history : History) (id : ContextId) (creation : Creation) : History :=
  history.after (creation.run id)

/-- A history goes on by a creation from objects of one context that it has handed out. -/
inductive Step : History → History → Prop
  | create {history : History} (id : ContextId) (creation : Creation)
      (hid : id < history.session.contexts.size)
      (hparts : ∀ part ∈ creation.parts, ⟨id, part⟩ ∈ history.objects) :
      Step history (history.extend id creation)

/-- The tables of a context in a history. -/
def tables (history : History) (id : ContextId) : Tables := (history.session.context id).tables

/-- All tables are closed, and whatever was handed out is stored. -/
structure Faithful (history : History) : Prop where
  closed : ∀ id, (history.tables id).Closed
  stored : ∀ object ∈ history.objects, (history.tables object.context).Stores object.item

theorem faithful_start (options : Options) (contextCount : Nat) (handlers : List Handler) :
    (start options contextCount handlers).Faithful := by
  refine ⟨fun id => ?_, by simp [start]⟩
  have hempty : (start options contextCount handlers).tables id = .empty := by
    simp only [tables, start, Session.start, Session.context, Array.getD_eq_getD_getElem?,
      Array.getElem?_replicate]
    split <;> rfl
  rw [hempty]
  exact Tables.closed_empty

section Stepping

variable {history : History} {step : SessionM (List (Owned Object))}

theorem session_after : (history.after step).session = (step history.session).2 := by
  unfold after
  split <;> rename_i hrun <;> rw [hrun]

theorem mem_objects_after {object : Owned Object} (h : object ∈ (history.after step).objects) :
    object ∈ history.objects ∨
      ∃ made, (step history.session).1 = .ok made ∧ object ∈ made := by
  unfold after at h
  split at h <;> rename_i hrun <;> rw [hrun]
  · exact (List.mem_append.mp h).imp_right fun hmem => ⟨_, rfl, hmem⟩
  · exact .inl h

/-- A step that enters objects in one context, and hands out objects that are stored there. -/
theorem Faithful.after {id : ContextId} (h : history.Faithful)
    (henters : Enters id history.session (step history.session).2)
    (hmade : ∀ made, (step history.session).1 = .ok made → ∀ object ∈ made,
      object.context = id ∧
        ((step history.session).2.context id).tables.Stores object.item) :
    (history.after step).Faithful ∧
      ∀ other, (history.tables other).Extends ((history.after step).tables other) := by
  have hgrows : ∀ other, (history.tables other).Grows ((history.after step).tables other) := by
    intro other
    rw [tables, tables, session_after]
    by_cases hother : other = id
    · exact hother ▸ henters.grows
    · rw [henters.others other hother]
      exact .refl _
  refine ⟨⟨fun other => (hgrows other).closed (h.closed other), ?_⟩,
    fun other => (hgrows other).keeps⟩
  intro object hmem
  rcases mem_objects_after hmem with hold | ⟨made, hrun, hnew⟩
  · exact (h.stored object hold).extend (hgrows object.context).keeps
  · obtain ⟨hcontext, hstored⟩ := hmade made hrun object hnew
    rwa [tables, session_after, hcontext]

end Stepping

/-- One creation keeps all tables closed, and keeps what they store. -/
theorem Faithful.step {history history' : History} (h : history.Faithful)
    (hstep : Step history history') :
    history'.Faithful ∧ ∀ id, (history.tables id).Extends (history'.tables id) := by
  obtain ⟨id, creation, hid, hparts⟩ := hstep
  obtain ⟨henters, hmade⟩ := creation.makes_run id history.session hid fun part hmem =>
    h.stored ⟨id, part⟩ (hparts part hmem)
  exact h.after henters hmade

/-- Any number of creations keeps all tables closed, and keeps what they store. -/
theorem Faithful.steps {history history' : History} (h : history.Faithful)
    (hsteps : Relation.ReflTransGen Step history history') :
    history'.Faithful ∧ ∀ id, (history.tables id).Extends (history'.tables id) := by
  induction hsteps with
  | refl => exact ⟨h, fun id => .refl _⟩
  | tail _ hstep ih =>
      obtain ⟨hfaithful, hextends⟩ := ih
      obtain ⟨hfaithful', hextends'⟩ := hfaithful.step hstep
      exact ⟨hfaithful', fun id => (hextends id).trans (hextends' id)⟩

/-! ## The result -/

/-- Uniquing is faithful.  However objects are made from objects of one context at a time, in every
context

* a node that is stored under a number stays there, and a number denotes the same object for ever;
* an operation refers to operands with smaller numbers than its own;
* every number denotes an object, an object that was handed out is found under a number without
  anything being entered, and two numbers of one sort are equal exactly if the objects they denote
  are the same tree. -/
theorem uniquing_faithful {options : Options} {contextCount : Nat} {handlers : List Handler}
    {history later : History}
    (hhistory : Relation.ReflTransGen Step (start options contextCount handlers) history)
    (hlater : Relation.ReflTransGen Step history later) (id : ContextId) :
    (history.tables id).Extends (later.tables id) ∧
    (∀ number object, (history.tables id).Denotes number object →
      (later.tables id).Denotes number object) ∧
    (∀ number op lhs rhs, (history.tables id).exprs.get? number = some (.binary op lhs rhs) →
      lhs < number ∧ rhs < number) ∧
    (∀ kind number, number < (history.tables id).count kind →
      ∃ object : Object, object.kind = kind ∧ (history.tables id).Denotes number object) ∧
    (∀ object, ⟨id, object⟩ ∈ history.objects → ∃ number,
      (history.tables id).intern object = (number, history.tables id) ∧
      (history.tables id).Denotes number object) ∧
    ∀ number number' object object', object.kind = object'.kind →
      (history.tables id).Denotes number object → (history.tables id).Denotes number' object' →
      (number = number' ↔ object = object') := by
  obtain ⟨hfaithful, -⟩ := (faithful_start options contextCount handlers).steps hhistory
  obtain ⟨-, hextends⟩ := hfaithful.steps hlater
  refine ⟨hextends id, fun number object hdenotes => hdenotes.extend (hextends id), ?_, ?_, ?_, ?_⟩
  · intro number op lhs rhs hnode
    have hsmaller := (hfaithful.closed id).exprs number _ hnode
    exact ⟨hsmaller lhs (by simp [ExprNode.operands]), hsmaller rhs (by simp [ExprNode.operands])⟩
  · exact fun kind number hlt => (hfaithful.closed id).exists_denotes kind hlt
  · intro object hmem
    obtain ⟨number, hnumber⟩ := hfaithful.stored ⟨id, object⟩ hmem
    exact ⟨number, Tables.intern_of_denotes hnumber, hnumber⟩
  · exact fun number number' object object' hkind hdenotes hdenotes' =>
      hdenotes.eq_iff hkind hdenotes'

/-- The sum of a dimension and a symbol. -/
def sum : Expr := .binary .add (.dim 0) (.sym 0)

/-- A sum is made in the second of two contexts, and a map that has it as both of its results. -/
def sharedSum : History :=
  ((((start ⟨10, false⟩ 2 []).extend 1 (.dim 0)).extend 1 (.sym 0)).extend 1
    (.add (.dim 0) (.sym 0))).extend 1 (.map 1 1 [sum, sum])

theorem uniquing_faithful_sharedSum :
    Relation.ReflTransGen Step (start ⟨10, false⟩ 2 []) sharedSum ∧
    sharedSum.objects = [⟨1, .expr (.dim 0)⟩, ⟨1, .expr (.sym 0)⟩, ⟨1, .expr sum⟩,
      ⟨1, .map ⟨1, 1, [sum, sum]⟩⟩] ∧
    (∃ number, (sharedSum.tables 1).intern (.expr sum) = (number, sharedSum.tables 1) ∧
      (sharedSum.tables 1).Denotes number (.expr sum)) ∧
    ∀ number, (sharedSum.tables 1).Denotes number (.expr sum) →
      (sharedSum.tables 1).Denotes number (.expr (.dim 0)) → False := by
  have hsteps : Relation.ReflTransGen Step (start ⟨10, false⟩ 2 []) sharedSum :=
    (((Relation.ReflTransGen.refl.tail (.create 1 _ (by decide) (by decide))).tail
      (.create 1 _ (by decide) (by decide))).tail
      (.create 1 _ (by decide) (by decide))).tail (.create 1 _ (by decide) (by decide))
  obtain ⟨-, -, -, -, hfound, hequal⟩ := uniquing_faithful hsteps .refl 1
  refine ⟨hsteps, rfl, hfound (.expr sum) (by decide), fun number hsum hdim => ?_⟩
  have hsame := (hequal number number (.expr sum) (.expr (.dim 0)) rfl hsum hdim).mp rfl
  exact absurd hsame (by decide)

end History

end AffineLoops
