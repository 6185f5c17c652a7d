import AffineLoops.Proofs.Uniquing.Unfolding
import AffineLoops.Trail.AffineMap

/-!
# Entering objects

A context enters an object part by part, so a node refers to numbers that are there already.  Tables
of which this holds are closed (`Closed`), and every number in them denotes an object
(`Closed.exists_denotes`), by induction over the number.  Entering whole objects lets tables grow
(`Grows`): they stay closed, and no node changes.

* `intern_spec`: an object that is entered has a number afterwards, and it is the one that is given
  back;
* `intern_of_denotes`: an object that is there is found, and nothing changes;
* `enterAll_spec`: all objects of a trail have numbers after they are entered.
-/

namespace AffineLoops

/-- A layout is given by a map. -/
def Layout.IsMap : Layout → Prop
  | map _ => True
  | numbered _ => False

/-- No part of a type is known by number only. -/
def Ty.IsPlain : Ty → Prop
  | memref _ element layouts => element.IsPlain ∧ ∀ layout ∈ layouts, layout.IsMap
  | vector _ element => element.IsPlain
  | numbered _ => False
  | _ => True

/-- The numbers to which a node refers. -/
def ExprNode.operands : ExprNode → List Nat
  | binary _ lhs rhs => [lhs, rhs]
  | _ => []

/-- The numbers of types to which a node refers. -/
def TyNode.elements : TyNode → List Nat
  | memref _ element _ => [element]
  | vector _ element => [element]
  | _ => []

/-- The numbers of maps to which a node refers. -/
def TyNode.layouts : TyNode → List Nat
  | memref _ _ layouts => layouts
  | _ => []

namespace Tables

/-- A node refers to numbers that are there, and in its own table to smaller ones. -/
structure Closed (tables : Tables) : Prop where
  exprs : ∀ number node, tables.exprs.get? number = some node →
    ∀ operand ∈ node.operands, operand < number
  maps : ∀ number node, tables.maps.get? number = some node →
    ∀ result ∈ node.results, result < tables.exprs.size
  sets : ∀ number node, tables.sets.get? number = some node →
    ∀ pair ∈ node.constraints, pair.2 < tables.exprs.size
  types : ∀ number node, tables.types.get? number = some node →
    (∀ element ∈ node.elements, element < number) ∧
      ∀ layout ∈ node.layouts, layout < tables.maps.size

/-- Whole objects are entered: nothing changes its number, and no reference leads to nothing. -/
structure Grows (tables tables' : Tables) : Prop where
  keeps : tables.Extends tables'
  closed : tables.Closed → tables'.Closed

section Growing

variable {tables tables' tables'' : Tables}

theorem Grows.refl (tables : Tables) : tables.Grows tables := ⟨.refl tables, id⟩

theorem Grows.trans (h : tables.Grows tables') (h' : tables'.Grows tables'') :
    tables.Grows tables'' :=
  ⟨h.keeps.trans h'.keeps, fun hclosed => h'.closed (h.closed hclosed)⟩

end Growing

/-! ## Closed tables -/

section Closing

variable {tables : Tables} {number : Nat}

theorem closed_empty : Closed empty := by
  refine ⟨?_, ?_, ?_, ?_⟩ <;>
  · intro number node h
    simp [empty, Table.get?, Table.empty] at h

theorem Closed.exists_denotesExpr (h : tables.Closed) (hlt : number < tables.exprs.size) :
    ∃ e, tables.DenotesExpr number e := by
  induction number using Nat.strongRecOn with
  | ind number ih =>
      obtain ⟨node, hnode⟩ := Table.lt_size_iff.mp hlt
      cases node with
      | dim position => exact ⟨_, .dim hnode⟩
      | sym position => exact ⟨_, .sym hnode⟩
      | const value => exact ⟨_, .const hnode⟩
      | binary op lhsNumber rhsNumber =>
          have hl : lhsNumber < number := h.exprs _ _ hnode lhsNumber (by simp [ExprNode.operands])
          have hr : rhsNumber < number := h.exprs _ _ hnode rhsNumber (by simp [ExprNode.operands])
          obtain ⟨lhs, hlhs⟩ := ih lhsNumber hl (Nat.lt_trans hl hlt)
          obtain ⟨rhs, hrhs⟩ := ih rhsNumber hr (Nat.lt_trans hr hlt)
          exact ⟨_, .binary hnode hlhs hrhs⟩

/-- What is denoted one by one is denoted as a list. -/
theorem exists_forall₂ {α β : Type} {relation : α → β → Prop} {list : List α}
    (h : ∀ a ∈ list, ∃ b, relation a b) : ∃ results, List.Forall₂ relation list results := by
  induction list with
  | nil => exact ⟨[], .nil⟩
  | cons a rest ih =>
      obtain ⟨⟨b, hb⟩, hrest⟩ := List.forall_mem_cons.mp h
      obtain ⟨results, hresults⟩ := ih hrest
      exact ⟨b :: results, .cons hb hresults⟩

theorem Closed.exists_denotesMap (h : tables.Closed) (hlt : number < tables.maps.size) :
    ∃ map, tables.DenotesMap number map := by
  obtain ⟨node, hnode⟩ := Table.lt_size_iff.mp hlt
  obtain ⟨results, hresults⟩ := exists_forall₂ fun result hmem =>
    h.exists_denotesExpr (h.maps _ _ hnode result hmem)
  exact ⟨⟨node.dims, node.syms, results⟩, node.results, hnode, hresults⟩

theorem Closed.exists_denotesSet (h : tables.Closed) (hlt : number < tables.sets.size) :
    ∃ set, tables.DenotesSet number set := by
  obtain ⟨node, hnode⟩ := Table.lt_size_iff.mp hlt
  have hpairs : ∀ pair ∈ node.constraints,
      ∃ constraint, tables.DenotesConstraint pair constraint := by
    intro pair hmem
    obtain ⟨e, he⟩ := h.exists_denotesExpr (h.sets _ _ hnode pair hmem)
    exact ⟨⟨pair.1, e⟩, rfl, he⟩
  obtain ⟨constraints, hconstraints⟩ := exists_forall₂ hpairs
  exact ⟨⟨node.dims, node.syms, constraints⟩, node.constraints, hnode, hconstraints⟩

theorem Closed.exists_denotesType (h : tables.Closed) (hlt : number < tables.types.size) :
    ∃ type, tables.DenotesType number type := by
  induction number using Nat.strongRecOn with
  | ind number ih =>
      obtain ⟨node, hnode⟩ := Table.lt_size_iff.mp hlt
      obtain ⟨helements, hlayouts⟩ := h.types _ _ hnode
      cases node with
      | index => exact ⟨_, .index hnode⟩
      | integer width => exact ⟨_, .integer hnode⟩
      | float width => exact ⟨_, .float hnode⟩
      | memref shape elementNumber layoutNumbers =>
          have hsmaller : elementNumber < number := helements _ (by simp [TyNode.elements])
          obtain ⟨element, helement⟩ := ih _ hsmaller (Nat.lt_trans hsmaller hlt)
          have hmaps : ∀ layoutNumber ∈ layoutNumbers,
              ∃ layout, tables.DenotesLayout layoutNumber layout := by
            intro layoutNumber hmem
            obtain ⟨map, hmap⟩ := h.exists_denotesMap (hlayouts layoutNumber hmem)
            exact ⟨.map map, hmap⟩
          obtain ⟨layouts, hlayouts⟩ := exists_forall₂ hmaps
          exact ⟨_, .memref hnode helement hlayouts⟩
      | vector shape elementNumber =>
          have hsmaller : elementNumber < number := helements _ (by simp [TyNode.elements])
          obtain ⟨element, helement⟩ := ih _ hsmaller (Nat.lt_trans hsmaller hlt)
          exact ⟨_, .vector hnode helement⟩

end Closing

/-! ## Entering nodes -/

section Entering

variable {tables : Tables}

theorem DenotesExpr.lt_size {number : Nat} {e : Expr} (h : tables.DenotesExpr number e) :
    number < tables.exprs.size := by
  cases h <;> exact Table.lt_size ‹_›

theorem DenotesMap.lt_size {number : Nat} {map : AffineMap} (h : tables.DenotesMap number map) :
    number < tables.maps.size := by
  obtain ⟨_, h, -⟩ := h
  exact Table.lt_size h

theorem DenotesType.lt_size {number : Nat} {type : Ty} (h : tables.DenotesType number type) :
    number < tables.types.size := by
  cases h <;> exact Table.lt_size ‹_›

theorem extends_internNode (tables : Tables) (node : ExprNode) :
    tables.Extends (tables.internNode node).2 :=
  ⟨Table.extends_intern _ _, .refl _, .refl _, .refl _⟩

theorem grows_internNode {node : ExprNode}
    (hnode : ∀ operand ∈ node.operands, operand < tables.exprs.size) :
    tables.Grows (tables.internNode node).2 := by
  have hextends := extends_internNode tables node
  refine ⟨hextends, fun h => ⟨?_, ?_, ?_, ?_⟩⟩
  · intro number found hfound operand hmem
    by_cases hold : tables.exprs.get? number = some found
    · exact h.exprs number found hold operand hmem
    · obtain ⟨rfl, hle⟩ := Table.le_of_intern hfound hold
      exact Nat.lt_of_lt_of_le (hnode operand hmem) hle
  · exact fun number found hfound result hmem =>
      hextends.exprs.lt_size (h.maps number found hfound result hmem)
  · exact fun number found hfound pair hmem =>
      hextends.exprs.lt_size (h.sets number found hfound pair hmem)
  · exact h.types

theorem grows_internMapNode {node : MapNode}
    (hnode : ∀ result ∈ node.results, result < tables.exprs.size) :
    tables.Grows (tables.internMapNode node).2 := by
  have hextends : tables.maps.Extends (tables.maps.intern node).2 := Table.extends_intern _ _
  refine ⟨⟨.refl _, hextends, .refl _, .refl _⟩, fun h => ⟨h.exprs, ?_, h.sets, ?_⟩⟩
  · intro number found hfound result hmem
    by_cases hold : tables.maps.get? number = some found
    · exact h.maps number found hold result hmem
    · obtain ⟨rfl, -⟩ := Table.le_of_intern hfound hold
      exact hnode result hmem
  · intro number found hfound
    obtain ⟨helements, hlayouts⟩ := h.types number found hfound
    exact ⟨helements, fun layout hmem => hextends.lt_size (hlayouts layout hmem)⟩

theorem grows_internSetNode (node : SetNode)
    (hnode : ∀ pair ∈ node.constraints, pair.2 < tables.exprs.size) :
    tables.Grows (tables.internSetNode node).2 := by
  refine ⟨⟨.refl _, .refl _, Table.extends_intern _ _, .refl _⟩,
    fun h => ⟨h.exprs, h.maps, ?_, h.types⟩⟩
  intro number found hfound pair hmem
  by_cases hold : tables.sets.get? number = some found
  · exact h.sets number found hold pair hmem
  · obtain ⟨rfl, -⟩ := Table.le_of_intern hfound hold
    exact hnode pair hmem

theorem grows_internTypeNode (node : TyNode)
    (helements : ∀ element ∈ node.elements, element < tables.types.size)
    (hlayouts : ∀ layout ∈ node.layouts, layout < tables.maps.size) :
    tables.Grows { tables with types := (tables.types.intern node).2 } := by
  refine ⟨⟨.refl _, .refl _, .refl _, Table.extends_intern _ _⟩,
    fun h => ⟨h.exprs, h.maps, h.sets, ?_⟩⟩
  intro number found hfound
  by_cases hold : tables.types.get? number = some found
  · exact h.types number found hold
  · obtain ⟨rfl, hle⟩ := Table.le_of_intern hfound hold
    exact ⟨fun element hmem => Nat.lt_of_lt_of_le (helements element hmem) hle, hlayouts⟩

end Entering

/-! ## Entering objects -/

section Interning

variable (tables : Tables)

theorem internExpr_spec (e : Expr) : tables.Grows (tables.internExpr e).2 ∧
    (tables.internExpr e).2.DenotesExpr (tables.internExpr e).1 e := by
  induction e generalizing tables with
  | dim position =>
      exact ⟨grows_internNode (by simp [ExprNode.operands]), .dim (Table.get?_intern _ _)⟩
  | sym position =>
      exact ⟨grows_internNode (by simp [ExprNode.operands]), .sym (Table.get?_intern _ _)⟩
  | const value =>
      exact ⟨grows_internNode (by simp [ExprNode.operands]), .const (Table.get?_intern _ _)⟩
  | binary op lhs rhs ihl ihr =>
      rw [internExpr]
      obtain ⟨hgrows, hlhs⟩ := ihl tables
      obtain ⟨hgrows', hrhs⟩ := ihr (tables.internExpr lhs).2
      have hlhs' := hlhs.extend hgrows'.keeps
      have hnode : ∀ operand ∈ (ExprNode.binary op (tables.internExpr lhs).1
          ((tables.internExpr lhs).2.internExpr rhs).1).operands,
          operand < ((tables.internExpr lhs).2.internExpr rhs).2.exprs.size := by
        simpa [ExprNode.operands] using ⟨hlhs'.lt_size, hrhs.lt_size⟩
      have hentered := grows_internNode hnode
      exact ⟨(hgrows.trans hgrows').trans hentered, .binary (Table.get?_intern _ _)
        (hlhs'.extend hentered.keeps) (hrhs.extend hentered.keeps)⟩

theorem internExprs_spec (exprs : List Expr) : tables.Grows (tables.internExprs exprs).2 ∧
    List.Forall₂ (tables.internExprs exprs).2.DenotesExpr (tables.internExprs exprs).1 exprs := by
  induction exprs generalizing tables with
  | nil => exact ⟨.refl tables, .nil⟩
  | cons e rest ih =>
      rw [internExprs]
      obtain ⟨hgrows, he⟩ := tables.internExpr_spec e
      obtain ⟨hgrows', hrest⟩ := ih (tables.internExpr e).2
      exact ⟨hgrows.trans hgrows', .cons (he.extend hgrows'.keeps) hrest⟩

/-- All numbers of a list that denotes something are there. -/
theorem lt_size_of_forall₂ {tables : Tables} {numbers : List Nat} {exprs : List Expr}
    (h : List.Forall₂ tables.DenotesExpr numbers exprs) :
    ∀ number ∈ numbers, number < tables.exprs.size := by
  induction h with
  | nil => simp
  | cons he _ ih => exact List.forall_mem_cons.mpr ⟨he.lt_size, ih⟩

theorem forall₂_denotesConstraint {tables : Tables} {constraints : List Constraint}
    {numbers : List Nat}
    (h : List.Forall₂ tables.DenotesExpr numbers (constraints.map (·.expr))) :
    List.Forall₂ tables.DenotesConstraint ((constraints.map (·.relation)).zip numbers)
      constraints := by
  induction constraints generalizing numbers with
  | nil => simp
  | cons constraint rest ih =>
      cases h with
      | cons he hrest => exact .cons ⟨rfl, he⟩ (ih hrest)

theorem lt_size_of_denotesLayout {tables : Tables} {numbers : List Nat} {layouts : List Layout}
    (h : List.Forall₂ tables.DenotesLayout numbers layouts) :
    ∀ number ∈ numbers, number < tables.maps.size := by
  induction h with
  | nil => simp
  | @cons number layout _ _ hlayout _ ih =>
      cases layout with
      | map map => exact List.forall_mem_cons.mpr ⟨DenotesMap.lt_size hlayout, ih⟩
      | numbered _ => cases hlayout

theorem internMap_spec (map : AffineMap) : tables.Grows (tables.internMap map).2 ∧
    (tables.internMap map).2.DenotesMap (tables.internMap map).1 map := by
  rw [internMap]
  obtain ⟨hgrows, hresults⟩ := tables.internExprs_spec map.results
  have hentered : (tables.internExprs map.results).2.Grows
      ((tables.internExprs map.results).2.internMapNode
        ⟨map.dims, map.syms, (tables.internExprs map.results).1⟩).2 :=
    grows_internMapNode (lt_size_of_forall₂ hresults)
  exact ⟨hgrows.trans hentered, _, Table.get?_intern _ _,
    hresults.imp fun _ _ he => he.extend hentered.keeps⟩

theorem internSet_spec (set : IntegerSet) : tables.Grows (tables.internSet set).2 ∧
    (tables.internSet set).2.DenotesSet (tables.internSet set).1 set := by
  rw [internSet]
  obtain ⟨hgrows, hexprs⟩ := tables.internExprs_spec set.exprs
  have hpairs := forall₂_denotesConstraint hexprs
  have hlt : ∀ pair ∈ (set.constraints.map (·.relation)).zip (tables.internExprs set.exprs).1,
      pair.2 < (tables.internExprs set.exprs).2.exprs.size :=
    fun pair hmem => lt_size_of_forall₂ hexprs pair.2 (List.of_mem_zip hmem).2
  have hentered := grows_internSetNode ⟨set.dims, set.syms, _⟩ hlt
  exact ⟨hgrows.trans hentered, _, Table.get?_intern _ _,
    hpairs.imp fun _ _ he => ⟨he.1, he.2.extend hentered.keeps⟩⟩

theorem internLayouts_spec {layouts : List Layout} (hplain : ∀ layout ∈ layouts, layout.IsMap) :
    tables.Grows (tables.internLayouts layouts).2 ∧
      List.Forall₂ (tables.internLayouts layouts).2.DenotesLayout
        (tables.internLayouts layouts).1 layouts := by
  induction layouts generalizing tables with
  | nil => exact ⟨.refl tables, .nil⟩
  | cons layout rest ih =>
      obtain ⟨hlayout, hrest⟩ := List.forall_mem_cons.mp hplain
      cases layout with
      | numbered number => cases hlayout
      | map map =>
          rw [internLayouts]
          obtain ⟨hgrows, hmap⟩ := tables.internMap_spec map
          obtain ⟨hgrows', hothers⟩ := ih (tables.internMap map).2 hrest
          exact ⟨hgrows.trans hgrows', .cons (hmap.extend hgrows'.keeps) hothers⟩

theorem internType_spec {type : Ty} (hplain : type.IsPlain) :
    tables.Grows (tables.internType type).2 ∧
      (tables.internType type).2.DenotesType (tables.internType type).1 type := by
  induction type generalizing tables with
  | index =>
      exact ⟨grows_internTypeNode .index (by simp [TyNode.elements]) (by simp [TyNode.layouts]),
        .index (Table.get?_intern _ _)⟩
  | integer width =>
      exact ⟨grows_internTypeNode (.integer width) (by simp [TyNode.elements])
        (by simp [TyNode.layouts]),
        .integer (Table.get?_intern _ _)⟩
  | float width =>
      exact ⟨grows_internTypeNode (.float width) (by simp [TyNode.elements])
        (by simp [TyNode.layouts]),
        .float (Table.get?_intern _ _)⟩
  | memref shape element layouts ih =>
      rw [internType]
      obtain ⟨hgrows, helement⟩ := ih tables hplain.1
      obtain ⟨hgrows', hlayouts⟩ := (tables.internType element).2.internLayouts_spec hplain.2
      have helement' := helement.extend hgrows'.keeps
      have hentered : ((tables.internType element).2.internLayouts layouts).2.Grows _ :=
        grows_internTypeNode (.memref shape (tables.internType element).1
          ((tables.internType element).2.internLayouts layouts).1)
          (by simpa [TyNode.elements] using helement'.lt_size)
          (by simpa [TyNode.layouts] using lt_size_of_denotesLayout hlayouts)
      exact ⟨(hgrows.trans hgrows').trans hentered, .memref (Table.get?_intern _ _)
        (helement'.extend hentered.keeps)
        (hlayouts.imp fun _ _ hlayout => hlayout.extend hentered.keeps)⟩
  | vector shape element ih =>
      rw [internType]
      obtain ⟨hgrows, helement⟩ := ih tables hplain
      have hentered : (tables.internType element).2.Grows _ :=
        grows_internTypeNode (.vector shape (tables.internType element).1)
          (by simpa [TyNode.elements] using helement.lt_size) (by simp [TyNode.layouts])
      exact ⟨hgrows.trans hentered, .vector (Table.get?_intern _ _)
        (helement.extend hentered.keeps)⟩
  | numbered number => exact absurd hplain id

end Interning

/-! ## Objects that are there -/

section Finding

variable {tables : Tables} {number : Nat}

theorem internExpr_of_denotes {e : Expr} (h : tables.DenotesExpr number e) :
    tables.internExpr e = (number, tables) := by
  induction h with
  | dim h | sym h | const h => simp only [internExpr, internNode, Table.intern_of_get? h]
  | binary h _ _ ihl ihr =>
      simp only [internExpr, ihl, ihr, internNode, Table.intern_of_get? h]

theorem internExprs_of_denotes {numbers : List Nat} {exprs : List Expr}
    (h : List.Forall₂ tables.DenotesExpr numbers exprs) :
    tables.internExprs exprs = (numbers, tables) := by
  induction h with
  | nil => rfl
  | cons he _ ih => simp only [internExprs, internExpr_of_denotes he, ih]

theorem internMap_of_denotes {map : AffineMap} (h : tables.DenotesMap number map) :
    tables.internMap map = (number, tables) := by
  obtain ⟨results, h, hresults⟩ := h
  simp only [internMap, internExprs_of_denotes hresults, internMapNode, Table.intern_of_get? h]

theorem internSet_of_denotes {set : IntegerSet} (h : tables.DenotesSet number set) :
    tables.internSet set = (number, tables) := by
  obtain ⟨pairs, h, hpairs⟩ := h
  have hexprs : List.Forall₂ tables.DenotesExpr (pairs.map (·.2)) set.exprs :=
    List.forall₂_map_left_iff.mpr
      (List.forall₂_map_right_iff.mpr (hpairs.imp fun _ _ hpair => hpair.2))
  have hrelations : set.constraints.map (·.relation) = pairs.map (·.1) := by
    have hsame : List.Forall₂ (· = ·) (pairs.map (·.1)) (set.constraints.map (·.relation)) :=
      List.forall₂_map_left_iff.mpr
        (List.forall₂_map_right_iff.mpr (hpairs.imp fun _ _ hpair => hpair.1))
    exact (List.forall₂_eq_eq_eq ▸ hsame : _ = _).symm
  have hzip : (pairs.map (·.1)).zip (pairs.map (·.2)) = pairs := by simp [List.zip_map']
  simp only [internSet, internExprs_of_denotes hexprs, hrelations, hzip, internSetNode,
    Table.intern_of_get? h]

theorem internLayouts_of_denotes {numbers : List Nat} {layouts : List Layout}
    (h : List.Forall₂ tables.DenotesLayout numbers layouts) :
    tables.internLayouts layouts = (numbers, tables) := by
  induction h with
  | nil => rfl
  | @cons number layout _ _ hlayout _ ih =>
      cases layout with
      | map map => simp only [internLayouts, internMap_of_denotes hlayout, ih]
      | numbered _ => cases hlayout

theorem internType_of_denotes {type : Ty} (h : tables.DenotesType number type) :
    tables.internType type = (number, tables) := by
  induction h with
  | index h | integer h | float h => simp only [internType, Table.intern_of_get? h]
  | memref h _ hlayouts ih =>
      simp only [internType, ih, internLayouts_of_denotes hlayouts, Table.intern_of_get? h]
  | vector h _ ih => simp only [internType, ih, Table.intern_of_get? h]

end Finding

/-! ## Objects of all kinds -/

end Tables

/-- All layouts in an object are given by maps. -/
def Object.IsPlain : Object → Prop
  | type plain => plain.IsPlain
  | _ => True

namespace Tables

/-- The number of an object, which is entered if it is not there. -/
def intern (tables : Tables) : Object → Nat × Tables
  | .expr e => tables.internExpr e
  | .map map => tables.internMap map
  | .set set => tables.internSet set
  | .type type => tables.internType type

section Objects

variable {tables : Tables} {number : Nat} {object : Object}

theorem intern_of_denotes (h : tables.Denotes number object) :
    tables.intern object = (number, tables) := by
  cases object with
  | expr e => exact internExpr_of_denotes h
  | map map => exact internMap_of_denotes h
  | set set => exact internSet_of_denotes h
  | type type => exact internType_of_denotes h

theorem intern_spec (tables : Tables) (hplain : object.IsPlain) :
    tables.Grows (tables.intern object).2 ∧
      (tables.intern object).2.Denotes (tables.intern object).1 object := by
  cases object with
  | expr e => exact tables.internExpr_spec e
  | map map => exact tables.internMap_spec map
  | set set => exact tables.internSet_spec set
  | type type => exact tables.internType_spec hplain

theorem isMap_of_denotes {numbers : List Nat} {layouts : List Layout}
    (h : List.Forall₂ tables.DenotesLayout numbers layouts) : ∀ layout ∈ layouts, layout.IsMap := by
  induction h with
  | nil => simp
  | @cons _ layout _ _ hlayout _ ih =>
      cases layout with
      | map map => exact List.forall_mem_cons.mpr ⟨trivial, ih⟩
      | numbered _ => cases hlayout

theorem isPlain_of_denotes {type : Ty} (h : tables.DenotesType number type) : type.IsPlain := by
  induction h with
  | index _ | integer _ | float _ => trivial
  | memref _ _ hlayouts ih => exact ⟨ih, isMap_of_denotes hlayouts⟩
  | vector _ _ ih => exact ih

theorem Closed.exists_denotes (h : tables.Closed) (kind : Kind) (hlt : number < tables.count kind) :
    ∃ object : Object, object.kind = kind ∧ tables.Denotes number object := by
  cases kind with
  | expr => exact (h.exists_denotesExpr hlt).imp' Object.expr fun _ he => ⟨rfl, he⟩
  | map => exact (h.exists_denotesMap hlt).imp' Object.map fun _ hmap => ⟨rfl, hmap⟩
  | set => exact (h.exists_denotesSet hlt).imp' Object.set fun _ hset => ⟨rfl, hset⟩
  | type => exact (h.exists_denotesType hlt).imp' Object.type fun _ htype => ⟨rfl, htype⟩

/-- The operands of a stored operation are stored. -/
theorem Stores.operands {op : BinaryOp} {lhs rhs : Expr}
    (h : tables.Stores (.expr (.binary op lhs rhs))) :
    tables.Stores (.expr lhs) ∧ tables.Stores (.expr rhs) := by
  obtain ⟨number, hnumber⟩ := h
  cases hnumber with
  | binary _ hlhs hrhs => exact ⟨⟨_, hlhs⟩, ⟨_, hrhs⟩⟩

end Objects

/-! ## Trails -/

end Tables

/-- The object that is entered. -/
def Entry.toObject : Entry → Object
  | expr e => .expr e
  | map affineMap => .map affineMap
  | set integerSet => .set integerSet

namespace Tables

theorem enter_spec (tables : Tables) (entry : Entry) :
    tables.Grows (tables.enter entry) ∧ (tables.enter entry).Stores entry.toObject := by
  cases entry with
  | expr e => exact (tables.internExpr_spec e).imp_right fun h => ⟨_, h⟩
  | map map => exact (tables.internMap_spec map).imp_right fun h => ⟨_, h⟩
  | set set => exact (tables.internSet_spec set).imp_right fun h => ⟨_, h⟩

theorem enterAll_spec (tables : Tables) (trail : Trail) :
    tables.Grows (tables.enterAll trail) ∧
      ∀ entry ∈ trail, (tables.enterAll trail).Stores entry.toObject := by
  induction trail generalizing tables with
  | nil => exact ⟨.refl tables, by simp⟩
  | cons entry rest ih =>
      obtain ⟨hgrows, hentry⟩ := tables.enter_spec entry
      obtain ⟨hgrows', hrest⟩ := ih (tables.enter entry)
      exact ⟨hgrows.trans hgrows',
        List.forall_mem_cons.mpr ⟨hentry.extend hgrows'.keeps, hrest⟩⟩

end Tables

end AffineLoops
