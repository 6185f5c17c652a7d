import AffineLoops.Identifier.Scope
import AffineLoops.Proofs.IR.Links

/-!
# Enclosing regions

A region encloses another one if it is reached by going again and again from a region to the
region around its owner.  A value can be used where it is visible, that is in the region of its
block and in what this region encloses.

* `not_encloses_inside`: where no operation is nested in itself, no region encloses a region that
  it is inside of;
* `encloses_scope`: the scope of an operation is the innermost region around it that belongs to an
  operation with its own scope, so every other such region encloses it.
-/

namespace AffineLoops

/-- The elements of a chain are reached by its steps. -/
theorem reflTransGen_of_mem_chain {α : Type} {next? : α → Option α} {bound : Nat} {a b : α}
    (h : b ∈ chain next? bound a) :
    Relation.ReflTransGen (fun inner outer => next? inner = some outer) a b := by
  induction bound generalizing a with
  | zero => cases h
  | succ bound ih =>
      rw [chain] at h
      rcases List.mem_cons.mp h with rfl | hrest
      · exact .refl
      · split at hrest
        · cases hrest
        · rename_i next hnext
          exact .head hnext (ih hrest)

namespace Store

variable (store : Store)

/-- A region is another one or lies around it. -/
def Encloses (outer inner : RegionId) : Prop :=
  Relation.ReflTransGen (fun inner outer => store.regionParent? inner = some outer) inner outer

/-- The value is defined in the region of an operation or around it. -/
def Visible (value : ValueId) (op : OpId) : Prop :=
  ∃ defined used, store.valueRegion? value = some defined ∧ store.opRegion? op = some used ∧
    store.Encloses defined used

/-- Operations in a region use visible values only. -/
def OperandsVisible : Prop :=
  ∀ op, (store.opRegion? op).isSome → ∀ operand ∈ (store.op op).operands, store.Visible operand op

/-- No operation is nested in itself. -/
def NoSelfNesting : Prop :=
  ∀ op, ¬ Relation.TransGen (fun inner outer => store.opParent? inner = some outer) op op

variable {store}

/-! ## Nesting of regions and of operations -/

theorem regionParent?_eq_some {inner outer : RegionId} :
    store.regionParent? inner = some outer ↔
      ∃ op, (store.region inner).parent = some op ∧ store.opRegion? op = some outer := by
  unfold regionParent?
  cases (store.region inner).parent <;> simp

theorem opParent?_of_opRegion? {op : OpId} {region : RegionId}
    (h : store.opRegion? op = some region) : store.opParent? op = (store.region region).parent := by
  simp [opParent?, h]

/-- Regions inside each other belong to operations inside each other. -/
theorem transGen_opParent? {inner outer : RegionId} {innerOp outerOp : OpId}
    (h : Relation.TransGen (fun inner outer => store.regionParent? inner = some outer) inner outer)
    (hinner : (store.region inner).parent = some innerOp)
    (houter : (store.region outer).parent = some outerOp) :
    Relation.TransGen (fun inner outer => store.opParent? inner = some outer) innerOp outerOp := by
  have hparent : ∀ {inner outer : RegionId} {innerOp outerOp : OpId},
      store.regionParent? inner = some outer → (store.region inner).parent = some innerOp →
      (store.region outer).parent = some outerOp → store.opParent? innerOp = some outerOp := by
    intro inner outer innerOp outerOp hstep hinner houter
    obtain ⟨op, hop, hregion⟩ := regionParent?_eq_some.mp hstep
    obtain rfl : innerOp = op := Option.some.inj (hinner.symm.trans hop)
    rw [opParent?_of_opRegion? hregion, houter]
  induction h generalizing outerOp with
  | single hstep => exact .single (hparent hstep hinner houter)
  | tail _ hstep ih =>
      obtain ⟨middleOp, hmiddle, -⟩ := regionParent?_eq_some.mp hstep
      exact .tail (ih hmiddle) (hparent hstep hmiddle houter)

/-- A region does not enclose a region in which its owner lies. -/
theorem not_encloses_inside (hnesting : store.NoSelfNesting) {outer inner around : RegionId}
    (hinner : store.regionParent? inner = some around) (haround : store.Encloses outer around) :
    ¬ store.Encloses inner outer := by
  intro hcycle
  -- from the inner region up to the outer one and on to the inner one again
  have hloop : Relation.TransGen (fun inner outer => store.regionParent? inner = some outer)
      inner inner := .head' hinner (haround.trans hcycle)
  obtain ⟨op, hop, -⟩ := regionParent?_eq_some.mp hinner
  exact hnesting op (transGen_opParent? hloop hop hop)

theorem index_lt_of_opParent? {inner outer : OpId} (h : store.opParent? inner = some outer) :
    inner.index < store.operations.size := by
  by_contra hge
  have hdefault : store.op inner = default := getD_of_size_le (not_lt.mp hge)
  simp [opParent?, opRegion?, hdefault, show (default : Operation).parent = none from rfl] at h

/-- No operation is nested in itself if every operation has a smaller depth than those in it. -/
theorem noSelfNesting_of_depth (depth : OpId → Nat)
    (h : ∀ index < store.operations.size, ∀ outer ∈ store.opParent? ⟨index⟩,
      depth outer < depth ⟨index⟩) : store.NoSelfNesting := by
  have hdepth : ∀ {inner outer}, Relation.TransGen
      (fun inner outer => store.opParent? inner = some outer) inner outer →
      depth outer < depth inner := by
    intro inner outer hpath
    induction hpath with
    | single hstep => exact h _ (index_lt_of_opParent? hstep) _ hstep
    | tail _ hstep ih => exact (h _ (index_lt_of_opParent? hstep) _ hstep).trans ih
  exact fun op hcycle => lt_irrefl _ (hdepth hcycle)

/-! ## The region of a value -/

theorem valueRegion?_of_definingOp? {value : ValueId} {op : OpId}
    (h : store.definingOp? value = some op) : store.valueRegion? value = store.opRegion? op := by
  unfold definingOp? at h
  split at h
  · cases h
  · rename_i owner index howner
    obtain rfl := Option.some.inj h
    simp only [valueRegion?, valueBlock?, howner, opRegion?]

theorem Reachable.valueRegion?_of_isTopLevel (hstore : store.Reachable) {value : ValueId}
    {region : RegionId} (h : store.isTopLevel value region) :
    store.valueRegion? value = some region := by
  unfold isTopLevel at h
  split at h
  · rename_i block index howner
    have hentry : (store.region region).blocks.head? = some block := by
      simpa [entryBlock?] using h
    have hblock := (hstore.nested.blocks.mem_iff _ _).mp (List.mem_of_mem_head? hentry)
    simp [valueRegion?, valueBlock?, howner, hblock]
  · rename_i op index howner
    have hdefining : store.definingOp? value = some op := by simp [definingOp?, howner]
    rw [valueRegion?_of_definingOp? hdefining]
    simpa using h

theorem exists_valueRegion?_of_isTopLevelOfScope {value : ValueId}
    (h : store.isTopLevelOfScope value) :
    ∃ region op, store.valueRegion? value = some region ∧
      (store.region region).parent = some op ∧ store.hasTrait op .affineScope := by
  unfold isTopLevelOfScope at h
  split at h
  · cases h
  · rename_i op hparent
    have hregion : ∃ region, store.valueRegion? value = some region ∧
        (store.region region).parent = some op := by
      unfold valueParent? at hparent
      split at hparent
      · rename_i block index howner
        simp only [valueRegion?, valueBlock?, howner]
        unfold blockParent? at hparent
        split at hparent
        · cases hparent
        · rename_i region hregion
          exact ⟨region, hregion, hparent⟩
      · rename_i definer index howner
        have hdefining : store.definingOp? value = some definer := by simp [definingOp?, howner]
        rw [valueRegion?_of_definingOp? hdefining]
        unfold opParent? at hparent
        split at hparent
        · cases hparent
        · rename_i region hregion
          exact ⟨region, hregion, hparent⟩
    obtain ⟨region, hvalue, hregion⟩ := hregion
    exact ⟨region, op, hvalue, hregion, h⟩

/-! ## Scopes -/

theorem encloses_of_find? {bound : Nat} {op found owner : OpId} {inner outer : RegionId}
    (h : (chain store.opParent? bound op).find? (fun ancestor =>
      match store.opParent? ancestor with
      | none => false
      | some parent => store.hasTrait parent .affineScope) = some found)
    (hinner : store.opRegion? op = some inner) (houter : store.Encloses outer inner)
    (howner : (store.region outer).parent = some owner)
    (htrait : store.hasTrait owner .affineScope) :
    ∃ scope, store.opRegion? found = some scope ∧ store.Encloses outer scope := by
  -- the operation and its region ascend together
  induction bound generalizing op inner with
  | zero => cases h
  | succ bound ih =>
      rw [chain, List.find?_cons] at h
      split at h
      · obtain rfl := Option.some.inj h
        exact ⟨inner, hinner, houter⟩
      · rename_i hother
        rcases Relation.ReflTransGen.cases_head houter with rfl | ⟨next, hnext, hrest⟩
        · simp [opParent?_of_opRegion? hinner, howner, htrait] at hother
        · obtain ⟨parent, hparent, hregion⟩ := regionParent?_eq_some.mp hnext
          rw [opParent?_of_opRegion? hinner, hparent] at h
          exact ih h hregion hrest

/-- A region around an operation that belongs to an operation with its own scope is the scope of
the first operation or encloses it. -/
theorem encloses_scope {op owner : OpId} {inner outer scope : RegionId}
    (hscope : store.scope? op = some scope) (hinner : store.opRegion? op = some inner)
    (houter : store.Encloses outer inner) (howner : (store.region outer).parent = some owner)
    (htrait : store.hasTrait owner .affineScope) : store.Encloses outer scope := by
  unfold scope? at hscope
  dsimp only at hscope
  split at hscope
  · cases hscope
  · rename_i found hfound
    obtain ⟨scope', hscope', hencloses⟩ := encloses_of_find? hfound hinner houter howner htrait
    obtain rfl : scope' = scope := Option.some.inj (hscope'.symm.trans hscope)
    exact hencloses

/-- The region of an operation is its scope if it belongs to an operation with its own scope. -/
theorem scope?_of_hasTrait {op owner : OpId} {region : RegionId}
    (hregion : store.opRegion? op = some region)
    (howner : (store.region region).parent = some owner)
    (htrait : store.hasTrait owner .affineScope) : store.scope? op = some region := by
  have hparent : store.opParent? op = some owner := (opParent?_of_opRegion? hregion).trans howner
  simp [scope?, ancestors, chain, hparent, htrait, hregion]

/-- Scopes belong to operations with their own scope. -/
theorem exists_owner_of_scope? {op : OpId} {scope : RegionId} (h : store.scope? op = some scope) :
    ∃ owner, (store.region scope).parent = some owner ∧ store.hasTrait owner .affineScope := by
  unfold scope? at h
  dsimp only at h
  split at h
  · cases h
  · rename_i found hfound
    have htrait := List.find?_some hfound
    rw [opParent?_of_opRegion? h] at htrait
    split at htrait
    · cases htrait
    · rename_i owner howner
      exact ⟨owner, howner, htrait⟩

theorem enclosingRegion?_eq_some {inner outer : RegionId} :
    store.enclosingRegion? inner = some outer ↔
      ∃ op, (store.region inner).parent = some op ∧ ¬ store.hasTrait op .isolatedFromAbove ∧
        store.opRegion? op = some outer := by
  unfold enclosingRegion?
  cases (store.region inner).parent <;> simp

theorem regionParent?_of_enclosingRegion? {inner outer : RegionId}
    (h : store.enclosingRegion? inner = some outer) : store.regionParent? inner = some outer := by
  obtain ⟨op, hop, -, hregion⟩ := enclosingRegion?_eq_some.mp h
  exact regionParent?_eq_some.mpr ⟨op, hop, hregion⟩

/-- The regions of a scope chain enclose the scope. -/
theorem encloses_of_mem_scopeChain {scope region : RegionId}
    (h : region ∈ store.scopeChain (some scope)) : store.Encloses region scope :=
  Relation.ReflTransGen.mono (fun _ _ => regionParent?_of_enclosingRegion?) _ _
    (reflTransGen_of_mem_chain h)

end Store

end AffineLoops
