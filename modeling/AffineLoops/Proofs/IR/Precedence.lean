import AffineLoops.Proofs.IR.Construction

/-!
# Operands are older than the operations that use them

An operation is built from values that are there already, and no operation gets other operands
later.  So the operation that makes an operand has been built before the operations that use it,
and has a smaller place in the store.

* `Step.precedence` says what one elementary change does to the operands of operations and to the
  makers of values: nothing, or it adds one operation, at the end, over values of the program;
* `Reachable.ordered` follows by induction over the changes.
-/

namespace AffineLoops.Store

variable {store store' : Store}

/-! ## Where new values come from -/

theorem owner_getD_addUses (op : OpId) (index : Nat) (operands : List ValueId)
    (values : Array Value) (place : Nat) :
    ((addUses op index operands values).getD place default).owner =
      (values.getD place default).owner := by
  induction operands generalizing index values with
  | nil => rfl
  | cons operand rest ih =>
      rw [addUses, ih, getD_modify]
      split <;> rfl

/-- A place in the store holds an old value or one of the new owner. -/
theorem owner_getD_addValues (context : ContextId) (owner : Nat → ValueOwner) (index : Nat)
    (types : List Ty) (store : Store) (place : Nat) :
    ((addValues context owner index types store).2.values.getD place default).owner =
        (store.values.getD place default).owner ∨
      store.values.size ≤ place ∧ ∃ number,
        ((addValues context owner index types store).2.values.getD place default).owner =
          owner number := by
  induction types generalizing index store with
  | nil => exact Or.inl rfl
  | cons type types ih =>
      rw [addValues]
      dsimp only
      have hfirst := getD_push store.values
        ⟨context, store.nextValueNumber context, type, owner index, []⟩ default place
      rcases ih (index + 1) (store.addValue context type (owner index)).2 with hold | ⟨hle, hnew⟩
      · rw [hold, addValue]
        dsimp only
        rw [hfirst]
        split
        · rename_i hplace
          exact Or.inr ⟨hplace.ge, index, rfl⟩
        · exact Or.inl rfl
      · have hgrown : store.values.size ≤
            (store.addValue context type (owner index)).2.values.size := by
          simp [addValue]
        exact Or.inr ⟨hgrown.trans hle, hnew⟩

theorem owner_resolveTypes (store : Store) (context : ContextId)
    (lookup : Lookup) (value : ValueId) :
    ((store.resolveTypes context lookup).value value).owner = (store.value value).owner := by
  simp only [Store.value, resolveTypes, Array.getD_eq_getD_getElem?, Array.getElem?_map]
  cases store.values[value.index]? with
  | none => rfl
  | some node =>
      simp only [Option.map_some, Option.getD_some]
      split <;> rfl

theorem definingOp?_eq_some_iff {value : ValueId} {definer : OpId} :
    store.definingOp? value = some definer ↔
      ∃ number, (store.value value).owner = .result definer number := by
  unfold definingOp?
  cases (store.value value).owner <;> simp

/-- Whether two programs have the same operands and the same makers of values. -/
structure SameOperands (store store' : Store) : Prop where
  size : store'.operations.size = store.operations.size
  operands : ∀ id, (store'.op id).operands = (store.op id).operands
  definer : ∀ {value definer}, store'.definingOp? value = some definer →
    store.definingOp? value = some definer

/-- Whether the second program has one more operation, over values of the first one. -/
structure OneMoreOp (store store' : Store) : Prop where
  size : store'.operations.size = store.operations.size + 1
  operands : ∀ id, id.index ≠ store.operations.size →
    (store'.op id).operands = (store.op id).operands
  newOperands : ∀ id, id.index = store.operations.size → ∀ operand ∈ (store'.op id).operands,
    operand.index < store.values.size
  definer : ∀ {value definer}, store'.definingOp? value = some definer →
    store.definingOp? value = some definer ∨
      store.values.size ≤ value.index ∧ definer.index = store.operations.size

theorem Step.precedence (hstep : Step store store') :
    SameOperands store store' ∨ OneMoreOp store store' := by
  cases hstep with
  | addRegion context => exact Or.inl ⟨rfl, fun _ => rfl, id⟩
  | addBlock context types =>
      refine Or.inl ?_
      rw [addBlock_eq]
      refine ⟨rfl, fun _ => rfl, fun {value definer} hdefiner => ?_⟩
      -- the new values are arguments, which no operation makes
      rw [definingOp?_eq_some_iff] at hdefiner ⊢
      rcases owner_getD_addValues context (.argument ⟨store.blocks.size⟩) 0 types store
        value.index with hold | ⟨-, number, hnew⟩
      · exact hdefiner.imp fun _ howner => hold ▸ howner
      · obtain ⟨_, howner⟩ := hdefiner
        cases hnew.symm.trans howner
  | appendBlock hregion hblock h =>
      obtain ⟨-, rfl⟩ := Build.appendBlock_eq_ok h
      exact Or.inl ⟨rfl, fun _ => rfl, id⟩
  | insertOp hblock hop h =>
      obtain ⟨-, rfl⟩ := Build.insertOp_eq_ok h
      refine Or.inl ⟨by simp, fun id => ?_, id⟩
      rw [op, getD_modify]
      split <;> rfl
  | @buildOp context kind traits operands resultTypes regions _ _ hoperands _ _ h =>
      obtain ⟨rfl, -, rfl⟩ := Build.buildOp_eq_ok h
      refine Or.inr ⟨by simp, fun id hne => ?_, fun id heq => ?_,
        fun {value definer} hdefiner => ?_⟩
      · rw [op, getD_push, if_neg hne, op]
      · rw [op, getD_push, if_pos heq]
        exact hoperands
      · rw [definingOp?_eq_some_iff] at hdefiner
        obtain ⟨number, howner⟩ := hdefiner
        rw [Store.value, owner_getD_addUses] at howner
        rcases owner_getD_addValues context (.result ⟨store.operations.size⟩) 0
          (resultTypes.map (·.item)) store value.index with hold | ⟨hle, number', hnew⟩
        · exact Or.inl (definingOp?_eq_some_iff.mpr ⟨number, hold ▸ howner⟩)
        · cases hnew.symm.trans howner
          exact Or.inr ⟨hle, rfl⟩
  | resolveTypes context lookup =>
      refine Or.inl ⟨rfl, fun _ => rfl, fun {value definer} hdefiner => ?_⟩
      rw [definingOp?_eq_some_iff] at hdefiner ⊢
      exact owner_resolveTypes store context lookup value ▸ hdefiner

/-- Values are made by operations of the program, and operands are values of the program that
were made before the operations that use them. -/
structure Ordered (store : Store) : Prop where
  definer_lt : ∀ {value definer}, store.definingOp? value = some definer →
    definer.index < store.operations.size
  operand_lt : ∀ {op operand}, operand ∈ (store.op op).operands →
    operand.index < store.values.size
  precedes : ∀ {op operand definer}, operand ∈ (store.op op).operands →
    store.definingOp? operand = some definer → definer.index < op.index

theorem Step.ordered (hstep : Step store store') (hordered : store.Ordered) : store'.Ordered := by
  have hvalues := hstep.grows.values
  rcases hstep.precedence with hsame | hmore
  · refine ⟨fun hdefiner => ?_, fun hmem => ?_, fun hmem hdefiner => ?_⟩
    · rw [hsame.size]
      exact hordered.definer_lt (hsame.definer hdefiner)
    · exact (hordered.operand_lt (hsame.operands _ ▸ hmem)).trans_le hvalues
    · exact hordered.precedes (hsame.operands _ ▸ hmem) (hsame.definer hdefiner)
  · have hold : ∀ {op operand}, operand ∈ (store'.op op).operands →
        operand.index < store.values.size := by
      intro op operand hmem
      by_cases hop : op.index = store.operations.size
      · exact hmore.newOperands op hop operand hmem
      · exact hordered.operand_lt (hmore.operands op hop ▸ hmem)
    refine ⟨fun hdefiner => ?_, fun hmem => (hold hmem).trans_le hvalues, ?_⟩
    · rw [hmore.size]
      rcases hmore.definer hdefiner with hdefiner | ⟨-, heq⟩
      · exact Nat.lt_succ_of_lt (hordered.definer_lt hdefiner)
      · omega
    · intro op operand definer hmem hdefiner
      rcases hmore.definer hdefiner with hdefiner | ⟨hle, -⟩
      · by_cases hop : op.index = store.operations.size
        · rw [hop]
          exact hordered.definer_lt hdefiner
        · exact hordered.precedes (hmore.operands op hop ▸ hmem) hdefiner
      · exact absurd (hold hmem) (not_lt.mpr hle)

theorem Reachable.ordered (hstore : store.Reachable) : store.Ordered := by
  induction hstore with
  | empty => constructor <;> intros <;> contradiction
  | step _ hstep ih => exact hstep.ordered ih

end AffineLoops.Store
