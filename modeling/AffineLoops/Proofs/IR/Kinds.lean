import AffineLoops.Proofs.IR.Construction

/-!
# What operations of a kind have in common

A caller chooses the traits and the regions of generic operations.  All other constructions decide
themselves which traits and regions go with the kind of an operation, and no construction changes
them later.  Elementary changes do not show this, since they build operations with any traits and
regions, so it is proved for one construction at a time:

* `Store.AllOps` says that a condition on kinds, traits and regions holds of all operations;
* `KindCondition` lists the operations that constructions make of which it has to hold;
* `Construction.keepsOps`: then every construction keeps it.
-/

namespace AffineLoops

namespace Store

/-- A condition on the kind, the traits and the regions holds of every operation. -/
def AllOps (condition : OpKind → List Trait → List RegionId → Prop) (store : Store) : Prop :=
  ∀ id : OpId, id.index < store.operations.size →
    condition (store.op id).kind (store.op id).traits (store.op id).regions

variable {condition : OpKind → List Trait → List RegionId → Prop} {store store' : Store}

theorem AllOps.of_operations_eq (h : store'.operations = store.operations)
    (hops : store.AllOps condition) : store'.AllOps condition := by
  have hop : store'.op = store.op := by
    funext id
    rw [op, op, h]
  rw [AllOps, hop, h]
  exact hops

theorem AllOps.insertOp {block : BlockId} {position : Nat} {op : OpId}
    (h : Build.insertOp block position op store = (.ok (), store'))
    (hops : store.AllOps condition) :
    store'.AllOps condition := by
  obtain ⟨-, rfl⟩ := Build.insertOp_eq_ok h
  intro id hid
  rw [Store.op, getD_modify]
  split
  · exact hops id (by simpa using hid)
  · exact hops id (by simpa using hid)

theorem AllOps.buildOp {context : ContextId} {kind : OpKind} {traits : List Trait}
    {operands : List ValueId} {resultTypes : List (Owned Ty)} {regions : List RegionId} {op : OpId}
    (hnew : condition kind traits regions)
    (h : Build.buildOp context kind traits operands resultTypes regions store = (.ok op, store'))
    (hops : store.AllOps condition) : store'.AllOps condition := by
  obtain ⟨rfl, -, rfl⟩ := Build.buildOp_eq_ok h
  intro id hid
  rw [Store.op, getD_push]
  split
  · exact hnew
  · rename_i hne
    have hlt : id.index < store.operations.size + 1 := by simpa using hid
    exact hops id (by omega)

end Store

/-- The condition holds of the operations that constructions make. -/
structure KindCondition (condition : OpKind → List Trait → List RegionId → Prop) : Prop where
  generic : ∀ name traits regions, condition (.generic name) traits regions
  leaf : ∀ kind : OpKind, condition kind kind.traits []
  function : ∀ symbol body, condition (.function symbol) (OpKind.function symbol).traits [body]
  loop : ∀ kind : OpKind, kind.isLoop → ∀ body, condition kind kind.traits [body]
  conditional : ∀ set thenRegion elseRegion,
    condition (.conditional set) (OpKind.conditional set).traits [thenRegion, elseRegion]

/-! ## Constructions keep the condition -/

namespace Build

variable {α β : Type} {condition : OpKind → List Trait → List RegionId → Prop}

/-- The construction keeps the condition, whether it succeeds or fails. -/
def KeepsOps (condition : OpKind → List Trait → List RegionId → Prop) (build : Build α) : Prop :=
  ∀ store : Store, store.AllOps condition → (build store).2.AllOps condition

theorem KeepsOps.pure {a : α} : KeepsOps condition (pure a) := fun _ hops => hops

theorem KeepsOps.throw {fault : Fault} : KeepsOps condition (throw fault : Build α) :=
  fun _ hops => hops

theorem KeepsOps.get : KeepsOps condition (get : Build Store) := fun _ hops => hops

theorem KeepsOps.check {result : Except Fault Unit} : KeepsOps condition (check result) :=
  fun _ hops => hops

theorem KeepsOps.bind {build : Build α} {next : α → Build β} (hbuild : build.KeepsOps condition)
    (hnext : ∀ a, (next a).KeepsOps condition) : (build >>= next).KeepsOps condition := by
  intro store hops
  have hfirst := hbuild store hops
  have hrun : (build >>= next) store =
      match build store with
      | (result, store') => ExceptT.bindCont next result store' := rfl
  rw [hrun]
  cases hresult : build store with
  | mk result store' =>
      rw [hresult] at hfirst
      cases result with
      | error fault => exact hfirst
      | ok a => exact hnext a store' hfirst

theorem Atomic.keepsOps {build : Build α} (hatomic : build.Atomic)
    (hstep : ∀ store a store', build store = (.ok a, store') → store.AllOps condition →
      store'.AllOps condition) : KeepsOps condition build := by
  intro store hops
  cases hresult : (build store).1 with
  | error fault =>
      rw [hatomic store fault hresult]
      exact hops
  | ok a => exact hstep store a _ (Prod.ext hresult rfl) hops

variable {context : ContextId} {kind : OpKind} {operands : List ValueId} {types : List Ty}
  {regions : List RegionId} {result : Except Fault Unit} {block : BlockId} {op : OpId}

theorem keepsOps_addRegion : KeepsOps condition (ofAdd (·.addRegion context)) :=
  fun _ hops => hops.of_operations_eq rfl

theorem keepsOps_addBlock : KeepsOps condition (ofAdd (·.addBlock context types)) := by
  intro store hops
  refine hops.of_operations_eq ?_
  show (store.addBlock context types).2.operations = _
  rw [Store.addBlock_eq]

theorem keepsOps_appendBlock {region : RegionId} :
    KeepsOps condition (appendBlock region block) := by
  refine (atomic_appendBlock region block).keepsOps fun store _ store' h hops => ?_
  obtain ⟨-, rfl⟩ := appendBlock_eq_ok h
  exact hops.of_operations_eq rfl

theorem keepsOps_insertOp {position : Nat} :
    KeepsOps condition (insertOp block position op) :=
  (atomic_insertOp block position op).keepsOps fun _ _ _ => Store.AllOps.insertOp

theorem keepsOps_appendOp : KeepsOps condition (appendOp block op) :=
  KeepsOps.get.bind fun _ => keepsOps_insertOp

theorem keepsOps_insertBeforeTerminator :
    KeepsOps condition (insertBeforeTerminator block op) := by
  refine KeepsOps.get.bind fun graph => ?_
  split
  · exact keepsOps_insertOp
  · exact keepsOps_appendOp

theorem keepsOps_buildOp {traits : List Trait} {resultTypes : List (Owned Ty)}
    (hnew : condition kind traits regions) :
    KeepsOps condition (buildOp context kind traits operands resultTypes regions) :=
  (atomic_buildOp context kind traits operands resultTypes regions).keepsOps
    fun _ _ _ => Store.AllOps.buildOp hnew

theorem keepsOps_op (hnew : condition kind kind.traits regions) :
    KeepsOps condition (Build.op context kind operands types regions) :=
  keepsOps_buildOp hnew

/-- A region with one block, and what is made with it. -/
theorem keepsOps_blockInRegion {next : RegionId → BlockId → Build β}
    (hnext : ∀ region block, (next region block).KeepsOps condition) :
    KeepsOps condition (do
      let region ← ofAdd (·.addRegion context)
      let block ← ofAdd (·.addBlock context types)
      appendBlock region block
      next region block) := by
  refine keepsOps_addRegion.bind fun region => ?_
  refine keepsOps_addBlock.bind fun block => ?_
  exact keepsOps_appendBlock.bind fun _ => hnext region block

end Build

namespace KindCondition

open Build

variable {condition : OpKind → List Trait → List RegionId → Prop}
  (hcondition : KindCondition condition) {context : ContextId} {kind : OpKind}
  {operands : List ValueId} {types : List Ty} {result : Except Fault Unit}

include hcondition

theorem keeps_checked :
    KeepsOps condition (do check result; Build.op context kind operands types []) :=
  KeepsOps.check.bind fun _ => keepsOps_op (hcondition.leaf kind)

theorem keeps_terminatedRegion : KeepsOps condition (terminatedRegion context types) := by
  refine keepsOps_blockInRegion fun region block => ?_
  refine (keepsOps_op (hcondition.leaf .yield)).bind fun yieldOp => ?_
  exact keepsOps_appendOp.bind fun _ => KeepsOps.pure

theorem keeps_loop (hkind : kind.isLoop) :
    KeepsOps condition (do
      check result
      let body ← terminatedRegion context types
      Build.op context kind operands [] [body]) := by
  refine KeepsOps.check.bind fun _ => ?_
  exact hcondition.keeps_terminatedRegion.bind fun body =>
    keepsOps_op (hcondition.loop kind hkind body)

theorem keeps_conditional {set : Owned IntegerSet} {withElse : Bool} :
    KeepsOps condition (Build.conditional context set operands withElse) := by
  have hlast : ∀ thenRegion elseRegion, KeepsOps condition
      (Build.op context (.conditional set.item) operands [] [thenRegion, elseRegion]) :=
    fun thenRegion elseRegion =>
      keepsOps_op (hcondition.conditional set.item thenRegion elseRegion)
  refine KeepsOps.check.bind fun _ => ?_
  refine hcondition.keeps_terminatedRegion.bind fun thenRegion => ?_
  dsimp only
  split
  · exact hcondition.keeps_terminatedRegion.bind (hlast thenRegion)
  · exact keepsOps_addRegion.bind (hlast thenRegion)

theorem keeps_access {kind : AffineMap → OpKind} {leading indices : List ValueId}
    {memref : ValueId} {map : Owned AffineMap} {resultTypes : MemRef → List Ty} :
    KeepsOps condition (access context kind leading memref map indices resultTypes) := by
  refine KeepsOps.get.bind fun graph => ?_
  dsimp only
  split
  · exact KeepsOps.throw
  · exact hcondition.keeps_checked

end KindCondition

open Build in
/-- A condition that holds of the operations that constructions make is kept by all of them. -/
theorem Construction.keepsOps {condition : OpKind → List Trait → List RegionId → Prop}
    (hcondition : KindCondition condition) {α : Type} {store : Store} {build : Build α}
    (h : Construction store build) : build.KeepsOps condition := by
  cases h with
  | region context => exact keepsOps_addRegion
  | block context types => exact keepsOps_addBlock
  | appendBlock => exact keepsOps_appendBlock
  | appendOp => exact keepsOps_appendOp
  | insertOp => exact keepsOps_insertOp
  | insertBeforeTerminator => exact keepsOps_insertBeforeTerminator
  | generic => exact keepsOps_buildOp (hcondition.generic _ _ _)
  | function context symbol argumentTypes =>
      exact keepsOps_blockInRegion fun body _ => keepsOps_op (hcondition.function symbol body)
  | constant context value type => exact keepsOps_op (hcondition.leaf (.constant value))
  | sizedMemRef => exact hcondition.keeps_checked
  | dim => exact KeepsOps.get.bind fun _ => hcondition.keeps_checked
  | apply => exact hcondition.keeps_checked
  | extremum => exact hcondition.keeps_checked
  | read => exact hcondition.keeps_access
  | write => exact hcondition.keeps_access
  | forLoop => exact hcondition.keeps_loop rfl
  | parallel => exact hcondition.keeps_loop rfl
  | conditional => exact hcondition.keeps_conditional
  | yield => exact keepsOps_op (hcondition.leaf .yield)

end AffineLoops
