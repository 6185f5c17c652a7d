import AffineLoops.IR.Construct
import AffineLoops.Proofs.Expr.Value
import Mathlib.Logic.Relation

/-!
# Programs that can be constructed

Every construction is a sequence of a few elementary changes of the program graph: a new region,
a new block, a new operation, a block put into a region, an operation put into a block.
`Store.Step` lists these changes, with what the checks of the constructions establish about a new
operation (`OpKind.Fits`), and a program is `Store.Reachable` if such changes lead to it from the
empty store.  `Construction.reachable` shows that the constructions stay among these programs,
whether they succeed or fail halfway.

A property of all programs is then proved for one elementary change at a time.  The first one is
`Reachable.fits`: every operation fits its kind.
-/

namespace AffineLoops

/-- What is checked about the operands of an operation of a given kind. -/
def OpKind.Fits (operands : List ValueId) : OpKind → Prop
  | .constant _ => operands = []
  | .dim => operands.length = 2
  | .apply map => map.InRange ∧ map.resultCount = 1 ∧ operands.length = map.inputs
  | .min map => map.InRange ∧ map.resultCount ≠ 0 ∧ operands.length = map.inputs
  | .max map => map.InRange ∧ map.resultCount ≠ 0 ∧ operands.length = map.inputs
  | .load map => map.InRange ∧ operands.length = map.inputs + 1
  | .vectorLoad map => map.InRange ∧ operands.length = map.inputs + 1
  | .store map => map.InRange ∧ operands.length = map.inputs + 2
  | .vectorStore map => map.InRange ∧ operands.length = map.inputs + 2
  | .forLoop lower upper step =>
      lower.InRange ∧ upper.InRange ∧ operands.length = lower.inputs + upper.inputs ∧
        lower.resultCount ≠ 0 ∧ upper.resultCount ≠ 0 ∧ 0 < step
  | .parallel lower upper steps =>
      lower.InRange ∧ upper.InRange ∧ operands.length = lower.inputs + upper.inputs ∧
        lower.resultCount = steps.length ∧ upper.resultCount = steps.length ∧
          ∀ step ∈ steps, 0 < step
  | .conditional set => set.InRange ∧ operands.length = set.inputs
  | _ => True

namespace Store

/-! ## What the elementary changes do -/

section Changes

variable {store store' : Store}

theorem getD_push {α : Type} (nodes : Array α) (node fallback : α) (index : Nat) :
    (nodes.push node).getD index fallback =
      if index = nodes.size then node else nodes.getD index fallback := by
  rw [Array.getD_eq_getD_getElem?, Array.getElem?_push, Array.getD_eq_getD_getElem?]
  split <;> rfl

theorem getD_modify {α : Type} (nodes : Array α) (change : α → α) (fallback : α)
    (place index : Nat) :
    (nodes.modify place change).getD index fallback =
      if place = index ∧ index < nodes.size then change (nodes.getD index fallback)
      else nodes.getD index fallback := by
  rw [Array.getD_eq_getD_getElem?, Array.getElem?_modify, Array.getD_eq_getD_getElem?]
  by_cases hplace : place = index <;> by_cases hindex : index < nodes.size <;>
    simp [hplace, hindex]

theorem getD_of_size_le {α : Type} {nodes : Array α} {fallback : α} {index : Nat}
    (h : nodes.size ≤ index) : nodes.getD index fallback = fallback := by
  rw [Array.getD_eq_getD_getElem?, Array.getElem?_eq_none h]
  rfl

theorem addValues_eq (context : ContextId) (owner : Nat → ValueOwner) (index : Nat)
    (types : List Ty) (store : Store) :
    (addValues context owner index types store).2 =
      { store with values := (addValues context owner index types store).2.values } := by
  induction types generalizing index store with
  | nil => rfl
  | cons type types ih => exact ih (index + 1) _

theorem size_values_addValues (context : ContextId) (owner : Nat → ValueOwner) (index : Nat)
    (types : List Ty) (store : Store) :
    (addValues context owner index types store).2.values.size =
      store.values.size + types.length := by
  induction types generalizing index store with
  | nil => rfl
  | cons type types ih =>
      rw [addValues, List.length_cons, Nat.add_comm types.length, ← Nat.add_assoc]
      exact (ih (index + 1) _).trans (by simp [addValue])

theorem addBlock_eq (store : Store) (context : ContextId) (types : List Ty) :
    let added := addValues context (.argument ⟨store.blocks.size⟩) 0 types store
    (store.addBlock context types).2 = { store with
      blocks := store.blocks.push ⟨context, store.nextBlockNumber context, added.1, [], none⟩
      values := added.2.values } := by
  have hadded := addValues_eq context (.argument ⟨store.blocks.size⟩) 0 types store
  dsimp only [addBlock]
  rw [hadded]

@[simp] theorem size_addUses (op : OpId) (index : Nat) (operands : List ValueId)
    (values : Array Value) : (addUses op index operands values).size = values.size := by
  induction operands generalizing index values with
  | nil => rfl
  | cons operand rest ih => simp [addUses, ih]

@[simp] theorem size_ownRegions (op : OpId) (regions : List RegionId) (nodes : Array Region) :
    (ownRegions op regions nodes).size = nodes.size := by
  induction regions generalizing nodes with
  | nil => rfl
  | cons region rest ih => exact (ih _).trans Array.size_modify

/-- Taking possession of regions leaves their blocks alone. -/
theorem blocks_getD_ownRegions (op : OpId) (regions : List RegionId) (nodes : Array Region)
    (index : Nat) :
    ((ownRegions op regions nodes).getD index default).blocks =
      (nodes.getD index default).blocks := by
  induction regions generalizing nodes with
  | nil => rfl
  | cons region rest ih =>
      refine (ih _).trans ?_
      rw [getD_modify]
      split <;> rfl

/-- Which values are added depends on the values of the store only. -/
theorem addValues_operations (context : ContextId) (owner : Nat → ValueOwner) (index : Nat)
    (types : List Ty) (store : Store) (operations : Array Operation) :
    addValues context owner index types { store with operations } =
      ((addValues context owner index types store).1,
        { (addValues context owner index types store).2 with operations }) := by
  induction types generalizing index store with
  | nil => rfl
  | cons type types ih =>
      have hrest := ih (index + 1) (store.addValue context type (owner index)).2
      simp only [addValues]
      exact congrArg (fun rest => (_ :: rest.1, rest.2)) hrest

theorem modify_push {α : Type} (nodes : Array α) (node : α) (change : α → α) :
    (nodes.push node).modify nodes.size change = nodes.push (change node) := by
  refine Array.ext_getElem? fun index => ?_
  rw [Array.getElem?_modify, Array.getElem?_push, Array.getElem?_push]
  split
  · rename_i hindex
    simp [← hindex]
  · rename_i hindex
    rw [if_neg (Ne.symm hindex), if_neg (Ne.symm hindex)]

end Changes

end Store

/-! ## What the constructions do -/

namespace Build

variable {α : Type} {store store' : Store}

theorem refuseIf_bind (condition : Bool) (fault : Fault) (next : Unit → Build α) (store : Store) :
    (refuseIf condition fault >>= next) store =
      if condition then (.error fault, store) else next () store := by
  cases condition <;> rfl

theorem check_bind (result : Except Fault Unit) (next : Unit → Build α) (store : Store) :
    (check result >>= next) store =
      match result with
      | .error fault => (.error fault, store)
      | .ok _ => next () store := by
  cases result <;> rfl

theorem appendBlock_run (region : RegionId) (block : BlockId) (store : Store) :
    appendBlock region block store =
      if (store.block block).context != (store.region region).context then
        (.error .contextMismatch, store)
      else if (store.block block).parent.isSome then
        (.error (.invalidOperation .blockInRegion), store)
      else (.ok (), { store with
        blocks := store.blocks.modify block.index ({ · with parent := some region })
        regions := store.regions.modify region.index fun node =>
          { node with blocks := node.blocks ++ [block] } }) := by
  refine (refuseIf_bind _ _ _ store).trans ?_
  rw [refuseIf_bind]
  rfl

theorem insertOp_run (block : BlockId) (position : Nat) (op : OpId) (store : Store) :
    insertOp block position op store =
      if (store.op op).context != (store.block block).context then
        (.error .contextMismatch, store)
      else if (store.op op).parent.isSome then
        (.error (.invalidOperation (.alreadyInBlock (store.name op))), store)
      else if (store.block block).operations.length < position then
        (.error (.positionOutOfBounds .operation position (store.block block).operations.length),
          store)
      else (.ok (), { store with
        operations := store.operations.modify op.index ({ · with parent := some block })
        blocks := store.blocks.modify block.index fun node =>
          { node with
            operations :=
              node.operations.take position ++ op :: node.operations.drop position } }) := by
  refine (refuseIf_bind _ _ _ store).trans ?_
  rw [refuseIf_bind]
  refine congrArg _ (congrArg _ ((refuseIf_bind _ _ _ store).trans ?_))
  simp only [decide_eq_true_eq]
  rfl

theorem get_bind (next : Store → Build α) (store : Store) :
    (get >>= next) store = next store store :=
  rfl

theorem appendOp_run (block : BlockId) (op : OpId) (store : Store) :
    appendOp block op store = insertOp block (store.block block).operations.length op store :=
  get_bind (fun graph => insertOp block (graph.block block).operations.length op) store

theorem buildOp_run (context : ContextId) (kind : OpKind) (traits : List Trait)
    (operands : List ValueId) (resultTypes : List (Owned Ty)) (regions : List RegionId)
    (store : Store) :
    buildOp context kind traits operands resultTypes regions store =
      if operands.any (fun operand => (store.value operand).context != context) ||
          resultTypes.any (·.context != context) ||
          regions.any (fun region => (store.region region).context != context) then
        (.error .contextMismatch, store)
      else
        match store.takenRegion? [] regions with
        | some region =>
            (.error (.invalidOperation (.regionAttached (store.region region).number kind.name)),
              store)
        | none =>
            let op : OpId := ⟨store.operations.size⟩
            let added := Store.addValues context (.result op) 0 (resultTypes.map (·.item)) store
            (.ok op, { store with
              operations := store.operations.push
                ⟨context, store.nextOpNumber context, kind, traits, operands, added.1, regions,
                  none⟩
              values := Store.addUses op 0 operands added.2.values
              regions := Store.ownRegions op regions store.regions }) := by
  refine (refuseIf_bind _ _ _ store).trans (congrArg _ ?_)
  rw [check_bind]
  unfold checkRegions
  cases store.takenRegion? [] regions with
  | some region => rfl
  | none =>
      -- the results are added and listed when the operation is in the store already
      have hvalues := Store.addValues_eq context (.result ⟨store.operations.size⟩) 0
        (resultTypes.map (·.item)) store
      refine Prod.ext rfl ?_
      show (((Store.addValues _ _ _ _ (store.addOp context kind traits operands regions).2
        ).2.listResults _ (Store.addValues _ _ _ _ _).1).noteOperands _ _).noteOwner _ _ = _
      simp only [Store.addOp, Store.addValues_operations]
      rw [hvalues]
      simp only [Store.listResults, Store.noteOperands, Store.noteOwner, Store.modify_push]

/-! ### Constructions that succeed -/

theorem appendBlock_eq_ok {region : RegionId} {block : BlockId}
    (h : appendBlock region block store = (.ok (), store')) :
    (store.block block).parent = none ∧
      store' = { store with
        blocks := store.blocks.modify block.index ({ · with parent := some region })
        regions := store.regions.modify region.index fun node =>
          { node with blocks := node.blocks ++ [block] } } := by
  rw [appendBlock_run] at h
  split_ifs at h with hcontext hparent
  · cases h
  · cases h
  · exact ⟨by simpa using hparent, (Prod.mk.inj h).2.symm⟩

theorem insertOp_eq_ok {block : BlockId} {position : Nat} {op : OpId}
    (h : insertOp block position op store = (.ok (), store')) :
    (store.op op).parent = none ∧
      store' = { store with
        operations := store.operations.modify op.index ({ · with parent := some block })
        blocks := store.blocks.modify block.index fun node =>
          { node with
            operations :=
              node.operations.take position ++ op :: node.operations.drop position } } := by
  rw [insertOp_run] at h
  split_ifs at h with hcontext hparent hposition
  · cases h
  · cases h
  · cases h
  · exact ⟨by simpa using hparent, (Prod.mk.inj h).2.symm⟩

theorem buildOp_eq_ok {context : ContextId} {kind : OpKind} {traits : List Trait}
    {operands : List ValueId} {resultTypes : List (Owned Ty)} {regions : List RegionId} {op : OpId}
    (h : buildOp context kind traits operands resultTypes regions store = (.ok op, store')) :
    op = ⟨store.operations.size⟩ ∧
      store.takenRegion? [] regions = none ∧
      let added := Store.addValues context (.result op) 0 (resultTypes.map (·.item)) store
      store' = { store with
        operations := store.operations.push
          ⟨context, store.nextOpNumber context, kind, traits, operands, added.1, regions, none⟩
        values := Store.addUses op 0 operands added.2.values
        regions := Store.ownRegions op regions store.regions } := by
  rw [buildOp_run] at h
  split at h
  · cases h
  · split at h
    · cases h
    · rename_i htaken
      obtain ⟨hop, hstore⟩ := Prod.mk.inj h
      obtain rfl := Except.ok.inj hop
      exact ⟨rfl, htaken, hstore.symm⟩

/-! ### Constructions that fail -/

/-- A construction that changes nothing if it fails. -/
def Atomic (build : Build α) : Prop :=
  ∀ store fault, (build store).1 = .error fault → (build store).2 = store

theorem atomic_appendBlock (region : RegionId) (block : BlockId) :
    Atomic (appendBlock region block) := by
  intro store fault h
  rw [appendBlock_run] at h ⊢
  split_ifs at h ⊢
  · rfl
  · rfl

theorem atomic_insertOp (block : BlockId) (position : Nat) (op : OpId) :
    Atomic (insertOp block position op) := by
  intro store fault h
  rw [insertOp_run] at h ⊢
  split_ifs at h ⊢
  · rfl
  · rfl
  · rfl

theorem atomic_buildOp (context : ContextId) (kind : OpKind) (traits : List Trait)
    (operands : List ValueId) (resultTypes : List (Owned Ty)) (regions : List RegionId) :
    Atomic (buildOp context kind traits operands resultTypes regions) := by
  intro store fault h
  rw [buildOp_run] at h ⊢
  split_ifs at h ⊢
  · rfl
  · cases htaken : store.takenRegion? [] regions with
    | some region => rfl
    | none =>
        rw [htaken] at h
        cases h

end Build

namespace Store

variable {store store' : Store}

/-- One elementary change of a program, with arguments that belong to it. -/
inductive Step (store : Store) : Store → Prop
  | addRegion (context : ContextId) : Step store (store.addRegion context).2
  | addBlock (context : ContextId) (types : List Ty) : Step store (store.addBlock context types).2
  | appendBlock {region : RegionId} {block : BlockId} {store' : Store}
      (hregion : region.index < store.regions.size) (hblock : block.index < store.blocks.size)
      (h : Build.appendBlock region block store = (.ok (), store')) : Step store store'
  | insertOp {block : BlockId} {position : Nat} {op : OpId} {store' : Store}
      (hblock : block.index < store.blocks.size) (hop : op.index < store.operations.size)
      (h : Build.insertOp block position op store = (.ok (), store')) : Step store store'
  | buildOp {context : ContextId} {kind : OpKind} {traits : List Trait} {operands : List ValueId}
      {resultTypes : List (Owned Ty)} {regions : List RegionId} {op : OpId} {store' : Store}
      (hoperands : ∀ operand ∈ operands, operand.index < store.values.size)
      (hregions : ∀ region ∈ regions, region.index < store.regions.size)
      (hfits : kind.Fits operands)
      (h : Build.buildOp context kind traits operands resultTypes regions store =
        (.ok op, store')) : Step store store'
  | resolveTypes (context : ContextId) (lookup : Lookup) :
      Step store (store.resolveTypes context lookup)

/-- The programs that elementary changes make from the empty one. -/
inductive Reachable : Store → Prop
  | empty : Reachable .empty
  | step {store store' : Store} (hstore : Reachable store) (hstep : Step store store') :
      Reachable store'

/-! ## Invariants -/

section Invariants

variable {store store' : Store}

theorem Step.fits (hstep : Step store store')
    (hfits : ∀ id, (store.op id).kind.Fits (store.op id).operands) (id : OpId) :
    (store'.op id).kind.Fits (store'.op id).operands := by
  cases hstep with
  | addRegion context => exact hfits id
  | addBlock context types =>
      rw [addBlock_eq]
      exact hfits id
  | appendBlock hregion hblock h =>
      obtain ⟨-, rfl⟩ := Build.appendBlock_eq_ok h
      exact hfits id
  | insertOp hblock hop h =>
      obtain ⟨-, rfl⟩ := Build.insertOp_eq_ok h
      rw [op, getD_modify]
      split <;> exact hfits id
  | buildOp hoperands hregions hnew h =>
      obtain ⟨rfl, -, rfl⟩ := Build.buildOp_eq_ok h
      rw [op, getD_push]
      split
      · exact hnew
      · exact hfits id
  | resolveTypes context lookup => exact hfits id

/-- Every operation fits its kind. -/
theorem Reachable.fits (hstore : Reachable store) (id : OpId) :
    (store.op id).kind.Fits (store.op id).operands := by
  induction hstore generalizing id with
  | empty => trivial
  | step _ hstep ih => exact hstep.fits ih id

end Invariants

end Store

/-! ## Constructions -/

namespace Store

/-- The second program has come from the first one by elementary changes. -/
abbrev Steps : Store → Store → Prop := Relation.ReflTransGen Step

/-- Every node is still in the store. -/
structure Grows (store store' : Store) : Prop where
  operations : store.operations.size ≤ store'.operations.size
  blocks : store.blocks.size ≤ store'.blocks.size
  regions : store.regions.size ≤ store'.regions.size
  values : store.values.size ≤ store'.values.size

variable {store store' : Store}

theorem Step.grows (hstep : Step store store') : Grows store store' := by
  cases hstep with
  | addRegion context => exact ⟨le_rfl, le_rfl, by simp [Store.addRegion], le_rfl⟩
  | addBlock context types =>
      rw [addBlock_eq]
      exact ⟨le_rfl, by simp, le_rfl, by simp [size_values_addValues]⟩
  | appendBlock hregion hblock h =>
      obtain ⟨-, rfl⟩ := Build.appendBlock_eq_ok h
      exact ⟨le_rfl, by simp, by simp, le_rfl⟩
  | insertOp hblock hop h =>
      obtain ⟨-, rfl⟩ := Build.insertOp_eq_ok h
      exact ⟨by simp, by simp, le_rfl, le_rfl⟩
  | buildOp hoperands hregions hnew h =>
      obtain ⟨rfl, -, rfl⟩ := Build.buildOp_eq_ok h
      exact ⟨by simp, le_rfl, by simp, by simp [size_values_addValues]⟩
  | resolveTypes context lookup => exact ⟨le_rfl, le_rfl, le_rfl, by simp [Store.resolveTypes]⟩

theorem Steps.grows (hsteps : Steps store store') : Grows store store' := by
  induction hsteps with
  | refl => exact ⟨le_rfl, le_rfl, le_rfl, le_rfl⟩
  | tail _ hstep ih =>
      have hlast := hstep.grows
      exact ⟨ih.operations.trans hlast.operations, ih.blocks.trans hlast.blocks,
        ih.regions.trans hlast.regions, ih.values.trans hlast.values⟩

theorem Steps.reachable (hsteps : Steps store store') (hstore : Reachable store) :
    Reachable store' := by
  induction hsteps with
  | refl => exact hstore
  | tail _ hstep ih => exact ih.step hstep

end Store

namespace Build

variable {α β : Type} {store : Store}

/-- A construction makes elementary changes only, and if it succeeds its result and the program
it leaves are as stated. -/
structure Makes (build : Build α) (store : Store) (post : α → Store → Prop) : Prop where
  steps : store.Steps (build store).2
  result : ∀ a, (build store).1 = .ok a → post a (build store).2

theorem makes_pure {a : α} {post : α → Store → Prop} (h : post a store) :
    Makes (pure a) store post :=
  ⟨.refl, fun _ heq => Except.ok.inj heq ▸ h⟩

theorem makes_throw {fault : Fault} {post : α → Store → Prop} :
    Makes (throw fault) store post :=
  ⟨.refl, fun _ heq => by cases heq⟩

theorem makes_get : Makes get store fun graph store' => graph = store ∧ store' = store :=
  ⟨.refl, fun _ heq => ⟨(Except.ok.inj heq).symm, rfl⟩⟩

theorem makes_check {result : Except Fault Unit} :
    Makes (check result) store fun _ store' => result = .ok () ∧ store' = store :=
  ⟨.refl, fun _ heq => ⟨heq, rfl⟩⟩

theorem Makes.bind {build : Build α} {next : α → Build β} {mid : α → Store → Prop}
    {post : β → Store → Prop} (hbuild : build.Makes store mid)
    (hnext : ∀ a store', store.Steps store' → mid a store' → (next a).Makes store' post) :
    (build >>= next).Makes store post := by
  obtain ⟨hsteps, hmid⟩ := hbuild
  have hrun : (build >>= next) store =
      match build store with
      | (result, store') => ExceptT.bindCont next result store' := rfl
  cases hfirst : build store with
  | mk result store' =>
      rw [hfirst] at hsteps hmid hrun
      cases result with
      | error fault =>
          exact ⟨hrun ▸ hsteps, fun b heq => by rw [hrun] at heq; cases heq⟩
      | ok a =>
          obtain ⟨hsteps', hpost⟩ := hnext a store' hsteps (hmid a rfl)
          exact ⟨hrun ▸ hsteps.trans hsteps', fun b heq => by rw [hrun] at heq ⊢; exact hpost b heq⟩

theorem Atomic.makes {build : Build α} {post : α → Store → Prop} (hatomic : build.Atomic)
    (hstep : ∀ a store', build store = (.ok a, store') → store.Step store' ∧ post a store') :
    build.Makes store post := by
  obtain ⟨result, store', hrun⟩ : ∃ result store', build store = (result, store') := ⟨_, _, rfl⟩
  cases result with
  | error fault =>
      have hsame : (build store).2 = store := hatomic store fault (by rw [hrun])
      exact ⟨by rw [hsame], fun a heq => by rw [hrun] at heq; cases heq⟩
  | ok a =>
      obtain ⟨hstep, hpost⟩ := hstep a store' hrun
      refine ⟨by rw [hrun]; exact .single hstep, fun a' heq => ?_⟩
      rw [hrun] at heq ⊢
      exact Except.ok.inj heq ▸ hpost

theorem makes_addRegion (context : ContextId) :
    Makes (ofAdd (·.addRegion context)) store fun region store' =>
      region.index < store'.regions.size :=
  ⟨.single (.addRegion context), fun _ heq => Except.ok.inj heq ▸ by simp [ofAdd, Store.addRegion]⟩

theorem makes_addBlock (context : ContextId) (types : List Ty) :
    Makes (ofAdd (·.addBlock context types)) store fun block store' =>
      block.index < store'.blocks.size := by
  refine ⟨.single (.addBlock context types), fun block heq => ?_⟩
  obtain rfl : ⟨store.blocks.size⟩ = block := Except.ok.inj heq
  show store.blocks.size < (store.addBlock context types).2.blocks.size
  rw [Store.addBlock_eq]
  simp

theorem makes_appendBlock {region : RegionId} {block : BlockId}
    (hregion : region.index < store.regions.size) (hblock : block.index < store.blocks.size) :
    Makes (appendBlock region block) store fun _ _ => True :=
  (atomic_appendBlock region block).makes fun _ _ h => ⟨.appendBlock hregion hblock h, trivial⟩

theorem makes_buildOp {context : ContextId} {kind : OpKind} {traits : List Trait}
    {operands : List ValueId} {resultTypes : List (Owned Ty)} {regions : List RegionId}
    (hoperands : ∀ operand ∈ operands, operand.index < store.values.size)
    (hregions : ∀ region ∈ regions, region.index < store.regions.size)
    (hfits : kind.Fits operands) :
    Makes (buildOp context kind traits operands resultTypes regions) store
      fun op store' => op.index < store'.operations.size := by
  refine (atomic_buildOp context kind traits operands resultTypes regions).makes
    fun op store' h => ⟨.buildOp hoperands hregions hfits h, ?_⟩
  obtain ⟨rfl, -, rfl⟩ := buildOp_eq_ok h
  simp

theorem makes_op {context : ContextId} {kind : OpKind} {operands : List ValueId}
    {resultTypes : List Ty} {regions : List RegionId}
    (hoperands : ∀ operand ∈ operands, operand.index < store.values.size)
    (hregions : ∀ region ∈ regions, region.index < store.regions.size)
    (hfits : kind.Fits operands) :
    Makes (op context kind operands resultTypes regions) store
      fun op store' => op.index < store'.operations.size :=
  makes_buildOp hoperands hregions hfits

theorem makes_insertOp {block : BlockId} {position : Nat} {op : OpId}
    (hblock : block.index < store.blocks.size) (hop : op.index < store.operations.size) :
    Makes (insertOp block position op) store fun _ _ => True :=
  (atomic_insertOp block position op).makes fun _ _ h => ⟨.insertOp hblock hop h, trivial⟩

theorem makes_appendOp {block : BlockId} {op : OpId}
    (hblock : block.index < store.blocks.size) (hop : op.index < store.operations.size) :
    Makes (appendOp block op) store fun _ _ => True := by
  refine makes_get.bind fun graph store' _ h => ?_
  obtain ⟨rfl, rfl⟩ := h
  exact makes_insertOp hblock hop

theorem makes_insertBeforeTerminator {block : BlockId} {op : OpId}
    (hblock : block.index < store.blocks.size) (hop : op.index < store.operations.size) :
    Makes (insertBeforeTerminator block op) store fun _ _ => True := by
  refine makes_get.bind fun graph store' _ h => ?_
  obtain ⟨rfl, rfl⟩ := h
  split
  · exact makes_insertOp hblock hop
  · exact makes_appendOp hblock hop

/-- A region with one block is there when both of its nodes are. -/
theorem makes_blockInRegion (context : ContextId) (types : List Ty)
    {next : RegionId → BlockId → Build β} {post : β → Store → Prop}
    (hnext : ∀ region block store', store.Steps store' → region.index < store'.regions.size →
      block.index < store'.blocks.size → (next region block).Makes store' post) :
    Makes (do
      let region ← ofAdd (·.addRegion context)
      let block ← ofAdd (·.addBlock context types)
      appendBlock region block
      next region block) store post := by
  refine (makes_addRegion context).bind fun region store₁ hsteps₁ hregion => ?_
  refine (makes_addBlock context types).bind fun block store₂ hsteps₂ hblock => ?_
  have hregion₂ := hregion.trans_le hsteps₂.grows.regions
  refine (makes_appendBlock hregion₂ hblock).bind fun _ store₃ hsteps₃ _ => ?_
  exact hnext region block store₃ ((hsteps₁.trans hsteps₂).trans hsteps₃)
    (hregion₂.trans_le hsteps₃.grows.regions) (hblock.trans_le hsteps₃.grows.blocks)

theorem makes_terminatedRegion (context : ContextId) (types : List Ty) :
    Makes (terminatedRegion context types) store fun region store' =>
      region.index < store'.regions.size := by
  refine makes_blockInRegion context types fun region block store₁ _ hregion hblock => ?_
  refine Makes.bind (makes_op (by simp) (by simp) trivial) fun yieldOp store₂ hsteps₂ hop => ?_
  refine (makes_appendOp (hblock.trans_le hsteps₂.grows.blocks) hop).bind
    fun _ store₃ hsteps₃ _ => ?_
  exact makes_pure
    ((hregion.trans_le hsteps₂.grows.regions).trans_le hsteps₃.grows.regions)

/-! ### What the checks establish -/

theorem of_bind_eq_ok {ε : Type} {first : Except ε α} {next : α → Except ε β} {b : β}
    (h : first >>= next = .ok b) : ∃ a, first = .ok a ∧ next a = .ok b := by
  cases first with
  | error fault => cases h
  | ok a => exact ⟨a, rfl, h⟩

variable {context : ContextId} {map lower upper : Owned AffineMap}
  {operands lowerOperands upperOperands : List ValueId}

theorem length_of_checkMap (h : checkMap context map operands = .ok ()) :
    operands.length = map.item.inputs := by
  unfold checkMap BoundMap.checkOperandCount at h
  split at h
  · cases h
  · split at h
    · assumption
    · cases h

theorem fits_of_checkApply (hmap : map.item.InRange)
    (h : checkApply context map operands = .ok ()) :
    (OpKind.apply map.item).Fits operands := by
  obtain ⟨_, hcheck, h⟩ := of_bind_eq_ok h
  split at h
  · rename_i hcount
    exact ⟨hmap, hcount, length_of_checkMap hcheck⟩
  · cases h

theorem of_checkExtremum {kind : AffineMap → OpKind}
    (h : checkExtremum context kind map operands = .ok ()) :
    map.item.resultCount ≠ 0 ∧ operands.length = map.item.inputs := by
  obtain ⟨_, hcheck, h⟩ := of_bind_eq_ok h
  split at h
  · cases h
  · rename_i hcount
    exact ⟨hcount, length_of_checkMap hcheck⟩

theorem fits_of_checkFor {step : Int} (hlower : lower.item.InRange) (hupper : upper.item.InRange)
    (h : checkFor context lower lowerOperands upper upperOperands step = .ok ()) :
    (OpKind.forLoop lower.item upper.item step).Fits (lowerOperands ++ upperOperands) := by
  by_cases hstep : step ≤ 0
  · simp only [checkFor, if_pos hstep] at h
    cases h
  · simp only [checkFor, if_neg hstep] at h
    obtain ⟨_, hl, h⟩ := of_bind_eq_ok h
    obtain ⟨_, hu, h⟩ := of_bind_eq_ok h
    split at h
    · cases h
    · rename_i hcount
      obtain ⟨hcount, hcount'⟩ := not_or.mp hcount
      refine ⟨hlower, hupper, ?_, hcount, hcount', not_le.mp hstep⟩
      rw [List.length_append, length_of_checkMap hl, length_of_checkMap hu]

theorem fits_of_checkParallel {steps : List Int} (hlower : lower.item.InRange)
    (hupper : upper.item.InRange)
    (h : checkParallel context lower lowerOperands upper upperOperands steps = .ok ()) :
    (OpKind.parallel lower.item upper.item steps).Fits (lowerOperands ++ upperOperands) := by
  cases hsteps : steps.find? (· ≤ 0) with
  | some step =>
      simp only [checkParallel, hsteps] at h
      cases h
  | none =>
      have hpositive : ∀ step ∈ steps, 0 < step := by simpa using hsteps
      simp only [checkParallel, hsteps] at h
      obtain ⟨_, -, h⟩ := of_bind_eq_ok h
      obtain ⟨_, hl, h⟩ := of_bind_eq_ok h
      obtain ⟨_, hu, h⟩ := of_bind_eq_ok h
      split at h
      · cases h
      · rename_i hcount
        split at h
        · cases h
        · rename_i hcount'
          refine ⟨hlower, hupper, ?_, not_not.mp hcount, not_not.mp hcount', hpositive⟩
          rw [List.length_append, length_of_checkMap hl, length_of_checkMap hu]

/-! ### Constructions of operations -/

variable {resultTypes : List Ty}

theorem makes_function (symbol : String) (argumentTypes : List Ty) :
    Makes (function context symbol argumentTypes) store
      fun op store' => op.index < store'.operations.size :=
  makes_blockInRegion context argumentTypes fun _ _ _ _ hregion _ =>
    makes_op (by simp) (by simpa using hregion) trivial

/-- An operation without regions is there once its check is passed. -/
theorem makes_checked {result : Except Fault Unit} {kind : OpKind}
    (hoperands : ∀ operand ∈ operands, operand.index < store.values.size)
    (hfits : result = .ok () → kind.Fits operands) :
    Makes (do check result; op context kind operands resultTypes []) store
      fun op store' => op.index < store'.operations.size := by
  refine makes_check.bind fun _ store' _ h => ?_
  obtain ⟨hresult, rfl⟩ := h
  exact makes_op hoperands (by simp) (hfits hresult)

theorem makes_dim {source index : ValueId}
    (hoperands : ∀ operand ∈ [source, index], operand.index < store.values.size) :
    Makes (dim context source index) store fun op store' => op.index < store'.operations.size := by
  refine makes_get.bind fun graph store' _ h => ?_
  obtain ⟨rfl, rfl⟩ := h
  exact makes_checked hoperands fun _ => rfl

theorem makes_access {kind : AffineMap → OpKind} {leading indices : List ValueId}
    {memref : ValueId} {resultTypes : MemRef → List Ty}
    (hoperands : ∀ operand ∈ leading ++ memref :: indices, operand.index < store.values.size)
    (hfits : indices.length = map.item.inputs →
      (kind map.item).Fits (leading ++ memref :: indices)) :
    Makes (access context kind leading memref map indices resultTypes) store
      fun op store' => op.index < store'.operations.size := by
  refine makes_get.bind fun graph store' _ h => ?_
  obtain ⟨rfl, rfl⟩ := h
  dsimp only
  split
  · exact makes_throw
  · exact makes_checked hoperands fun hcheck => hfits (length_of_checkMap hcheck)

/-- A loop is there once its check is passed and its body is made. -/
theorem makes_loop {result : Except Fault Unit} {kind : OpKind} {types : List Ty}
    (hoperands : ∀ operand ∈ operands, operand.index < store.values.size)
    (hfits : result = .ok () → kind.Fits operands) :
    Makes (do
      check result
      let body ← terminatedRegion context types
      op context kind operands [] [body]) store
      fun op store' => op.index < store'.operations.size := by
  refine makes_check.bind fun _ store₁ _ h => ?_
  obtain ⟨hresult, rfl⟩ := h
  refine (makes_terminatedRegion context types).bind fun body store₂ hsteps hbody => ?_
  exact makes_op (fun operand hmem => (hoperands operand hmem).trans_le hsteps.grows.values)
    (by simpa using hbody) (hfits hresult)

theorem makes_conditional {set : Owned IntegerSet} {withElse : Bool} (hset : set.item.InRange)
    (hoperands : ∀ operand ∈ operands, operand.index < store.values.size) :
    Makes (conditional context set operands withElse) store
      fun op store' => op.index < store'.operations.size := by
  refine makes_check.bind fun _ store₁ _ h => ?_
  obtain ⟨hresult, rfl⟩ := h
  have hfits : (OpKind.conditional set.item).Fits operands := by
    refine ⟨hset, ?_⟩
    unfold BoundSet.checkOperandCount at hresult
    split at hresult
    · cases hresult
    · split at hresult
      · assumption
      · cases hresult
  refine (makes_terminatedRegion context []).bind fun thenRegion store₂ hsteps hthen => ?_
  have hlast : ∀ elseRegion store₃, store₂.Steps store₃ →
      elseRegion.index < store₃.regions.size →
      Makes (op context (.conditional set.item) operands [] [thenRegion, elseRegion]) store₃
        fun op store' => op.index < store'.operations.size := by
    intro elseRegion store₃ hsteps' helse
    refine makes_op ?_ ?_ hfits
    · exact fun operand hmem =>
        ((hoperands operand hmem).trans_le hsteps.grows.values).trans_le hsteps'.grows.values
    · simpa using ⟨hthen.trans_le hsteps'.grows.regions, helse⟩
  dsimp only
  split
  · exact (makes_terminatedRegion context []).bind hlast
  · exact (makes_addRegion context).bind hlast

end Build

/-- The constructions that a caller can ask for in a program, with values, regions, blocks and
operations that belong to it and with maps and sets whose positions are in range. -/
inductive Construction (store : Store) : {α : Type} → Build α → Prop
  | region (context : ContextId) : Construction store (.ofAdd (·.addRegion context))
  | block (context : ContextId) (types : List Ty) :
      Construction store (.ofAdd (·.addBlock context types))
  | appendBlock {region : RegionId} {block : BlockId}
      (hregion : region.index < store.regions.size) (hblock : block.index < store.blocks.size) :
      Construction store (.appendBlock region block)
  | appendOp {block : BlockId} {op : OpId} (hblock : block.index < store.blocks.size)
      (hop : op.index < store.operations.size) :
      Construction store (.appendOp block op)
  | insertOp {block : BlockId} {position : Nat} {op : OpId}
      (hblock : block.index < store.blocks.size) (hop : op.index < store.operations.size) :
      Construction store (.insertOp block position op)
  | insertBeforeTerminator {block : BlockId} {op : OpId}
      (hblock : block.index < store.blocks.size) (hop : op.index < store.operations.size) :
      Construction store (.insertBeforeTerminator block op)
  | generic {context : ContextId} {name : String} {traits : List Trait}
      {operands : List ValueId} {resultTypes : List (Owned Ty)} {regions : List RegionId}
      (hoperands : ∀ operand ∈ operands, operand.index < store.values.size)
      (hregions : ∀ region ∈ regions, region.index < store.regions.size) :
      Construction store (.buildOp context (.generic name) traits operands resultTypes regions)
  | function (context : ContextId) (symbol : String) (argumentTypes : List Ty) :
      Construction store (.function context symbol argumentTypes)
  | constant (context : ContextId) (value : Int) (type : Ty) :
      Construction store (.constant context value type)
  | sizedMemRef {context : ContextId} {kind : OpKind} {leading sizes : List ValueId}
      {type : MemRef} (hkind : kind ∈ [.alloc, .view, .subview])
      (hoperands : ∀ operand ∈ leading ++ sizes, operand.index < store.values.size) :
      Construction store (.sizedMemRef context kind leading sizes type)
  | dim {context : ContextId} {source index : ValueId}
      (hoperands : ∀ operand ∈ [source, index], operand.index < store.values.size) :
      Construction store (.dim context source index)
  | apply {context : ContextId} {map : Owned AffineMap} {operands : List ValueId}
      (hmap : map.item.InRange)
      (hoperands : ∀ operand ∈ operands, operand.index < store.values.size) :
      Construction store (.apply context map operands)
  | extremum {context : ContextId} {kind : AffineMap → OpKind} {map : Owned AffineMap}
      {operands : List ValueId} (hkind : kind = .min ∨ kind = .max) (hmap : map.item.InRange)
      (hoperands : ∀ operand ∈ operands, operand.index < store.values.size) :
      Construction store (.extremum context kind map operands)
  | read {context : ContextId} {kind : AffineMap → OpKind} {memref : ValueId}
      {map : Owned AffineMap} {indices : List ValueId} {resultTypes : MemRef → List Ty}
      (hkind : kind = .load ∨ kind = .vectorLoad) (hmap : map.item.InRange)
      (hoperands : ∀ operand ∈ memref :: indices, operand.index < store.values.size) :
      Construction store (.access context kind [] memref map indices resultTypes)
  | write {context : ContextId} {kind : AffineMap → OpKind} {value memref : ValueId}
      {map : Owned AffineMap} {indices : List ValueId} {resultTypes : MemRef → List Ty}
      (hkind : kind = .store ∨ kind = .vectorStore) (hmap : map.item.InRange)
      (hoperands : ∀ operand ∈ value :: memref :: indices, operand.index < store.values.size) :
      Construction store (.access context kind [value] memref map indices resultTypes)
  | forLoop {context : ContextId} {lower upper : Owned AffineMap}
      {lowerOperands upperOperands : List ValueId} {step : Int} (hlower : lower.item.InRange)
      (hupper : upper.item.InRange)
      (hoperands : ∀ operand ∈ lowerOperands ++ upperOperands,
        operand.index < store.values.size) :
      Construction store (.forLoop context lower lowerOperands upper upperOperands step)
  | parallel {context : ContextId} {lower upper : Owned AffineMap}
      {lowerOperands upperOperands : List ValueId} {steps : List Int}
      (hlower : lower.item.InRange) (hupper : upper.item.InRange)
      (hoperands : ∀ operand ∈ lowerOperands ++ upperOperands,
        operand.index < store.values.size) :
      Construction store (.parallel context lower lowerOperands upper upperOperands steps)
  | conditional {context : ContextId} {set : Owned IntegerSet} {operands : List ValueId}
      {withElse : Bool} (hset : set.item.InRange)
      (hoperands : ∀ operand ∈ operands, operand.index < store.values.size) :
      Construction store (.conditional context set operands withElse)
  | yield {context : ContextId} {operands : List ValueId}
      (hoperands : ∀ operand ∈ operands, operand.index < store.values.size) :
      Construction store (.yield context operands)

namespace Construction

open Build

variable {α : Type} {store : Store} {build : Build α}

/-- Every construction is made of elementary changes. -/
theorem steps (h : Construction store build) : store.Steps (build store).2 := by
  cases h with
  | region context => exact (makes_addRegion context).steps
  | block context types => exact (makes_addBlock context types).steps
  | appendBlock hregion hblock => exact (makes_appendBlock hregion hblock).steps
  | appendOp hblock hop => exact (makes_appendOp hblock hop).steps
  | insertOp hblock hop => exact (makes_insertOp hblock hop).steps
  | insertBeforeTerminator hblock hop => exact (makes_insertBeforeTerminator hblock hop).steps
  | generic hoperands hregions => exact Makes.steps (makes_buildOp hoperands hregions trivial)
  | function context symbol argumentTypes => exact (makes_function symbol argumentTypes).steps
  | constant context value type => exact Makes.steps (makes_op (by simp) (by simp) rfl)
  | sizedMemRef hkind hoperands =>
      refine (makes_checked hoperands fun _ => ?_).steps
      simp only [List.mem_cons, List.not_mem_nil, or_false] at hkind
      obtain rfl | rfl | rfl := hkind <;> trivial
  | dim hoperands => exact (makes_dim hoperands).steps
  | apply hmap hoperands => exact (makes_checked hoperands (fits_of_checkApply hmap)).steps
  | extremum hkind hmap hoperands =>
      refine (makes_checked hoperands fun hcheck => ?_).steps
      obtain rfl | rfl := hkind <;> exact ⟨hmap, of_checkExtremum hcheck⟩
  | read hkind hmap hoperands =>
      refine (makes_access hoperands fun hlength => ?_).steps
      obtain rfl | rfl := hkind <;> exact ⟨hmap, by simp [hlength]⟩
  | write hkind hmap hoperands =>
      refine (makes_access hoperands fun hlength => ?_).steps
      obtain rfl | rfl := hkind <;> exact ⟨hmap, by simp [hlength]⟩
  | forLoop hlower hupper hoperands =>
      exact (makes_loop hoperands (fits_of_checkFor hlower hupper)).steps
  | parallel hlower hupper hoperands =>
      exact (makes_loop hoperands (fits_of_checkParallel hlower hupper)).steps
  | conditional hset hoperands => exact (makes_conditional hset hoperands).steps
  | yield hoperands => exact Makes.steps (makes_op hoperands (by simp) trivial)

/-- A construction leads from one program that can be constructed to another, whether it
succeeds or fails. -/
theorem reachable (h : Construction store build) (hstore : store.Reachable) :
    (build store).2.Reachable :=
  h.steps.reachable hstore

end Construction

end AffineLoops
