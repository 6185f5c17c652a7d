import AffineLoops.Proofs.IR.Construction
import AffineLoops.Session.Construct

/-!
# Loops with constant bounds can always be built

A construction may be refused, for instance because an operand belongs to another context.  A loop
with constant bounds has no operands, and the region, the block and the operation that end its body
are new, so nothing stands in its way: whatever is in the program already, the construction
succeeds, and the new operation reads as the loop that was asked for.

* `terminatedRegion_eq_ok`: a region with one block can be added to every program;
* `forLoop_eq_ok`: so can a loop without operands;
* `forConstant_eq_ok`: the same within a session, where types are resolved in between.
-/

namespace AffineLoops

namespace Store

variable {store : Store}

/-! ## Elementary changes that succeed -/

theorem region_addRegion (store : Store) (context : ContextId) :
    (store.addRegion context).2.region ⟨store.regions.size⟩ =
      ⟨context, store.nextRegionNumber context, [], none⟩ := by
  simp [addRegion, Store.region]

theorem length_addValues (context : ContextId) (owner : Nat → ValueOwner) (index : Nat)
    (types : List Ty) (store : Store) :
    (addValues context owner index types store).1.length = types.length := by
  induction types generalizing index store with
  | nil => rfl
  | cons type types ih => exact congrArg (· + 1) (ih (index + 1) _)

theorem block_addBlock (store : Store) (context : ContextId) (types : List Ty) :
    ∃ arguments, arguments.length = types.length ∧
      (store.addBlock context types).2.block ⟨store.blocks.size⟩ =
        ⟨context, store.nextBlockNumber context, arguments, [], none⟩ := by
  refine ⟨_, length_addValues context (.argument ⟨store.blocks.size⟩) 0 types store, ?_⟩
  rw [addBlock_eq]
  simp [Store.block]

theorem appendBlock_ok (region : RegionId) (block : BlockId)
    (hcontext : (store.block block).context = (store.region region).context)
    (hparent : (store.block block).parent = none) (hlt : region.index < store.regions.size) :
    ∃ store', Build.appendBlock region block store = (.ok (), store') ∧
      store'.region region = { store.region region with
        blocks := (store.region region).blocks ++ [block] } ∧
      ∀ id, (store'.block id).context = (store.block id).context ∧
        (store'.block id).arguments = (store.block id).arguments := by
  rw [Build.appendBlock_run, if_neg (by simp [hcontext]), if_neg (by simp [hparent])]
  refine ⟨_, rfl, ?_, ?_⟩
  · rw [Store.region, getD_modify, if_pos ⟨rfl, hlt⟩]
    rfl
  · intro id
    rw [Store.block, getD_modify]
    split <;> exact ⟨rfl, rfl⟩

theorem appendOp_ok (block : BlockId) (op : OpId)
    (hcontext : (store.op op).context = (store.block block).context)
    (hparent : (store.op op).parent = none) :
    ∃ store', Build.appendOp block op store = (.ok (), store') ∧ store'.regions = store.regions ∧
      ∀ id, (store'.block id).arguments = (store.block id).arguments := by
  rw [Build.appendOp_run, Build.insertOp_run, if_neg (by simp [hcontext]),
    if_neg (by simp [hparent])]
  refine ⟨_, if_neg (lt_irrefl _), rfl, ?_⟩
  intro id
  rw [Store.block, getD_modify]
  split <;> rfl

/-- An operation without operands and results can be built if its regions are free. -/
theorem op_ok (context : ContextId) (kind : OpKind) (regions : List RegionId)
    (hcontext : ∀ region ∈ regions, (store.region region).context = context)
    (hfree : store.takenRegion? [] regions = none) :
    ∃ op store', Build.op context kind [] [] regions store = (.ok op, store') ∧
      store'.op op =
        ⟨context, store.nextOpNumber context, kind, kind.traits, [], [], regions, none⟩ ∧
      store'.blocks = store.blocks ∧ store'.regions = ownRegions op regions store.regions := by
  have hsame : ¬ (([] : List ValueId).any
      (fun operand => (store.value operand).context != context) ||
      ([] : List (AffineLoops.Owned Ty)).any (·.context != context) ||
      regions.any fun region => (store.region region).context != context) := by
    simpa using hcontext
  rw [Build.op, List.map_nil, Build.buildOp_run, if_neg hsame, hfree]
  refine ⟨_, _, rfl, ?_, rfl, rfl⟩
  simp [Store.op, addValues]

theorem forLoop?_eq_some {id : OpId} {lower upper : AffineMap} {step : Int} {region : RegionId}
    {block : BlockId} {iv : ValueId} {regions : List RegionId} {blocks : List BlockId}
    {arguments : List ValueId} (hkind : (store.op id).kind = .forLoop lower upper step)
    (hregions : (store.op id).regions = region :: regions)
    (hblocks : (store.region region).blocks = block :: blocks)
    (harguments : (store.block block).arguments = iv :: arguments) :
    store.forLoop? id = some ⟨id, ⟨⟨lower, (store.op id).operands.take lower.inputs⟩,
      ⟨upper, (store.op id).operands.drop lower.inputs⟩, step⟩, region, block, iv⟩ := by
  simp only [forLoop?, hkind, hregions, entryBlock?, hblocks, List.head?_cons, harguments]

end Store

/-! ## Loops -/

/-- A step that succeeds is followed by the next one, in a program as in a session. -/
theorem bind_eq_of_ok {α β σ : Type} {state state' : σ} {first : ExceptT Fault (StateM σ) α}
    {next : α → ExceptT Fault (StateM σ) β} {a : α} (h : first state = (.ok a, state')) :
    (first >>= next) state = next a state' := by
  have hrun : (first >>= next) state =
      match first state with
      | (result, state') => ExceptT.bindCont next result state' := rfl
  rw [hrun, h]
  rfl

namespace Build

variable {store store' : Store}

/-- A region with one block that takes arguments and ends can be added to every program. -/
theorem terminatedRegion_eq_ok (context : ContextId) (types : List Ty) (store : Store) :
    ∃ region block store', terminatedRegion context types store = (.ok region, store') ∧
      (store'.region region).context = context ∧ (store'.region region).parent = none ∧
      (store'.region region).blocks = [block] ∧
      (store'.block block).arguments.length = types.length := by
  let region : RegionId := ⟨store.regions.size⟩
  let block : BlockId := ⟨store.blocks.size⟩
  let withBlock := ((store.addRegion context).2.addBlock context types).2
  have hregion : withBlock.region region = ⟨context, store.nextRegionNumber context, [], none⟩ := by
    simp only [withBlock, Store.addBlock_eq]
    exact store.region_addRegion context
  have hlt : region.index < withBlock.regions.size := by
    simp [region, withBlock, Store.addBlock_eq, Store.addRegion]
  obtain ⟨arguments, hlength, hblock⟩ := (store.addRegion context).2.block_addBlock context types
  have hblock : withBlock.block block = _ := hblock
  obtain ⟨attached, hattached, hregion', hblocks'⟩ := Store.appendBlock_ok region block
    (by rw [hblock, hregion]) (by rw [hblock]) hlt
  -- the operation that ends the block has no regions that could be taken
  obtain ⟨ending, ended, hended, hop, hblocks, hregions⟩ :=
    attached.op_ok context .yield [] (by simp) rfl
  obtain ⟨finished, hfinished, hregions', harguments⟩ := ended.appendOp_ok block ending
    (by rw [hop, Store.block, hblocks, ← Store.block, (hblocks' block).1, hblock]) (by rw [hop])
  have hfinal : finished.region region =
      ⟨context, store.nextRegionNumber context, [block], none⟩ := by
    rw [Store.region, hregions', hregions]
    exact hregion'.trans (by rw [hregion]; rfl)
  refine ⟨region, block, finished, ?_, by rw [hfinal], by rw [hfinal], by rw [hfinal], ?_⟩
  · calc terminatedRegion context types store
        = _ := bind_eq_of_ok rfl
      _ = _ := bind_eq_of_ok rfl
      _ = _ := bind_eq_of_ok hattached
      _ = _ := bind_eq_of_ok hended
      _ = _ := bind_eq_of_ok hfinished
  · rw [harguments, Store.block, hblocks, ← Store.block, (hblocks' block).2, hblock, hlength]

/-- A loop without operands can be added to every program, and then reads as that loop. -/
theorem forLoop_eq_ok {context : ContextId} {lower upper : AffineMap} {step : Int}
    (h : checkFor context ⟨context, lower⟩ [] ⟨context, upper⟩ [] step = .ok ()) (store : Store) :
    ∃ op store' loop, forLoop context ⟨context, lower⟩ [] ⟨context, upper⟩ [] step store =
        (.ok op, store') ∧
      store'.forLoop? op = some loop ∧ loop.bounds = ⟨⟨lower, []⟩, ⟨upper, []⟩, step⟩ := by
  obtain ⟨region, block, withBody, hbody, hcontext, hparent, hblocks, harguments⟩ :=
    terminatedRegion_eq_ok context [.index] store
  obtain ⟨op, built, hbuilt, hop, hblocks', hregions⟩ :=
    withBody.op_ok context (.forLoop lower upper step) [region] (by simpa using hcontext)
      (by simp [Store.takenRegion?, hparent])
  obtain ⟨iv, harguments⟩ := List.length_eq_one_iff.mp harguments
  have hloop := Store.forLoop?_eq_some (by rw [hop]) (by rw [hop])
    (by rw [Store.region, hregions, Store.blocks_getD_ownRegions]; exact hblocks)
    (by rw [Store.block, hblocks']; exact harguments)
  refine ⟨op, built, _, ?_, hloop, by simp [hop]⟩
  calc forLoop context ⟨context, lower⟩ [] ⟨context, upper⟩ [] step store
      = _ := bind_eq_of_ok (congrArg (·, store) h)
    _ = _ := bind_eq_of_ok hbody
    _ = _ := hbuilt

end Build

/-! ## Loops in a session -/

namespace Session

variable {session : Session}

/-- Loops are read without looking at types, so resolving layouts does not change them. -/
theorem forLoop?_resolved (session : Session) (op : OpId) :
    session.resolved.forLoop? op = session.store.forLoop? op := by
  have hkeeps : ∀ (contexts : List Nat) (store : Store),
      (contexts.foldl (fun store id =>
        store.resolveTypes id (session.context id).tables.lookup) store).forLoop? op =
        store.forLoop? op := by
    intro contexts
    induction contexts with
    | nil => exact fun _ => rfl
    | cons id contexts ih => exact fun store => ih (store.resolveTypes id _)
  exact hkeeps _ _

theorem build_eq_ok {α : Type} {construction : Build α} {a : α} {store : Store}
    (h : construction session.store = (.ok a, store)) :
    build construction session =
      (.ok a, { session with store := resolved { session with store } }) := by
  show ofExcept (construction session.store).1 { session with
    store := resolved { session with store := (construction session.store).2 } } = _
  rw [h]
  rfl

theorem checkFor_ofConst (id : ContextId) (lower upper : Int) {step : Int} (hstep : 0 < step) :
    Build.checkFor id ⟨id, .ofConst lower⟩ [] ⟨id, .ofConst upper⟩ [] step = .ok () := by
  have hmap : ∀ constant, Build.checkMap id ⟨id, .ofConst constant⟩ [] = .ok () :=
    fun _ => if_neg (not_not.mpr rfl)
  have hstep : ¬ step ≤ 0 := by omega
  simp only [Build.checkFor, hstep, hmap, if_false]
  rfl

/-- In every session a loop with constant bounds can be built, and reads as that loop. -/
theorem forConstant_eq_ok (session : Session) (id : ContextId) (lower upper : Int) {step : Int}
    (hstep : 0 < step) :
    ∃ op session' loop, forConstant id lower upper step session = (.ok op, session') ∧
      session'.store.forLoop? op = some loop ∧
      loop.bounds = ⟨⟨.ofConst lower, []⟩, ⟨.ofConst upper, []⟩, step⟩ := by
  have hcheck := checkFor_ofConst id lower upper hstep
  obtain ⟨withLower, hlower⟩ : ∃ withLower,
      ownMap id (.ofConst lower) session = (.ok ⟨id, .ofConst lower⟩, withLower) := ⟨_, rfl⟩
  obtain ⟨withUpper, hupper⟩ : ∃ withUpper,
      ownMap id (.ofConst upper) withLower = (.ok ⟨id, .ofConst upper⟩, withUpper) := ⟨_, rfl⟩
  obtain ⟨withIndex, hindex⟩ : ∃ withIndex,
      ownType id .index withUpper = (.ok .index, withIndex) := ⟨_, rfl⟩
  obtain ⟨op, store, loop, hbuilt, hloop, hbounds⟩ := Build.forLoop_eq_ok hcheck withIndex.store
  refine ⟨op, { withIndex with store := resolved { withIndex with store } }, loop, ?_,
    (forLoop?_resolved _ op).trans hloop, hbounds⟩
  calc forConstant id lower upper step session
      = _ := bind_eq_of_ok hlower
    _ = _ := bind_eq_of_ok hupper
    _ = _ := bind_eq_of_ok (by rw [hcheck]; rfl)
    _ = _ := bind_eq_of_ok hindex
    _ = _ := build_eq_ok hbuilt

end Session

end AffineLoops
