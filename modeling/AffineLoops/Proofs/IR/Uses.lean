import AffineLoops.Proofs.IR.Owners
import AffineLoops.Proofs.IR.Traits

/-!
# Uses of values and numbers of operations

A use of a value is an operand of an operation that is equal to it.  Uses are noted at the value
when the operation is built, so they come in the order of the operations and, within one of them, in
the order of its operands.

Operations of all contexts stand in one store, and the number of an operation counts those of its
own context.  An operation and its operands and results belong to one context, so within the uses of
a value the order of numbers is the order of places, and an operation has a larger number than the
operations that make its operands.

* `Step.keepsOps_or_addsOp` says what one elementary change does to operations, uses and contexts;
* `Reachable.counted`, `Reachable.numbered` and `Reachable.confined` follow by induction;
* `links_agree` sums up what is known of the links between nodes.
-/

namespace AffineLoops

namespace Store

variable {store store' : Store}

/-! ## Uses by a new operation -/

/-- The operands of an operation that are equal to a value, counted from an index on. -/
def usesIn (op : OpId) (index : Nat) (operands : List ValueId) (value : ValueId) :
    List (OpId × Nat) :=
  ((operands.zipIdx index).filter (·.1 = value)).map fun operand => (op, operand.2)

/-- Uses in the order of operations and operands. -/
def Before (use use' : OpId × Nat) : Prop :=
  use.1.index < use'.1.index ∨ use.1 = use'.1 ∧ use.2 < use'.2

section UsesIn

variable {op : OpId} {index : Nat} {operands : List ValueId}

theorem uses_getD_addUses {values : Array Value}
    (hoperands : ∀ operand ∈ operands, operand.index < values.size) (value : ValueId) :
    ((addUses op index operands values).getD value.index default).uses =
      (values.getD value.index default).uses ++ usesIn op index operands value := by
  induction operands generalizing index values with
  | nil => simp [addUses, usesIn]
  | cons first rest ih =>
      have hfirst : first.index < values.size := hoperands first (by simp)
      have hrest : ∀ operand ∈ rest, operand.index < (values.modify first.index fun node =>
          { node with uses := node.uses ++ [(op, index)] }).size := by
        simpa using fun operand hmem => hoperands operand (by simp [hmem])
      rw [addUses, ih hrest, getD_modify]
      by_cases heq : first = value
      · subst heq
        simp [usesIn, List.zipIdx_cons, hfirst]
      · have hplace : first.index ≠ value.index := fun hplace => heq (congrArg ValueId.mk hplace)
        simp [usesIn, List.zipIdx_cons, heq, hplace]

theorem mem_usesIn_iff {value : ValueId} {use : OpId × Nat} :
    use ∈ usesIn op 0 operands value ↔ use.1 = op ∧ operands[use.2]? = some value := by
  obtain ⟨user, place⟩ := use
  simp only [usesIn, List.mem_map, List.mem_filter, decide_eq_true_eq, Prod.mk.injEq]
  constructor
  · rintro ⟨operand, ⟨hmem, rfl⟩, rfl, rfl⟩
    exact ⟨rfl, List.mem_zipIdx_iff_getElem?.mp hmem⟩
  · rintro ⟨rfl, hplace⟩
    exact ⟨(value, place), ⟨List.mk_mem_zipIdx_iff_getElem?.mpr hplace, rfl⟩, rfl, rfl⟩

theorem pairwise_usesIn (value : ValueId) :
    (usesIn op index operands value).Pairwise Before := by
  have hzip : (operands.zipIdx index).Pairwise fun a b => a.2 < b.2 := by
    induction operands generalizing index with
    | nil => exact .nil
    | cons first rest ih =>
        rw [List.zipIdx_cons]
        exact List.pairwise_cons.mpr ⟨fun _ hmem => List.le_snd_of_mem_zipIdx hmem, ih⟩
  rw [usesIn, List.pairwise_map]
  exact (hzip.filter _).imp fun hlt => Or.inr ⟨rfl, hlt⟩

end UsesIn

/-! ## What changes do to operations -/

/-- Operations are at most moved, and the values that are there keep their uses and contexts. -/
structure KeepsOps (store store' : Store) : Prop where
  contexts : store'.operations.map Operation.context = store.operations.map Operation.context
  operation : ∀ op, ∃ parent, store'.op op = { store.op op with parent }
  uses : ∀ value, (store'.value value).uses = (store.value value).uses
  context : ∀ value, value.index < store.values.size →
    (store'.value value).context = (store.value value).context

/-- One operation is new, of one context with its operands and results, and its operands are noted
as uses. -/
structure AddsOp (store store' : Store) (new : Operation) : Prop where
  operations : store'.operations = store.operations.push new
  number : new.number = store.nextOpNumber new.context
  uses : ∀ value, (store'.value value).uses =
    (store.value value).uses ++ usesIn ⟨store.operations.size⟩ 0 new.operands value
  context : ∀ value, value.index < store.values.size →
    (store'.value value).context = (store.value value).context
  confined : ∀ value ∈ new.operands ++ new.results, (store'.value value).context = new.context

theorem context_getD_addUses (op : OpId) (index : Nat) (operands : List ValueId)
    (values : Array Value) (place : Nat) :
    ((addUses op index operands values).getD place default).context =
      (values.getD place default).context := by
  induction operands generalizing index values with
  | nil => rfl
  | cons operand rest ih =>
      rw [addUses, ih]
      exact read_modify Value.context (fun _ => by rfl) ..

/-- Building an operation leaves the contexts of old values alone. -/
theorem context_getD_built {context : ContextId} {owner : Nat → ValueOwner} {types : List Ty}
    (op : OpId) (operands : List ValueId) {place : Nat} (h : place < store.values.size) :
    ((addUses op 0 operands (addValues context owner 0 types store).2.values).getD place
      default).context = (store.values.getD place default).context := by
  rw [context_getD_addUses, getD_addValues_of_lt _ _ _ _ _ h]

theorem context_of_buildOp {context : ContextId} {kind : OpKind} {traits : List Trait}
    {operands : List ValueId} {resultTypes : List (AffineLoops.Owned Ty)}
    {regions : List RegionId} {op : OpId}
    (h : Build.buildOp context kind traits operands resultTypes regions store = (.ok op, store')) :
    ∀ operand ∈ operands, (store.value operand).context = context := by
  rw [Build.buildOp_run] at h
  split at h
  · cases h
  · rename_i hcontexts
    simp only [Bool.or_eq_true, not_or, List.any_eq_true, not_exists, not_and, bne_iff_ne,
      not_not] at hcontexts
    exact hcontexts.1.1

theorem contexts_modify (operations : Array Operation) (place : Nat) (parent : Option BlockId) :
    (operations.modify place ({ · with parent })).map Operation.context =
      operations.map Operation.context := by
  refine Array.ext (by simp) fun index hindex hindex' => ?_
  simp only [Array.getElem_map, Array.getElem_modify]
  split <;> rfl

theorem resolveTypes_value (store : Store) (context : ContextId) (lookup : Lookup)
    (value : ValueId) :
    ∃ type, (store.resolveTypes context lookup).value value = { store.value value with type } := by
  simp only [Store.value, resolveTypes, Array.getD_eq_getD_getElem?, Array.getElem?_map]
  cases store.values[value.index]? with
  | none => exact ⟨_, rfl⟩
  | some node =>
      simp only [Option.map_some, Option.getD_some]
      split
      · exact ⟨_, rfl⟩
      · exact ⟨_, rfl⟩

theorem Step.keepsOps_or_addsOp (hstep : Step store store') :
    KeepsOps store store' ∨ ∃ new, AddsOp store store' new := by
  cases hstep with
  | addRegion context => exact Or.inl ⟨rfl, fun _ => ⟨_, rfl⟩, fun _ => rfl, fun _ _ => rfl⟩
  | addBlock context types =>
      rw [addBlock_eq]
      refine Or.inl ⟨rfl, fun _ => ⟨_, rfl⟩, fun value => uses_getD_addValues ..,
        fun value hlt => ?_⟩
      exact congrArg Value.context (getD_addValues_of_lt _ _ _ _ _ hlt)
  | appendBlock hregion hblock h =>
      obtain ⟨-, rfl⟩ := Build.appendBlock_eq_ok h
      exact Or.inl ⟨rfl, fun _ => ⟨_, rfl⟩, fun _ => rfl, fun _ _ => rfl⟩
  | insertOp hblock hop h =>
      obtain ⟨-, rfl⟩ := Build.insertOp_eq_ok h
      refine Or.inl ⟨contexts_modify .., fun op => ?_, fun _ => rfl, fun _ _ => rfl⟩
      dsimp only [Store.op]
      rw [getD_modify]
      split
      · exact ⟨_, rfl⟩
      · exact ⟨_, rfl⟩
  | @buildOp context kind traits operands resultTypes regions op store' hoperands _ _ h =>
      have hcontext := context_of_buildOp h
      obtain ⟨rfl, -, rfl⟩ := Build.buildOp_eq_ok h
      refine Or.inr ⟨_, rfl, rfl, fun value => ?_, fun value => context_getD_built _ _,
        fun value hmem => ?_⟩
      · refine (uses_getD_addUses (fun operand hmem => ?_) value).trans ?_
        · rw [size_values_addValues]
          exact (hoperands operand hmem).trans_le (Nat.le_add_right ..)
        · rw [uses_getD_addValues, Store.value]
      · rcases List.mem_append.mp hmem with hoperand | hresult
        · exact (context_getD_built _ _ (hoperands value hoperand)).trans (hcontext value hoperand)
        · rw [ids_addValues, List.mem_map] at hresult
          obtain ⟨place, hplace, rfl⟩ := hresult
          obtain ⟨number, hnumber, rfl⟩ := List.mem_range'.mp hplace
          obtain ⟨own, type, hnode⟩ := getD_addValues context
            (.result ⟨store.operations.size⟩) 0 (resultTypes.map (·.item)) store hnumber
          dsimp only [Store.value]
          rw [context_getD_addUses, Nat.one_mul, hnode]
  | resolveTypes context lookup =>
      refine Or.inl ⟨rfl, fun _ => ⟨_, rfl⟩, fun value => ?_, fun value _ => ?_⟩
      · obtain ⟨type, hvalue⟩ := store.resolveTypes_value context lookup value
        rw [hvalue]
      · obtain ⟨type, hvalue⟩ := store.resolveTypes_value context lookup value
        rw [hvalue]

namespace KeepsOps

theorem size (h : KeepsOps store store') : store'.operations.size = store.operations.size := by
  simpa using congrArg Array.size h.contexts

theorem nextOpNumber (h : KeepsOps store store') (context : ContextId) :
    store'.nextOpNumber context = store.nextOpNumber context := by
  have hcount := congrArg (Array.countP (· == context)) h.contexts
  simpa [Store.nextOpNumber, Array.countP_map, Function.comp_def] using hcount

end KeepsOps

namespace AddsOp

variable {new : Operation}

theorem size (h : AddsOp store store' new) :
    store'.operations.size = store.operations.size + 1 := by
  rw [h.operations, Array.size_push]

theorem op_eq (h : AddsOp store store' new) (op : OpId) :
    store'.op op = if op.index = store.operations.size then new else store.op op := by
  rw [Store.op, h.operations, getD_push, Store.op]

theorem nextOpNumber (h : AddsOp store store' new) (context : ContextId) :
    store'.nextOpNumber context =
      store.nextOpNumber context + if new.context == context then 1 else 0 := by
  rw [Store.nextOpNumber, h.operations, Array.countP_push, Store.nextOpNumber]

end AddsOp

/-! ## Invariants -/

/-- The uses of a value are the operands that are equal to it, in order. -/
structure Counted (store : Store) : Prop where
  mem_uses_iff : ∀ value use, use ∈ (store.value value).uses ↔
    (store.op use.1).operands[use.2]? = some value
  sorted : ∀ value, (store.value value).uses.Pairwise Before

theorem index_lt_of_getElem?_operands {op : OpId} {index : Nat} {value : ValueId}
    (h : (store.op op).operands[index]? = some value) : op.index < store.operations.size := by
  by_contra hge
  rw [Store.op, getD_of_size_le (not_lt.mp hge)] at h
  cases h

theorem Step.counted (hstep : Step store store') (hcounted : store.Counted) : store'.Counted := by
  rcases hstep.keepsOps_or_addsOp with hkeeps | ⟨new, hadds⟩
  · refine ⟨fun value use => ?_, fun value => ?_⟩
    · obtain ⟨parent, hop⟩ := hkeeps.operation use.1
      rw [hkeeps.uses, hop]
      exact hcounted.mem_uses_iff value use
    · rw [hkeeps.uses]
      exact hcounted.sorted value
  · -- no old use is one of the new operation
    have hold : ∀ value, ∀ use ∈ (store.value value).uses,
        use.1.index < store.operations.size := fun value use hmem =>
      index_lt_of_getElem?_operands ((hcounted.mem_uses_iff value use).mp hmem)
    refine ⟨fun value use => ?_, fun value => ?_⟩
    · rw [hadds.uses, List.mem_append, mem_usesIn_iff, hadds.op_eq]
      by_cases hnew : use.1.index = store.operations.size
      · have huser : use.1 = ⟨store.operations.size⟩ := congrArg OpId.mk hnew
        have hunused : use ∉ (store.value value).uses := fun hmem => (hold value use hmem).ne hnew
        simp [hunused, huser]
      · have huser : use.1 ≠ ⟨store.operations.size⟩ := fun heq => hnew (congrArg OpId.index heq)
        simp [hnew, huser, hcounted.mem_uses_iff]
    · rw [hadds.uses, List.pairwise_append]
      refine ⟨hcounted.sorted value, pairwise_usesIn value, fun use hmem use' hmem' => Or.inl ?_⟩
      rw [(mem_usesIn_iff.mp hmem').1]
      exact hold value use hmem

theorem Reachable.counted (hstore : store.Reachable) : store.Counted := by
  induction hstore with
  | empty => constructor <;> simp [Store.empty, Store.value, Store.op, default]
  | step _ hstep ih => exact hstep.counted ih

/-- The numbers of the operations of a context grow with their places. -/
structure Numbered (store : Store) : Prop where
  lt_next : ∀ op : OpId, op.index < store.operations.size →
    (store.op op).number < store.nextOpNumber (store.op op).context
  increasing : ∀ op op' : OpId, op.index < op'.index → op'.index < store.operations.size →
    (store.op op).context = (store.op op').context → (store.op op).number < (store.op op').number

theorem Step.numbered (hstep : Step store store') (hnumbered : store.Numbered) :
    store'.Numbered := by
  rcases hstep.keepsOps_or_addsOp with hkeeps | ⟨new, hadds⟩
  · refine ⟨fun op hop => ?_, fun op op' hlt hop' => ?_⟩
    · obtain ⟨parent, heq⟩ := hkeeps.operation op
      rw [heq, hkeeps.nextOpNumber]
      exact hnumbered.lt_next op (hkeeps.size ▸ hop)
    · obtain ⟨parent, heq⟩ := hkeeps.operation op
      obtain ⟨parent', heq'⟩ := hkeeps.operation op'
      rw [heq, heq']
      exact hnumbered.increasing op op' hlt (hkeeps.size ▸ hop')
  · refine ⟨fun op hop => ?_, fun op op' hlt hop' => ?_⟩
    · rw [hadds.size] at hop
      rw [hadds.op_eq, hadds.nextOpNumber]
      split
      · rw [hadds.number]
        simp
      · have hnumber := hnumbered.lt_next op (by omega)
        omega
    · rw [hadds.size] at hop'
      rw [hadds.op_eq, hadds.op_eq, if_neg (by omega)]
      split
      · -- the new operation has the next number of its context
        intro hcontext
        rw [hadds.number, ← hcontext]
        exact hnumbered.lt_next op (by omega)
      · exact hnumbered.increasing op op' hlt (by omega)

theorem Reachable.numbered (hstore : store.Reachable) : store.Numbered := by
  induction hstore with
  | empty => constructor <;> simp [Store.empty]
  | step _ hstep ih => exact hstep.numbered ih

/-- An operation is of one context with its operands and results. -/
def Confined (store : Store) : Prop :=
  ∀ op, ∀ value ∈ (store.op op).operands ++ (store.op op).results,
    (store.value value).context = (store.op op).context

theorem Step.confined (hstep : Step store store') (hordered : store.Ordered)
    (howned : store.Owned) (hconfined : store.Confined) : store'.Confined := by
  -- a value that is not in the store yet may come with another context, but no operation has it
  have hplace : ∀ op, ∀ value ∈ (store.op op).operands ++ (store.op op).results,
      value.index < store.values.size := by
    intro op value hmem
    rcases List.mem_append.mp hmem with hoperand | hresult
    · exact hordered.operand_lt hoperand
    · obtain ⟨index, hindex⟩ := List.mem_iff_getElem?.mp hresult
      exact ((howned.results op index value).mp hindex).1
  rcases hstep.keepsOps_or_addsOp with hkeeps | ⟨new, hadds⟩
  · intro op value
    obtain ⟨parent, heq⟩ := hkeeps.operation op
    rw [heq]
    intro hmem
    exact (hkeeps.context value (hplace op value hmem)).trans (hconfined op value hmem)
  · intro op value
    rw [hadds.op_eq]
    split
    · exact hadds.confined value
    · intro hmem
      exact (hadds.context value (hplace op value hmem)).trans (hconfined op value hmem)

theorem Reachable.confined (hstore : store.Reachable) : store.Confined := by
  induction hstore with
  | empty => intro op value hmem; cases hmem
  | step hstore hstep ih => exact hstep.confined hstore.ordered hstore.owned ih

/-! ## The result -/

theorem Reachable.uses_sorted (hstore : store.Reachable) (value : ValueId) :
    (store.value value).uses.Pairwise fun use use' =>
      (store.op use.1).number < (store.op use'.1).number ∨ use.1 = use'.1 ∧ use.2 < use'.2 := by
  have hoperand : ∀ use ∈ (store.value value).uses,
      (store.op use.1).operands[use.2]? = some value := fun use hmem =>
    (hstore.counted.mem_uses_iff value use).mp hmem
  have hcontext : ∀ use ∈ (store.value value).uses,
      (store.op use.1).context = (store.value value).context := fun use hmem =>
    (hstore.confined use.1 value
      (List.mem_append_left _ (List.mem_of_getElem? (hoperand use hmem)))).symm
  -- all users are of the context of the value, where the order of places is that of numbers
  refine (hstore.counted.sorted value).imp_of_mem fun {use use'} hmem hmem' hbefore => ?_
  refine hbefore.imp_left fun hlt => hstore.numbered.increasing use.1 use'.1 hlt ?_ ?_
  · exact index_lt_of_getElem?_operands (hoperand use' hmem')
  · exact (hcontext use hmem).trans (hcontext use' hmem').symm

/-- An operand is made by an operation of the same context with a smaller number. -/
theorem Reachable.definer_number_lt (hstore : store.Reachable) {op definer : OpId}
    {operand : ValueId} (hoperand : operand ∈ (store.op op).operands)
    (hdefiner : store.definingOp? operand = some definer) :
    (store.op definer).context = (store.op op).context ∧
      (store.op definer).number < (store.op op).number := by
  obtain ⟨index, howner⟩ := definingOp?_eq_some_iff.mp hdefiner
  have hresult : operand ∈ (store.op definer).results := List.mem_of_getElem?
    ((hstore.owned.results definer index operand).mpr
      ⟨hstore.ordered.operand_lt hoperand, howner⟩)
  have hcontext : (store.op definer).context = (store.op op).context := calc
    (store.op definer).context = (store.value operand).context :=
      (hstore.confined definer operand (List.mem_append_right _ hresult)).symm
    _ = (store.op op).context := hstore.confined op operand (List.mem_append_left _ hoperand)
  obtain ⟨place, hplace⟩ := List.mem_iff_getElem?.mp hoperand
  exact ⟨hcontext, hstore.numbered.increasing definer op
    (hstore.ordered.precedes hoperand hdefiner) (index_lt_of_getElem?_operands hplace) hcontext⟩

end Store

/-- The links of a program agree at both ends, whichever constructions have made it and whether they
have succeeded or failed.  An operation names a block exactly if the block lists it once and no
other block does, and the same holds of blocks and regions and of regions and operations.  The uses
of a value are the operands that are equal to it, each of them once, in the order of the numbers of
operations and of the places of operands.  The lists of results and arguments are inverse to the
owners of values.  An operation is of one context with its operands and with the operations that
make them, and these have smaller numbers.  Building an operation, putting it into a block and
putting a block into a region change nothing if they fail. -/
theorem links_agree {store : Store} (hstore : store.Constructed) :
    (∀ op block, (store.op op).parent = some block ↔
      (store.block block).operations.count op = 1 ∧
        ∀ other, other ≠ block → op ∉ (store.block other).operations) ∧
    (∀ block region, (store.block block).parent = some region ↔
      (store.region region).blocks.count block = 1 ∧
        ∀ other, other ≠ region → block ∉ (store.region other).blocks) ∧
    (∀ region op, (store.region region).parent = some op ↔
      (store.op op).regions.count region = 1 ∧
        ∀ other, other ≠ op → region ∉ (store.op other).regions) ∧
    (∀ value op index, (op, index) ∈ (store.value value).uses ↔
      (store.op op).operands[index]? = some value) ∧
    (∀ value, (store.value value).uses.Pairwise fun use use' =>
      (store.op use.1).number < (store.op use'.1).number ∨ use.1 = use'.1 ∧ use.2 < use'.2) ∧
    (∀ op index value, (store.op op).results[index]? = some value ↔
      value.index < store.values.size ∧ (store.value value).owner = .result op index) ∧
    (∀ block index value, (store.block block).arguments[index]? = some value ↔
      value.index < store.values.size ∧ (store.value value).owner = .argument block index) ∧
    (∀ op, ∀ operand ∈ (store.op op).operands,
      (store.value operand).context = (store.op op).context ∧
        ∀ definer, store.definingOp? operand = some definer →
          (store.op definer).context = (store.op op).context ∧
            (store.op definer).number < (store.op op).number) ∧
    (∀ context kind traits operands resultTypes regions fault,
      let build := Build.buildOp context kind traits operands resultTypes regions
      (build store).1 = .error fault → (build store).2 = store) ∧
    (∀ block position op fault,
      let insert := Build.insertOp block position op
      (insert store).1 = .error fault → (insert store).2 = store) ∧
    ∀ region block fault,
      let append := Build.appendBlock region block
      (append store).1 = .error fault → (append store).2 = store := by
  have hreachable := hstore.reachable
  have hnested := hreachable.nested
  have howned := hreachable.owned
  refine ⟨hnested.operations.parent_eq_some_iff, hnested.blocks.parent_eq_some_iff,
    hnested.regions.parent_eq_some_iff, fun value op index => ?_, hreachable.uses_sorted,
    howned.results, howned.arguments, fun op operand hoperand => ⟨?_, fun definer => ?_⟩,
    fun context kind traits operands resultTypes regions => ?_, fun block position op => ?_,
    fun region block => ?_⟩
  · exact hreachable.counted.mem_uses_iff value (op, index)
  · exact hreachable.confined op operand (List.mem_append_left _ hoperand)
  · exact hreachable.definer_number_lt hoperand
  · exact Build.atomic_buildOp context kind traits operands resultTypes regions store
  · exact Build.atomic_insertOp block position op store
  · exact Build.atomic_appendBlock region block store

/-! A constant of one context and a constant of another one, then `%1 = sum %0, %0` and
`product %1, %0` in the first context, a sum that is refused for its operand of the other context,
and a function into whose block the first sum is put. -/

namespace SharedOperand

def constants : Store :=
  (Build.constant 1 5 .index (Build.constant 0 4 .index .empty).2).2

def used : Store :=
  let summed := (Build.buildOp 0 (.generic "sum") [] [⟨0⟩, ⟨0⟩] [⟨0, .index⟩] [] constants).2
  let multiplied := (Build.buildOp 0 (.generic "product") [] [⟨2⟩, ⟨0⟩] [⟨0, .index⟩] [] summed).2
  (Build.buildOp 0 (.generic "sum") [] [⟨1⟩] [⟨0, .index⟩] [] multiplied).2

def store : Store :=
  (Build.appendOp ⟨0⟩ ⟨2⟩ (Build.function 0 "f" [] used).2).2

theorem constructed : store.Constructed :=
  .construct (.appendOp (by decide) (by decide)) <|
    .construct (.function 0 "f" []) <|
      .construct (.generic (by decide) (by decide)) <|
        .construct (.generic (by decide) (by decide)) <|
          .construct (.generic (by decide) (by decide)) <|
            .construct (.constant 1 5 .index) <|
              .construct (.constant 0 4 .index) .empty

end SharedOperand

open SharedOperand in
theorem links_agree_sharedOperand :
    store.Constructed ∧
    (store.value ⟨0⟩).uses = [(⟨2⟩, 0), (⟨2⟩, 1), (⟨3⟩, 1)] ∧
    (∀ op index, (op, index) ∈ (store.value ⟨0⟩).uses ↔
      (store.op op).operands[index]? = some ⟨0⟩) ∧
    (store.op ⟨2⟩).parent = some ⟨0⟩ ∧ (store.block ⟨0⟩).operations.count ⟨2⟩ = 1 ∧
    (∀ other, other ≠ ⟨0⟩ → ⟨2⟩ ∉ (store.block other).operations) ∧
    (store.op ⟨2⟩).number < (store.op ⟨3⟩).number ∧
    (Build.appendOp ⟨0⟩ ⟨2⟩ store).1 = .error (.invalidOperation (.alreadyInBlock "sum")) ∧
    (Build.insertOp ⟨0⟩ 0 ⟨2⟩ store).2 = store := by
  have hlinks := links_agree constructed
  have hparent : (store.op ⟨2⟩).parent = some ⟨0⟩ := by decide
  obtain ⟨hcount, hothers⟩ := (hlinks.1 ⟨2⟩ ⟨0⟩).mp hparent
  obtain ⟨-, hnumber⟩ := (hlinks.2.2.2.2.2.2.2.1 ⟨3⟩ ⟨2⟩ (by decide)).2 ⟨2⟩ (by decide)
  have hinsert := hlinks.2.2.2.2.2.2.2.2.2.1 ⟨0⟩ 0 ⟨2⟩
    (.invalidOperation (.alreadyInBlock "sum")) (by decide)
  exact ⟨constructed, by decide, hlinks.2.2.2.1 ⟨0⟩, hparent, hcount, hothers, hnumber,
    by decide, hinsert⟩

end AffineLoops
