import AffineLoops.Proofs.IR.Links
import AffineLoops.Proofs.IR.Precedence

/-!
# Owners of values

A value is the result of an operation or an argument of a block, and knows which one of them it is.
The operation or block in turn lists its values in order.  Values are only made together with their
owner, by `addValues`, and never change hands.

* `ids_addValues` and `getD_addValues` describe the new values: they stand at the end of the store,
  in the order of their owner, and nothing uses them;
* `Owns` says that the lists of some kind of owner and the records of values are inverse, and
  `Owns.addValues` that this stays so when an owner comes with its values;
* `Reachable.owned` puts this together for results and arguments.
-/

namespace AffineLoops.Store

variable {store store' : Store}

/-! ## New values -/

section NewValues

variable (context : ContextId) (owner : Nat → ValueOwner) (index : Nat) (types : List Ty)
  (store : Store)

theorem ids_addValues :
    (addValues context owner index types store).1 =
      (List.range' store.values.size types.length).map ValueId.mk := by
  induction types generalizing index store with
  | nil => rfl
  | cons type types ih =>
      rw [addValues, List.length_cons, List.range'_succ, List.map_cons]
      dsimp only
      rw [ih]
      simp [addValue]

theorem getD_addValues_of_lt {place : Nat} (h : place < store.values.size) :
    (addValues context owner index types store).2.values.getD place default =
      store.values.getD place default := by
  induction types generalizing index store with
  | nil => rfl
  | cons type types ih =>
      rw [addValues]
      dsimp only
      rw [ih _ _ (by simp [addValue]; omega), addValue]
      dsimp only
      rw [getD_push, if_neg h.ne]

/-- A new value has the place of its number among the values of the owner. -/
theorem getD_addValues {number : Nat} (h : number < types.length) :
    ∃ own type, (addValues context owner index types store).2.values.getD
      (store.values.size + number) default = ⟨context, own, type, owner (index + number), []⟩ := by
  induction types generalizing index store number with
  | nil => cases h
  | cons type types ih =>
      rw [addValues]
      dsimp only
      cases number with
      | zero =>
          refine ⟨store.nextValueNumber context, type, ?_⟩
          rw [getD_addValues_of_lt _ _ _ _ _ (by simp [addValue]), addValue]
          dsimp only
          rw [getD_push, if_pos (Nat.add_zero _)]
          rfl
      | succ number =>
          obtain ⟨own, type', hnode⟩ := ih (index + 1)
            (store.addValue context type (owner index)).2 (Nat.lt_of_succ_lt_succ h)
          refine ⟨own, type', ?_⟩
          have hsize : (store.addValue context type (owner index)).2.values.size =
              store.values.size + 1 := by simp [addValue]
          rw [hsize] at hnode
          rw [show store.values.size + (number + 1) = store.values.size + 1 + number by omega,
            hnode, show index + (number + 1) = index + 1 + number by omega]

/-- Nothing uses a new value. -/
theorem uses_getD_addValues (place : Nat) :
    ((addValues context owner index types store).2.values.getD place default).uses =
      (store.values.getD place default).uses := by
  rcases Nat.lt_or_ge place store.values.size with hold | hnew
  · rw [getD_addValues_of_lt _ _ _ _ _ hold]
  · obtain ⟨number, rfl⟩ := Nat.exists_eq_add_of_le hnew
    rw [getD_of_size_le hnew]
    rcases Nat.lt_or_ge number types.length with hlt | hge
    · obtain ⟨own, type, hnode⟩ := getD_addValues context owner index types store hlt
      rw [hnode]
      rfl
    · rw [getD_of_size_le (by rw [size_values_addValues]; omega)]

end NewValues

/-! ## Lists of values and owners -/

section Owns

variable {Holder : Type} {values values' : Array Value} {listed listed' : Holder → List ValueId}
  {owner : Holder → Nat → ValueOwner}

/-- The values that a holder lists are the values that name it as their owner, each at the place
that it names. -/
def Owns (values : Array Value) (listed : Holder → List ValueId)
    (owner : Holder → Nat → ValueOwner) : Prop :=
  ∀ holder index value, (listed holder)[index]? = some value ↔
    value.index < values.size ∧ (values.getD value.index default).owner = owner holder index

theorem Owns.congr (h : Owns values listed owner) (hsize : values'.size = values.size)
    (howner : ∀ place, (values'.getD place default).owner = (values.getD place default).owner)
    (hlisted : ∀ holder, listed' holder = listed holder) : Owns values' listed' owner := by
  intro holder index value
  rw [hlisted, hsize, howner]
  exact h holder index value

/-- Values of a new owner join the store.  Holders of another kind list the same values as before,
and the owner lists its values in addition. -/
theorem Owns.addValues (h : Owns store.values listed owner) {context : ContextId}
    {made : Nat → ValueOwner} {types : List Ty}
    (hlisted : ∀ holder index value, (listed' holder)[index]? = some value ↔
      (listed holder)[index]? = some value ∨
        ∃ number < types.length, value.index = store.values.size + number ∧
          made number = owner holder index) :
    Owns (addValues context made 0 types store).2.values listed' owner := by
  intro holder index value
  rw [hlisted, h, size_values_addValues]
  rcases Nat.lt_or_ge value.index store.values.size with hold | hnew
  · rw [getD_addValues_of_lt _ _ _ _ _ hold]
    constructor
    · rintro (⟨-, howner⟩ | ⟨number, -, hplace, -⟩)
      · exact ⟨by omega, howner⟩
      · omega
    · rintro ⟨-, howner⟩
      exact Or.inl ⟨hold, howner⟩
  · -- the old lists name no new value
    obtain ⟨number, hplace⟩ := Nat.exists_eq_add_of_le hnew
    constructor
    · rintro (⟨hold, -⟩ | ⟨number', hlt, hplace', howner⟩)
      · omega
      · obtain rfl : number' = number := by omega
        obtain ⟨own, type, hnode⟩ := getD_addValues context made 0 types store hlt
        refine ⟨by omega, ?_⟩
        rw [hplace, hnode, Nat.zero_add]
        exact howner
    · rintro ⟨hlt, howner⟩
      have hnumber : number < types.length := by omega
      obtain ⟨own, type, hnode⟩ := getD_addValues context made 0 types store hnumber
      rw [hplace, hnode, Nat.zero_add] at howner
      exact Or.inr ⟨number, hnumber, hplace, howner⟩

end Owns

/-- What a new node lists, besides what the old nodes list. -/
theorem getElem?_getD_push {Node : Type} (read : Node → List ValueId) {node fallback : Node}
    {start count : Nat} (hfallback : read fallback = [])
    (hnode : read node = (List.range' start count).map ValueId.mk) (nodes : Array Node)
    (place index : Nat) (value : ValueId) :
    (read ((nodes.push node).getD place fallback))[index]? = some value ↔
      (read (nodes.getD place fallback))[index]? = some value ∨
        ∃ number < count, value.index = start + number ∧ place = nodes.size ∧ number = index := by
  rw [getD_push]
  split
  · rename_i hplace
    rw [getD_of_size_le hplace.ge, hfallback, hnode, List.getElem?_map]
    rcases Nat.lt_or_ge index count with hlt | hge
    · rw [List.getElem?_range' hlt]
      constructor
      · intro hvalue
        obtain rfl := Option.some.inj hvalue
        exact Or.inr ⟨index, hlt, by simp, hplace, rfl⟩
      · rintro (hnone | ⟨number, -, hvalue, -, rfl⟩)
        · cases hnone
        · simp [← hvalue]
    · rw [List.getElem?_eq_none (by simpa using hge)]
      constructor
      · intro hnone
        cases hnone
      · rintro (hnone | ⟨number, hlt, -, -, rfl⟩)
        · cases hnone
        · omega
  · rename_i hplace
    simp [hplace]

/-! ## Results and arguments -/

/-- The lists of results and arguments are inverse to the owners of values. -/
structure Owned (store : Store) : Prop where
  results : Owns store.values (fun op => (store.op op).results) .result
  arguments : Owns store.values (fun block => (store.block block).arguments) .argument

theorem owned_empty : Store.empty.Owned := by
  constructor <;> intro holder index value <;>
    simp [Store.empty, Store.op, Store.block, default]

theorem Step.owned (hstep : Step store store') (howned : store.Owned) : store'.Owned := by
  obtain ⟨hresults, harguments⟩ := howned
  cases hstep with
  | addRegion context => exact ⟨hresults, harguments⟩
  | addBlock context types =>
      rw [addBlock_eq]
      refine ⟨hresults.addValues fun op index value => by simp [Store.op], ?_⟩
      refine harguments.addValues fun block index value => ?_
      dsimp only [Store.block]
      rw [getElem?_getD_push Block.arguments rfl (ids_addValues ..)]
      obtain ⟨place⟩ := block
      simp only [ValueOwner.argument.injEq, BlockId.mk.injEq, @eq_comm _ place]
  | appendBlock hregion hblock h =>
      obtain ⟨-, rfl⟩ := Build.appendBlock_eq_ok h
      exact ⟨hresults, harguments.congr rfl (fun _ => rfl) fun _ =>
        read_modify Block.arguments (fun _ => by rfl) ..⟩
  | insertOp hblock hop h =>
      obtain ⟨-, rfl⟩ := Build.insertOp_eq_ok h
      exact ⟨hresults.congr rfl (fun _ => rfl) fun _ =>
          read_modify Operation.results (fun _ => by rfl) ..,
        harguments.congr rfl (fun _ => rfl) fun _ =>
          read_modify Block.arguments (fun _ => by rfl) ..⟩
  | @buildOp context kind traits operands resultTypes regions op store' _ _ _ h =>
      obtain ⟨rfl, -, rfl⟩ := Build.buildOp_eq_ok h
      let made :=
        addValues context (.result ⟨store.operations.size⟩) 0 (resultTypes.map (·.item)) store
      -- the uses that are noted afterwards are no matter of owners
      have hsize : (addUses ⟨store.operations.size⟩ 0 operands made.2.values).size =
          made.2.values.size := size_addUses ..
      have howner := owner_getD_addUses ⟨store.operations.size⟩ 0 operands made.2.values
      refine ⟨Owns.congr ?_ hsize howner fun _ => rfl, Owns.congr ?_ hsize howner fun _ => rfl⟩
      · refine hresults.addValues fun op index value => ?_
        dsimp only [Store.op]
        rw [getElem?_getD_push Operation.results rfl (ids_addValues ..)]
        obtain ⟨place⟩ := op
        simp only [ValueOwner.result.injEq, OpId.mk.injEq, @eq_comm _ place]
      · exact harguments.addValues fun block index value => by simp [Store.block]
  | resolveTypes context lookup =>
      have hsize : (store.resolveTypes context lookup).values.size = store.values.size := by
        simp [Store.resolveTypes]
      have howner := fun place => owner_resolveTypes store context lookup ⟨place⟩
      exact ⟨hresults.congr hsize howner fun _ => rfl, harguments.congr hsize howner fun _ => rfl⟩

theorem Reachable.owned (hstore : store.Reachable) : store.Owned := by
  induction hstore with
  | empty => exact owned_empty
  | step _ hstep ih => exact hstep.owned ih

end AffineLoops.Store
