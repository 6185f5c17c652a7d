import AffineLoops.Proofs.IR.Construction
import Mathlib.Data.List.Nodup

/-!
# Links between nodes

Operations stand in blocks, blocks stand in regions, and regions belong to operations.  Both ends
of each of these links are kept, the list of members by the holder and the holder by every member,
and different changes write them.

* `Linked` says of lists of members and of holders of members that they agree, whatever the nodes
  are, and `Linked.parent_eq_some_iff` that a holder is then the only one that lists a member;
* `Linked.adopt` is the one way in which links come up: nodes without a holder join one;
* `Step.nested` applies it to the elementary changes, and `Reachable.nested` to all programs.
-/

namespace AffineLoops

/-! ## Members and holders -/

section Linked

variable {Member Holder : Type} {members members' : Holder → List Member}
  {parent parent' : Member → Option Holder}

/-- The members of every holder are listed once, and they are the nodes that name the holder. -/
structure Linked (members : Holder → List Member) (parent : Member → Option Holder) : Prop where
  nodup : ∀ holder, (members holder).Nodup
  mem_iff : ∀ member holder, member ∈ members holder ↔ parent member = some holder

/-- A node names the holder that lists it once, if no other one lists it. -/
theorem Linked.parent_eq_some_iff [DecidableEq Member] (h : Linked members parent)
    (member : Member) (holder : Holder) :
    parent member = some holder ↔
      (members holder).count member = 1 ∧ ∀ other, other ≠ holder → member ∉ members other := by
  rw [← h.mem_iff]
  refine ⟨fun hmem => ⟨List.count_eq_one_of_mem (h.nodup holder) hmem, fun other hne hother => ?_⟩,
    fun hlisted => List.count_pos_iff.mp (by omega)⟩
  have hnamed : some other = some holder :=
    ((h.mem_iff member other).mp hother).symm.trans ((h.mem_iff member holder).mp hmem)
  exact hne (Option.some.inj hnamed)

theorem Linked.congr (h : Linked members parent)
    (hmembers : ∀ holder, members' holder = members holder)
    (hparent : ∀ member, parent' member = parent member) : Linked members' parent' := by
  obtain rfl : members' = members := funext hmembers
  obtain rfl : parent' = parent := funext hparent
  exact h

/-- Different nodes without a holder may join one, at any places of its list. -/
theorem Linked.adopt (h : Linked members parent) (holder : Holder) (joining : List Member)
    (hnodup : joining.Nodup) (hfree : ∀ member ∈ joining, parent member = none)
    (hholder : (members' holder).Perm (joining ++ members holder))
    (hothers : ∀ other, other ≠ holder → members' other = members other)
    (hjoined : ∀ member ∈ joining, parent' member = some holder)
    (hstayed : ∀ member, member ∉ joining → parent' member = parent member) :
    Linked members' parent' := by
  -- nobody lists the joining nodes yet, or they would have a holder
  have hnew : ∀ member ∈ joining, ∀ other, member ∉ members other := by
    intro member hmem other hlisted
    cases (hfree member hmem).symm.trans ((h.mem_iff member other).mp hlisted)
  refine ⟨fun other => ?_, fun member other => ?_⟩
  · by_cases heq : other = holder
    · subst heq
      rw [hholder.nodup_iff, List.nodup_append]
      refine ⟨hnodup, h.nodup other, fun member hmem old hold heq => ?_⟩
      exact hnew member hmem other (heq ▸ hold)
    · rw [hothers other heq]
      exact h.nodup other
  · by_cases hmem : member ∈ joining
    · rw [hjoined member hmem]
      by_cases heq : other = holder
      · subst heq
        simp [hholder.mem_iff, hmem]
      · simp [hothers other heq, hnew member hmem other, Ne.symm heq]
    · rw [hstayed member hmem, ← h.mem_iff]
      by_cases heq : other = holder
      · subst heq
        simp [hholder.mem_iff, hmem]
      · rw [hothers other heq]

theorem Linked.join (h : Linked members parent) (holder : Holder) (member : Member)
    (hfree : parent member = none) (hholder : (members' holder).Perm (member :: members holder))
    (hothers : ∀ other, other ≠ holder → members' other = members other)
    (hjoined : parent' member = some holder)
    (hstayed : ∀ other, other ≠ member → parent' other = parent other) :
    Linked members' parent' := by
  refine h.adopt holder [member] (List.nodup_singleton member) ?_ hholder hothers ?_ ?_
  · simpa using hfree
  · simpa using hjoined
  · simpa using hstayed

end Linked

namespace Store

variable {store store' : Store}

/-! ## What changes of the store leave alone -/

/-- A new node that reads like a missing one changes nothing. -/
theorem read_push {α β : Type} (read : α → β) {node fallback : α}
    (h : read node = read fallback) (nodes : Array α) (index : Nat) :
    read ((nodes.push node).getD index fallback) = read (nodes.getD index fallback) := by
  rw [getD_push]
  split
  · rename_i hindex
    rw [getD_of_size_le hindex.ge, h]
  · rfl

/-- A change of other parts of a node changes nothing. -/
theorem read_modify {α β : Type} (read : α → β) {change : α → α}
    (h : ∀ node, read (change node) = read node) (nodes : Array α) (fallback : α)
    (place index : Nat) :
    read ((nodes.modify place change).getD index fallback) = read (nodes.getD index fallback) := by
  rw [getD_modify]
  split
  · exact h _
  · rfl

theorem getD_modify_of_ne {α : Type} {nodes : Array α} {change : α → α} {fallback : α}
    {place index : Nat} (h : place ≠ index) :
    (nodes.modify place change).getD index fallback = nodes.getD index fallback := by
  rw [getD_modify, if_neg fun hplace => h hplace.1]

/-! ## Regions that an operation takes over -/

theorem parent_getD_ownRegions (op : OpId) {regions : List RegionId} {nodes : Array Region}
    (hregions : ∀ region ∈ regions, region.index < nodes.size) (region : RegionId) :
    ((ownRegions op regions nodes).getD region.index default).parent =
      if region ∈ regions then some op else (nodes.getD region.index default).parent := by
  induction regions generalizing nodes with
  | nil => simp [ownRegions]
  | cons first rest ih =>
      have hfirst : first.index < nodes.size := hregions first (by simp)
      have hrest : ∀ region ∈ rest, region.index <
          (nodes.modify first.index ({ · with parent := some op })).size := by
        simpa using fun region hmem => hregions region (by simp [hmem])
      have hstep := ih hrest
      rw [getD_modify] at hstep
      refine hstep.trans ?_
      by_cases hmem : region ∈ rest
      · simp [hmem]
      · by_cases heq : region = first
        · simp [heq, hfirst]
        · have hindex : first.index ≠ region.index :=
            fun hindex => heq (congrArg RegionId.mk hindex.symm)
          simp [hmem, heq, hindex]

theorem of_takenRegion?_eq_none {seen regions : List RegionId}
    (h : store.takenRegion? seen regions = none) :
    regions.Nodup ∧ ∀ region ∈ regions, (store.region region).parent = none ∧ region ∉ seen := by
  induction regions generalizing seen with
  | nil => simp
  | cons first rest ih =>
      unfold takenRegion? at h
      split at h
      · cases h
      · rename_i hfirst
        obtain ⟨hfree, hunseen⟩ : (store.region first).parent = none ∧ first ∉ seen := by
          simpa using hfirst
        obtain ⟨hnodup, hrest⟩ := ih h
        refine ⟨List.nodup_cons.mpr ⟨fun hmem => ?_, hnodup⟩, ?_⟩
        · exact (hrest first hmem).2 (by simp)
        · intro region hmem
          rcases List.mem_cons.mp hmem with rfl | hmem
          · exact ⟨hfree, hunseen⟩
          · obtain ⟨hfree, hunseen⟩ := hrest region hmem
            exact ⟨hfree, fun hseen => hunseen (List.mem_cons_of_mem _ hseen)⟩

/-! ## Nested nodes -/

/-- The links between operations and blocks, blocks and regions, regions and operations agree at
their ends. -/
structure Nested (store : Store) : Prop where
  operations : Linked (fun block => (store.block block).operations) fun op => (store.op op).parent
  blocks : Linked (fun region => (store.region region).blocks) fun block =>
    (store.block block).parent
  regions : Linked (fun op => (store.op op).regions) fun region => (store.region region).parent

theorem nested_empty : Store.empty.Nested := by
  refine ⟨⟨?_, ?_⟩, ⟨?_, ?_⟩, ⟨?_, ?_⟩⟩ <;>
    intros <;> simp [Store.empty, Store.op, Store.block, Store.region, default]

theorem Step.nested (hstep : Step store store') (hnested : store.Nested) : store'.Nested := by
  obtain ⟨hoperations, hblocks, hregions⟩ := hnested
  cases hstep with
  | addRegion context =>
      exact ⟨hoperations,
        hblocks.congr (fun _ => read_push Region.blocks (by rfl) _ _) fun _ => rfl,
        hregions.congr (fun _ => rfl) fun _ => read_push Region.parent (by rfl) _ _⟩
  | addBlock context types =>
      rw [addBlock_eq]
      exact ⟨hoperations.congr (fun _ => read_push Block.operations (by rfl) _ _) fun _ => rfl,
        hblocks.congr (fun _ => rfl) fun _ => read_push Block.parent (by rfl) _ _, hregions⟩
  | @appendBlock region block store' hregion hblock h =>
      obtain ⟨hfree, rfl⟩ := Build.appendBlock_eq_ok h
      refine ⟨?_, ?_, ?_⟩
      · exact hoperations.congr (fun _ => read_modify Block.operations (fun _ => by rfl) ..)
          fun _ => rfl
      · refine hblocks.join region block hfree ?_ ?_ ?_ ?_
        · dsimp only [Store.region]
          rw [getD_modify, if_pos ⟨rfl, hregion⟩]
          exact List.perm_append_singleton block _
        · intro other hne
          have hplace : region.index ≠ other.index := fun heq => hne (congrArg RegionId.mk heq.symm)
          exact congrArg Region.blocks (getD_modify_of_ne hplace)
        · dsimp only [Store.block]
          rw [getD_modify, if_pos ⟨rfl, hblock⟩]
        · intro other hne
          have hplace : block.index ≠ other.index := fun heq => hne (congrArg BlockId.mk heq.symm)
          exact congrArg Block.parent (getD_modify_of_ne hplace)
      · exact hregions.congr (fun _ => rfl) fun _ =>
          read_modify Region.parent (fun _ => by rfl) ..
  | @insertOp block position op store' hblock hop h =>
      obtain ⟨hfree, rfl⟩ := Build.insertOp_eq_ok h
      refine ⟨?_, ?_, ?_⟩
      · refine hoperations.join block op hfree ?_ ?_ ?_ ?_
        · dsimp only [Store.block]
          rw [getD_modify, if_pos ⟨rfl, hblock⟩]
          refine List.perm_middle.trans ?_
          rw [List.take_append_drop]
        · intro other hne
          have hplace : block.index ≠ other.index := fun heq => hne (congrArg BlockId.mk heq.symm)
          exact congrArg Block.operations (getD_modify_of_ne hplace)
        · dsimp only [Store.op]
          rw [getD_modify, if_pos ⟨rfl, hop⟩]
        · intro other hne
          have hplace : op.index ≠ other.index := fun heq => hne (congrArg OpId.mk heq.symm)
          exact congrArg Operation.parent (getD_modify_of_ne hplace)
      · exact hblocks.congr (fun _ => rfl) fun _ =>
          read_modify Block.parent (fun _ => by rfl) ..
      · exact hregions.congr (fun _ => read_modify Operation.regions (fun _ => by rfl) ..)
          fun _ => rfl
  | @buildOp context kind traits operands resultTypes regions op store' _ hplaces _ h =>
      obtain ⟨rfl, htaken, rfl⟩ := Build.buildOp_eq_ok h
      obtain ⟨hnodup, hfree⟩ := of_takenRegion?_eq_none htaken
      refine ⟨?_, ?_, ?_⟩
      · exact hoperations.congr (fun _ => rfl) fun _ => read_push Operation.parent (by rfl) _ _
      · exact hblocks.congr (fun _ => blocks_getD_ownRegions ..) fun _ => rfl
      · -- the place of the new operation has been empty, so the regions join an empty list
        refine hregions.adopt ⟨store.operations.size⟩ regions hnodup
          (fun region hmem => (hfree region hmem).1) ?_ ?_ ?_ ?_
        · dsimp only [Store.op]
          rw [getD_push, if_pos rfl, getD_of_size_le le_rfl]
          exact (List.append_nil regions).symm ▸ List.Perm.refl regions
        · intro other hne
          dsimp only [Store.op]
          rw [getD_push, if_neg fun heq => hne (congrArg OpId.mk heq)]
        · intro region hmem
          exact (parent_getD_ownRegions _ hplaces region).trans (if_pos hmem)
        · intro region hnew
          exact (parent_getD_ownRegions _ hplaces region).trans (if_neg hnew)
  | resolveTypes context lookup => exact ⟨hoperations, hblocks, hregions⟩

theorem Reachable.nested (hstore : store.Reachable) : store.Nested := by
  induction hstore with
  | empty => exact nested_empty
  | step _ hstep ih => exact hstep.nested ih

end Store

end AffineLoops
