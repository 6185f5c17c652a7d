import AffineLoops.Proofs.IR.Uses
import AffineLoops.Proofs.Identifier.ScopeChain

/-!
# Operations inside of each other

Nesting can be read in two directions.  From the outside in, an operation has regions, these have
blocks, and these list operations: one operation *holds* another one, and *contains* all that is
held at any depth.  From the inside out, an operation names its block, the block its region and the
region its owner, which is the way in which ancestors are looked for.

* `Nested.holds_iff`: the two directions agree on every level;
* `isAncestor_iff` and `isProperAncestor_iff`: ancestors are the operations that contain one;
* `eq_of_below_both`: what two operations of one owner contain is disjoint;
* `Reachable.isBefore_iff`: the position of an operation in its block is found by its number, and
  this finds no other operation, since all operations of a block belong to one context.
-/

namespace AffineLoops

/-- The members of different holders are different. -/
theorem Linked.nodup_flatMap {Member Holder : Type} {members : Holder → List Member}
    {parent : Member → Option Holder} (h : Linked members parent) {holders : List Holder}
    (hholders : holders.Nodup) : (holders.flatMap members).Nodup := by
  refine List.nodup_flatMap.mpr ⟨fun holder _ => h.nodup holder, hholders.imp ?_⟩
  intro holder holder' hne member hmem hmem'
  have hparent : some holder = some holder' :=
    ((h.mem_iff member holder).mp hmem).symm.trans ((h.mem_iff member holder').mp hmem')
  exact hne (Option.some.inj hparent)

/-- A search for one element of a list finds the place of that element. -/
theorem findIdx?_eq_idxOf {α : Type} [DecidableEq α] {found : α → Bool} {a : α} {as : List α}
    (h : ∀ b ∈ as, found b = (b == a)) (ha : a ∈ as) : as.findIdx? found = some (as.idxOf a) := by
  induction as with
  | nil => cases ha
  | cons b rest ih =>
      rw [List.findIdx?_cons, h b List.mem_cons_self]
      by_cases hb : b = a
      · simp [hb]
      · have hrest : a ∈ rest := (List.mem_cons.mp ha).resolve_left (Ne.symm hb)
        have htail := ih (fun c hc => h c (List.mem_cons_of_mem b hc)) hrest
        simp [hb, htail]

namespace Store

variable {store store' : Store} {outer inner op : OpId}

/-! ## From the outside in -/

variable (store) in
/-- One operation stands in a block of a region of another one. -/
def Holds (outer inner : OpId) : Prop :=
  ∃ region ∈ (store.op outer).regions, ∃ block ∈ (store.region region).blocks,
    inner ∈ (store.block block).operations

variable (store) in
/-- One operation is nested in the regions of another one, at any depth. -/
def Contains (outer inner : OpId) : Prop := Relation.TransGen store.Holds outer inner

theorem mem_children_iff : inner ∈ store.children outer ↔ store.Holds outer inner := by
  simp [children, Holds]

theorem Nested.nodup_children (hnested : store.Nested) (op : OpId) :
    (store.children op).Nodup := by
  rw [children, ← List.flatMap_assoc]
  exact hnested.operations.nodup_flatMap (hnested.blocks.nodup_flatMap (hnested.regions.nodup op))

/-! ## From the inside out -/

variable (store) in
/-- One operation names another one as the one around it. -/
abbrev HeldBy (inner outer : OpId) : Prop := store.opParent? inner = some outer

theorem opParent?_eq_some_iff :
    store.opParent? inner = some outer ↔
      ∃ block region, (store.op inner).parent = some block ∧
        (store.block block).parent = some region ∧ (store.region region).parent = some outer := by
  unfold opParent? opRegion?
  cases (store.op inner).parent with
  | none => simp
  | some block => cases hregion : (store.block block).parent <;> simp [hregion]

/-- Holding an operation is the same as being named as the one around it. -/
theorem Nested.holds_iff (hnested : store.Nested) :
    store.Holds outer inner ↔ store.HeldBy inner outer := by
  simp only [Holds, HeldBy, opParent?_eq_some_iff, hnested.regions.mem_iff, hnested.blocks.mem_iff,
    hnested.operations.mem_iff]
  constructor
  · rintro ⟨region, hregion, block, hblock, hparent⟩
    exact ⟨block, region, hparent, hblock, hregion⟩
  · rintro ⟨block, region, hparent, hblock, hregion⟩
    exact ⟨region, hregion, block, hblock, hparent⟩

theorem Nested.holds_eq_swap (hnested : store.Nested) :
    store.Holds = Function.swap store.HeldBy := by
  funext outer inner
  exact propext hnested.holds_iff

/-- The way down to an operation is the way up from it. -/
theorem Nested.reflTransGen_holds_iff (hnested : store.Nested) :
    Relation.ReflTransGen store.Holds outer inner ↔
      Relation.ReflTransGen store.HeldBy inner outer := by
  rw [hnested.holds_eq_swap, Relation.reflTransGen_swap]

theorem Nested.contains_iff (hnested : store.Nested) :
    store.Contains outer inner ↔ Relation.TransGen store.HeldBy inner outer := by
  rw [Contains, hnested.holds_eq_swap, Relation.transGen_swap]

theorem Nested.not_contains_self (hnested : store.Nested) (hnesting : store.NoSelfNesting)
    (op : OpId) : ¬ store.Contains op op := fun hcycle =>
  hnesting op (hnested.contains_iff.mp hcycle)

/-! ## Ancestors -/

theorem mem_ancestors_iff (hnesting : store.NoSelfNesting) :
    outer ∈ store.ancestors inner ↔ Relation.ReflTransGen store.HeldBy inner outer := by
  refine ⟨reflTransGen_of_mem_chain, fun hpath => ?_⟩
  have hinjective : Function.Injective OpId.index := fun _ _ h => congrArg OpId.mk h
  obtain ⟨rank, hrank, hle⟩ := exists_rank hinjective index_lt_of_opParent? hnesting
  exact mem_chain_of_reflTransGen hrank (Nat.lt_succ_of_le (hle inner)) hpath

theorem isAncestor_iff (hnested : store.Nested) (hnesting : store.NoSelfNesting) :
    store.isAncestor outer inner ↔ Relation.ReflTransGen store.Holds outer inner := by
  rw [isAncestor, List.contains_iff_mem, mem_ancestors_iff hnesting, hnested.reflTransGen_holds_iff]

theorem isProperAncestor_iff (hnested : store.Nested) (hnesting : store.NoSelfNesting) :
    store.isProperAncestor outer inner ↔ store.Contains outer inner := by
  rw [hnested.contains_iff, Relation.TransGen.head'_iff, isProperAncestor]
  cases hparent : store.opParent? inner with
  | none => simp [HeldBy, hparent]
  | some parent => simp [HeldBy, hparent, isAncestor, mem_ancestors_iff hnesting]

/-! ## Operations side by side -/

/-- An operation is not inside of another one with the same owner. -/
theorem eq_of_opParent?_eq (hnesting : store.NoSelfNesting) {op op' : OpId}
    (howner : store.opParent? op = store.opParent? op')
    (hpath : Relation.ReflTransGen store.HeldBy op op') : op = op' := by
  rcases Relation.ReflTransGen.cases_head hpath with heq | ⟨owner, hparent, hrest⟩
  · exact heq
  · -- otherwise the way from the owner leads to the second operation and to the owner again
    exact absurd (.head' (howner.symm.trans hparent) hrest) (hnesting op')

/-- An operation has at most one ancestor with a given owner. -/
theorem ancestor_unique (hnesting : store.NoSelfNesting) {op op' : OpId}
    (howner : store.opParent? op = store.opParent? op')
    (hpath : Relation.ReflTransGen store.HeldBy inner op)
    (hpath' : Relation.ReflTransGen store.HeldBy inner op') : op = op' := by
  have hunique : Relator.RightUnique store.HeldBy :=
    fun _ _ _ h h' => Option.some.inj (h.symm.trans h')
  rcases Relation.ReflTransGen.total_of_right_unique hunique hpath hpath' with h | h
  · exact eq_of_opParent?_eq hnesting howner h
  · exact (eq_of_opParent?_eq hnesting howner.symm h).symm

/-- What two operations of one owner contain is disjoint. -/
theorem Nested.eq_of_below_both (hnested : store.Nested) (hnesting : store.NoSelfNesting)
    {owner op op' : OpId} (hop : store.Holds owner op) (hop' : store.Holds owner op')
    (hbelow : Relation.ReflTransGen store.Holds op inner)
    (hbelow' : Relation.ReflTransGen store.Holds op' inner) : op = op' :=
  ancestor_unique hnesting
    ((hnested.holds_iff.mp hop).trans (hnested.holds_iff.mp hop').symm)
    (hnested.reflTransGen_holds_iff.mp hbelow) (hnested.reflTransGen_holds_iff.mp hbelow')

/-! ## Places in a block -/

theorem context_of_insertOp {block : BlockId} {position : Nat}
    (h : Build.insertOp block position op store = (.ok (), store')) :
    (store.op op).context = (store.block block).context := by
  rw [Build.insertOp_run] at h
  split at h
  · cases h
  · rename_i hcontext
    simpa using hcontext

/-- The operations of a block are of its context. -/
def Housed (store : Store) : Prop :=
  ∀ op block, (store.op op).parent = some block →
    (store.op op).context = (store.block block).context

theorem index_lt_of_parent {block : BlockId} (hnested : store.Nested)
    (hparent : (store.op op).parent = some block) : block.index < store.blocks.size := by
  by_contra hge
  have hlisted := (hnested.operations.mem_iff op block).mpr hparent
  rw [Store.block, getD_of_size_le (not_lt.mp hge)] at hlisted
  cases hlisted

theorem Step.housed (hstep : Step store store') (hnested : store.Nested) (hhoused : store.Housed) :
    store'.Housed := by
  intro op block hparent
  cases hstep with
  | addRegion context => exact hhoused op block hparent
  | addBlock context types =>
      rw [addBlock_eq] at hparent ⊢
      -- the new block has no operations yet
      have hold := index_lt_of_parent hnested hparent
      dsimp only [Store.block]
      rw [getD_push, if_neg hold.ne]
      exact hhoused op block hparent
  | appendBlock hregion hblock h =>
      obtain ⟨-, rfl⟩ := Build.appendBlock_eq_ok h
      refine (hhoused op block hparent).trans ?_
      exact (read_modify Block.context (fun _ => by rfl) ..).symm
  | @insertOp target position moved store' hblock hop h =>
      have hcontext := context_of_insertOp h
      obtain ⟨-, rfl⟩ := Build.insertOp_eq_ok h
      let insert (node : Block) : Block := { node with
        operations := node.operations.take position ++ moved :: node.operations.drop position }
      have hsame : ((store.blocks.modify target.index insert).getD block.index default).context =
          (store.block block).context := read_modify Block.context (fun _ => by rfl) ..
      refine Eq.trans ?_ hsame.symm
      dsimp only [Store.op] at hparent ⊢
      rw [getD_modify] at hparent ⊢
      split at hparent
      · rename_i hmoved
        rw [if_pos hmoved]
        obtain rfl := Option.some.inj hparent
        obtain rfl : moved = op := congrArg OpId.mk hmoved.1
        exact hcontext
      · rename_i hmoved
        rw [if_neg hmoved]
        exact hhoused op block hparent
  | buildOp hoperands hregions hfits h =>
      obtain ⟨rfl, -, rfl⟩ := Build.buildOp_eq_ok h
      dsimp only [Store.op] at hparent ⊢
      rw [getD_push] at hparent ⊢
      split at hparent
      · cases hparent
      · rename_i hold
        rw [if_neg hold]
        exact hhoused op block hparent
  | resolveTypes context lookup => exact hhoused op block hparent

theorem Reachable.housed (hstore : store.Reachable) : store.Housed := by
  induction hstore with
  | empty => intro op block hparent; cases hparent
  | step hstore hstep ih => exact hstep.housed hstore.nested ih

theorem index_lt_of_mem_operations {block : BlockId} (hnested : store.Nested)
    (h : op ∈ (store.block block).operations) : op.index < store.operations.size := by
  by_contra hge
  have hparent := (hnested.operations.mem_iff op block).mp h
  rw [Store.op, getD_of_size_le (not_lt.mp hge)] at hparent
  cases hparent

/-- An operation of a block is known by its number. -/
theorem Reachable.eq_of_number_eq (hstore : store.Reachable) {block : BlockId} {op op' : OpId}
    (hop : op ∈ (store.block block).operations) (hop' : op' ∈ (store.block block).operations)
    (hnumber : (store.op op).number = (store.op op').number) : op = op' := by
  have hnested := hstore.nested
  have hcontext : (store.op op).context = (store.op op').context := by
    rw [hstore.housed op block ((hnested.operations.mem_iff op block).mp hop),
      hstore.housed op' block ((hnested.operations.mem_iff op' block).mp hop')]
  have hlt := index_lt_of_mem_operations hnested hop
  have hlt' := index_lt_of_mem_operations hnested hop'
  rcases Nat.lt_trichotomy op.index op'.index with hbefore | heq | hafter
  · have := hstore.numbered.increasing op op' hbefore hlt' hcontext
    omega
  · exact congrArg OpId.mk heq
  · have := hstore.numbered.increasing op' op hafter hlt hcontext.symm
    omega

/-- The position of an operation in its block is the place at which it is listed. -/
theorem Reachable.position?_eq (hstore : store.Reachable) {block : BlockId}
    (hop : op ∈ (store.block block).operations) :
    store.position? block op = some ((store.block block).operations.idxOf op) := by
  have hsame : ∀ other ∈ (store.block block).operations,
      ((store.op other).number == (store.op op).number) = (other == op) := by
    intro other hother
    rw [Bool.eq_iff_iff, beq_iff_eq, beq_iff_eq]
    exact ⟨hstore.eq_of_number_eq hother hop, fun heq => by rw [heq]⟩
  exact findIdx?_eq_idxOf hsame hop

/-- Two operations of a block come in the order in which it lists them. -/
theorem Reachable.isBefore_iff (hstore : store.Reachable) {block : BlockId} {first second : OpId}
    (hfirst : (store.op first).parent = some block)
    (hsecond : (store.op second).parent = some block) :
    store.isBefore first second ↔
      (store.block block).operations.idxOf first < (store.block block).operations.idxOf second := by
  have hlisted := hstore.nested.operations.mem_iff
  simp [isBefore, hfirst, hsecond, hstore.position?_eq ((hlisted first block).mpr hfirst),
    hstore.position?_eq ((hlisted second block).mpr hsecond)]

end Store

end AffineLoops
