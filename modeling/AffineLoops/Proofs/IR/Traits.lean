import AffineLoops.Proofs.IR.Kinds

/-!
# The traits and regions of operations

`Store.Constructed` are the programs that constructions make from the empty one.  What the kind of
an operation says about its traits and regions is a statement about whole constructions, so it is
known of these programs:

* `Constructed.kindTraits`: operations other than generic ones have the traits of their kind, so
  loops never begin a scope of their own (`Constructed.not_hasTrait_of_isLoop`);
* `Constructed.regions_eq_nil`: loads and stores, among others, have no regions.
-/

namespace AffineLoops

namespace Store

/-- Operations other than generic ones have the traits of their kind. -/
def KindTraits (store : Store) : Prop :=
  ∀ id : OpId, id.index < store.operations.size → (∀ name, (store.op id).kind ≠ .generic name) →
    (store.op id).traits = (store.op id).kind.traits

end Store

/-- Constructions give an operation the traits of its kind. -/
theorem kindCondition_traits :
    KindCondition fun kind traits _ => (∀ name, kind ≠ .generic name) → traits = kind.traits where
  generic name _ _ hother := absurd rfl (hother name)
  leaf _ _ := rfl
  function _ _ _ := rfl
  loop _ _ _ _ := rfl
  conditional _ _ _ _ := rfl

/-- Whether operations of a kind may have regions. -/
def OpKind.mayOwnRegions : OpKind → Bool
  | generic _ => true
  | function _ => true
  | forLoop _ _ _ => true
  | parallel _ _ _ => true
  | conditional _ => true
  | _ => false

/-- Constructions give no regions to an operation whose kind has none. -/
theorem kindCondition_regions :
    KindCondition fun kind _ regions => ¬ kind.mayOwnRegions → regions = [] where
  generic _ _ _ hleaf := absurd rfl hleaf
  leaf _ _ := rfl
  function _ _ hleaf := absurd rfl hleaf
  loop kind hloop _ hleaf := by cases kind <;> simp_all [OpKind.isLoop, OpKind.mayOwnRegions]
  conditional _ _ _ hleaf := absurd rfl hleaf

/-! ## Constructed programs -/

namespace Store

/-- The programs that constructions make from the empty one, whether each of them succeeds or
fails. -/
inductive Constructed : Store → Prop
  | empty : Constructed .empty
  | construct {α : Type} {store : Store} {build : Build α} (hbuild : Construction store build)
      (hstore : Constructed store) : Constructed (build store).2
  | resolveTypes {store : Store} (context : ContextId) (lookup : Lookup)
      (hstore : Constructed store) : Constructed (store.resolveTypes context lookup)

variable {store : Store}

theorem Constructed.reachable (hstore : store.Constructed) : store.Reachable := by
  induction hstore with
  | empty => exact .empty
  | construct hbuild _ ih => exact hbuild.reachable ih
  | resolveTypes context lookup _ ih => exact ih.step (.resolveTypes context lookup)

/-- A condition that holds of the operations that constructions make holds of all operations. -/
theorem Constructed.allOps {condition : OpKind → List Trait → List RegionId → Prop}
    (hcondition : KindCondition condition) (hstore : store.Constructed) :
    store.AllOps condition := by
  induction hstore with
  | empty => exact fun id hid => absurd hid (Nat.not_lt_zero _)
  | construct hbuild _ ih => exact hbuild.keepsOps hcondition _ ih
  | resolveTypes context lookup _ ih => exact ih.of_operations_eq rfl

theorem Constructed.kindTraits (hstore : store.Constructed) : store.KindTraits :=
  hstore.allOps kindCondition_traits

/-- Loops begin no scope of their own. -/
theorem Constructed.not_hasTrait_of_isLoop (hstore : store.Constructed) {op : OpId}
    (hloop : (store.op op).kind.isLoop) : ¬ store.hasTrait op .affineScope := by
  have hplace : op.index < store.operations.size := by
    by_contra hge
    rw [show store.op op = default from getD_of_size_le (not_lt.mp hge)] at hloop
    cases hloop
  have hother : ∀ name, (store.op op).kind ≠ .generic name := by
    intro name hkind
    rw [hkind] at hloop
    cases hloop
  have htraits := hstore.kindTraits op hplace hother
  rw [hasTrait, htraits]
  cases hkind : (store.op op).kind <;> simp_all [OpKind.isLoop, OpKind.traits]

/-- An operation has no regions if its kind has none. -/
theorem Constructed.regions_eq_nil (hstore : store.Constructed) {op : OpId}
    (hleaf : ¬ (store.op op).kind.mayOwnRegions) : (store.op op).regions = [] := by
  rcases Nat.lt_or_ge op.index store.operations.size with hlt | hge
  · exact hstore.allOps kindCondition_regions op hlt hleaf
  · rw [show store.op op = default from getD_of_size_le hge]
    rfl

end Store

end AffineLoops
