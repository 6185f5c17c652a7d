import AffineLoops.Loop.Vectorization
import AffineLoops.Proofs.IR.Walks
import AffineLoops.Proofs.Loop.Invariance

/-!
# Verdicts on loop bodies do not depend on the order of operations

The body of a loop is walked through until something keeps it from being vectorized, and then its
accesses are merged one after the other until two of them disagree or the predicate refuses one.
The verdict is nevertheless a statement about the set of operations in the body:

* `Contiguity.varying_of_merge?`: a merged verdict varies in the dimension in which one of the two
  varies, and `Contiguity.eq_iff_varying`: this determines it;
* `agree_eq_ok_iff`: so merging a list in order succeeds exactly if all of it agrees;
* `scalarTransfers?_eq_some_iff`: the walk is completed exactly if no operation in the loop is
  unsupported, and then the accesses are those in the loop, at any depth;
* `vectorization_eq_ok_iff` puts both together.
-/

namespace AffineLoops

/-! ## Merging -/

namespace Contiguity

/-- A verdict is known by the dimensions in which it varies. -/
theorem eq_iff_varying (contiguity other : Contiguity) :
    contiguity = other ↔
      ∀ dimension, contiguity = .varying dimension ↔ other = .varying dimension := by
  refine ⟨fun heq _ => by rw [heq], fun hsame => ?_⟩
  cases contiguity with
  | varying dimension => exact ((hsame dimension).mp rfl).symm
  | invariant =>
      cases other with
      | invariant => rfl
      | varying dimension => exact (hsame dimension).mpr rfl

variable {own other merged : Contiguity}

/-- Two verdicts merge into one that varies where one of them does. -/
theorem varying_of_merge? (h : own.merge? other = some merged) (dimension : Nat) :
    merged = .varying dimension ↔ own = .varying dimension ∨ other = .varying dimension := by
  cases own with
  | invariant =>
      obtain rfl := Option.some.inj h
      simp
  | varying first =>
      cases other with
      | invariant =>
          obtain rfl := Option.some.inj h
          simp
      | varying second =>
          simp only [merge?] at h
          split at h
          · rename_i heq
            obtain rfl := Option.some.inj h
            simp [heq]
          · cases h

/-- Verdicts do not merge if they vary in different dimensions. -/
theorem ne_of_merge?_eq_none (h : own.merge? other = none) :
    ∃ first second, own = .varying first ∧ other = .varying second ∧ first ≠ second := by
  cases own with
  | invariant => cases h
  | varying first =>
      cases other with
      | invariant => cases h
      | varying second =>
          simp only [merge?] at h
          split at h
          · cases h
          · rename_i hne
            exact ⟨first, second, rfl, rfl, hne⟩

end Contiguity

namespace Store

variable {store : Store} {limit : Nat} {iv : ValueId} {accept : OpId → Bool} {op : OpId}
  {verdict : Contiguity}

/-- Merging the accesses of a list succeeds exactly if each of them has a verdict and is accepted,
and all that vary do so in one dimension. -/
theorem agree_eq_ok_iff {ids asked : List OpId} {start : Contiguity} :
    (store.agree limit iv accept ids start asked).contiguity = .ok verdict ↔
      (∀ id ∈ ids, (∃ own, store.scalarContiguity limit iv id = .ok own) ∧ accept id) ∧
      ∀ dimension, verdict = .varying dimension ↔ start = .varying dimension ∨
        ∃ id ∈ ids, store.scalarContiguity limit iv id = .ok (.varying dimension) := by
  induction ids generalizing start asked with
  | nil =>
      have hsame := Contiguity.eq_iff_varying verdict start
      simpa [agree, @eq_comm _ start verdict] using hsame
  | cons id ids ih =>
      unfold agree
      cases hown : store.scalarContiguity limit iv id with
      | error obstacle => simp [Contiguity.merge, hown]
      | ok own =>
          cases hmerge : start.merge? own with
          | none =>
              -- the list starts with two verdicts of which the result cannot be both
              obtain ⟨first, second, rfl, rfl, hne⟩ := Contiguity.ne_of_merge?_eq_none hmerge
              simp only [Contiguity.merge, hmerge]
              constructor
              · intro h
                cases h
              · rintro ⟨-, hvaries⟩
                have hfirst := (hvaries first).mpr (.inl rfl)
                have hsecond := (hvaries second).mpr (.inr ⟨id, List.mem_cons_self, hown⟩)
                exact absurd (Contiguity.varying.inj (hfirst.symm.trans hsecond)) hne
          | some merged =>
              have hvaries := Contiguity.varying_of_merge? hmerge
              simp only [Contiguity.merge, hmerge]
              split
              · rename_i haccept
                rw [ih]
                simp [hvaries, hown, haccept, or_assoc]
              · rename_i hrefuse
                simp [hrefuse]

/-! ## The operations of a body -/

variable (store) in
/-- The operation is a conditional, a transfer of vectors, or has regions without being a loop. -/
def Unsupported (op : OpId) : Prop :=
  (∃ set, (store.op op).kind = .conditional set) ∨
    (∃ map, (store.op op).kind = .vectorLoad map ∨ (store.op op).kind = .vectorStore map) ∨
    (store.op op).regions ≠ [] ∧ ¬ (store.op op).kind.isForLoop

variable (store) in
/-- The operation is a load or a store. -/
def LoadsOrStores (op : OpId) : Prop :=
  ∃ map, (store.op op).kind = .load map ∨ (store.op op).kind = .store map

theorem Constructed.preventsVectorization_iff (hstore : store.Constructed) :
    store.preventsVectorization op ↔ store.Unsupported op := by
  have hleaf : ¬ (store.op op).kind.mayOwnRegions → (store.op op).regions = [] :=
    hstore.regions_eq_nil
  unfold preventsVectorization Unsupported
  cases hkind : (store.op op).kind <;> simp_all [OpKind.mayOwnRegions, OpKind.isForLoop]

theorem isScalarTransfer_iff : store.isScalarTransfer op ↔ store.LoadsOrStores op := by
  unfold isScalarTransfer LoadsOrStores
  cases (store.op op).kind <;> simp

theorem scalarContiguity_eq_ok_iff :
    store.scalarContiguity limit iv op = .ok verdict ↔
      ∃ access, store.access? op = some access ∧ ¬ access.type.element.isVector ∧
        store.contiguity limit access iv = .ok verdict := by
  unfold scalarContiguity
  cases store.access? op with
  | none => simp
  | some access => cases hvector : access.type.element.isVector <;> simp [hvector]

/-- The walk through a loop is completed exactly if nothing in the loop is unsupported, and then the
loads and stores in it have been found. -/
theorem Constructed.scalarTransfers?_eq_some_iff (hstore : store.Constructed)
    (hnesting : store.NoSelfNesting) {loop : OpId} {ids : List OpId} :
    store.scalarTransfers? loop = some ids ↔
      (∀ op, store.Contains loop op → ¬ store.Unsupported op) ∧
      ids = (store.listing .pre (store.operations.size + 1) loop).filter
        store.isScalarTransfer := by
  have hnested := hstore.reachable.nested
  have hends := hnested.endsWithin_walk hnesting loop
  let step : OpId → WalkStep := fun id =>
    if id != loop && store.preventsVectorization id then .interrupt else .advance
  have hskip : ∀ id, step id ≠ .skip := by
    intro id
    dsimp only [step]
    split <;> exact WalkStep.noConfusion
  have hcompleted : (store.walk .pre step loop).completed ↔
      ∀ op, store.Contains loop op → ¬ store.Unsupported op := by
    rw [completed_walk_iff hskip]
    constructor
    · intro hsteps op hcontains hunsupported
      have hother : op ≠ loop := by
        rintro rfl
        exact hnested.not_contains_self hnesting op hcontains
      refine hsteps op ((mem_listing_iff hends).mpr hcontains.to_reflTransGen) ?_
      simp [step, hother, hstore.preventsVectorization_iff.mpr hunsupported]
    · intro hsupported op hop hstep
      obtain ⟨hother, hprevents⟩ : op ≠ loop ∧ store.preventsVectorization op := by
        simpa [step] using hstep
      have hcontains : store.Contains loop op :=
        (Relation.reflTransGen_iff_eq_or_transGen.mp ((mem_listing_iff hends).mp hop)).resolve_left
          hother
      exact hsupported op hcontains (hstore.preventsVectorization_iff.mp hprevents)
  have hfound : store.scalarTransfers? loop =
      if (store.walk .pre step loop).completed then
        some ((store.walk .pre step loop).visited.filter store.isScalarTransfer)
      else none := rfl
  rw [← hcompleted, hfound]
  by_cases hdone : (store.walk .pre step loop).completed
  · simp [hdone, visited_walk hskip hdone, eq_comm]
  · simp [hdone]

theorem Constructed.mem_scalarTransfers_iff (hstore : store.Constructed)
    (hnesting : store.NoSelfNesting) {loop inner : OpId} {ids : List OpId}
    (hloop : (store.op loop).kind.isForLoop) (h : store.scalarTransfers? loop = some ids) :
    inner ∈ ids ↔ store.Contains loop inner ∧ store.LoadsOrStores inner := by
  obtain ⟨-, rfl⟩ := (hstore.scalarTransfers?_eq_some_iff hnesting).mp h
  have hends := hstore.reachable.nested.endsWithin_walk hnesting loop
  rw [List.mem_filter, mem_listing_iff hends, isScalarTransfer_iff,
    Relation.reflTransGen_iff_eq_or_transGen]
  refine and_congr_left fun htransfer => or_iff_right ?_
  -- the loop is among the visited operations, but it is no access
  rintro rfl
  obtain ⟨map, hmap | hmap⟩ := htransfer <;> simp [hmap, OpKind.isForLoop] at hloop

/-! ## The verdict on a body -/

variable (store) in
/-- The operation is a load or store of scalars with a verdict along an induction variable. -/
def HasVerdict (limit : Nat) (iv : ValueId) (op : OpId) (verdict : Contiguity) : Prop :=
  store.LoadsOrStores op ∧ ∃ access, store.access? op = some access ∧
    ¬ access.type.element.isVector ∧ store.contiguity limit access iv = .ok verdict

theorem of_forLoop?_eq_some {loop : ForLoop} (h : store.forLoop? op = some loop) :
    loop.op = op ∧ (store.op op).kind.isForLoop := by
  unfold forLoop? at h
  split at h
  · rename_i hkind _
    split at h
    · cases h
    · split at h
      · cases h
      · obtain rfl := Option.some.inj h
        exact ⟨rfl, by simp [hkind, OpKind.isForLoop]⟩
  · cases h

/-- The body of a loop can be vectorized exactly if nothing in the loop is unsupported, every load
and store in it, at any depth, is one of scalars, has a verdict along the induction variable and is
accepted by the predicate, and all that vary do so in one dimension.  The verdict then varies in
that dimension, and is invariant if no access varies. -/
theorem vectorization_eq_ok_iff (hstore : store.Constructed) (hnesting : store.NoSelfNesting)
    {loop : ForLoop} (hloop : store.forLoop? op = some loop) (limit : Nat) (accept : OpId → Bool)
    (verdict : Contiguity) :
    (store.vectorization limit loop accept).contiguity = .ok verdict ↔
      (∀ inner, store.Contains op inner → ¬ store.Unsupported inner) ∧
      (∀ inner, store.Contains op inner → store.LoadsOrStores inner →
        (∃ own, store.HasVerdict limit loop.inductionVariable inner own) ∧ accept inner) ∧
      (∀ inner inner' dimension dimension', store.Contains op inner → store.Contains op inner' →
        store.HasVerdict limit loop.inductionVariable inner (.varying dimension) →
        store.HasVerdict limit loop.inductionVariable inner' (.varying dimension') →
        dimension = dimension') ∧
      ∀ dimension, verdict = .varying dimension ↔ ∃ inner, store.Contains op inner ∧
        store.HasVerdict limit loop.inductionVariable inner (.varying dimension) := by
  obtain ⟨rfl, hkind⟩ := of_forLoop?_eq_some hloop
  unfold vectorization
  cases hfound : store.scalarTransfers? loop.op with
  | none =>
      constructor
      · intro h
        cases h
      · rintro ⟨hsupported, -⟩
        have hsome := (hstore.scalarTransfers?_eq_some_iff hnesting).mpr ⟨hsupported, rfl⟩
        cases hfound.symm.trans hsome
  | some ids =>
      obtain ⟨hsupported, -⟩ := (hstore.scalarTransfers?_eq_some_iff hnesting).mp hfound
      have hmem : ∀ inner, inner ∈ ids ↔
          store.Contains loop.op inner ∧ store.LoadsOrStores inner :=
        fun _ => hstore.mem_scalarTransfers_iff hnesting hkind hfound
      have hvarying : ∀ dimension, (∃ inner ∈ ids,
            store.scalarContiguity limit loop.inductionVariable inner = .ok (.varying dimension)) ↔
          ∃ inner, store.Contains loop.op inner ∧
            store.HasVerdict limit loop.inductionVariable inner (.varying dimension) := by
        intro dimension
        simp only [hmem, HasVerdict, scalarContiguity_eq_ok_iff, and_assoc]
      dsimp only
      rw [agree_eq_ok_iff]
      simp only [hvarying, reduceCtorEq, false_or]
      constructor
      · rintro ⟨haccesses, hvaries⟩
        refine ⟨hsupported, fun inner hinner htransfer => ?_, ?_, hvaries⟩
        · obtain ⟨⟨own, hown⟩, haccept⟩ := haccesses inner ((hmem inner).mpr ⟨hinner, htransfer⟩)
          exact ⟨⟨own, htransfer, scalarContiguity_eq_ok_iff.mp hown⟩, haccept⟩
        · intro inner inner' dimension dimension' hinner hinner' hown hown'
          have hfirst := (hvaries dimension).mpr ⟨inner, hinner, hown⟩
          have hsecond := (hvaries dimension').mpr ⟨inner', hinner', hown'⟩
          exact Contiguity.varying.inj (hfirst.symm.trans hsecond)
      · rintro ⟨-, haccesses, -, hvaries⟩
        refine ⟨fun inner hinner => ?_, hvaries⟩
        obtain ⟨hcontains, htransfer⟩ := (hmem inner).mp hinner
        obtain ⟨⟨own, -, hown⟩, haccept⟩ := haccesses inner hcontains htransfer
        exact ⟨⟨own, scalarContiguity_eq_ok_iff.mpr hown⟩, haccept⟩

end Store

/-! The body of a loop over `%iv` loads from a matrix at `%n, %iv` and stores what it has loaded at
the same place, and in between another loop loads from the matrix at `%n, %n`. -/

namespace LoopInLoop

open RepeatedVariable (withLoop place position loop)

set_option maxRecDepth 800

def withLoad : Store := place ⟨3⟩ (Build.load 0 ⟨0⟩ position [⟨1⟩, ⟨2⟩] withLoop).2

def withInner : Store :=
  place ⟨5⟩ (Build.forLoop 0 ⟨0, .ofConst 0⟩ [] ⟨0, .ofConst 4⟩ [] 1 withLoad).2

def withInnerLoad : Store :=
  let loaded := (Build.load 0 ⟨0⟩ position [⟨1⟩, ⟨1⟩] withInner).2
  (Build.insertBeforeTerminator ⟨2⟩ ⟨6⟩ loaded).2

def store : Store := place ⟨7⟩ (Build.store 0 ⟨3⟩ ⟨0⟩ position [⟨1⟩, ⟨2⟩] withInnerLoad).2

theorem constructed_withInner : withInner.Constructed :=
  .construct (.insertBeforeTerminator (by decide) (by decide)) <|
    .construct (.forLoop (by decide) (by decide) (by decide)) <|
      .construct (.insertBeforeTerminator (by decide) (by decide)) <|
        .construct (.read (.inl rfl) (by decide) (by decide)) <|
          .construct (.appendOp (by decide) (by decide)) <|
            .construct (.forLoop (by decide) (by decide) (by decide)) <|
              .construct (.function 0 "f" _) .empty

theorem constructed : store.Constructed :=
  .construct (.insertBeforeTerminator (by decide) (by decide)) <|
    .construct (.write (.inl rfl) (by decide) (by decide)) <|
      .construct (.insertBeforeTerminator (by decide) (by decide)) <|
        .construct (.read (.inl rfl) (by decide) (by decide)) constructed_withInner

/-- The number of operations around an operation. -/
def depth (op : OpId) : Nat := [0, 2, 1, 2, 3, 2, 3, 2].getD op.index 0

theorem noSelfNesting : store.NoSelfNesting := Store.noSelfNesting_of_depth depth (by decide)

theorem forLoop?_eq : store.forLoop? ⟨2⟩ = some loop := by decide

theorem contains_innerLoad : store.Contains ⟨2⟩ ⟨6⟩ := by
  have hloop : store.Holds ⟨2⟩ ⟨5⟩ :=
    ⟨⟨1⟩, by decide, ⟨1⟩, by decide, by decide⟩
  have hload : store.Holds ⟨5⟩ ⟨6⟩ :=
    ⟨⟨2⟩, by decide, ⟨2⟩, by decide, by decide⟩
  exact .tail (.single hloop) hload

theorem loadsOrStores_innerLoad : store.LoadsOrStores ⟨6⟩ :=
  ⟨position.item, .inl (by decide)⟩

end LoopInLoop

open LoopInLoop in
open RepeatedVariable (loop) in
set_option maxRecDepth 800 in
/-- The body can be vectorized along the rows of the matrix, but not if the predicate refuses the
access of the inner loop. -/
theorem vectorization_eq_ok_iff_loopInLoop :
    store.Constructed ∧ store.NoSelfNesting ∧
    store.forLoop? ⟨2⟩ = some loop ∧
    (store.vectorization 10 loop fun _ => true).contiguity = .ok (.varying 0) ∧
    (∃ inner, store.Contains ⟨2⟩ inner ∧
      store.HasVerdict 10 loop.inductionVariable inner (.varying 0)) ∧
    ∀ verdict, (store.vectorization 10 loop (· != ⟨6⟩)).contiguity ≠ .ok verdict := by
  have hverdict : (store.vectorization 10 loop fun _ => true).contiguity =
      .ok (.varying 0) := by decide
  have hiff := Store.vectorization_eq_ok_iff constructed noSelfNesting forLoop?_eq 10
  refine ⟨constructed, noSelfNesting, forLoop?_eq, hverdict, ?_, fun verdict h => ?_⟩
  · exact (((hiff _ _).mp hverdict).2.2.2 0).mp rfl
  · have haccepted := (((hiff _ _).mp h).2.1 ⟨6⟩ contains_innerLoad loadsOrStores_innerLoad).2
    revert haccepted
    decide

end AffineLoops
