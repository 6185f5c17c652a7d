import AffineLoops.Loop.Shift
import AffineLoops.Proofs.IR.Descent

/-!
# Shifts that keep dependences

One operation of a body depends on another one if it uses a result of it, or if an operation inside
of it does.  Shifts of the operations keep the dependences if dependent operations are shifted
alike.  This reads a body from the outside in: through the operands of every operation at any depth.

The check goes the other way.  It starts from the uses that are noted at a result and climbs from
every user to the operation of the body around it.

* `Reachable.mem_users_iff`: the noted users of a value are the operations with it as an operand;
* `Reachable.ancestorInBlock?_eq_some_iff`: the climb ends at the only operation of the block that
  is or contains the user;
* `Reachable.userShift?_eq_some_iff` puts both together.
-/

namespace AffineLoops

namespace Store

variable {store : Store} {block : BlockId} {user op : OpId} {shifts : List Nat} {shift : Nat}

/-- The users of a value are the operations that have it as an operand. -/
theorem Reachable.mem_users_iff (hstore : store.Reachable) {value : ValueId} :
    user ∈ store.users value ↔ value ∈ (store.op user).operands := by
  rw [users, List.mem_map, List.mem_iff_getElem?]
  constructor
  · rintro ⟨use, huse, rfl⟩
    exact ⟨use.2, (hstore.counted.mem_uses_iff value use).mp huse⟩
  · rintro ⟨place, hplace⟩
    exact ⟨(user, place), (hstore.counted.mem_uses_iff value (user, place)).mpr hplace, rfl⟩

/-- The climb from an operation to a block ends at the operation of the block around it. -/
theorem Reachable.ancestorInBlock?_eq_some_iff (hstore : store.Reachable)
    (hnesting : store.NoSelfNesting) :
    store.ancestorInBlock? block user = some op ↔
      op ∈ (store.block block).operations ∧ (user = op ∨ store.Contains op user) := by
  have hnested := hstore.nested
  have hlisted := fun op => hnested.operations.mem_iff op block
  have hbelow : ∀ {op}, (user = op ∨ store.Contains op user) ↔ op ∈ store.ancestors user := by
    intro op
    rw [mem_ancestors_iff hnesting, ← hnested.reflTransGen_holds_iff,
      Relation.reflTransGen_iff_eq_or_transGen, Contains]
  rw [hbelow]
  have hsound : ∀ {op}, store.ancestorInBlock? block user = some op →
      op ∈ (store.block block).operations ∧ op ∈ store.ancestors user := by
    intro op hfound
    refine ⟨(hlisted op).mpr ?_, List.mem_of_find?_eq_some hfound⟩
    simpa using List.find?_some hfound
  refine ⟨hsound, ?_⟩
  rintro ⟨hmem, hancestor⟩
  -- there is an ancestor in the block, and all ancestors in the block are the same one
  have hparent := (hlisted op).mp hmem
  cases hfound : store.ancestorInBlock? block user with
  | none =>
      have hnone := List.find?_eq_none.mp hfound op hancestor
      simp [hparent] at hnone
  | some found =>
      obtain ⟨hmem', hancestor'⟩ := hsound hfound
      have howner : store.opParent? found = store.opParent? op := by
        simp [opParent?, opRegion?, hparent, (hlisted found).mp hmem']
      rw [ancestor_unique hnesting howner ((mem_ancestors_iff hnesting).mp hancestor')
        ((mem_ancestors_iff hnesting).mp hancestor)]

/-- The shift of a user is that of the operation of the body around it. -/
theorem Reachable.userShift?_eq_some_iff (hstore : store.Reachable)
    (hnesting : store.NoSelfNesting) :
    store.userShift? block shifts user = some shift ↔
      ∃ (place : Nat) (op : OpId), (store.block block).operations[place]? = some op ∧
        (user = op ∨ store.Contains op user) ∧ shifts[place]? = some shift := by
  have hnodup := hstore.nested.operations.nodup block
  unfold userShift?
  constructor
  · intro h
    split at h
    · cases h
    · rename_i op hop
      obtain ⟨hmem, haround⟩ := (hstore.ancestorInBlock?_eq_some_iff hnesting).mp hop
      rw [hstore.position?_eq hmem] at h
      exact ⟨_, op, List.getElem?_idxOf hmem, haround, h⟩
  · rintro ⟨place, op, hplace, haround, hshift⟩
    have hmem := List.mem_of_getElem? hplace
    rw [(hstore.ancestorInBlock?_eq_some_iff hnesting).mpr ⟨hmem, haround⟩]
    dsimp only
    rw [hstore.position?_eq hmem]
    obtain ⟨hlt, rfl⟩ := List.getElem?_eq_some_iff.mp hplace
    rwa [hnodup.idxOf_getElem]

theorem Reachable.keepsShift_iff (hstore : store.Reachable) :
    store.keepsShift block shifts op shift ↔
      ∀ result ∈ (store.op op).results, ∀ user, result ∈ (store.op user).operands →
        ∀ other, store.userShift? block shifts user = some other → other = shift := by
  simp only [keepsShift, List.all_eq_true, hstore.mem_users_iff]
  refine forall₄_congr fun result _ user _ => ?_
  cases store.userShift? block shifts user <;> simp

/-- Shifts are refused exactly if there is not one for every operation of the body.  Otherwise they
are valid exactly if an operation of the body is shifted as far as every operation of the body that
uses one of its results, itself or through an operation inside of it. -/
theorem isShiftValid_iff (hstore : store.Reachable) (hnesting : store.NoSelfNesting)
    (loop : ForLoop) (shifts : List Nat) :
    let operations := (store.block loop.body).operations
    (∀ fault, store.isShiftValid loop shifts = .error fault ↔
      shifts.length ≠ operations.length ∧
        fault = .shiftCount operations.length shifts.length) ∧
    (shifts.length = operations.length →
      (store.isShiftValid loop shifts = .ok true ↔
        ∀ (place place' : Nat) (producer consumer : OpId),
          operations[place]? = some producer → operations[place']? = some consumer →
          ∀ user, (user = consumer ∨ store.Contains consumer user) →
            (∃ value ∈ (store.op user).operands, value ∈ (store.op producer).results) →
            shifts[place]? = shifts[place']?)) := by
  intro operations
  refine ⟨fun fault => ?_, fun hlength => ?_⟩
  · by_cases hlength : shifts.length = operations.length
    · simp [isShiftValid, operations, hlength]
    · simp [isShiftValid, operations, hlength, eq_comm]
  · have hshifts : ∀ {place : Nat} {op : OpId}, operations[place]? = some op →
        ∃ shift, shifts[place]? = some shift := by
      intro place op hop
      obtain ⟨hlt, -⟩ := List.getElem?_eq_some_iff.mp hop
      exact ⟨_, List.getElem?_eq_getElem (hlength ▸ hlt)⟩
    rw [isShiftValid, if_pos hlength, Except.ok.injEq, List.all_eq_true]
    constructor
    · rintro hvalid place place' producer consumer hproducer hconsumer user hinside
        ⟨value, hoperand, hresult⟩
      obtain ⟨shift, hshift⟩ := hshifts hproducer
      obtain ⟨shift', hshift'⟩ := hshifts hconsumer
      have hzip : (producer, shift) ∈ operations.zip shifts :=
        List.mem_of_getElem? (List.getElem?_zip_eq_some.mpr ⟨hproducer, hshift⟩)
      have huser := (hstore.userShift?_eq_some_iff hnesting).mpr
        ⟨place', consumer, hconsumer, hinside, hshift'⟩
      have hkeeps := hstore.keepsShift_iff.mp (hvalid _ hzip)
      rw [hshift, hshift', hkeeps value hresult user hoperand shift' huser]
    · rintro hkept ⟨producer, shift⟩ hzip
      obtain ⟨place, hplace⟩ := List.mem_iff_getElem?.mp hzip
      obtain ⟨hproducer, hshift⟩ := List.getElem?_zip_eq_some.mp hplace
      refine hstore.keepsShift_iff.mpr fun value hresult user hoperand other huser => ?_
      obtain ⟨place', consumer, hconsumer, hinside, hother⟩ :=
        (hstore.userShift?_eq_some_iff hnesting).mp huser
      have hsame := hkept place place' producer consumer hproducer hconsumer user hinside
        ⟨value, hoperand, hresult⟩
      rw [hshift, hother] at hsame
      exact (Option.some.inj hsame).symm

end Store

/-! A loop whose body makes a value and has another loop, which uses the value. -/

namespace NestedUse

def outer : Store := (Build.forLoop 0 ⟨0, .ofConst 0⟩ [] ⟨0, .ofConst 8⟩ [] 1 .empty).2

def withProducer : Store :=
  let made := (Build.buildOp 0 (.generic "make") [] [] [⟨0, .index⟩] [] outer).2
  (Build.insertBeforeTerminator ⟨0⟩ ⟨2⟩ made).2

def withInner : Store :=
  let inner := (Build.forLoop 0 ⟨0, .ofConst 0⟩ [] ⟨0, .ofConst 4⟩ [] 1 withProducer).2
  (Build.insertBeforeTerminator ⟨0⟩ ⟨4⟩ inner).2

def store : Store :=
  let used := (Build.buildOp 0 (.generic "use") [] [⟨1⟩] [] [] withInner).2
  (Build.insertBeforeTerminator ⟨1⟩ ⟨5⟩ used).2

theorem reachable : store.Reachable :=
  (Construction.insertBeforeTerminator (by decide) (by decide)).reachable <|
    (Construction.generic (by decide) (by decide)).reachable <|
      (Construction.insertBeforeTerminator (by decide) (by decide)).reachable <|
        (Construction.forLoop (by decide) (by decide) (by decide)).reachable <|
          (Construction.insertBeforeTerminator (by decide) (by decide)).reachable <|
            (Construction.generic (by decide) (by decide)).reachable <|
              (Construction.forLoop (by decide) (by decide) (by decide)).reachable .empty

/-- The number of operations around an operation. -/
def depth (op : OpId) : Nat := [1, 0, 1, 2, 1, 2].getD op.index 0

theorem noSelfNesting : store.NoSelfNesting := Store.noSelfNesting_of_depth depth (by decide)

def loop : ForLoop := ⟨⟨1⟩, ⟨⟨.ofConst 0, []⟩, ⟨.ofConst 8, []⟩, 1⟩, ⟨0⟩, ⟨0⟩, ⟨0⟩⟩

theorem contains_use : store.Contains ⟨4⟩ ⟨5⟩ :=
  .single ⟨⟨1⟩, by decide, ⟨1⟩, by decide, by decide⟩

end NestedUse

open NestedUse in
/-- The inner loop has to be shifted as far as the operation that makes the value. -/
theorem isShiftValid_iff_nestedUse :
    store.Reachable ∧ store.NoSelfNesting ∧ store.forLoop? ⟨1⟩ = some loop ∧
    (store.block loop.body).operations = [⟨2⟩, ⟨4⟩, ⟨0⟩] ∧
    store.isShiftValid loop [2] = .error (.shiftCount 3 1) ∧
    store.isShiftValid loop [2, 2, 0] = .ok true ∧
    store.isShiftValid loop [2, 1, 0] ≠ .ok true := by
  have hoperations : (store.block loop.body).operations = [⟨2⟩, ⟨4⟩, ⟨0⟩] := by decide
  refine ⟨reachable, noSelfNesting, by decide, hoperations, ?_, by decide,
    fun hvalid => ?_⟩
  · exact ((Store.isShiftValid_iff reachable noSelfNesting loop [2]).1 _).mpr
      (by rw [hoperations]; decide)
  · have hkept := ((Store.isShiftValid_iff reachable noSelfNesting loop [2, 1, 0]).2
      (by rw [hoperations]; rfl)).mp hvalid
    have hsame := hkept 0 1 ⟨2⟩ ⟨4⟩ (by rw [hoperations]; rfl) (by rw [hoperations]; rfl) ⟨5⟩
      (.inr contains_use) ⟨⟨1⟩, by decide, by decide⟩
    cases hsame

end AffineLoops
