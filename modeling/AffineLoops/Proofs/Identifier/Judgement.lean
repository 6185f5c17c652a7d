import AffineLoops.Proofs.IR.Precedence
import AffineLoops.Proofs.Identifier.SymbolInvariance

/-!
# Judgements about dimensions and symbols

A value is judged in a bounded number of steps, one for every operation up to the one that makes
it.  The bound is never reached: a judgement goes from an operation to its operands, which are
made by older operations (`Reachable.ordered`).  So any larger bound gives the same answer
(`isSymbolWithin_eq_of_age_le`, `isDimWithin_eq_of_age_le`), and the judgements satisfy equations
that mention no bound (`isSymbol_eq`, `isDim_eq`).  All other statements about judgements follow
from these two.
-/

namespace AffineLoops.Store

variable {store : Store} {value operand : ValueId} {op : OpId}

theorem age_of_definingOp?_eq_none (h : store.definingOp? value = none) : store.age value = 0 := by
  simp [age, h]

theorem age_of_definingOp? (h : store.definingOp? value = some op) :
    store.age value = op.index + 1 := by
  simp [age, h]

/-- The operands of an operation are older than what it makes. -/
theorem Ordered.age_le (hordered : store.Ordered) (hmem : operand ∈ (store.op op).operands) :
    store.age operand ≤ op.index := by
  cases hdefining : store.definingOp? operand with
  | none => simp [age_of_definingOp?_eq_none hdefining]
  | some definer =>
      rw [age_of_definingOp? hdefining]
      exact hordered.precedes hmem hdefining

theorem isTopLevel_of_definingOp? {definer : OpId} {region : RegionId}
    (hdefining : store.definingOp? value = some definer) :
    store.isTopLevel value region ↔ store.opRegion? definer = some region := by
  obtain ⟨number, howner⟩ := definingOp?_eq_some_iff.mp hdefining
  simp [isTopLevel, howner]

theorem all_congr_of_mem {α : Type} {list : List α} {p q : α → Bool}
    (h : ∀ a ∈ list, p a = q a) : list.all p = list.all q := by
  rw [Bool.eq_iff_iff, List.all_eq_true, List.all_eq_true]
  exact forall₂_congr fun a hmem => by rw [h a hmem]

/-! ## Symbols -/

/-- Whether a size is fixed is known, or it is the judgement about an operand of the operation that
makes the memory reference. -/
theorem isFixedSize_cases (store : Store) (op : OpId) :
    (∃ fixed, ∀ accept, store.isFixedSize accept op = fixed) ∨
      ∃ source maker size, store.dimSource? op = some source ∧
        store.definingOp? source = some maker ∧ size ∈ (store.op maker).operands ∧
        ∀ accept, store.isFixedSize accept op = accept size := by
  unfold isFixedSize
  split
  · exact .inl ⟨false, fun _ => rfl⟩
  · rename_i source hsource
    by_cases htop : store.isTopLevelOfScope source
    · exact .inl ⟨true, fun _ => by rw [htop, Bool.true_or]⟩
    simp only [htop, Bool.false_or]
    split
    · rename_i type sizes index hsized hindex
      by_cases hrank : index < type.rank
      · simp only [hrank, decide_true, Bool.true_and]
        split
        · exact .inl ⟨true, fun _ => rfl⟩
        · rename_i position hposition
          split
          · exact .inl ⟨false, fun _ => rfl⟩
          · rename_i size hsize
            obtain ⟨maker, hmaker, hsized⟩ := Option.bind_eq_some_iff.mp hsized
            have hdynamic : store.dynamicSize? maker index = some size := by
              simp [dynamicSize?, hsized, hposition, hsize]
            exact .inr ⟨source, maker, size, hsource, hmaker,
              (mem_operands_of_dynamicSize? hdynamic).1, fun _ => rfl⟩
      · exact .inl ⟨false, fun _ => by simp [hrank]⟩
    · exact .inl ⟨false, fun _ => rfl⟩

theorem isFixedSize_congr {accept accept' : ValueId → Bool}
    (h : ∀ source maker size, store.dimSource? op = some source →
      store.definingOp? source = some maker → size ∈ (store.op maker).operands →
      accept size = accept' size) :
    store.isFixedSize accept op = store.isFixedSize accept' op := by
  rcases store.isFixedSize_cases op with ⟨fixed, hfixed⟩ |
    ⟨source, maker, size, hsource, hmaker, hmem, hsize⟩
  · rw [hfixed, hfixed]
  · rw [hsize, hsize, h source maker size hsource hmaker hmem]

section Bounds

variable (hordered : store.Ordered)

include hordered

theorem isSymbolWithin_congr {regions : List RegionId} {steps steps' : Nat}
    (h : store.age value ≤ steps) (h' : store.age value ≤ steps') :
    store.isSymbolWithin regions steps value = store.isSymbolWithin regions steps' value := by
  induction steps generalizing steps' value with
  | zero =>
      have hnone : store.definingOp? value = none := by
        cases hdefining : store.definingOp? value with
        | none => rfl
        | some definer => rw [age_of_definingOp? hdefining] at h; omega
      cases steps' <;> simp [isSymbolWithin, hnone]
  | succ steps ih =>
      cases hdefining : store.definingOp? value with
      | none => cases steps' <;> simp [isSymbolWithin, hdefining]
      | some definer =>
          rw [age_of_definingOp? hdefining] at h h'
          obtain ⟨steps', rfl⟩ : ∃ fewer, steps' = fewer + 1 := ⟨steps' - 1, by omega⟩
          -- the operands of the operation and of older ones are judged alike
          have holder : ∀ {op operand}, op.index ≤ definer.index →
              operand ∈ (store.op op).operands →
              store.isSymbolWithin regions steps operand =
                store.isSymbolWithin regions steps' operand := by
            intro op operand hle hmem
            have hage := hordered.age_le hmem
            exact ih (by omega) (by omega)
          simp only [isSymbolWithin, hdefining]
          congr 1
          split
          · rfl
          · congr 1
            exact all_congr_of_mem fun operand hmem => holder le_rfl hmem
          · congr 1
            refine isFixedSize_congr fun source maker size hsource hmaker hmem => ?_
            have holdMaker := hordered.precedes (List.mem_of_getElem? hsource) hmaker
            exact holder holdMaker.le hmem
          · rfl

/-- More steps than the age of the value do not change the judgement. -/
theorem isSymbolWithin_eq_of_age_le {scope : Option RegionId} {steps : Nat}
    (h : store.age value ≤ steps) :
    store.isSymbolWithin (store.scopeChain scope) steps value = store.isSymbol value scope :=
  isSymbolWithin_congr hordered h le_rfl

/-- The judgement about a symbol, without a bound on its steps. -/
theorem isSymbol_eq (value : ValueId) (scope : Option RegionId) :
    store.isSymbol value scope =
      ((store.typeOf value).isIndex &&
        match store.definingOp? value with
        | none => (store.scopeChain scope).any (store.isTopLevel value)
        | some op =>
            match (store.op op).kind with
            | .constant _ => true
            | .apply _ =>
                store.isTopLevelOfFirst value (store.scopeChain scope) ||
                  (store.op op).operands.all (store.isSymbol · scope)
            | .dim =>
                store.isTopLevelOfFirst value (store.scopeChain scope) ||
                  store.isFixedSize (store.isSymbol · scope) op
            | _ => (store.scopeChain scope).any (store.isTopLevel value)) := by
  rw [← isSymbolWithin_eq_of_age_le hordered (Nat.le_succ (store.age value)), isSymbolWithin]
  congr 1
  cases hdefining : store.definingOp? value with
  | none => rfl
  | some op =>
      have hage := age_of_definingOp? hdefining
      have hoperands : (store.op op).operands.all
          (store.isSymbolWithin (store.scopeChain scope) (store.age value)) =
            (store.op op).operands.all (store.isSymbol · scope) := by
        refine all_congr_of_mem fun operand hmem => ?_
        have holder := hordered.age_le hmem
        exact isSymbolWithin_eq_of_age_le hordered (by omega)
      have hsize : store.isFixedSize
          (store.isSymbolWithin (store.scopeChain scope) (store.age value)) op =
            store.isFixedSize (store.isSymbol · scope) op := by
        refine isFixedSize_congr fun source maker size hsource hmaker hmem => ?_
        have hmakerOlder := hordered.precedes (List.mem_of_getElem? hsource) hmaker
        have holder := hordered.age_le hmem
        exact isSymbolWithin_eq_of_age_le hordered (by omega)
      dsimp only
      cases (store.op op).kind with
      | apply map => exact congrArg (_ || ·) hoperands
      | dim => exact congrArg (_ || ·) hsize
      | _ => rfl

/-! ## Dimensions -/

theorem isDimWithin_congr {scope : Option RegionId} {steps steps' : Nat}
    (h : store.age value ≤ steps) (h' : store.age value ≤ steps') :
    store.isDimWithin scope steps value = store.isDimWithin scope steps' value := by
  induction steps generalizing steps' value with
  | zero =>
      have hnone : store.definingOp? value = none := by
        cases hdefining : store.definingOp? value with
        | none => rfl
        | some definer => rw [age_of_definingOp? hdefining] at h; omega
      cases steps' <;> simp [isDimWithin, hnone]
  | succ steps ih =>
      cases hdefining : store.definingOp? value with
      | none => cases steps' <;> simp [isDimWithin, hdefining]
      | some definer =>
          rw [age_of_definingOp? hdefining] at h h'
          obtain ⟨steps', rfl⟩ : ∃ fewer, steps' = fewer + 1 := ⟨steps' - 1, by omega⟩
          simp only [isDimWithin, hdefining]
          congr 2
          split
          · congr 1
            refine all_congr_of_mem fun operand hmem => ?_
            have hage := hordered.age_le (List.mem_of_mem_take hmem)
            exact ih (by omega) (by omega)
          · rfl
          · rfl

/-- More steps than the age of the value do not change the judgement. -/
theorem isDimWithin_eq_of_age_le {scope : Option RegionId} {steps : Nat}
    (h : store.age value ≤ steps) : store.isDimWithin scope steps value = store.isDim value scope :=
  isDimWithin_congr hordered h le_rfl

/-- The judgement about a dimension, without a bound on its steps. -/
theorem isDim_eq (value : ValueId) (scope : Option RegionId) :
    store.isDim value scope =
      ((store.typeOf value).isIndex &&
        (store.isSymbol value scope ||
          match store.definingOp? value with
          | none => store.isInductionVariable value
          | some op =>
              match (store.op op).kind with
              | .apply map =>
                  ((store.op op).operands.take map.dims).all (store.isDim · scope) &&
                    ((store.op op).operands.drop map.dims).all (store.isSymbol · scope)
              | .dim =>
                  match store.dimSource? op with
                  | none => false
                  | some source => store.isTopLevelOfScope source
              | _ => false)) := by
  rw [← isDimWithin_eq_of_age_le hordered (Nat.le_succ (store.age value)), isDimWithin]
  congr 2
  cases hdefining : store.definingOp? value with
  | none => rfl
  | some op =>
      have hage := age_of_definingOp? hdefining
      have hoperands : ∀ count, ((store.op op).operands.take count).all
          (store.isDimWithin scope (store.age value)) =
            ((store.op op).operands.take count).all (store.isDim · scope) := by
        refine fun count => all_congr_of_mem fun operand hmem => ?_
        have holder := hordered.age_le (List.mem_of_mem_take hmem)
        exact isDimWithin_eq_of_age_le hordered (by omega)
      dsimp only
      cases (store.op op).kind with
      | apply map => exact congrArg (· && _) (hoperands map.dims)
      | _ => rfl

end Bounds

end AffineLoops.Store
