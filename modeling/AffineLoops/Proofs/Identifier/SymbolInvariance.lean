import AffineLoops.Identifier.Validity
import AffineLoops.Proofs.Identifier.Scope

/-!
# Symbols and induction variables

Symbols stand for values that do not change while their scope is executed, so a valid symbol
should not depend on an induction variable of a loop in the scope.  A value depends on the
operands of its operation, except that the size of a dimension of a memory reference is known more
precisely (`Store.Depends`).

The judgement accepts a size as soon as the memory reference is defined at the top level of a
scope, and then does not look at the dimension that is asked for.  If this dimension is not a
constant it may be computed from an induction variable, and the size varies with it.  Apart from
these sizes symbols are invariant: `depends_inductionVariable_iff` says that a valid symbol
depends on an induction variable in its scope exactly if it does so through such a dimension.

The reason is the same in all other cases.  What a value depends on is defined in a region around
the value (`encloses_of_depends`), while an induction variable is defined in a region inside the
scope, so a value defined around the scope cannot depend on it (`not_dependsOn_of_encloses`).
-/

namespace AffineLoops

namespace Store

/-! ## Dependence -/

/-- The size that an operation gives is that of a dimension of a reference which a known
operation has made. -/
def KnownSize (store : Store) (op : OpId) (source : ValueId) (maker : OpId) (index : Nat) : Prop :=
  ∃ type sizes, store.definingOp? source = some maker ∧
    store.sizedMemRef? maker = some (type, sizes) ∧ store.dimIndex? op = some index ∧
    index < type.rank

/-- What the value of an operation is computed from. -/
inductive Depends (store : Store) : ValueId → ValueId → Prop
  /-- All operands, in general. -/
  | operand {value operand : ValueId} {op : OpId} (hdefining : store.definingOp? value = some op)
      (hkind : (store.op op).kind ≠ .dim) (hoperand : operand ∈ (store.op op).operands) :
      Depends store value operand
  /-- The dimension whose size is asked for, if it is not a constant. -/
  | dimension {value index : ValueId} {op : OpId} (hdefining : store.definingOp? value = some op)
      (hkind : (store.op op).kind = .dim) (hindex : (store.op op).operands[1]? = some index)
      (hconstant : store.constantOf? index = none) : Depends store value index
  /-- The operand that holds a known dynamic size. -/
  | size {value source size : ValueId} {op maker : OpId} {index : Nat}
      (hdefining : store.definingOp? value = some op) (hkind : (store.op op).kind = .dim)
      (hsource : store.dimSource? op = some source)
      (hknown : store.KnownSize op source maker index)
      (hsize : store.dynamicSize? maker index = some size) : Depends store value size
  /-- The memory reference, if the size is not known. -/
  | source {value source : ValueId} {op : OpId} (hdefining : store.definingOp? value = some op)
      (hkind : (store.op op).kind = .dim) (hsource : store.dimSource? op = some source)
      (hunknown : ∀ maker index, ¬ store.KnownSize op source maker index) :
      Depends store value source

/-- A value is another one or depends on it through any number of operations. -/
def DependsOn (store : Store) : ValueId → ValueId → Prop := Relation.ReflTransGen store.Depends

/-- An induction variable of a loop that lies in a scope. -/
def IsInductionVariableIn (store : Store) (scope : RegionId) (value : ValueId) : Prop :=
  store.isInductionVariable value ∧ ∃ loop region, store.valueParent? value = some loop ∧
    store.opRegion? loop = some region ∧ store.Encloses scope region

/-- A size of a memory reference at the top level of a scope, in a dimension that is not a
constant. -/
def IsVaryingSize (store : Store) (value index : ValueId) : Prop :=
  ∃ op source, store.definingOp? value = some op ∧ (store.op op).kind = .dim ∧
    store.dimSource? op = some source ∧ store.isTopLevelOfScope source ∧
    (store.op op).operands[1]? = some index ∧ store.constantOf? index = none

variable {store : Store} {value other : ValueId} {scope region : RegionId}

theorem Depends.mem_operands {op : OpId} (h : store.Depends value other)
    (hdefining : store.definingOp? value = some op) (hkind : (store.op op).kind ≠ .dim) :
    other ∈ (store.op op).operands := by
  cases h with
  | operand hdefining' _ hoperand =>
      rwa [Option.some.inj (hdefining.symm.trans hdefining')]
  | dimension hdefining' hkind' =>
      exact absurd (Option.some.inj (hdefining.symm.trans hdefining') ▸ hkind') hkind
  | size hdefining' hkind' =>
      exact absurd (Option.some.inj (hdefining.symm.trans hdefining') ▸ hkind') hkind
  | source hdefining' hkind' =>
      exact absurd (Option.some.inj (hdefining.symm.trans hdefining') ▸ hkind') hkind

theorem Depends.of_dim {op : OpId} {source : ValueId} (h : store.Depends value other)
    (hdefining : store.definingOp? value = some op) (hkind : (store.op op).kind = .dim)
    (hsource : store.dimSource? op = some source) :
    (store.op op).operands[1]? = some other ∧ store.constantOf? other = none ∨
      (∃ maker index, store.KnownSize op source maker index ∧
        store.dynamicSize? maker index = some other) ∨
      other = source ∧ ∀ maker index, ¬ store.KnownSize op source maker index := by
  cases h with
  | operand hdefining' hkind' =>
      exact absurd (Option.some.inj (hdefining.symm.trans hdefining') ▸ hkind) hkind'
  | dimension hdefining' _ hindex hconstant =>
      obtain rfl := Option.some.inj (hdefining.symm.trans hdefining')
      exact .inl ⟨hindex, hconstant⟩
  | size hdefining' _ hsource' hknown hsize =>
      obtain rfl := Option.some.inj (hdefining.symm.trans hdefining')
      obtain rfl := Option.some.inj (hsource.symm.trans hsource')
      exact .inr (.inl ⟨_, _, hknown, hsize⟩)
  | source hdefining' _ hsource' hunknown =>
      obtain rfl := Option.some.inj (hdefining.symm.trans hdefining')
      obtain rfl := Option.some.inj (hsource.symm.trans hsource')
      exact .inr (.inr ⟨rfl, hunknown⟩)

/-! ## Where the values are defined that a value depends on -/

theorem encloses_of_operand (hvisible : store.OperandsVisible) {op : OpId}
    (hdefining : store.definingOp? value = some op)
    (hregion : store.valueRegion? value = some region)
    (hoperand : other ∈ (store.op op).operands) :
    ∃ outer, store.valueRegion? other = some outer ∧ store.Encloses outer region := by
  rw [valueRegion?_of_definingOp? hdefining] at hregion
  obtain ⟨outer, inner, houter, hinner, hencloses⟩ :=
    hvisible op (by simp [hregion]) other hoperand
  obtain rfl : inner = region := Option.some.inj (hinner.symm.trans hregion)
  exact ⟨outer, houter, hencloses⟩

/-- The operand that holds a size is an operand of the operation that makes the reference, which
is not itself a size. -/
theorem mem_operands_of_dynamicSize? {maker : OpId} {index : Nat}
    (h : store.dynamicSize? maker index = some other) :
    other ∈ (store.op maker).operands ∧ (store.op maker).kind ≠ .dim := by
  unfold dynamicSize? at h
  split at h
  · cases h
  · rename_i type sizes hsized
    split at h
    · cases h
    · unfold sizedMemRef? at hsized
      split at hsized
      · rename_i place result rest hplace hresults
        split at hsized
        · cases hsized
        · obtain ⟨rfl, rfl⟩ := Prod.mk.inj (Option.some.inj hsized)
          refine ⟨List.mem_of_mem_drop (List.mem_of_getElem? h), ?_⟩
          intro hkind
          simp [hkind, OpKind.sizesPlace?] at hplace
      · cases hsized

/-- What a value depends on is defined in its region or around it. -/
theorem encloses_of_depends (hvisible : store.OperandsVisible) (h : store.Depends value other)
    (hregion : store.valueRegion? value = some region) :
    ∃ outer, store.valueRegion? other = some outer ∧ store.Encloses outer region := by
  cases h with
  | operand hdefining _ hoperand => exact encloses_of_operand hvisible hdefining hregion hoperand
  | dimension hdefining _ hindex _ =>
      exact encloses_of_operand hvisible hdefining hregion (List.mem_of_getElem? hindex)
  | size hdefining hkind hsource hknown hsize =>
      obtain ⟨type, sizes, hmaker, -⟩ := hknown
      obtain ⟨middle, hmiddle, hencloses⟩ :=
        encloses_of_operand hvisible hdefining hregion (List.mem_of_getElem? hsource)
      obtain ⟨outer, houter, hencloses'⟩ :=
        encloses_of_operand hvisible hmaker hmiddle (mem_operands_of_dynamicSize? hsize).1
      exact ⟨outer, houter, hencloses.trans hencloses'⟩
  | source hdefining _ hsource _ =>
      exact encloses_of_operand hvisible hdefining hregion (List.mem_of_getElem? hsource)

theorem encloses_of_dependsOn (hvisible : store.OperandsVisible) (h : store.DependsOn value other)
    (hregion : store.valueRegion? value = some region) :
    ∃ outer, store.valueRegion? other = some outer ∧ store.Encloses outer region := by
  induction h with
  | refl => exact ⟨region, hregion, .refl⟩
  | tail _ hstep ih =>
      obtain ⟨middle, hmiddle, hencloses⟩ := ih
      obtain ⟨outer, houter, hencloses'⟩ := encloses_of_depends hvisible hstep hmiddle
      exact ⟨outer, houter, hencloses.trans hencloses'⟩

/-- A value that is defined around a visible one is visible. -/
theorem Visible.outward {op : OpId} (hvalue : store.Visible value op)
    (h : ∀ {region}, store.valueRegion? value = some region →
      ∃ outer, store.valueRegion? other = some outer ∧ store.Encloses outer region) :
    store.Visible other op := by
  obtain ⟨defined, used, hdefined, hused, hencloses⟩ := hvalue
  obtain ⟨outer, houter, hencloses'⟩ := h hdefined
  exact ⟨outer, used, houter, hused, hencloses.trans hencloses'⟩

/-! ## Values around a scope -/

/-- An induction variable is defined in the body of its loop, which lies in a region inside the
scope. -/
theorem IsInductionVariableIn.exists_region (h : store.IsInductionVariableIn scope value) :
    store.definingOp? value = none ∧ ∃ body around, store.valueRegion? value = some body ∧
      store.regionParent? body = some around ∧ store.Encloses scope around := by
  obtain ⟨hvariable, loop, around, hparent, haround, hscope⟩ := h
  unfold isInductionVariable isArgumentOf at hvariable
  split at hvariable
  · cases hvariable
  · rename_i block index howner
    simp only [valueParent?, howner, blockParent?] at hparent
    split at hparent
    · cases hparent
    · rename_i body hbody
      refine ⟨by simp [definingOp?, howner], body, around, ?_, ?_, hscope⟩
      · simp [valueRegion?, valueBlock?, howner, hbody]
      · exact regionParent?_eq_some.mpr ⟨loop, hparent, haround⟩

/-- A value that is defined in a scope or around it does not depend on the loops in the scope. -/
theorem not_dependsOn_of_encloses (hvisible : store.OperandsVisible)
    (hnesting : store.NoSelfNesting) (hregion : store.valueRegion? value = some region)
    (hencloses : store.Encloses region scope)
    (hvariable : store.IsInductionVariableIn scope other) : ¬ store.DependsOn value other := by
  intro hdepends
  obtain ⟨outer, houter, hregion'⟩ := encloses_of_dependsOn hvisible hdepends hregion
  obtain ⟨-, body, around, hbody, haround, hscope⟩ := hvariable.exists_region
  obtain rfl : outer = body := Option.some.inj (houter.symm.trans hbody)
  exact not_encloses_inside hnesting haround hscope (hencloses.trans hregion')

/-- A value that depends on an induction variable and is computed by an operation depends on it
through something that the operation reads. -/
theorem exists_depends_of_dependsOn {op : OpId} (hdefining : store.definingOp? value = some op)
    (hvariable : store.IsInductionVariableIn scope other) (h : store.DependsOn value other) :
    ∃ next, store.Depends value next ∧ store.DependsOn next other := by
  rcases Relation.ReflTransGen.cases_head h with rfl | hnext
  · cases hdefining.symm.trans hvariable.exists_region.1
  · exact hnext

/-! ## Sizes -/

theorem KnownSize.unique {op maker maker' : OpId} {source : ValueId} {index index' : Nat}
    (h : store.KnownSize op source maker index) (h' : store.KnownSize op source maker' index') :
    maker = maker' ∧ index = index' := by
  obtain ⟨_, _, hmaker, _, hindex, _⟩ := h
  obtain ⟨_, _, hmaker', _, hindex', _⟩ := h'
  exact ⟨Option.some.inj (hmaker.symm.trans hmaker'), Option.some.inj (hindex.symm.trans hindex')⟩

/-- The dimension of a known size is a constant. -/
theorem KnownSize.constantOf?_ne_none {op maker : OpId} {source : ValueId} {index : Nat}
    (h : store.KnownSize op source maker index) (hother : (store.op op).operands[1]? = some other) :
    store.constantOf? other ≠ none := by
  obtain ⟨_, _, _, _, hindex, _⟩ := h
  intro hnone
  simp [dimIndex?, hother, hnone] at hindex

/-- A size is fixed if the reference is at the top level of a scope, or if the size is known and
the operand that holds it is accepted. -/
theorem of_isFixedSize {accept : ValueId → Bool} {op : OpId} (h : store.isFixedSize accept op) :
    ∃ source, store.dimSource? op = some source ∧ (store.isTopLevelOfScope source ∨
      ∃ maker index, store.KnownSize op source maker index ∧
        ∀ size, store.dynamicSize? maker index = some size → accept size) := by
  unfold isFixedSize at h
  split at h
  · cases h
  · rename_i source hsource
    refine ⟨source, hsource, ?_⟩
    rcases Bool.or_eq_true_iff.mp h with htop | hknown
    · exact .inl htop
    · right
      split at hknown
      · rename_i type sizes index hsized hindex
        obtain ⟨maker, hmaker, hsized⟩ := Option.bind_eq_some_iff.mp hsized
        obtain ⟨hrank, haccept⟩ := Bool.and_eq_true_iff.mp hknown
        refine ⟨maker, index, ⟨type, sizes, hmaker, hsized, hindex, of_decide_eq_true hrank⟩, ?_⟩
        intro size hsize
        simp only [dynamicSize?, hsized] at hsize
        split at hsize
        · cases hsize
        · rename_i position hposition
          simpa [hposition, hsize] using haccept
      · cases hknown

/-! ## Symbols -/

theorem any_of_isTopLevelOfFirst {regions : List RegionId}
    (h : store.isTopLevelOfFirst value regions) : regions.any (store.isTopLevel value) := by
  unfold isTopLevelOfFirst at h
  split at h
  · cases h
  · simp [h]

/-- Why a value is accepted as a symbol. -/
theorem of_isSymbolWithin_succ {regions : List RegionId} {steps : Nat}
    (h : store.isSymbolWithin regions (steps + 1) value) :
    regions.any (store.isTopLevel value) ∨ ∃ op, store.definingOp? value = some op ∧
      ((∃ constant, (store.op op).kind = .constant constant) ∨
        (∃ map, (store.op op).kind = .apply map) ∧
          (∀ operand ∈ (store.op op).operands, store.isSymbolWithin regions steps operand) ∨
        (store.op op).kind = .dim ∧
          store.isFixedSize (store.isSymbolWithin regions steps) op) := by
  rw [isSymbolWithin] at h
  obtain ⟨-, h⟩ := Bool.and_eq_true_iff.mp h
  split at h
  · exact .inl h
  · rename_i op hdefining
    split at h
    · rename_i constant hkind
      exact .inr ⟨op, hdefining, .inl ⟨constant, hkind⟩⟩
    · rename_i map hkind
      rcases Bool.or_eq_true_iff.mp h with hfirst | hoperands
      · exact .inl (any_of_isTopLevelOfFirst hfirst)
      · exact .inr ⟨op, hdefining, .inr (.inl ⟨⟨map, hkind⟩, List.all_eq_true.mp hoperands⟩)⟩
    · rename_i hkind
      rcases Bool.or_eq_true_iff.mp h with hfirst | hfixed
      · exact .inl (any_of_isTopLevelOfFirst hfirst)
      · exact .inr ⟨op, hdefining, .inr (.inr ⟨hkind, hfixed⟩)⟩
    · exact .inl h

section Symbols

variable (hvisible : store.OperandsVisible) (hnesting : store.NoSelfNesting)

include hvisible hnesting

theorem not_dependsOn_of_isTopLevel (hstore : store.Reachable)
    (htop : (store.scopeChain (some scope)).any (store.isTopLevel value))
    (hvariable : store.IsInductionVariableIn scope other) : ¬ store.DependsOn value other := by
  obtain ⟨region, hmem, htop⟩ := List.any_eq_true.mp htop
  exact not_dependsOn_of_encloses hvisible hnesting (hstore.valueRegion?_of_isTopLevel htop)
    (encloses_of_mem_scopeChain hmem) hvariable

/-- A memory reference at the top level of a scope around an operation does not depend on the
loops in the scope of the operation. -/
theorem not_dependsOn_of_isTopLevelOfScope {op : OpId} (hscope : store.scope? op = some scope)
    (hvalue : store.Visible value op) (htop : store.isTopLevelOfScope value)
    (hvariable : store.IsInductionVariableIn scope other) : ¬ store.DependsOn value other := by
  obtain ⟨defined, used, hdefined, hused, hencloses⟩ := hvalue
  obtain ⟨region, owner, hregion, howner, htrait⟩ := exists_valueRegion?_of_isTopLevelOfScope htop
  obtain rfl : defined = region := Option.some.inj (hdefined.symm.trans hregion)
  exact not_dependsOn_of_encloses hvisible hnesting hdefined
    (encloses_scope hscope hused hencloses howner htrait) hvariable

/-- The size of a memory reference at the top level of a scope depends on the loops in the scope
through its dimension only. -/
theorem varyingSize_of_isTopLevelOfScope {op definer : OpId} {source next : ValueId}
    (hscope : store.scope? op = some scope) (hvalue : store.Visible value op)
    (hdefining : store.definingOp? value = some definer) (hkind : (store.op definer).kind = .dim)
    (hsource : store.dimSource? definer = some source) (htop : store.isTopLevelOfScope source)
    (hvariable : store.IsInductionVariableIn scope other) (hnext : store.Depends value next)
    (hrest : store.DependsOn next other) :
    ∃ sized index, store.DependsOn value sized ∧ store.IsVaryingSize sized index ∧
      store.DependsOn index other := by
  have hsourceVisible : store.Visible source op :=
    hvalue.outward fun hregion =>
      encloses_of_operand hvisible hdefining hregion (List.mem_of_getElem? hsource)
  have hfree : ¬ store.DependsOn source other :=
    not_dependsOn_of_isTopLevelOfScope hvisible hnesting hscope hsourceVisible htop hvariable
  rcases hnext.of_dim hdefining hkind hsource with
    ⟨hindex, hconstant⟩ | ⟨maker, index, hknown, hsize⟩ | ⟨rfl, -⟩
  · exact ⟨value, next, .refl, ⟨definer, source, hdefining, hkind, hsource, htop, hindex,
      hconstant⟩, hrest⟩
  · -- the operand that holds the size is read by the operation that makes the reference
    obtain ⟨_, _, hmaker, -⟩ := hknown
    obtain ⟨hoperand, hkind'⟩ := mem_operands_of_dynamicSize? hsize
    exact absurd (.head (.operand hmaker hkind' hoperand) hrest) hfree
  · exact absurd hrest hfree

/-- A symbol depends on the loops in its scope only through the dimension of a varying size. -/
theorem exists_varyingSize (hstore : store.Reachable) {op : OpId}
    (hscope : store.scope? op = some scope) {steps : Nat} (hvalue : store.Visible value op)
    (hsymbol : store.isSymbolWithin (store.scopeChain (some scope)) steps value)
    (hvariable : store.IsInductionVariableIn scope other) (hdepends : store.DependsOn value other) :
    ∃ sized index, store.DependsOn value sized ∧ store.IsVaryingSize sized index ∧
      store.DependsOn index other := by
  -- the check descends along dependences: what it accepts next is visible as well
  induction steps generalizing value with
  | zero =>
      obtain ⟨-, htop⟩ := Bool.and_eq_true_iff.mp hsymbol
      exact absurd hdepends (not_dependsOn_of_isTopLevel hvisible hnesting hstore htop hvariable)
  | succ steps ih =>
      rcases of_isSymbolWithin_succ hsymbol with htop | ⟨definer, hdefining, hcases⟩
      · exact absurd hdepends (not_dependsOn_of_isTopLevel hvisible hnesting hstore htop hvariable)
      obtain ⟨next, hnext, hrest⟩ := exists_depends_of_dependsOn hdefining hvariable hdepends
      have hcontinue : store.isSymbolWithin (store.scopeChain (some scope)) steps next →
          ∃ sized index, store.DependsOn value sized ∧ store.IsVaryingSize sized index ∧
            store.DependsOn index other := by
        intro hsymbol
        obtain ⟨sized, index, hsized, hvarying, hindex⟩ :=
          ih (hvalue.outward (encloses_of_depends hvisible hnext)) hsymbol hrest
        exact ⟨sized, index, .head hnext hsized, hvarying, hindex⟩
      rcases hcases with ⟨constant, hkind⟩ | ⟨⟨map, hkind⟩, hoperands⟩ | ⟨hkind, hfixed⟩
      · -- a constant reads nothing
        have hnone : (store.op definer).operands = [] := by
          have hfits := hstore.fits definer
          rwa [hkind] at hfits
        have hmem := hnext.mem_operands hdefining (by simp [hkind])
        rw [hnone] at hmem
        cases hmem
      · exact hcontinue (hoperands next (hnext.mem_operands hdefining (by simp [hkind])))
      · obtain ⟨source, hsource, hfixed⟩ := of_isFixedSize hfixed
        rcases hfixed with htop | ⟨maker, index, hknown, haccept⟩
        · exact varyingSize_of_isTopLevelOfScope hvisible hnesting hscope hvalue hdefining hkind
            hsource htop hvariable hnext hrest
        · rcases hnext.of_dim hdefining hkind hsource with
            ⟨hindex, hconstant⟩ | ⟨maker', index', hknown', hsize⟩ | ⟨-, hunknown⟩
          · exact absurd hconstant (hknown.constantOf?_ne_none hindex)
          · obtain ⟨rfl, rfl⟩ := hknown.unique hknown'
            exact hcontinue (haccept next hsize)
          · exact absurd hknown (hunknown maker index)

end Symbols

/-- A valid symbol depends on an induction variable of a loop in its scope exactly if the symbol
is or depends on the size of a memory reference at the top level of a scope, asked for in a
dimension that is not a constant and depends on the variable. -/
theorem depends_inductionVariable_iff (hstore : store.Reachable)
    (hvisible : store.OperandsVisible) (hnesting : store.NoSelfNesting) {op : OpId}
    (hscope : store.scope? op = some scope) (hvalue : store.Visible value op)
    (hsymbol : store.isSymbol value (some scope)) :
    (∃ iv, store.IsInductionVariableIn scope iv ∧ store.DependsOn value iv) ↔
      ∃ sized index iv, store.DependsOn value sized ∧ store.IsVaryingSize sized index ∧
        store.DependsOn index iv ∧ store.IsInductionVariableIn scope iv := by
  constructor
  · rintro ⟨iv, hvariable, hdepends⟩
    obtain ⟨sized, index, hsized, hvarying, hindex⟩ :=
      exists_varyingSize hvisible hnesting hstore hscope hvalue hsymbol hvariable hdepends
    exact ⟨sized, index, iv, hsized, hvarying, hindex, hvariable⟩
  · rintro ⟨sized, index, iv, hsized, hvarying, hindex, hvariable⟩
    obtain ⟨definer, source, hdefining, hkind, -, -, hoperand, hconstant⟩ := hvarying
    have hstep : store.Depends sized index := .dimension hdefining hkind hoperand hconstant
    exact ⟨iv, hvariable, hsized.trans (.head hstep hindex)⟩

end Store

/-! A function takes a memory reference, and a loop in it asks for the size of the reference in the
dimension that is the induction variable. -/

namespace SizeInLoop

def function : Store :=
  (Build.function 0 "f" [.memref [.dynamic, .static 4] (.float 32) []] .empty).2

def withLoop : Store :=
  (Build.appendOp ⟨0⟩ ⟨2⟩
    (Build.forLoop 0 ⟨0, .ofConst 0⟩ [] ⟨0, .ofConst 2⟩ [] 1 function).2).2

def store : Store :=
  (Build.insertBeforeTerminator ⟨1⟩ ⟨3⟩ (Build.dim 0 ⟨0⟩ ⟨1⟩ withLoop).2).2

theorem reachable : store.Reachable :=
  (Construction.insertBeforeTerminator (by decide) (by decide)).reachable <|
    (Construction.dim (by decide)).reachable <|
      (Construction.appendOp (by decide) (by decide)).reachable <|
        (Construction.forLoop (by decide) (by decide) (by decide)).reachable <|
          (Construction.function 0 "f" _).reachable .empty

theorem encloses : store.Encloses ⟨0⟩ ⟨1⟩ := .single (by decide)

theorem operandsVisible : store.OperandsVisible := by
  rintro ⟨index⟩ hregion operand hoperand
  match index with
  | 0 => cases hregion
  | 1 => cases hoperand
  | 2 => cases hoperand
  | 3 =>
      have hoperand : operand ∈ [⟨0⟩, ⟨1⟩] := hoperand
      simp only [List.mem_cons, List.not_mem_nil, or_false] at hoperand
      rcases hoperand with rfl | rfl
      · exact ⟨⟨0⟩, ⟨1⟩, by decide, by decide, encloses⟩
      · exact ⟨⟨1⟩, ⟨1⟩, by decide, by decide, .refl⟩
  | index + 4 => cases hregion

/-- The number of operations around an operation. -/
def depth (op : OpId) : Nat := [0, 2, 1, 2].getD op.index 0

theorem noSelfNesting : store.NoSelfNesting := Store.noSelfNesting_of_depth depth (by decide)

theorem isInductionVariableIn : store.IsInductionVariableIn ⟨0⟩ ⟨1⟩ :=
  ⟨by decide, ⟨2⟩, ⟨0⟩, by decide, by decide, .refl⟩

theorem dependsOn : store.DependsOn ⟨2⟩ ⟨1⟩ := by
  have hdefining : store.definingOp? ⟨2⟩ = some ⟨3⟩ := by decide
  exact .single (.dimension hdefining (by decide) (by decide) (by decide))

theorem visible : store.Visible ⟨2⟩ ⟨3⟩ := ⟨⟨1⟩, ⟨1⟩, by decide, by decide, .refl⟩

end SizeInLoop

open SizeInLoop in
/-- Valid symbols need not be invariant in their scope. -/
theorem not_forall_isSymbol_invariant :
    ¬ ∀ (store : Store) (op : OpId) (scope : RegionId) (value iv : ValueId),
      store.Reachable → store.OperandsVisible → store.NoSelfNesting →
      store.scope? op = some scope → store.Visible value op → store.isSymbol value (some scope) →
      store.IsInductionVariableIn scope iv → ¬ store.DependsOn value iv := by
  intro hinvariant
  exact hinvariant store ⟨3⟩ ⟨0⟩ ⟨2⟩ ⟨1⟩ reachable operandsVisible noSelfNesting (by decide) visible
    (by decide) isInductionVariableIn dependsOn

open SizeInLoop in
theorem depends_inductionVariable_iff_sizeInLoop :
    store.Reachable ∧ store.OperandsVisible ∧ store.NoSelfNesting ∧
    store.scope? ⟨3⟩ = some ⟨0⟩ ∧ store.Visible ⟨2⟩ ⟨3⟩ ∧ store.isSymbol ⟨2⟩ (some ⟨0⟩) ∧
    ∃ sized index iv, store.DependsOn ⟨2⟩ sized ∧ store.IsVaryingSize sized index ∧
      store.DependsOn index iv ∧ store.IsInductionVariableIn ⟨0⟩ iv :=
  ⟨reachable, operandsVisible, noSelfNesting, by decide, visible, by decide,
    (Store.depends_inductionVariable_iff reachable operandsVisible noSelfNesting
      (by decide : store.scope? ⟨3⟩ = some ⟨0⟩) visible (by decide)).mp
      ⟨⟨1⟩, isInductionVariableIn, dependsOn⟩⟩

end AffineLoops
