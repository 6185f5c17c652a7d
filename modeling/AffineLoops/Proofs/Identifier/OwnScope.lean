import AffineLoops.Proofs.Identifier.Judgement
import AffineLoops.Proofs.Identifier.ScopeChain

/-!
# Symbols of the own scope at the places where they are used

A value is judged in the scope in which it is defined, once and for all, and again in the scope of
every operation that uses it.  The two judgements differ in two ways.

* In its own scope a value counts as defined at the top level if the *operation* around its block
  has a scope.  At a use it has to be an argument of the *entry block* of a region
  (`IsLaterArgument`).
* At a use in another scope the results of apply operations and the sizes of memory references
  are judged by their operands, and that they are defined at the top level of a region around the
  scope does not help them (`IsSymbolByOperands`).

`isSymbol_iff_of_isSymbolInOwnScope` says that there is no further difference.  Its proof goes up
from the use to the definition: either a scope is met on the way, and the region of the
definition is in its chain, or none is, and the two scopes are the same
(`scope?_of_enclosesOpenly`).
-/

namespace AffineLoops

namespace Store

/-- The value is defined in the region of an operation or around it, with no operation in between
that is isolated from above. -/
def Usable (store : Store) (value : ValueId) (op : OpId) : Prop :=
  ∃ defined used, store.valueRegion? value = some defined ∧ store.opRegion? op = some used ∧
    store.EnclosesOpenly defined used

/-- The value is an argument of a block of a region other than the first. -/
def IsLaterArgument (store : Store) (value : ValueId) : Prop :=
  ∃ block index region, (store.value value).owner = .argument block index ∧
    (store.block block).parent = some region ∧ store.entryBlock? region ≠ some block

/-- What the operands of an operation have to be for its result to be a symbol in a scope that
is not its own. -/
def IsSymbolByOperands (store : Store) (definer : OpId) (scope : Option RegionId) : Prop :=
  (∀ map, (store.op definer).kind = .apply map →
    ∀ operand ∈ (store.op definer).operands, store.isSymbol operand scope) ∧
  ((store.op definer).kind = .dim → store.isFixedSize (store.isSymbol · scope) definer)

variable {store : Store} {value : ValueId} {op : OpId}

/-! ## The way up from a use to a definition -/

/-- The scope of an operation depends on its region only. -/
theorem scope?_congr (hnesting : store.NoSelfNesting) {op other : OpId} {region : RegionId}
    (hop : store.opRegion? op = some region) (hother : store.opRegion? other = some region) :
    store.scope? op = store.scope? other := by
  rw [scope?_eq hnesting op, scope?_eq hnesting other, opParent?_of_opRegion? hop,
    opParent?_of_opRegion? hother, hop, hother]

theorem scope?_of_enclosesOpenly (hnesting : store.NoSelfNesting) {defined used : RegionId}
    (hused : store.opRegion? op = some used) (hpath : store.EnclosesOpenly defined used) :
    (∃ scope, store.scope? op = some scope ∧ store.EnclosesOpenly defined scope) ∨
      (∀ owner, (store.region defined).parent = some owner → ¬ store.hasTrait owner .affineScope) ∧
        ∀ definer, store.opRegion? definer = some defined →
          store.scope? op = store.scope? definer := by
  induction hpath using Relation.ReflTransGen.head_induction_on generalizing op with
  | refl =>
      by_cases hscope : ∃ owner, (store.region defined).parent = some owner ∧
          store.hasTrait owner .affineScope
      · obtain ⟨owner, howner, htrait⟩ := hscope
        exact Or.inl ⟨defined, scope?_of_hasTrait hused howner htrait, .refl⟩
      · refine Or.inr ⟨fun owner howner htrait => hscope ⟨owner, howner, htrait⟩, ?_⟩
        exact fun definer hdefiner => scope?_congr hnesting hused hdefiner
  | @head used next hstep hrest ih =>
      obtain ⟨owner, howner, -, hnext⟩ := enclosingRegion?_eq_some.mp hstep
      by_cases htrait : store.hasTrait owner .affineScope
      · exact Or.inl ⟨used, scope?_of_hasTrait hused howner htrait, .head hstep hrest⟩
      · -- the operation around the use has the same scope, and the way goes on from there
        have hsame : store.scope? op = store.scope? owner := by
          rw [scope?_eq hnesting op, opParent?_of_opRegion? hused, howner]
          exact if_neg htrait
        rw [hsame]
        exact ih hnext

/-! ## Arguments of blocks -/

theorem isTopLevel_argument {block : BlockId} {index : Nat} {region : RegionId}
    (howner : (store.value value).owner = .argument block index) :
    store.isTopLevel value region ↔ store.entryBlock? region = some block := by
  simp [isTopLevel, howner]

/-- An argument of a block of a scope is a symbol in what the scope encloses openly exactly if the
block is the first of its region. -/
theorem isSymbol_argument_iff (hstore : store.Reachable) (hnesting : store.NoSelfNesting)
    {block : BlockId} {index : Nat} {defined scope : RegionId}
    (howner : (store.value value).owner = .argument block index)
    (hdefined : store.valueRegion? value = some defined)
    (hpath : store.EnclosesOpenly defined scope) (hindex : (store.typeOf value).isIndex) :
    store.isSymbol value (some scope) ↔ ¬ store.IsLaterArgument value := by
  have hdefining : store.definingOp? value = none := by simp [definingOp?, howner]
  have hparent : (store.block block).parent = some defined := by
    simpa [valueRegion?, valueBlock?, howner] using hdefined
  have hsymbol : store.isSymbol value (some scope) ↔
      ∃ region ∈ store.scopeChain (some scope), store.isTopLevel value region := by
    rw [isSymbol_eq hstore.ordered, hindex, hdefining]
    simp
  rw [hsymbol]
  constructor
  · rintro ⟨region, -, htop⟩ ⟨block', index', region', howner', hparent', hlater⟩
    obtain ⟨rfl, -⟩ := ValueOwner.argument.inj (howner.symm.trans howner')
    have hregion := hstore.valueRegion?_of_isTopLevel htop
    obtain rfl : defined = region := Option.some.inj (hdefined.symm.trans hregion)
    obtain rfl : defined = region' := Option.some.inj (hparent.symm.trans hparent')
    exact hlater ((isTopLevel_argument howner).mp htop)
  · intro hfirst
    refine ⟨defined, (mem_scopeChain_iff hnesting).mpr hpath, ?_⟩
    rw [isTopLevel_argument howner]
    by_contra hlater
    exact hfirst ⟨block, index, defined, howner, hparent, hlater⟩

/-! ## Results of operations -/

/-- The result of an operation in a region of the scope chain is a symbol by its place, or else by
the operands of the operation. -/
theorem isSymbol_result_iff (hordered : store.Ordered) {definer : OpId} {scope : Option RegionId}
    {defined : RegionId} (hdefining : store.definingOp? value = some definer)
    (hdefined : store.opRegion? definer = some defined)
    (hmem : defined ∈ store.scopeChain scope) (hindex : (store.typeOf value).isIndex) :
    store.isSymbol value scope ↔
      store.isTopLevelOfFirst value (store.scopeChain scope) ∨
        store.IsSymbolByOperands definer scope := by
  have hany : (store.scopeChain scope).any (store.isTopLevel value) :=
    List.any_eq_true.mpr ⟨defined, hmem, (isTopLevel_of_definingOp? hdefining).mpr hdefined⟩
  rw [isSymbol_eq hordered, hindex, hdefining, IsSymbolByOperands]
  cases hkind : (store.op definer).kind <;> simp [hkind, hany]

/-- What is a symbol in its own scope is a symbol in the scope of its operation. -/
theorem isSymbol_scope?_of_isSymbolInOwnScope (hordered : store.Ordered) {definer : OpId}
    (hdefining : store.definingOp? value = some definer) (hown : store.isSymbolInOwnScope value) :
    store.isSymbol value (store.scope? definer) := by
  obtain ⟨hindex, hown⟩ := Bool.and_eq_true_iff.mp hown
  rw [hdefining] at hown
  rcases Bool.or_eq_true_iff.mp hown with htop | hsymbol
  · obtain ⟨region, owner, hregion, howner, htrait⟩ :=
      exists_valueRegion?_of_isTopLevelOfScope htop
    rw [valueRegion?_of_definingOp? hdefining] at hregion
    rw [scope?_of_hasTrait hregion howner htrait,
      isSymbol_result_iff hordered hdefining hregion List.mem_cons_self hindex]
    exact Or.inl ((isTopLevel_of_definingOp? hdefining).mpr hregion)
  · exact hsymbol

/-- A result that is used in another scope than its own is not at the top level of that scope. -/
theorem not_isTopLevel_of_scope?_ne {definer : OpId} {scope : RegionId}
    (hdefining : store.definingOp? value = some definer) (hscope : store.scope? op = some scope)
    (hne : store.scope? op ≠ store.scope? definer) : ¬ store.isTopLevel value scope := by
  intro htop
  have hregion := (isTopLevel_of_definingOp? hdefining).mp htop
  obtain ⟨owner, howner, htrait⟩ := exists_owner_of_scope? hscope
  exact hne (hscope.trans (scope?_of_hasTrait hregion howner htrait).symm)

/-! ## Both together -/

/-- A symbol of its own scope is a symbol at a place where it can be used, unless it is an argument
of a later block of a region, or its operation is used in another scope and there fails the
judgement by its operands. -/
theorem isSymbol_iff_of_isSymbolInOwnScope (hstore : store.Reachable)
    (hnesting : store.NoSelfNesting) (husable : store.Usable value op)
    (hown : store.isSymbolInOwnScope value) :
    store.isSymbol value (store.scope? op) ↔
      ¬ store.IsLaterArgument value ∧ ∀ definer, store.definingOp? value = some definer →
        store.scope? op ≠ store.scope? definer →
        store.IsSymbolByOperands definer (store.scope? op) := by
  obtain ⟨defined, used, hdefined, hused, hpath⟩ := husable
  obtain ⟨hindex, htop⟩ := Bool.and_eq_true_iff.mp hown
  have hway := scope?_of_enclosesOpenly hnesting hused hpath
  cases howner : (store.value value).owner with
  | argument block index =>
      have hdefining : store.definingOp? value = none := by simp [definingOp?, howner]
      simp only [hdefining, Bool.or_false] at htop
      obtain ⟨region, owner, hregion, hparent, htrait⟩ :=
        exists_valueRegion?_of_isTopLevelOfScope htop
      obtain rfl : defined = region := Option.some.inj (hdefined.symm.trans hregion)
      -- the region of the argument is a scope, so the way up meets one
      rcases hway with ⟨scope, hscope, hencloses⟩ | ⟨hplain, -⟩
      · rw [hscope, isSymbol_argument_iff hstore hnesting howner hdefined hencloses hindex]
        simp [hdefining]
      · exact absurd htrait (hplain owner hparent)
  | result definer index =>
      have hdefining : store.definingOp? value = some definer := by simp [definingOp?, howner]
      have hfirst : ¬ store.IsLaterArgument value := by
        rintro ⟨_, _, _, howner', -⟩
        cases howner.symm.trans howner'
      have hregion : store.opRegion? definer = some defined :=
        (valueRegion?_of_definingOp? hdefining).symm.trans hdefined
      have hsame := isSymbol_scope?_of_isSymbolInOwnScope hstore.ordered hdefining hown
      by_cases hne : store.scope? op = store.scope? definer
      · refine iff_of_true (hne ▸ hsame) ⟨hfirst, fun definer' hdefining' hne' => ?_⟩
        obtain rfl := Option.some.inj (hdefining.symm.trans hdefining')
        exact absurd hne hne'
      · rcases hway with ⟨scope, hscope, hencloses⟩ | ⟨-, hequal⟩
        · have hmem : defined ∈ store.scopeChain (store.scope? op) := by
            rw [hscope]
            exact (mem_scopeChain_iff hnesting).mpr hencloses
          have hnotTop : ¬ store.isTopLevelOfFirst value (store.scopeChain (store.scope? op)) := by
            rw [hscope]
            exact not_isTopLevel_of_scope?_ne hdefining hscope hne
          rw [isSymbol_result_iff hstore.ordered hdefining hregion hmem hindex]
          simp [hnotTop, hfirst, hdefining, hne]
        · exact absurd (hequal definer hregion) hne

end Store

/-! The body of a loop makes a memory reference and holds an operation with its own scope.  The
first block of that scope takes the size of the reference and holds another operation with its own
scope, in which the size is used.  The second block has an argument and an operation that uses
it. -/

namespace NestedScopes

set_option maxRecDepth 2000

def loop : Store :=
  (Build.forLoop 0 ⟨0, .ofConst 0⟩ [] ⟨0, .ofConst 2⟩ [] 1 .empty).2

def inLoop : Store :=
  let made := (Build.buildOp 0 (.generic "make") [] []
    [⟨0, .memref [.dynamic] (.float 32) []⟩] [] loop).2
  let placed := (Build.insertBeforeTerminator ⟨0⟩ ⟨2⟩ made).2
  let constant := (Build.constant 0 0 .index placed).2
  (Build.insertBeforeTerminator ⟨0⟩ ⟨3⟩ constant).2

def withScope : Store :=
  let region := (Build.ofAdd (·.addRegion 0) inLoop).2
  let first := (Build.ofAdd (·.addBlock 0 []) region).2
  let second := (Build.ofAdd (·.addBlock 0 [.index]) first).2
  let placed := (Build.appendBlock ⟨1⟩ ⟨1⟩ second).2
  let placed := (Build.appendBlock ⟨1⟩ ⟨2⟩ placed).2
  let scope := (Build.buildOp 0 (.generic "scope") [.affineScope] [] [] [⟨1⟩] placed).2
  (Build.insertBeforeTerminator ⟨0⟩ ⟨4⟩ scope).2

def withSize : Store :=
  let size := (Build.dim 0 ⟨1⟩ ⟨2⟩ withScope).2
  (Build.appendOp ⟨1⟩ ⟨5⟩ size).2

def withInnerScope : Store :=
  let region := (Build.ofAdd (·.addRegion 0) withSize).2
  let block := (Build.ofAdd (·.addBlock 0 []) region).2
  let placed := (Build.appendBlock ⟨2⟩ ⟨3⟩ block).2
  let scope := (Build.buildOp 0 (.generic "scope") [.affineScope] [] [] [⟨2⟩] placed).2
  (Build.appendOp ⟨1⟩ ⟨6⟩ scope).2

def store : Store :=
  let sizeUse := (Build.buildOp 0 (.generic "use") [] [⟨4⟩] [] [] withInnerScope).2
  let placed := (Build.appendOp ⟨3⟩ ⟨7⟩ sizeUse).2
  let argumentUse := (Build.buildOp 0 (.generic "use") [] [⟨3⟩] [] [] placed).2
  (Build.appendOp ⟨2⟩ ⟨8⟩ argumentUse).2

theorem reachable_inLoop : inLoop.Reachable :=
  (Construction.insertBeforeTerminator (by decide) (by decide)).reachable <|
    (Construction.constant 0 0 .index).reachable <|
      (Construction.insertBeforeTerminator (by decide) (by decide)).reachable <|
        (Construction.generic (by decide) (by decide)).reachable <|
          (Construction.forLoop (by decide) (by decide) (by decide)).reachable .empty

theorem reachable_withScope : withScope.Reachable :=
  (Construction.insertBeforeTerminator (by decide) (by decide)).reachable <|
    (Construction.generic (by decide) (by decide)).reachable <|
      (Construction.appendBlock (by decide) (by decide)).reachable <|
        (Construction.appendBlock (by decide) (by decide)).reachable <|
          (Construction.block 0 [.index]).reachable <|
            (Construction.block 0 []).reachable <|
              (Construction.region 0).reachable reachable_inLoop

theorem reachable_withInnerScope : withInnerScope.Reachable :=
  (Construction.appendOp (by decide) (by decide)).reachable <|
    (Construction.generic (by decide) (by decide)).reachable <|
      (Construction.appendBlock (by decide) (by decide)).reachable <|
        (Construction.block 0 []).reachable <|
          (Construction.region 0).reachable <|
            (Construction.appendOp (by decide) (by decide)).reachable <|
              (Construction.dim (by decide)).reachable reachable_withScope

theorem reachable : store.Reachable :=
  (Construction.appendOp (by decide) (by decide)).reachable <|
    (Construction.generic (by decide) (by decide)).reachable <|
      (Construction.appendOp (by decide) (by decide)).reachable <|
        (Construction.generic (by decide) (by decide)).reachable reachable_withInnerScope

/-- The number of operations around an operation. -/
def depth (op : OpId) : Nat := [1, 0, 1, 1, 1, 2, 2, 3, 2].getD op.index 0

theorem noSelfNesting : store.NoSelfNesting := Store.noSelfNesting_of_depth depth (by decide)

theorem usable_size : store.Usable ⟨4⟩ ⟨7⟩ :=
  ⟨⟨1⟩, ⟨2⟩, by decide, by decide, .single (by decide)⟩

theorem usable_argument : store.Usable ⟨3⟩ ⟨8⟩ :=
  ⟨⟨1⟩, ⟨1⟩, by decide, by decide, .refl⟩

end NestedScopes

set_option maxRecDepth 2000 in
open NestedScopes in
/-- The size is a symbol of its own scope and is not one where it is used. -/
theorem not_forall_isSymbol_of_isSymbolInOwnScope :
    ¬ ∀ (store : Store) (value : ValueId) (op : OpId), store.Reachable → store.NoSelfNesting →
      store.Usable value op → store.isSymbolInOwnScope value →
      store.isSymbol value (store.scope? op) := by
  intro h
  have hsymbol := h store ⟨4⟩ ⟨7⟩ reachable noSelfNesting usable_size (by decide)
  revert hsymbol
  decide

set_option maxRecDepth 2000 in
open NestedScopes in
/-- Neither is the argument of the second block. -/
theorem isSymbol_iff_of_isSymbolInOwnScope_nestedScopes :
    store.Reachable ∧ store.NoSelfNesting ∧ store.Usable ⟨3⟩ ⟨8⟩ ∧ store.isSymbolInOwnScope ⟨3⟩ ∧
      ¬ store.isSymbol ⟨3⟩ (store.scope? ⟨8⟩) := by
  have hown : store.isSymbolInOwnScope ⟨3⟩ := by decide
  refine ⟨reachable, noSelfNesting, usable_argument, hown, fun hsymbol => ?_⟩
  have hfirst := ((Store.isSymbol_iff_of_isSymbolInOwnScope reachable noSelfNesting usable_argument
    hown).mp hsymbol).1
  exact hfirst ⟨⟨2⟩, 0, ⟨1⟩, by decide, by decide, by decide⟩

end AffineLoops
