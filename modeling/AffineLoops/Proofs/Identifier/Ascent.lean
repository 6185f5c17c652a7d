import AffineLoops.Proofs.Identifier.Judgement
import AffineLoops.Proofs.Identifier.ScopeChain

/-!
# Judgements that end

Whether a value is a symbol in its own scope is found out by searches that go outwards, from an
operation to the one around it and from a region to the one around it, and by judgements about
operands.  This file describes these searches by their runs, which have no bound: a search that
does not end has no run.

* `findsScope_scope?`, `judgesSymbol_isSymbol` and `judgesInOwnScope_isSymbolInOwnScope`: where no
  operation is nested in itself, every search ends, with what is found in a bounded number of
  steps;
* `not_findsScope_of_transGen`: from an operation that is nested in itself, with no scope in
  between, the search for a scope never ends.
-/

namespace AffineLoops.Store

/-! ## Runs -/

/-- The search for the scope of an operation ends with a result.  It goes outwards until the
operation around the current one has its own scope, or there is none. -/
inductive FindsScope (store : Store) : OpId → Option RegionId → Prop
  | outermost {op : OpId} (hparent : store.opParent? op = none) : FindsScope store op none
  | scope {op parent : OpId} (hparent : store.opParent? op = some parent)
      (htrait : store.hasTrait parent .affineScope) : FindsScope store op (store.opRegion? op)
  | outwards {op parent : OpId} {scope : Option RegionId}
      (hparent : store.opParent? op = some parent)
      (htrait : ¬ store.hasTrait parent .affineScope) (h : FindsScope store parent scope) :
      FindsScope store op scope

/-- The type of a value and the region in which it is judged do not decide yet whether it is a
symbol. -/
structure Undecided (store : Store) (value : ValueId) (scope : Option RegionId) : Prop where
  isIndex : (store.typeOf value).isIndex
  not_isTopLevel : ∀ region ∈ scope, ¬ store.isTopLevel value region

/-- A value is a symbol only by the region in which it is defined: it is an argument, or an
operation of no special kind makes it. -/
def isJudgedByRegion (store : Store) (value : ValueId) : Bool :=
  match store.definingOp? value with
  | none => true
  | some op =>
      match (store.op op).kind with
      | .constant _ | .apply _ | .dim => false
      | _ => true

/-- The judgement whether a value is a symbol in a scope ends with a result.  The type and the top
level of the scope are looked at first.  Then the regions around the scope are searched, unless the
value is a constant, or is judged by the operands of an apply operation, in turn up to the first
that is no symbol, or by the size of a memory reference. -/
inductive JudgesSymbol (store : Store) : ValueId → Option RegionId → Bool → Prop
  | notIndex {value : ValueId} {scope : Option RegionId}
      (htype : ¬ (store.typeOf value).isIndex) : JudgesSymbol store value scope false
  | topLevel {value : ValueId} {region : RegionId} (htype : (store.typeOf value).isIndex)
      (htop : store.isTopLevel value region) : JudgesSymbol store value (some region) true
  | outermost {value : ValueId} {scope : Option RegionId} (hopen : store.Undecided value scope)
      (hregion : store.isJudgedByRegion value)
      (hnone : scope.bind store.enclosingRegion? = none) : JudgesSymbol store value scope false
  | outwards {value : ValueId} {scope : Option RegionId} {outer : RegionId} {isSymbol : Bool}
      (hopen : store.Undecided value scope) (hregion : store.isJudgedByRegion value)
      (houter : scope.bind store.enclosingRegion? = some outer)
      (h : JudgesSymbol store value (some outer) isSymbol) :
      JudgesSymbol store value scope isSymbol
  | constant {value : ValueId} {scope : Option RegionId} {op : OpId} {constant : Int}
      (hopen : store.Undecided value scope) (hop : store.definingOp? value = some op)
      (hkind : (store.op op).kind = .constant constant) : JudgesSymbol store value scope true
  | applied {value : ValueId} {scope : Option RegionId} {op : OpId} {map : AffineMap}
      (hopen : store.Undecided value scope) (hop : store.definingOp? value = some op)
      (hkind : (store.op op).kind = .apply map)
      (hoperands : ∀ operand ∈ (store.op op).operands, JudgesSymbol store operand scope true) :
      JudgesSymbol store value scope true
  | refused {value : ValueId} {scope : Option RegionId} {op : OpId} {map : AffineMap}
      {before after : List ValueId} {operand : ValueId}
      (hopen : store.Undecided value scope) (hop : store.definingOp? value = some op)
      (hkind : (store.op op).kind = .apply map)
      (hoperands : (store.op op).operands = before ++ operand :: after)
      (hbefore : ∀ operand ∈ before, JudgesSymbol store operand scope true)
      (h : JudgesSymbol store operand scope false) : JudgesSymbol store value scope false
  | known {value : ValueId} {scope : Option RegionId} {op : OpId} {fixed : Bool}
      (hopen : store.Undecided value scope) (hop : store.definingOp? value = some op)
      (hkind : (store.op op).kind = .dim)
      (hfixed : ∀ accept, store.isFixedSize accept op = fixed) :
      JudgesSymbol store value scope fixed
  | size {value size : ValueId} {scope : Option RegionId} {op : OpId} {isSymbol : Bool}
      (hopen : store.Undecided value scope) (hop : store.definingOp? value = some op)
      (hkind : (store.op op).kind = .dim)
      (hsize : ∀ accept, store.isFixedSize accept op = accept size)
      (h : JudgesSymbol store size scope isSymbol) : JudgesSymbol store value scope isSymbol

/-- The judgement whether a value is a symbol in its own scope ends with a result. -/
inductive JudgesInOwnScope (store : Store) (value : ValueId) : Bool → Prop
  | notIndex (htype : ¬ (store.typeOf value).isIndex) : JudgesInOwnScope store value false
  | topLevel (htype : (store.typeOf value).isIndex) (htop : store.isTopLevelOfScope value) :
      JudgesInOwnScope store value true
  | argument (htype : (store.typeOf value).isIndex) (hbelow : ¬ store.isTopLevelOfScope value)
      (hop : store.definingOp? value = none) : JudgesInOwnScope store value false
  | result {op : OpId} {scope : Option RegionId} {isSymbol : Bool}
      (htype : (store.typeOf value).isIndex) (hbelow : ¬ store.isTopLevelOfScope value)
      (hop : store.definingOp? value = some op) (hscope : store.FindsScope op scope)
      (h : store.JudgesSymbol value scope isSymbol) : JudgesInOwnScope store value isSymbol

variable {store : Store}

/-! ## Searches that do not end -/

/-- No search for a scope ends that starts at an operation nested in itself, unless an operation
around it has its own scope. -/
theorem not_findsScope_of_transGen {op : OpId} {scope : Option RegionId}
    (hcycle : Relation.TransGen (fun inner outer => store.opParent? inner = some outer) op op)
    (htraits : ∀ outer, Relation.TransGen (fun inner outer => store.opParent? inner = some outer)
      op outer → ¬ store.hasTrait outer .affineScope) : ¬ store.FindsScope op scope := by
  intro hfinds
  induction hfinds with
  | outermost hparent =>
      obtain ⟨parent, hstep, -⟩ := Relation.TransGen.head'_iff.mp hcycle
      simp [hparent] at hstep
  | scope hparent htrait => exact htraits _ (.single hparent) htrait
  | outwards hparent htrait _ ih =>
      -- the operation around one on the cycle is on the cycle
      obtain ⟨parent, hstep, hback⟩ := Relation.TransGen.head'_iff.mp hcycle
      obtain rfl := Option.some.inj (hparent.symm.trans hstep)
      exact ih (.tail' hback hparent) fun outer hpath => htraits outer (.head hparent hpath)

/-! ## One step of a judgement -/

section Steps

variable {value : ValueId} {scope : Option RegionId} {op : OpId}
  (htype : (store.typeOf value).isIndex) (hop : store.definingOp? value = some op)

include htype

theorem judgesSymbol_or {isSymbol : Bool}
    (h : store.Undecided value scope → store.JudgesSymbol value scope isSymbol) :
    store.JudgesSymbol value scope
      (store.isTopLevelOfFirst value (store.scopeChain scope) || isSymbol) := by
  cases scope with
  | none => exact h ⟨htype, by simp⟩
  | some region =>
      have hfirst : store.isTopLevelOfFirst value (store.scopeChain (some region)) =
        store.isTopLevel value region := rfl
      rw [hfirst]
      by_cases htop : store.isTopLevel value region
      · simpa [htop] using JudgesSymbol.topLevel htype htop
      · simpa [htop] using h ⟨htype, by simpa using htop⟩

include hop

theorem judgesSymbol_constant {constant : Int} (hkind : (store.op op).kind = .constant constant)
    (scope : Option RegionId) : store.JudgesSymbol value scope true := by
  have hor := judgesSymbol_or htype fun hopen : store.Undecided value scope =>
    .constant hopen hop hkind
  simpa using hor

/-- The operands of an apply operation are judged in turn, up to the first that is no symbol. -/
theorem judgesSymbol_all {map : AffineMap} (hkind : (store.op op).kind = .apply map)
    (h : ∀ operand ∈ (store.op op).operands,
      store.JudgesSymbol operand scope (store.isSymbol operand scope)) :
    store.JudgesSymbol value scope
      (store.isTopLevelOfFirst value (store.scopeChain scope) ||
        (store.op op).operands.all (store.isSymbol · scope)) := by
  refine judgesSymbol_or htype fun hopen => ?_
  cases hfind : (store.op op).operands.find? (fun operand => !store.isSymbol operand scope) with
  | none =>
      have hsymbols : ∀ operand ∈ (store.op op).operands, store.isSymbol operand scope := by
        simpa using hfind
      rw [List.all_eq_true.mpr hsymbols]
      exact .applied hopen hop hkind fun operand hmem => hsymbols operand hmem ▸ h operand hmem
  | some operand =>
      obtain ⟨hother, before, after, hoperands, hbefore⟩ := List.find?_eq_some_iff_append.mp hfind
      have hmem : operand ∈ (store.op op).operands := List.mem_of_find?_eq_some hfind
      have hother : store.isSymbol operand scope = false := by simpa using hother
      have hnot : (store.op op).operands.all (store.isSymbol · scope) = false :=
        List.all_eq_false.mpr ⟨operand, hmem, by simp [hother]⟩
      rw [hnot]
      refine .refused hopen hop hkind hoperands (fun first hfirst => ?_) (hother ▸ h operand hmem)
      have hsymbol : store.isSymbol first scope = true := by simpa using hbefore first hfirst
      exact hsymbol ▸ h first (by simp [hoperands, hfirst])

theorem judgesSymbol_isFixedSize (hkind : (store.op op).kind = .dim)
    (h : ∀ source maker size, store.dimSource? op = some source →
      store.definingOp? source = some maker → size ∈ (store.op maker).operands →
      store.JudgesSymbol size scope (store.isSymbol size scope)) :
    store.JudgesSymbol value scope
      (store.isTopLevelOfFirst value (store.scopeChain scope) ||
        store.isFixedSize (store.isSymbol · scope) op) := by
  refine judgesSymbol_or htype fun hopen => ?_
  rcases store.isFixedSize_cases op with ⟨fixed, hfixed⟩ |
    ⟨source, maker, size, hsource, hmaker, hmem, hsize⟩
  · rw [hfixed]
    exact .known hopen hop hkind hfixed
  · rw [hsize]
    exact .size hopen hop hkind hsize (h source maker size hsource hmaker hmem)

end Steps

/-! ## Searches that end -/

section NoSelfNesting

variable (hnesting : store.NoSelfNesting)

include hnesting

/-- The search for a scope ends with the scope. -/
theorem findsScope_scope? (op : OpId) : store.FindsScope op (store.scope? op) := by
  -- an operation has one ancestor more than the operation around it
  induction hchain : store.ancestors op generalizing op with
  | nil => simp [ancestors_eq hnesting op] at hchain
  | cons first rest ih =>
      rw [ancestors_eq hnesting op] at hchain
      rw [scope?_eq hnesting op]
      cases hparent : store.opParent? op with
      | none => exact .outermost hparent
      | some parent =>
          simp only [hparent, List.cons.injEq] at hchain
          by_cases htrait : store.hasTrait parent .affineScope
          · simpa [htrait] using FindsScope.scope hparent htrait
          · simpa [htrait] using FindsScope.outwards hparent htrait (ih parent hchain.2)

/-- The judgement about a value that is judged by its region ends at the top of the chain. -/
theorem judgesSymbol_any_scopeChain {value : ValueId} (htype : (store.typeOf value).isIndex)
    (hregion : store.isJudgedByRegion value) (scope : Option RegionId) :
    store.JudgesSymbol value scope ((store.scopeChain scope).any (store.isTopLevel value)) := by
  induction hchain : store.scopeChain scope generalizing scope with
  | nil =>
      cases scope with
      | none => exact .outermost ⟨htype, by simp⟩ hregion rfl
      | some region => simp [scopeChain_eq hnesting region] at hchain
  | cons first rest ih =>
      cases scope with
      | none => simp [scopeChain] at hchain
      | some region =>
          rw [scopeChain_eq hnesting region, List.cons.injEq] at hchain
          obtain ⟨rfl, hrest⟩ := hchain
          by_cases htop : store.isTopLevel value region
          · simpa [htop] using JudgesSymbol.topLevel htype htop
          have hopen : store.Undecided value (some region) := ⟨htype, by simpa using htop⟩
          rw [List.any_cons, Bool.eq_false_of_not_eq_true htop, Bool.false_or]
          cases houter : store.enclosingRegion? region with
          | none =>
              obtain rfl : rest = [] := by simpa [houter, scopeChain] using hrest.symm
              exact .outermost hopen hregion houter
          | some outer => exact .outwards hopen hregion houter (ih (some outer) (houter ▸ hrest))

variable (hordered : store.Ordered)

include hordered

/-- The judgement about a value in a scope ends with what it is judged in a bounded number of
steps. -/
theorem judgesSymbol_isSymbol (value : ValueId) (scope : Option RegionId) :
    store.JudgesSymbol value scope (store.isSymbol value scope) := by
  -- a value is judged by older ones
  induction hage : store.age value using Nat.strong_induction_on generalizing value with
  | _ age ih =>
      rw [isSymbol_eq hordered value scope]
      by_cases htype : (store.typeOf value).isIndex
      swap
      · simpa [htype] using JudgesSymbol.notIndex htype
      have hany := fun hregion => judgesSymbol_any_scopeChain hnesting htype hregion scope
      cases hop : store.definingOp? value with
      | none => simpa [htype] using hany (by simp [isJudgedByRegion, hop])
      | some op =>
          have holder : ∀ {maker operand}, maker.index ≤ op.index →
              operand ∈ (store.op maker).operands →
              store.JudgesSymbol operand scope (store.isSymbol operand scope) := by
            intro maker operand hle hmem
            have hmade := hordered.age_le hmem
            rw [age_of_definingOp? hop] at hage
            exact ih _ (by omega) operand rfl
          cases hkind : (store.op op).kind with
          | constant => simpa [htype, hkind] using judgesSymbol_constant htype hop hkind scope
          | apply map =>
              have hall := judgesSymbol_all htype hop hkind fun _ hmem => holder le_rfl hmem
              simpa [htype, hkind] using hall
          | dim =>
              have hfixed := judgesSymbol_isFixedSize htype hop hkind
                fun source maker size hsource hmaker hmem =>
                  holder (hordered.precedes (List.mem_of_getElem? hsource) hmaker).le hmem
              simpa [htype, hkind] using hfixed
          | _ => simpa [htype, hkind] using hany (by simp [isJudgedByRegion, hop, hkind])

/-- The judgement about a value in its own scope ends with what it is judged in a bounded number of
steps. -/
theorem judgesInOwnScope_isSymbolInOwnScope (value : ValueId) :
    store.JudgesInOwnScope value (store.isSymbolInOwnScope value) := by
  unfold isSymbolInOwnScope
  by_cases htype : (store.typeOf value).isIndex
  · by_cases htop : store.isTopLevelOfScope value
    · simpa [htype, htop] using JudgesInOwnScope.topLevel htype htop
    · cases hop : store.definingOp? value with
      | none => simpa [htype, htop] using JudgesInOwnScope.argument htype htop hop
      | some op =>
          have hrun := JudgesInOwnScope.result htype htop hop (findsScope_scope? hnesting op)
            (judgesSymbol_isSymbol hnesting hordered value (store.scope? op))
          simpa [htype, htop] using hrun
  · simpa [htype] using JudgesInOwnScope.notIndex htype

end NoSelfNesting

end AffineLoops.Store
