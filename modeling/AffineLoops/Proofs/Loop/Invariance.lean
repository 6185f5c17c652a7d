import AffineLoops.Loop.Invariance
import AffineLoops.Proofs.BoundMap.FullComposition

/-!
# Invariant indices and what they hide

Whether an index is invariant along an induction variable is a statement about two runs.  Two
consistent assignments *vary* a value if they agree on all other values, up to the results of
apply operations, which follow from the rest (`Store.Varies`).  An index is invariant if it has
the same integer under both.

The check looks through one apply operation and asks whether its result mentions the *first* input
that is bound to the variable.  If the variable is bound to another input as well, that one is not
looked at: `(d0, d1) -> (d1)` on a variable bound twice passes for invariant.  Such a use is hidden
(`Store.HidesUse`), and this is the only way in which the check errs:

* `BoundMap.value_eq_of_varies`: an expression that mentions no input bound to the varied value
  keeps its value;
* `eq_of_indexVerdict`: an index with the verdict `invariant` and without a hidden use is
  invariant;
* `indexVerdict_of_isInvariantAccess`: the verdict on an access contains that on each index.
-/

namespace AffineLoops

/-- Two consistent assignments that agree on all values but one and the results of apply
operations. -/
structure Store.Varies (store : Store) (value : ValueId) (rho rho' : Assignment) : Prop where
  before : store.Consistent rho
  after : store.Consistent rho'
  agree : ∀ other, other ≠ value → store.definingApply? other = none → rho' other = rho other

/-! ## Expressions that do not mention a value -/

namespace BoundMap

variable {bound : BoundMap} {position : Nat} {value : ValueId}

theorem getElem?_operands_of_dim (h : bound.dimOperands[position]? = some value) :
    position < bound.map.dims ∧ bound.operands[position]? = some value := by
  rw [dimOperands, List.getElem?_take] at h
  split at h
  · rename_i hlt
    exact ⟨hlt, h⟩
  · cases h

theorem getElem?_operands_of_sym (h : bound.symOperands[position]? = some value) :
    bound.operands[bound.map.dims + position]? = some value := by
  rwa [symOperands, List.getElem?_drop] at h

theorem mentions_of_usesDim {e : Expr} (hlt : position < bound.map.dims)
    (h : e.usesDim position) : bound.mentions position e := by
  rwa [mentions, if_pos hlt]

theorem mentions_of_usesSym {e : Expr} (h : e.usesSym position) :
    bound.mentions (bound.map.dims + position) e := by
  rwa [mentions, if_neg (by omega), Nat.add_sub_cancel_left]

/-- An expression that mentions no input bound to a value keeps its value when that one varies. -/
theorem value_eq_of_varies {store : Store} {rho rho' : Assignment}
    (hvaries : store.Varies value rho rho')
    (hoperands : ∀ operand ∈ bound.operands, store.definingApply? operand = none) {e : Expr}
    (hfree : ∀ place, bound.operands[place]? = some value → ¬ bound.mentions place e) :
    e.value (rho'.point bound.dimOperands bound.symOperands) =
      e.value (rho.point bound.dimOperands bound.symOperands) := by
  -- an operand that an input of the expression is bound to is another value
  have hsame : ∀ {place operand}, bound.operands[place]? = some operand →
      bound.mentions place e → rho' operand = rho operand := by
    intro place operand hoperand hmentions
    have hne : operand ≠ value := by
      rintro rfl
      exact hfree place hoperand hmentions
    exact hvaries.agree operand hne (hoperands operand (List.mem_of_getElem? hoperand))
  refine Expr.value_congr e.within_uses ?_ ?_
  · intro position hused
    rw [Assignment.dim_point_eq, Assignment.dim_point_eq]
    cases hoperand : bound.dimOperands[position]? with
    | none => rfl
    | some operand =>
        obtain ⟨hlt, hplace⟩ := getElem?_operands_of_dim hoperand
        exact hsame hplace (mentions_of_usesDim hlt hused)
  · intro position hused
    rw [Assignment.sym_point_eq, Assignment.sym_point_eq]
    cases hoperand : bound.symOperands[position]? with
    | none => rfl
    | some operand =>
        exact hsame (getElem?_operands_of_sym hoperand) (mentions_of_usesSym hused)

end BoundMap

namespace Store

variable {store : Store} {iv index : ValueId} {rho rho' : Assignment}

/-! ## One index -/

/-- The index is the result of an apply operation that mentions an input bound to the variable,
but not the first such input. -/
def HidesUse (store : Store) (iv index : ValueId) : Prop :=
  ∃ bound result place, store.appliedMap? index = some bound ∧ bound.map.results = [result] ∧
    bound.operands[place]? = some iv ∧ bound.mentions place result ∧ ¬ bound.usesValue 0 iv

/-- What the verdict `invariant` rests on. -/
theorem of_indexVerdict (h : store.indexVerdict iv index = .invariant) :
    store.definingApply? index = none ∧ index ≠ iv ∨
    ∃ bound, store.appliedMap? index = some bound ∧
      (∀ operand ∈ bound.operands, store.definingApply? operand = none) ∧
      ¬ bound.usesValue 0 iv := by
  unfold indexVerdict at h
  split at h
  · rename_i hdefining
    split at h
    · cases h
    · rename_i hne
      exact .inl ⟨hdefining, hne⟩
  · rename_i op hdefining
    split at h
    · cases h
    · rename_i bound hbound
      split at h
      · cases h
      · rename_i hchain
        split at h
        · cases h
        · rename_i hunused
          refine .inr ⟨bound, by simp [appliedMap?, hdefining, hbound], ?_, hunused⟩
          intro operand hmem
          by_contra hsome
          exact hchain (List.any_eq_true.mpr
            ⟨operand, hmem, Option.isSome_iff_ne_none.mpr hsome⟩)

theorem eq_of_indexVerdict (hverdict : store.indexVerdict iv index = .invariant)
    (hopen : ¬ store.HidesUse iv index) (hvaries : store.Varies iv rho rho') :
    rho' index = rho index := by
  rcases of_indexVerdict hverdict with ⟨hdefining, hne⟩ | ⟨bound, happlied, hoperands, hunused⟩
  · exact hvaries.agree index hne hdefining
  · have hbefore := hvaries.before.applied index bound happlied
    have hafter := hvaries.after.applied index bound happlied
    obtain ⟨result, hresults⟩ : ∃ result, bound.map.results = [result] :=
      List.length_eq_one_iff.mp (by simpa [BoundMap.values] using congrArg List.length hbefore)
    have hfree : ∀ place, bound.operands[place]? = some iv → ¬ bound.mentions place result :=
      fun place hplace hmentions =>
        hopen ⟨bound, result, place, happlied, hresults, hplace, hmentions, hunused⟩
    have hvalue := BoundMap.value_eq_of_varies hvaries hoperands hfree
    simp only [BoundMap.values, hresults, List.map_cons, List.map_nil, List.cons.injEq,
      and_true] at hbefore hafter
    rw [← hafter, ← hbefore, hvalue]

/-! ## All indices of an access -/

theorem indexVerdict_of_verdictsUntilVarying {indices : List ValueId}
    (h : (store.verdictsUntilVarying iv indices).all (· == .invariant)) :
    ∀ index ∈ indices, store.indexVerdict iv index = .invariant := by
  induction indices with
  | nil => simp
  | cons first rest ih =>
      rw [verdictsUntilVarying] at h
      split at h
      · rename_i hfirst
        have hrest := ih (by simpa using h)
        intro index hmem
        rcases List.mem_cons.mp hmem with rfl | hmem
        · exact hfirst
        · exact hrest index hmem
      · rename_i hfirst
        exact absurd (by simpa using h) hfirst

/-- The verdicts along the loops that depend on a loop come after those along the loop itself. -/
theorem verdictsUntilVarying_prefix (indices : List ValueId) (depth : Nat) (loop : ForLoop) :
    store.verdictsUntilVarying loop.inductionVariable indices <+:
      store.accessVerdicts indices depth loop := by
  cases depth with
  | zero => exact List.prefix_rfl
  | succ depth =>
      rw [accessVerdicts]
      have hgrows : ∀ (loops : List ForLoop) (verdicts : List IndexVerdict),
          verdicts <+: loops.foldl (fun verdicts dependent =>
            if verdicts.all (· == .invariant) then
              verdicts ++ store.accessVerdicts indices depth dependent
            else verdicts) verdicts := by
        intro loops
        induction loops with
        | nil => exact fun _ => List.prefix_rfl
        | cons dependent loops ih =>
            intro verdicts
            refine List.IsPrefix.trans ?_ (ih _)
            beta_reduce
            split
            · exact List.prefix_append ..
            · exact List.prefix_rfl
      exact hgrows _ _

theorem indexVerdict_of_isInvariantAccess {access : Access} {loop : ForLoop}
    (h : store.isInvariantAccess access loop) :
    ∀ index ∈ access.position.operands,
      store.indexVerdict loop.inductionVariable index = .invariant := by
  refine indexVerdict_of_verdictsUntilVarying ?_
  obtain ⟨later, hlater⟩ :=
    verdictsUntilVarying_prefix access.position.operands store.operations.size loop
  rw [isInvariantAccess, invarianceVerdicts, ← hlater, List.all_append] at h
  exact (Bool.and_eq_true_iff.mp h).1

/-- Indices that are judged invariant are invariant, unless the judgement misses a use of the
variable.  Whenever two consistent assignments vary the induction variable of a loop, every index
of an access that is invariant in the loop has the same integer under both, and so has every
single index that is judged invariant; excepted is an index whose apply operation has the variable
bound to several inputs and mentions one of them, but not the first. -/
theorem invariant_of_isInvariantAccess (hvaries : store.Varies iv rho rho') :
    (∀ (access : Access) (loop : ForLoop), loop.inductionVariable = iv →
      store.isInvariantAccess access loop → ∀ index ∈ access.position.operands,
        ¬ store.HidesUse iv index → rho' index = rho index) ∧
    ∀ index, store.indexVerdict iv index = .invariant → ¬ store.HidesUse iv index →
      rho' index = rho index := by
  refine ⟨?_, fun index hverdict hopen => eq_of_indexVerdict hverdict hopen hvaries⟩
  rintro access loop rfl hinvariant index hmem hopen
  exact eq_of_indexVerdict (indexVerdict_of_isInvariantAccess hinvariant index hmem) hopen hvaries

end Store

/-! ## A variable bound twice

The body of a loop over `%iv` has two apply operations and a load that uses both.  The first,
`(d0, d1) -> (d1)` on `%iv, %iv`, is the variable itself; the second, `(d0, d1) -> (d1 * 2 + 1)`
on `%iv, %n`, does not depend on it.  Both pass for invariant, and so does the load. -/

namespace RepeatedVariable

-- to look up an operation is to evaluate the constructions of the store
set_option maxRecDepth 800

def function : Store :=
  (Build.function 0 "f" [.memref [.static 16, .static 16] (.float 32) [], .index] .empty).2

def withLoop : Store :=
  (Build.appendOp ⟨0⟩ ⟨2⟩
    (Build.forLoop 0 ⟨0, .ofConst 0⟩ [] ⟨0, .ofConst 8⟩ [] 1 function).2).2

def second : Owned AffineMap := ⟨0, ⟨2, 0, [.dim 1]⟩⟩

def scaled : Owned AffineMap :=
  ⟨0, ⟨2, 0, [.binary .add (.binary .mul (.dim 1) (.const 2)) (.const 1)]⟩⟩

def position : Owned AffineMap := ⟨0, ⟨2, 0, [.dim 0, .dim 1]⟩⟩

def place (op : OpId) (store : Store) : Store :=
  (Build.insertBeforeTerminator ⟨1⟩ op store).2

def withApplies : Store :=
  place ⟨4⟩ (Build.apply 0 scaled [⟨2⟩, ⟨1⟩]
    (place ⟨3⟩ (Build.apply 0 second [⟨2⟩, ⟨2⟩] withLoop).2)).2

def store : Store := place ⟨5⟩ (Build.load 0 ⟨0⟩ position [⟨3⟩, ⟨4⟩] withApplies).2

theorem reachable : store.Reachable :=
  (Construction.insertBeforeTerminator (by decide) (by decide)).reachable <|
    (Construction.read (.inl rfl) (by decide) (by decide)).reachable <|
      (Construction.insertBeforeTerminator (by decide) (by decide)).reachable <|
        (Construction.apply (by decide) (by decide)).reachable <|
          (Construction.insertBeforeTerminator (by decide) (by decide)).reachable <|
            (Construction.apply (by decide) (by decide)).reachable <|
              (Construction.appendOp (by decide) (by decide)).reachable <|
                (Construction.forLoop (by decide) (by decide) (by decide)).reachable <|
                  (Construction.function 0 "f" _).reachable .empty

/-- The assignment at a value of `%iv`, where `%n` is 3. -/
def rho (iv : Int) : Assignment := fun value => [0, 3, iv, iv, 7].getD value.index 0

theorem consistent (iv : Int) : store.Consistent (rho iv) where
  constants := by
    rintro ⟨index⟩ constant h
    match index with
    | 0 | 1 | 2 | 3 | 4 | 5 => cases h
    | index + 6 => cases h
  applied := by
    rintro ⟨index⟩ bound h
    match index with
    | 0 | 1 | 2 => cases h
    | 3 => cases h; rfl
    | 4 => cases h; rfl
    | 5 => cases h
    | index + 6 => cases h

theorem varies (before after : Int) : store.Varies ⟨2⟩ (rho before) (rho after) where
  before := consistent before
  after := consistent after
  agree := by
    rintro ⟨index⟩ hne hdefining
    match index with
    | 0 | 1 => rfl
    | 2 => exact absurd rfl hne
    | 3 | 4 => cases hdefining
    | index + 5 => rfl

def access : Access :=
  ⟨⟨5⟩, ⟨0⟩, ⟨[.static 16, .static 16], .float 32, []⟩, ⟨position.item, [⟨3⟩, ⟨4⟩]⟩⟩

theorem access?_eq : store.access? ⟨5⟩ = some access := rfl

def loop : ForLoop := ⟨⟨2⟩, ⟨⟨.ofConst 0, []⟩, ⟨.ofConst 8, []⟩, 1⟩, ⟨1⟩, ⟨1⟩, ⟨2⟩⟩

theorem forLoop?_eq : store.forLoop? ⟨2⟩ = some loop := rfl

theorem isInvariantAccess : store.isInvariantAccess access loop := by decide

theorem indexVerdict_second : store.indexVerdict ⟨2⟩ ⟨3⟩ = .invariant := by decide

theorem not_hidesUse : ¬ store.HidesUse ⟨2⟩ ⟨4⟩ := by
  rintro ⟨bound, result, place, hbound, hresults, hplace, hmentions, -⟩
  cases hbound
  cases hresults
  match place with
  | 0 => cases hmentions
  | 1 => cases hplace
  | place + 2 => cases hplace

end RepeatedVariable

open RepeatedVariable in
/-- Indices that are judged invariant need not be. -/
theorem not_forall_isInvariantAccess_invariant :
    (¬ ∀ (store : Store) (op id : OpId) (access : Access) (loop : ForLoop)
      (rho rho' : Assignment), store.Reachable → store.access? op = some access →
      store.forLoop? id = some loop → store.isInvariantAccess access loop →
      store.Varies loop.inductionVariable rho rho' →
      ∀ index ∈ access.position.operands, rho' index = rho index) ∧
    ¬ ∀ (store : Store) (id : OpId) (loop : ForLoop) (index : ValueId)
      (rho rho' : Assignment), store.Reachable → store.forLoop? id = some loop →
      store.indexVerdict loop.inductionVariable index = .invariant →
      store.Varies loop.inductionVariable rho rho' → rho' index = rho index := by
  constructor
  · intro hinvariant
    have hsame := hinvariant store ⟨5⟩ ⟨2⟩ access loop (rho 0) (rho 1) reachable access?_eq
      forLoop?_eq isInvariantAccess (varies 0 1) ⟨3⟩ (by decide)
    exact absurd hsame (by decide)
  · intro hinvariant
    have hsame := hinvariant store ⟨2⟩ loop ⟨3⟩ (rho 0) (rho 1) reachable forLoop?_eq
      indexVerdict_second (varies 0 1)
    exact absurd hsame (by decide)

open RepeatedVariable in
theorem invariant_of_isInvariantAccess_scaled :
    store.Varies ⟨2⟩ (rho 0) (rho 1) ∧ store.access? ⟨5⟩ = some access ∧
      store.forLoop? ⟨2⟩ = some loop ∧ loop.inductionVariable = ⟨2⟩ ∧
      store.isInvariantAccess access loop ∧ ⟨4⟩ ∈ access.position.operands ∧
      ¬ store.HidesUse ⟨2⟩ ⟨4⟩ ∧ rho 1 ⟨4⟩ = rho 0 ⟨4⟩ :=
  ⟨varies 0 1, access?_eq, forLoop?_eq, rfl, isInvariantAccess, by decide, not_hidesUse,
    (Store.invariant_of_isInvariantAccess (varies 0 1)).1 access loop rfl isInvariantAccess ⟨4⟩
      (by decide) not_hidesUse⟩

end AffineLoops
