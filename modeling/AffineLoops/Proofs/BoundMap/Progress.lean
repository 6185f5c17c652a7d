import AffineLoops.Loop.Basic
import AffineLoops.Proofs.BoundMap.Canonical
import AffineLoops.Proofs.IR.Construction
import AffineLoops.Proofs.Identifier.Ascent

/-!
# Canonicalization comes to an end

Canonicalization repeats its pass until nothing changes, and simplification and canonicalization
are repeated in turn until canonicalization changes nothing.  Neither loop has a limit of its own.
`BoundExprs.Settles` and `BoundMap.Settles` describe the runs of these loops that end.  A pass
judges operands, and a judgement ends if no operation is nested in itself
(`Store.judgesInOwnScope_isSymbolInOwnScope`).

A pass gives every input at most one new operand.  If no operand is lost, every input has been
given the next free place, symbols first; if moreover no dimension has become a symbol, every input
has its old place, the substitution is the identity and the pass changes nothing.  So a pass that
changes anything leaves fewer operands, or as many operands and more symbols
(`pass_eq_or_advances`).  The number of operands and dimensions together falls with every such
pass, which bounds both loops.
-/

namespace AffineLoops

/-! ## Substitutions that change nothing -/

namespace Expr

/-- An operation whose operands are unchanged is not folded again. -/
theorem transform_eq_self {replacement? : Expr → Option Expr}
    (h : ∀ e replacement, replacement? e = some replacement → replacement = e) (e : Expr) :
    transform replacement? e = e := by
  have hleaf : ∀ leaf : Expr, (replacement? leaf).getD leaf = leaf := by
    intro leaf
    cases hfound : replacement? leaf with
    | none => rfl
    | some replacement => exact h leaf replacement hfound
  induction e with
  | dim position => exact hleaf _
  | sym position => exact hleaf _
  | const constant => exact hleaf _
  | binary op lhs rhs ihl ihr =>
      rw [transform]
      split
      · rename_i replacement hfound
        exact h _ _ hfound
      · simp only [ihl, ihr, and_self, if_true]

theorem substitute_inputs (dims syms : Nat) (e : Expr) :
    substitute ((List.range' 0 dims).map dim) ((List.range' 0 syms).map sym) e = e := by
  refine transform_eq_self ?_ e
  intro e replacement hfound
  cases e with
  | dim position =>
      have hfound : ((List.range' 0 dims).map dim)[position]? = some replacement := hfound
      simp only [List.getElem?_map, Option.map_eq_some_iff, List.getElem?_eq_some_iff,
        List.getElem_range'] at hfound
      obtain ⟨_, ⟨_, rfl⟩, rfl⟩ := hfound
      simp
  | sym position =>
      have hfound : ((List.range' 0 syms).map sym)[position]? = some replacement := hfound
      simp only [List.getElem?_map, Option.map_eq_some_iff, List.getElem?_eq_some_iff,
        List.getElem_range'] at hfound
      obtain ⟨_, ⟨_, rfl⟩, rfl⟩ := hfound
      simp
  | const constant => cases hfound
  | binary op lhs rhs => cases hfound

end Expr

namespace BoundExprs

variable {store : Store}

/-! ## How many places a pass gives away -/

theorem place_cases (values : List ValueId) (value : ValueId) :
    (place values value).2 = values ∨
      place values value = (values.length, values ++ [value]) := by
  unfold place
  split
  · exact .inl rfl
  · exact .inr rfl

theorem placeSymbol_cases (store : Store) (symbols : List ValueId) (value : ValueId) :
    (placeSymbol store symbols value).2 = symbols ∨
      placeSymbol store symbols value = (.sym symbols.length, symbols ++ [value]) := by
  unfold placeSymbol
  split
  · exact .inl rfl
  · rcases place_cases symbols value with hkept | hnew
    · exact .inl hkept
    · exact .inr (by rw [hnew])

/-- Symbols that all find a new place find the next ones in order. -/
theorem placeSymbols_count (store : Store) (used : Nat → Bool) (position : Nat)
    (values symbols : List ValueId) :
    let placed := placeSymbols store used position values symbols
    placed.2.length ≤ symbols.length + values.length ∧
      (placed.2.length = symbols.length + values.length →
        placed = ((List.range' symbols.length values.length).map .sym, symbols ++ values)) := by
  induction values generalizing position symbols with
  | nil => simp [placeSymbols]
  | cons value rest ih =>
      let first := if used position then placeSymbol store symbols value else (.const 0, symbols)
      have hfirst : first.2 = symbols ∨ first = (.sym symbols.length, symbols ++ [value]) := by
        by_cases hused : used position
        · simp only [first, hused, if_true]
          exact placeSymbol_cases store symbols value
        · simp [first, hused]
      have hplaced : placeSymbols store used position (value :: rest) symbols =
          (first.1 :: (placeSymbols store used (position + 1) rest first.2).1,
            (placeSymbols store used (position + 1) rest first.2).2) := rfl
      obtain ⟨hle, heq⟩ := ih (position + 1) first.2
      dsimp only at hle heq ⊢
      rw [hplaced]
      rcases hfirst with hkept | hnew
      · rw [hkept] at hle ⊢
        refine ⟨?_, ?_⟩ <;> simp only [List.length_cons] <;> omega
      · rw [hnew] at hle heq ⊢
        simp only [List.length_append, List.length_cons, List.length_nil] at hle heq ⊢
        refine ⟨by omega, ?_⟩
        intro hfull
        rw [heq (by omega)]
        simp [List.range'_succ]

/-- Every dimension takes at most one place, as a dimension or as a symbol.  Dimensions that all
stay dimensions find the next places in order and leave the symbols alone. -/
theorem placeDims_count (store : Store) (used : Nat → Bool) (position : Nat)
    (values dims symbols : List ValueId) :
    let placed := placeDims store used position values dims symbols
    placed.2.1.length ≤ dims.length + values.length ∧
      placed.2.1.length + placed.2.2.length ≤ dims.length + symbols.length + values.length ∧
      (placed.2.1.length = dims.length + values.length →
        placed = ((List.range' dims.length values.length).map .dim, dims ++ values, symbols)) := by
  induction values generalizing position dims symbols with
  | nil => simp [placeDims]
  | cons value rest ih =>
      let first : Expr × List ValueId × List ValueId :=
        if used position then
          if store.isSymbolInOwnScope value then
            ((placeSymbol store symbols value).1, dims, (placeSymbol store symbols value).2)
          else (.dim (place dims value).1, (place dims value).2, symbols)
        else (.const 0, dims, symbols)
      have hfirst : first.2 = (dims, symbols) ∨ first.2 = (dims, symbols ++ [value]) ∨
          first = (.dim dims.length, dims ++ [value], symbols) := by
        by_cases hused : used position
        · by_cases hsymbol : store.isSymbolInOwnScope value
          · simp only [first, hused, hsymbol, if_true]
            rcases placeSymbol_cases store symbols value with hkept | hnew
            · simp [hkept]
            · simp [hnew]
          · simp only [first, hused, hsymbol, if_true]
            rcases place_cases dims value with hkept | hnew
            · simp [hkept]
            · simp [hnew]
        · simp [first, hused]
      have hplaced : placeDims store used position (value :: rest) dims symbols =
          (first.1 :: (placeDims store used (position + 1) rest first.2.1 first.2.2).1,
            (placeDims store used (position + 1) rest first.2.1 first.2.2).2) := by
        rw [placeDims]
      obtain ⟨hdims, hsum, heq⟩ := ih (position + 1) first.2.1 first.2.2
      dsimp only at hdims hsum heq ⊢
      rw [hplaced]
      -- only in the last case does the number of dimensions keep up with that of the inputs
      rcases hfirst with hkept | hsymbol | hnew
      · simp only [hkept, List.length_cons] at hdims hsum ⊢
        refine ⟨?_, ?_, ?_⟩ <;> omega
      · simp only [hsymbol, List.length_append, List.length_cons, List.length_nil] at hdims hsum ⊢
        refine ⟨?_, ?_, ?_⟩ <;> omega
      · simp only [hnew, List.length_append, List.length_cons, List.length_nil] at hdims hsum heq ⊢
        refine ⟨by omega, by omega, ?_⟩
        intro hfull
        rw [heq (by omega)]
        simp [List.range'_succ]

/-! ## Passes -/

/-- There are fewer operands, or as many operands and more symbols, and no dimension is new. -/
structure Advances (before after : BoundExprs) : Prop where
  dims_le : after.dims ≤ before.dims
  progress : after.operands.length < before.operands.length ∨
    after.operands.length = before.operands.length ∧ before.syms < after.syms

theorem Advances.trans {first second third : BoundExprs} (h : first.Advances second)
    (h' : second.Advances third) : first.Advances third := by
  obtain ⟨hdims, hprogress⟩ := h
  obtain ⟨hdims', hprogress'⟩ := h'
  exact ⟨hdims'.trans hdims, by omega⟩

variable {bound result : BoundExprs}

theorem length_operands_pass (store : Store) (bound : BoundExprs) :
    (bound.pass store).operands.length = (bound.pass store).dims + (bound.pass store).syms :=
  List.length_append

/-- A pass changes nothing, or it leaves fewer operands, or as many operands and more symbols. -/
theorem pass_eq_or_advances (hlength : bound.operands.length = bound.dims + bound.syms) :
    bound.pass store = bound ∨ bound.Advances (bound.pass store) := by
  have htake : (bound.operands.take bound.dims).length = bound.dims := by
    rw [List.length_take]
    omega
  have hdrop : (bound.operands.drop bound.dims).length = bound.syms := by
    rw [List.length_drop]
    omega
  let symbols := placeSymbols store bound.usesSym 0 (bound.operands.drop bound.dims) []
  let dims := placeDims store bound.usesDim 0 (bound.operands.take bound.dims) [] symbols.2
  obtain ⟨hsymsLe, hsymsEq⟩ : symbols.2.length ≤ bound.syms ∧ (symbols.2.length = bound.syms →
      symbols = ((List.range' 0 bound.syms).map .sym, bound.operands.drop bound.dims)) := by
    simpa [hdrop] using
      placeSymbols_count store bound.usesSym 0 (bound.operands.drop bound.dims) []
  obtain ⟨hdimsLe, hsumLe, hdimsEq⟩ : dims.2.1.length ≤ bound.dims ∧
      dims.2.1.length + dims.2.2.length ≤ symbols.2.length + bound.dims ∧
      (dims.2.1.length = bound.dims →
        dims = ((List.range' 0 bound.dims).map .dim, bound.operands.take bound.dims,
          symbols.2)) := by
    simpa [htake] using
      placeDims_count store bound.usesDim 0 (bound.operands.take bound.dims) [] symbols.2
  have hpass : bound.pass store = ⟨dims.2.1.length, dims.2.2.length,
      bound.exprs.map (Expr.substitute dims.1 symbols.1), dims.2.1 ++ dims.2.2⟩ := rfl
  by_cases hdims : dims.2.1.length = bound.dims
  · by_cases hsyms : symbols.2.length = bound.syms
    · left
      have hidentity : Expr.substitute ((List.range' 0 bound.dims).map .dim)
          ((List.range' 0 bound.syms).map .sym) = id :=
        funext (Expr.substitute_inputs bound.dims bound.syms)
      rw [hpass, hdimsEq hdims, hsymsEq hsyms]
      simp only [htake, hdrop, List.take_append_drop, hidentity, List.map_id]
    · right
      rw [hpass]
      refine ⟨hdimsLe, .inl ?_⟩
      rw [List.length_append]
      omega
  · right
    rw [hpass]
    refine ⟨hdimsLe, ?_⟩
    simp only [List.length_append]
    omega

/-! ## The loop of canonicalization -/

/-- Passes are repeated until one changes nothing, and the loop ends with a result. -/
inductive Settles (store : Store) : BoundExprs → BoundExprs → Prop
  | done {bound : BoundExprs} (h : bound.pass store = bound) : Settles store bound bound
  | pass {bound result : BoundExprs} (hchanged : bound.pass store ≠ bound)
      (h : Settles store (bound.pass store) result) : Settles store bound result

/-- What falls with every pass that changes anything. -/
def potential (bound : BoundExprs) : Nat := bound.operands.length + bound.dims

theorem Advances.potential_lt {after : BoundExprs} (h : bound.Advances after)
    (hbefore : bound.operands.length = bound.dims + bound.syms)
    (hafter : after.operands.length = after.dims + after.syms) :
    after.potential < bound.potential := by
  obtain ⟨hdims, hprogress⟩ := h
  unfold potential
  omega

theorem settles_settle (hlength : bound.operands.length = bound.dims + bound.syms) {passes : Nat}
    (hpasses : bound.potential < passes) : Settles store bound (bound.settle store passes) := by
  induction passes generalizing bound with
  | zero => omega
  | succ passes ih =>
      rw [settle]
      split
      · rename_i hsame
        exact .done hsame
      · rename_i hchanged
        have hnext := length_operands_pass store bound
        have hadvances : bound.Advances (bound.pass store) :=
          (pass_eq_or_advances hlength).resolve_left hchanged
        have hfalls := hadvances.potential_lt hlength hnext
        exact .pass hchanged (ih hnext (by omega))

theorem settles_canonical (hlength : bound.operands.length = bound.dims + bound.syms) :
    Settles store bound (bound.canonical store) := by
  unfold canonical
  split
  · -- without operands there is nothing left that a pass could take away
    rename_i hnone
    rw [hnone, List.length_nil] at hlength
    refine .done ((pass_eq_or_advances (by rw [hnone]; exact hlength)).resolve_right ?_)
    rintro ⟨-, hprogress⟩
    have hnext := length_operands_pass store bound
    rw [hnone, List.length_nil] at hprogress
    omega
  · exact settles_settle hlength (Nat.lt_succ_self _)

/-- The loop ends where it began or has made progress. -/
theorem Settles.eq_or_advances (h : Settles store bound result)
    (hlength : bound.operands.length = bound.dims + bound.syms) :
    result = bound ∨ bound.Advances result := by
  induction h with
  | done => exact .inl rfl
  | @pass bound result hchanged _ ih =>
      have hfirst := (pass_eq_or_advances hlength).resolve_left hchanged
      rcases ih (length_operands_pass store bound) with rfl | hrest
      · exact .inr hfirst
      · exact .inr (hfirst.trans hrest)

theorem Settles.length_eq (h : Settles store bound result)
    (hlength : bound.operands.length = bound.dims + bound.syms) :
    result.operands.length = result.dims + result.syms := by
  induction h with
  | done => exact hlength
  | @pass bound result _ _ ih => exact ih (length_operands_pass store bound)

theorem Settles.length_exprs (h : Settles store bound result) :
    result.exprs.length = bound.exprs.length := by
  induction h with
  | done => rfl
  | pass _ _ ih => simpa [BoundExprs.pass] using ih

end BoundExprs

theorem ne_of_checked_changed {α : Type} [DecidableEq α] {check : Prop} [Decidable check]
    {fault : Fault} {old new result : α}
    (h : Except.map (fun _ => if new = old then none else some new)
      (if check then .ok () else .error fault : Except Fault Unit) = .ok (some result)) :
    new ≠ old := by
  intro hsame
  by_cases hcheck : check <;> simp [hcheck, hsame, Except.map] at h

/-! ## Maps -/

namespace BoundMap

/-- The bound map with simplified results. -/
def simplified (bound : BoundMap) : BoundMap := { bound with map := bound.map.simplify }

/-- As long as canonicalization changes a map it is simplified again, and the loop ends with a
result. -/
inductive Settles (store : Store) : BoundMap → BoundMap → Prop
  | done {bound : BoundMap} (h : bound.canonical store = bound) : Settles store bound bound
  | round {bound result : BoundMap} (hchanged : bound.canonical store ≠ bound)
      (h : Settles store (bound.canonical store).simplified result) : Settles store bound result

variable {store : Store} {bound : BoundMap}

theorem settles_canonical (hlength : bound.operands.length = bound.map.inputs) :
    bound.toExprs.Settles store (bound.canonical store).toExprs :=
  BoundExprs.settles_canonical hlength

theorem canonical_eq_or_advances (hlength : bound.operands.length = bound.map.inputs) :
    bound.canonical store = bound ∨ bound.toExprs.Advances (bound.canonical store).toExprs := by
  rcases (settles_canonical hlength).eq_or_advances hlength with hsame | hadvances
  · exact .inl (congrArg ofExprs hsame)
  · exact .inr hadvances

theorem settles_settle (hlength : bound.operands.length = bound.map.inputs) {rounds : Nat}
    (hrounds : bound.toExprs.potential < rounds) :
    bound.simplified.Settles store (bound.settle store rounds) := by
  induction rounds generalizing bound with
  | zero => omega
  | succ rounds ih =>
      -- simplification changes the results only
      have hsimple : bound.simplified.operands.length = bound.simplified.map.inputs := hlength
      have hsame : bound.simplified.toExprs.potential = bound.toExprs.potential := rfl
      rw [settle]
      split
      · rename_i hdone
        exact .done hdone
      · rename_i hchanged
        have hnext : (bound.simplified.canonical store).operands.length =
            (bound.simplified.canonical store).map.inputs :=
          (settles_canonical hsimple).length_eq hsimple
        have hadvances := (canonical_eq_or_advances hsimple).resolve_left hchanged
        have hfalls := hadvances.potential_lt hsimple hnext
        exact .round hchanged (ih hnext (by omega))

theorem settles_canonicalSimplified (hlength : bound.operands.length = bound.map.inputs) :
    (bound.canonical store).simplified.Settles store (bound.canonicalSimplified store) :=
  settles_settle ((settles_canonical hlength).length_eq hlength) (Nat.lt_succ_self _)

end BoundMap

/-! ## Sets and conditionals -/

namespace BoundSet

/-- The constraints of a bound set with its operands. -/
def toExprs (bound : BoundSet) : BoundExprs :=
  ⟨bound.set.dims, bound.set.syms, bound.set.exprs, bound.operands⟩

variable {store : Store} {bound : BoundSet}

theorem canonical_eq (store : Store) (bound : BoundSet) :
    bound.canonical store =
      ⟨bound.set.withExprs (bound.toExprs.canonical store).dims (bound.toExprs.canonical store).syms
        (bound.toExprs.canonical store).exprs, (bound.toExprs.canonical store).operands⟩ := rfl

variable (hlength : bound.operands.length = bound.set.inputs)

include hlength

theorem toExprs_canonical : (bound.canonical store).toExprs = bound.toExprs.canonical store := by
  have hsettles : bound.toExprs.Settles store (bound.toExprs.canonical store) :=
    BoundExprs.settles_canonical hlength
  have hcount : (bound.toExprs.canonical store).exprs.length = bound.set.constraints.length :=
    hsettles.length_exprs.trans (List.length_map _)
  rw [canonical_eq, toExprs, IntegerSet.exprs_withExprs hcount]
  rfl

theorem settles_canonical : bound.toExprs.Settles store (bound.canonical store).toExprs := by
  rw [toExprs_canonical hlength]
  exact BoundExprs.settles_canonical hlength

theorem canonical_eq_or_advances :
    bound.canonical store = bound ∨ bound.toExprs.Advances (bound.canonical store).toExprs := by
  have hsettles : bound.toExprs.Settles store (bound.canonical store).toExprs :=
    settles_canonical hlength
  rcases hsettles.eq_or_advances hlength with hsame | hadvances
  · -- the relations are kept, so a set with the old expressions is the old set
    left
    have hset : bound.set.withExprs bound.set.dims bound.set.syms bound.set.exprs = bound.set := by
      simp [IntegerSet.withExprs, IntegerSet.exprs, List.zipWith_map_right, List.zipWith_self]
    rw [toExprs_canonical hlength] at hsame
    rw [canonical_eq, hsame]
    simp only [toExprs, hset]
  · exact .inr hadvances

end BoundSet

/-- The extra condition under which a conditional takes over its canonical condition always
holds. -/
theorem Conditional.fold_eq_canonicalize (store : Store) (conditional : Conditional) :
    conditional.fold store = conditional.condition.canonicalize store := by
  cases hcanonical : conditional.condition.canonicalize store with
  | error fault => simp only [fold, hcanonical, Except.map]
  | ok changed =>
      cases changed with
      | none => simp only [fold, hcanonical, Except.map, Option.filter_none]
      | some bound =>
          obtain ⟨hlength, rfl⟩ := of_checked_changed hcanonical
          have hadvances := (BoundSet.canonical_eq_or_advances hlength).resolve_left
            (ne_of_checked_changed hcanonical)
          have hguard : ((conditional.condition.canonical store).operands.length <
                conditional.condition.set.inputs ||
              conditional.condition.set.syms <
                (conditional.condition.canonical store).set.syms) = true := by
            rw [Bool.or_eq_true, decide_eq_true_iff, decide_eq_true_iff, ← hlength]
            exact hadvances.progress.imp_right And.right
          simp only [fold, hcanonical, Except.map, Option.filter_some, hguard, if_true]

/-! ## The result -/

namespace SymbolInLoop

def function : Store :=
  (Build.appendOp ⟨0⟩ ⟨1⟩ (Build.constant 0 4 .index
    (Build.function 0 "f" [.index] .empty).2).2).2

def loop : Store :=
  (Build.appendOp ⟨0⟩ ⟨3⟩
    (Build.forLoop 0 ⟨0, .ofConst 0⟩ [] ⟨0, .ofConst 8⟩ [] 1 function).2).2

def successor : Owned AffineMap := ⟨0, ⟨1, 0, [.binary .add (.dim 0) (.const 1)]⟩⟩

def store : Store :=
  (Build.insertBeforeTerminator ⟨1⟩ ⟨4⟩ (Build.apply 0 successor [⟨0⟩] loop).2).2

theorem reachable : store.Reachable :=
  (Construction.insertBeforeTerminator (by decide) (by decide)).reachable <|
    (Construction.apply (by decide) (by decide)).reachable <|
      (Construction.appendOp (by decide) (by decide)).reachable <|
        (Construction.forLoop (by decide) (by decide) (by decide)).reachable <|
          (Construction.appendOp (by decide) (by decide)).reachable <|
            (Construction.constant 0 4 .index).reachable <|
              (Construction.function 0 "f" [.index]).reachable .empty

/-- The number of operations around an operation. -/
def depth (op : OpId) : Nat := [0, 1, 2, 1, 2].getD op.index 0

theorem noSelfNesting : store.NoSelfNesting := Store.noSelfNesting_of_depth depth (by decide)

/-- The induction variable is bound twice, and a dimension is constant. -/
def map : BoundMap :=
  ⟨⟨3, 0, [.binary .add (.dim 0) (.dim 1), .binary .mod (.dim 2) (.const 3)]⟩,
    [⟨2⟩, ⟨1⟩, ⟨2⟩]⟩

/-- The value in the loop is a symbol. -/
def promoted : BoundMap := ⟨⟨1, 0, [.dim 0]⟩, [⟨3⟩]⟩

def set : BoundSet :=
  ⟨⟨2, 0, [⟨.nonnegative, .binary .add (.dim 1) (.binary .mul (.dim 0) (.const (-1)))⟩,
    ⟨.zero, .binary .add (.dim 1) (.const (-4))⟩]⟩, [⟨1⟩, ⟨2⟩]⟩

end SymbolInLoop

end AffineLoops
