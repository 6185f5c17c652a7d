import AffineLoops.Proofs.BoundMap.Canonical

/-!
# The operands of a canonical form

Canonicalization binds every value at most once as a dimension and at most once as a symbol, and
the values it keeps are among those that were bound before.  It does not compare dimensions with
symbols: a value that is no symbol in its own scope may be left as both.

`Binds dimAllowed symAllowed` says this of a list of operands, with a condition on the values of
dimensions and another one on the values of symbols.  Dimensions that are symbols in their own
scope become symbols, so the first condition has to imply the second one for them.  The values of
inputs that no expression uses are dropped, so nothing need be known of them; in particular nothing
is left where there are no expressions.  As for the values of expressions, the statement is made
for one placed value, for all inputs of a kind, for a pass and for repeated passes.  `BindsOnce`
is the case of one condition on all values.
-/

namespace AffineLoops

namespace BoundExprs

variable {store : Store} {used : Nat → Bool} {allowed dimAllowed symAllowed : ValueId → Prop}

/-! ## Placing values -/

/-- Different values, all of which are allowed. -/
structure Distinct (allowed : ValueId → Prop) (values : List ValueId) : Prop where
  nodup : values.Nodup
  allowed : ∀ value ∈ values, allowed value

theorem Distinct.nil : Distinct allowed [] := ⟨List.nodup_nil, by simp⟩

theorem Distinct.place {values : List ValueId} {value : ValueId} (h : Distinct allowed values)
    (hvalue : allowed value) : Distinct allowed (place values value).2 := by
  unfold BoundExprs.place
  split
  · exact h
  · rename_i hmissing
    have hnew : value ∉ values := by simpa using hmissing
    refine ⟨?_, ?_⟩
    · rw [List.nodup_append]
      refine ⟨h.nodup, by simp, ?_⟩
      intro old hold other hother heq
      rw [List.mem_singleton.mp hother] at heq
      exact hnew (heq ▸ hold)
    · intro other hother
      rcases List.mem_append.mp hother with hold | hlast
      · exact h.allowed other hold
      · rwa [List.mem_singleton.mp hlast]

theorem Distinct.placeSymbol {symbols : List ValueId} {value : ValueId}
    (h : Distinct allowed symbols) (hvalue : allowed value) :
    Distinct allowed (placeSymbol store symbols value).2 := by
  unfold BoundExprs.placeSymbol
  split
  · exact h
  · exact h.place hvalue

/-- The values of the used inputs from a position on are allowed. -/
def UsedAllowed (allowed : ValueId → Prop) (used : Nat → Bool) (position : Nat)
    (values : List ValueId) : Prop :=
  ∀ index value, values[index]? = some value → used (position + index) → allowed value

theorem UsedAllowed.tail {position : Nat} {value : ValueId} {rest : List ValueId}
    (h : UsedAllowed allowed used position (value :: rest)) :
    UsedAllowed allowed used (position + 1) rest := by
  intro index other hother hused
  refine h (index + 1) other hother ?_
  rwa [show position + (index + 1) = position + 1 + index by omega]

theorem Distinct.placeSymbols {values symbols : List ValueId} {position : Nat}
    (h : Distinct allowed symbols)
    (hvalues : UsedAllowed allowed used position values) :
    Distinct allowed (placeSymbols store used position values symbols).2 := by
  induction values generalizing position symbols with
  | nil => exact h
  | cons value rest ih =>
      rw [BoundExprs.placeSymbols]
      by_cases hused : used position
      · have hvalue : allowed value := hvalues 0 value rfl hused
        simp only [hused, if_true]
        exact ih (h.placeSymbol hvalue) hvalues.tail
      · simp only [hused]
        exact ih h hvalues.tail

/-- Values that are allowed for dimensions are allowed for symbols if they become symbols. -/
def Promotes (store : Store) (dimAllowed symAllowed : ValueId → Prop) : Prop :=
  ∀ value, dimAllowed value → store.isSymbolInOwnScope value → symAllowed value

theorem Distinct.placeDims {values dims symbols : List ValueId} {position : Nat}
    (hpromotes : Promotes store dimAllowed symAllowed) (hdims : Distinct dimAllowed dims)
    (hsymbols : Distinct symAllowed symbols)
    (hvalues : UsedAllowed dimAllowed used position values) :
    let placed := placeDims store used position values dims symbols
    Distinct dimAllowed placed.2.1 ∧ Distinct symAllowed placed.2.2 := by
  induction values generalizing position dims symbols with
  | nil => exact ⟨hdims, hsymbols⟩
  | cons value rest ih =>
      dsimp only at ih ⊢
      rw [BoundExprs.placeDims]
      by_cases hused : used position
      · have hvalue : dimAllowed value := hvalues 0 value rfl hused
        -- a symbol in its own scope joins the symbols, which were placed before all dimensions
        by_cases hsymbol : store.isSymbolInOwnScope value
        · simp only [hused, hsymbol, if_true]
          exact ih hdims (hsymbols.placeSymbol (hpromotes value hvalue hsymbol)) hvalues.tail
        · simp only [hused, hsymbol, if_true]
          exact ih (hdims.place hvalue) hsymbols hvalues.tail
      · simp only [hused]
        exact ih hdims hsymbols hvalues.tail

/-! ## Passes -/

/-- All values bound to dimensions and all values bound to symbols are allowed. -/
structure Allows (dimAllowed symAllowed : ValueId → Prop) (bound : BoundExprs) : Prop where
  dims : ∀ value ∈ bound.operands.take bound.dims, dimAllowed value
  syms : ∀ value ∈ bound.operands.drop bound.dims, symAllowed value

/-- No value is bound to two dimensions or to two symbols, and all bound values are allowed. -/
structure Binds (dimAllowed symAllowed : ValueId → Prop) (bound : BoundExprs) : Prop where
  dims : Distinct dimAllowed (bound.operands.take bound.dims)
  syms : Distinct symAllowed (bound.operands.drop bound.dims)

/-- No value is bound to two dimensions or to two symbols, and all bound values are allowed. -/
structure BindsOnce (allowed : ValueId → Prop) (bound : BoundExprs) : Prop where
  dims : (bound.operands.take bound.dims).Nodup
  syms : (bound.operands.drop bound.dims).Nodup
  allowed : ∀ value ∈ bound.operands, allowed value

variable {bound : BoundExprs}

theorem Binds.of_no_operands (h : bound.operands = []) : bound.Binds dimAllowed symAllowed := by
  constructor
  · rw [h, List.take_nil]
    exact .nil
  · rw [h, List.drop_nil]
    exact .nil

theorem Binds.allows (h : bound.Binds dimAllowed symAllowed) :
    bound.Allows dimAllowed symAllowed :=
  ⟨h.dims.allowed, h.syms.allowed⟩

theorem Binds.bindsOnce (h : bound.Binds allowed allowed) : bound.BindsOnce allowed := by
  refine ⟨h.dims.nodup, h.syms.nodup, fun value hmem => ?_⟩
  rw [← List.take_append_drop bound.dims bound.operands] at hmem
  rcases List.mem_append.mp hmem with hdim | hsym
  · exact h.dims.allowed value hdim
  · exact h.syms.allowed value hsym

section Promotes

variable (hpromotes : Promotes store dimAllowed symAllowed)

include hpromotes

theorem binds_pass (h : bound.exprs ≠ [] → bound.Allows dimAllowed symAllowed) :
    (bound.pass store).Binds dimAllowed symAllowed := by
  have hdimUsed : ∀ position, bound.usesDim position → bound.exprs ≠ [] := by
    intro position hused hnone
    simp [usesDim, hnone] at hused
  have hsymUsed : ∀ position, bound.usesSym position → bound.exprs ≠ [] := by
    intro position hused hnone
    simp [usesSym, hnone] at hused
  have hsymbols : Distinct symAllowed
      (placeSymbols store bound.usesSym 0 (bound.operands.drop bound.dims) []).2 := by
    refine Distinct.nil.placeSymbols fun index value hvalue hused => ?_
    exact (h (hsymUsed _ hused)).syms value (List.mem_of_getElem? hvalue)
  obtain ⟨hdims, hsyms⟩ : Distinct dimAllowed (bound.placement store).dims ∧
      Distinct symAllowed (bound.placement store).syms := by
    refine Distinct.placeDims hpromotes Distinct.nil hsymbols fun index value hvalue hused => ?_
    exact (h (hdimUsed _ hused)).dims value (List.mem_of_getElem? hvalue)
  refine ⟨?_, ?_⟩
  · simp only [pass, List.take_left]
    exact hdims
  · simp only [pass, List.drop_left]
    exact hsyms

theorem binds_settle (passes : Nat)
    (h : bound.exprs ≠ [] → bound.Allows dimAllowed symAllowed) :
    (bound.settle store (passes + 1)).Binds dimAllowed symAllowed := by
  have hpass : (bound.pass store).Binds dimAllowed symAllowed := binds_pass hpromotes h
  induction passes generalizing bound with
  | zero =>
      rw [settle]
      split
      · rename_i hfixed
        exact hfixed ▸ hpass
      · exact hpass
  | succ passes ih =>
      rw [settle]
      split
      · rename_i hfixed
        exact hfixed ▸ hpass
      · exact ih (fun _ => hpass.allows) (binds_pass hpromotes fun _ => hpass.allows)

theorem binds_canonical (h : bound.exprs ≠ [] → bound.Allows dimAllowed symAllowed) :
    (bound.canonical store).Binds dimAllowed symAllowed := by
  unfold canonical
  split
  · rename_i hnone
    refine ⟨?_, ?_⟩
    · simpa [hnone] using Distinct.nil
    · simpa [hnone] using Distinct.nil
  · exact binds_settle hpromotes _ h

end Promotes

end BoundExprs

namespace BoundMap

variable {store : Store} {dimAllowed symAllowed : ValueId → Prop} {bound : BoundMap}

theorem binds_settleMap (hpromotes : BoundExprs.Promotes store dimAllowed symAllowed)
    (rounds : Nat) (h : bound.toExprs.Binds dimAllowed symAllowed) :
    (bound.settle store rounds).toExprs.Binds dimAllowed symAllowed := by
  induction rounds generalizing bound with
  | zero => exact h
  | succ rounds ih =>
      -- simplification changes the results only
      have hsimple : BoundExprs.Binds dimAllowed symAllowed
          (toExprs { bound with map := bound.map.simplify }) := ⟨h.dims, h.syms⟩
      rw [settle]
      split
      · exact hsimple
      · exact ih (BoundExprs.binds_canonical hpromotes fun _ => hsimple.allows)

/-- The canonical form of a map with simplified results binds no value to two dimensions or two
symbols.  What is known of the operands is known of those that are left, and without results none
is left. -/
theorem binds_canonicalSimplified (hpromotes : BoundExprs.Promotes store dimAllowed symAllowed)
    (h : bound.map.results ≠ [] → bound.toExprs.Allows dimAllowed symAllowed) :
    (bound.canonicalSimplified store).toExprs.Binds dimAllowed symAllowed :=
  binds_settleMap hpromotes _ (BoundExprs.binds_canonical hpromotes h)

end BoundMap

end AffineLoops
