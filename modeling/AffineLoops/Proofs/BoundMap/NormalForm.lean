import AffineLoops.Proofs.BoundMap.Progress

/-!
# Canonical forms are normal forms

`BoundExprs.NormalForm` describes canonical operands without the pass that makes them: every input
is used, no value is bound to two dimensions or to two symbols, no dimension is a symbol in its own
scope and no symbol is a constant.

One pass does not lead there.  When inputs are merged or constants put in, terms cancel and other
inputs lose their last use.  But a pass changes nothing exactly if every input takes a new place as
what it was (`pass_eq_iff_counts`), and an input does so exactly if it is used, keeps its kind and
is bound to a value that has no place yet (`TakesPlaces`).  Hence the normal forms are the operands
that a pass leaves alone (`pass_eq_iff_normalForm`), and this is where the loop of passes ends.
-/

namespace AffineLoops

namespace BoundExprs

/-- Operands in normal form. -/
structure NormalForm (store : Store) (bound : BoundExprs) : Prop where
  dims_used : ∀ position < bound.dims, ∃ e ∈ bound.exprs, e.usesDim position
  syms_used : ∀ position < bound.syms, ∃ e ∈ bound.exprs, e.usesSym position
  dims_nodup : (bound.operands.take bound.dims).Nodup
  dims_not_symbol : ∀ value ∈ bound.operands.take bound.dims, ¬ store.isSymbolInOwnScope value
  syms_nodup : (bound.operands.drop bound.dims).Nodup
  syms_not_constant : ∀ value ∈ bound.operands.drop bound.dims, store.constantOf? value = none
  not_symbol_of_both : ∀ value ∈ bound.operands.take bound.dims,
    value ∈ bound.operands.drop bound.dims → ¬ store.isSymbolInOwnScope value

variable {store : Store} {used : Nat → Bool} {accepts : ValueId → Prop} {position : Nat}
  {values placed dims symbols : List ValueId} {value : ValueId}

/-! ## Inputs that take a new place -/

/-- Every input from a position on is used and bound to an accepted value that has no place yet. -/
def TakesPlaces (accepts : ValueId → Prop) (used : Nat → Bool) :
    Nat → List ValueId → List ValueId → Prop
  | _, [], _ => True
  | position, value :: rest, placed =>
      (used position ∧ accepts value ∧ value ∉ placed) ∧
        TakesPlaces accepts used (position + 1) rest (placed ++ [value])

theorem takesPlaces_iff :
    TakesPlaces accepts used position values placed ↔
      (∀ index < values.length, used (position + index)) ∧ (∀ value ∈ values, accepts value) ∧
        values.Nodup ∧ ∀ value ∈ values, value ∉ placed := by
  induction values generalizing position placed with
  | nil => simp [TakesPlaces]
  | cons value rest ih =>
      have hused : (∀ index < (value :: rest).length, used (position + index)) ↔
          used position ∧ ∀ index < rest.length, used (position + 1 + index) := by
        simp only [List.length_cons, Nat.forall_lt_succ_left, Nat.add_zero,
          Nat.add_assoc, Nat.add_comm 1]
      rw [TakesPlaces, ih, hused]
      simp only [List.forall_mem_cons, List.nodup_cons, List.mem_append, List.mem_singleton, not_or]
      constructor
      · rintro ⟨⟨hfirst, haccepts, hnew⟩, hrest, haccepted, hnodup, hfresh⟩
        exact ⟨⟨hfirst, hrest⟩, ⟨haccepts, haccepted⟩,
          ⟨fun hmem => (hfresh value hmem).2 rfl, hnodup⟩, hnew,
          fun other hmem => (hfresh other hmem).1⟩
      · rintro ⟨⟨hfirst, hrest⟩, ⟨haccepts, haccepted⟩, ⟨hnotMem, hnodup⟩, hnew, hfresh⟩
        exact ⟨⟨hfirst, haccepts, hnew⟩, hrest, haccepted, hnodup, fun other hmem =>
          ⟨hfresh other hmem, fun heq => hnotMem (heq ▸ hmem)⟩⟩

theorem place_of_notMem (h : value ∉ values) :
    place values value = (values.length, values ++ [value]) := by
  have hmissing : values.idxOf? value = none := List.idxOf?_eq_none_iff.mpr h
  simp [place, hmissing]

theorem place_of_mem (h : value ∈ values) : (place values value).2 = values := by
  unfold place
  split
  · rfl
  · rename_i hmissing
    exact absurd h (List.idxOf?_eq_none_iff.mp hmissing)

/-- A symbol takes a new place exactly if it is no constant and has no place yet. -/
theorem placeSymbol_snd_eq_iff :
    (placeSymbol store symbols value).2 = symbols ++ [value] ↔
      store.constantOf? value = none ∧ value ∉ symbols := by
  unfold placeSymbol
  split
  · rename_i constant hconstant
    simp [hconstant]
  · rename_i hconstant
    by_cases hmem : value ∈ symbols
    · simp [hconstant, hmem, place_of_mem hmem]
    · simp [hconstant, hmem, place_of_notMem hmem]

theorem placeSymbols_full_iff (store : Store) (used : Nat → Bool) (position : Nat)
    (values symbols : List ValueId) :
    (placeSymbols store used position values symbols).2.length = symbols.length + values.length ↔
      TakesPlaces (store.constantOf? · = none) used position values symbols := by
  induction values generalizing position symbols with
  | nil => simp [placeSymbols, TakesPlaces]
  | cons value rest ih =>
      let first := if used position then placeSymbol store symbols value else (.const 0, symbols)
      have hplaced : (placeSymbols store used position (value :: rest) symbols).2 =
          (placeSymbols store used (position + 1) rest first.2).2 := rfl
      rw [hplaced, TakesPlaces, List.length_cons]
      by_cases hfirst : used position ∧ store.constantOf? value = none ∧ value ∉ symbols
      · have hnew : first.2 = symbols ++ [value] := by
          simpa only [first, hfirst.1, if_true] using placeSymbol_snd_eq_iff.mpr hfirst.2
        rw [hnew, ← ih, List.length_append, List.length_singleton, Nat.add_assoc,
          Nat.add_comm 1]
        exact (and_iff_right hfirst).symm
      · -- an input without a new place leaves too few places for the others
        have hkept : first.2 = symbols := by
          by_cases hused : used position
          · simp only [first, hused, if_true]
            rcases placeSymbol_cases store symbols value with hkept | hnew
            · exact hkept
            · exact absurd ⟨hused, placeSymbol_snd_eq_iff.mp (by rw [hnew])⟩ hfirst
          · simp [first, hused]
        have hle := (placeSymbols_count store used (position + 1) rest first.2).1
        simp only [hfirst, false_and, iff_false]
        rw [hkept] at hle ⊢
        omega

theorem placeDims_full_iff (store : Store) (used : Nat → Bool) (position : Nat)
    (values dims symbols : List ValueId) :
    (placeDims store used position values dims symbols).2.1.length = dims.length + values.length ↔
      TakesPlaces (¬ store.isSymbolInOwnScope ·) used position values dims := by
  induction values generalizing position dims symbols with
  | nil => simp [placeDims, TakesPlaces]
  | cons value rest ih =>
      let first : Expr × List ValueId × List ValueId :=
        if used position then
          if store.isSymbolInOwnScope value then
            ((placeSymbol store symbols value).1, dims, (placeSymbol store symbols value).2)
          else (.dim (place dims value).1, (place dims value).2, symbols)
        else (.const 0, dims, symbols)
      have hplaced : (placeDims store used position (value :: rest) dims symbols).2 =
          (placeDims store used (position + 1) rest first.2.1 first.2.2).2 := by
        rw [placeDims]
      rw [hplaced, TakesPlaces, List.length_cons]
      by_cases hfirst : used position ∧ ¬ store.isSymbolInOwnScope value ∧ value ∉ dims
      · have hdims : first.2 = (dims ++ [value], symbols) := by
          simp [first, hfirst, place_of_notMem hfirst.2.2]
        rw [hdims, ← ih _ _ symbols, List.length_append, List.length_singleton, Nat.add_assoc,
          Nat.add_comm 1]
        exact (and_iff_right hfirst).symm
      · have hkept : first.2.1 = dims := by
          by_cases hused : used position
          · by_cases hsymbol : store.isSymbolInOwnScope value
            · simp [first, hused, hsymbol]
            · have hmem : value ∈ dims := by
                by_contra hnew
                exact hfirst ⟨hused, hsymbol, hnew⟩
              simp [first, hused, hsymbol, place_of_mem hmem]
          · simp [first, hused]
        have hle := (placeDims_count store used (position + 1) rest first.2.1 first.2.2).1
        simp only [hfirst, false_and, iff_false]
        rw [hkept] at hle ⊢
        omega

/-! ## Passes that change nothing -/

variable {bound result : BoundExprs}

/-- A pass changes nothing exactly if it gives a place to every symbol and to every dimension as a
dimension. -/
theorem pass_eq_iff_counts (hlength : bound.operands.length = bound.dims + bound.syms) :
    bound.pass store = bound ↔
      (placeSymbols store bound.usesSym 0 (bound.operands.drop bound.dims) []).2.length =
          bound.syms ∧
        (placeDims store bound.usesDim 0 (bound.operands.take bound.dims) []
          (placeSymbols store bound.usesSym 0 (bound.operands.drop bound.dims) []).2).2.1.length =
          bound.dims := by
  let symbols := placeSymbols store bound.usesSym 0 (bound.operands.drop bound.dims) []
  let dims := placeDims store bound.usesDim 0 (bound.operands.take bound.dims) [] symbols.2
  have htake : (bound.operands.take bound.dims).length = bound.dims := by
    rw [List.length_take]
    omega
  have hdims : (bound.pass store).dims = dims.2.1.length := rfl
  have hsyms : (bound.pass store).syms = dims.2.2.length := rfl
  -- dimensions that all stay dimensions add nothing to the symbols
  have hkept : dims.2.1.length = bound.dims → dims.2.2 = symbols.2 := by
    intro hfull
    have hcount := (placeDims_count store bound.usesDim 0 (bound.operands.take bound.dims) []
      symbols.2).2.2 (by rw [htake]; simpa using hfull)
    exact congrArg (·.2.2) hcount
  constructor
  · intro hpass
    rw [hpass] at hdims hsyms
    exact ⟨by rw [hsyms, hkept hdims.symm], hdims.symm⟩
  · rintro ⟨hsymsFull, hdimsFull⟩
    refine (pass_eq_or_advances hlength).resolve_right fun hadvances => ?_
    have hprogress := hadvances.progress
    have hnext := length_operands_pass store bound
    have hsymsSame : dims.2.2.length = bound.syms := by rw [hkept hdimsFull]; exact hsymsFull
    have hdimsSame : dims.2.1.length = bound.dims := hdimsFull
    omega

theorem pass_eq_iff_normalForm (hlength : bound.operands.length = bound.dims + bound.syms) :
    bound.pass store = bound ↔ bound.NormalForm store := by
  have htake : (bound.operands.take bound.dims).length = bound.dims := by
    rw [List.length_take]
    omega
  have hdrop : (bound.operands.drop bound.dims).length = bound.syms := by
    rw [List.length_drop]
    omega
  have hsyms := placeSymbols_full_iff store bound.usesSym 0 (bound.operands.drop bound.dims) []
  have hdims := placeDims_full_iff store bound.usesDim 0 (bound.operands.take bound.dims) []
    (placeSymbols store bound.usesSym 0 (bound.operands.drop bound.dims) []).2
  rw [takesPlaces_iff] at hsyms hdims
  simp only [List.length_nil, Nat.zero_add, htake, hdrop, List.not_mem_nil, not_false_eq_true,
    implies_true, and_true] at hsyms hdims
  rw [pass_eq_iff_counts hlength, hsyms, hdims]
  simp only [usesDim, usesSym, List.any_eq_true]
  constructor
  · rintro ⟨⟨hsymsUsed, hconstant, hsymsNodup⟩, hdimsUsed, hsymbol, hdimsNodup⟩
    exact ⟨hdimsUsed, hsymsUsed, hdimsNodup, hsymbol, hsymsNodup, hconstant,
      fun value hdim _ => hsymbol value hdim⟩
  · intro hnormal
    exact ⟨⟨hnormal.syms_used, hnormal.syms_not_constant, hnormal.syms_nodup⟩,
      hnormal.dims_used, hnormal.dims_not_symbol, hnormal.dims_nodup⟩

theorem canonical_of_pass_eq (h : bound.pass store = bound) : bound.canonical store = bound := by
  unfold canonical
  split
  · rfl
  · rw [settle, if_pos h]

/-- The loop of passes ends where a pass changes nothing. -/
theorem Settles.pass_eq (h : Settles store bound result) : result.pass store = result := by
  induction h with
  | done hsame => exact hsame
  | pass _ _ ih => exact ih

theorem canonical_eq_iff_normalForm (hlength : bound.operands.length = bound.dims + bound.syms) :
    bound.canonical store = bound ↔ bound.NormalForm store := by
  rw [← pass_eq_iff_normalForm hlength]
  constructor
  · intro hsame
    have hsettles : Settles store bound (bound.canonical store) := settles_canonical hlength
    rw [hsame] at hsettles
    exact hsettles.pass_eq
  · exact canonical_of_pass_eq

theorem normalForm_canonical (hlength : bound.operands.length = bound.dims + bound.syms) :
    (bound.canonical store).NormalForm store := by
  have hsettles : Settles store bound (bound.canonical store) := settles_canonical hlength
  exact (pass_eq_iff_normalForm (hsettles.length_eq hlength)).mp hsettles.pass_eq

end BoundExprs

/-! ## Maps and sets -/

/-- What one has after a change that is reported only if there is one. -/
theorem getD_changed {α : Type} [DecidableEq α] (old new : α) :
    (if new = old then none else some new).getD old = new := by
  split
  · rename_i hsame
    exact hsame.symm
  · rfl

namespace BoundMap

variable {store : Store} {bound : BoundMap} (hlength : bound.operands.length = bound.map.inputs)

include hlength

theorem canonicalize_eq :
    bound.canonicalize store =
      .ok (if bound.canonical store = bound then none else some (bound.canonical store)) := by
  simp only [canonicalize, checkOperandCount, if_pos hlength, Except.map]

theorem canonicalize_eq_none_iff :
    bound.canonicalize store = .ok none ↔ bound.toExprs.NormalForm store := by
  have hcanonical : bound.canonical store = bound ↔
      bound.toExprs.canonical store = bound.toExprs :=
    ⟨congrArg toExprs, congrArg ofExprs⟩
  rw [canonicalize_eq hlength, ← BoundExprs.canonical_eq_iff_normalForm hlength, ← hcanonical]
  simp

end BoundMap

namespace BoundSet

variable {store : Store} {bound : BoundSet} (hlength : bound.operands.length = bound.set.inputs)

include hlength

theorem canonicalize_eq :
    bound.canonicalize store =
      .ok (if bound.canonical store = bound then none else some (bound.canonical store)) := by
  simp only [canonicalize, checkOperandCount, if_pos hlength, Except.map]

theorem canonicalize_eq_none_iff :
    bound.canonicalize store = .ok none ↔ bound.toExprs.NormalForm store := by
  have hcanonical : bound.canonical store = bound ↔
      bound.toExprs.canonical store = bound.toExprs := by
    rw [← toExprs_canonical hlength]
    refine ⟨congrArg toExprs, fun hsame => ?_⟩
    -- a set with the old expressions and operands has made no progress
    refine (canonical_eq_or_advances hlength).resolve_right fun hadvances => ?_
    have hprogress := hadvances.progress
    rw [hsame] at hprogress
    omega
  rw [canonicalize_eq hlength, ← BoundExprs.canonical_eq_iff_normalForm hlength, ← hcanonical]
  simp

end BoundSet

/-- Canonical forms are normal forms.  Canonicalization of a map or a set with an operand for every
input gives nothing new exactly if the operands are in normal form.  Whether it gives something new
or not, what one has afterwards is in normal form, and canonicalizing it again gives nothing new. -/
theorem canonicalize_normalForm (store : Store) :
    (∀ bound : BoundMap, bound.operands.length = bound.map.inputs →
      (bound.canonicalize store = .ok none ↔ bound.toExprs.NormalForm store) ∧
      ∃ changed, bound.canonicalize store = .ok changed ∧
        (changed.getD bound).toExprs.NormalForm store ∧
        (changed.getD bound).canonicalize store = .ok none) ∧
    ∀ bound : BoundSet, bound.operands.length = bound.set.inputs →
      (bound.canonicalize store = .ok none ↔ bound.toExprs.NormalForm store) ∧
      ∃ changed, bound.canonicalize store = .ok changed ∧
        (changed.getD bound).toExprs.NormalForm store ∧
        (changed.getD bound).canonicalize store = .ok none := by
  constructor
  · intro bound hlength
    have hnormal : (bound.canonical store).toExprs.NormalForm store :=
      BoundExprs.normalForm_canonical hlength
    have hlength' : (bound.canonical store).operands.length = (bound.canonical store).map.inputs :=
      (BoundMap.settles_canonical hlength).length_eq hlength
    refine ⟨BoundMap.canonicalize_eq_none_iff hlength, _, BoundMap.canonicalize_eq hlength, ?_⟩
    rw [getD_changed]
    exact ⟨hnormal, (BoundMap.canonicalize_eq_none_iff hlength').mpr hnormal⟩
  · intro bound hlength
    have hnormal : (bound.canonical store).toExprs.NormalForm store := by
      rw [BoundSet.toExprs_canonical hlength]
      exact BoundExprs.normalForm_canonical hlength
    have hlength' : (bound.canonical store).operands.length = (bound.canonical store).set.inputs :=
      (BoundSet.settles_canonical hlength).length_eq hlength
    refine ⟨BoundSet.canonicalize_eq_none_iff hlength, _, BoundSet.canonicalize_eq hlength, ?_⟩
    rw [getD_changed]
    exact ⟨hnormal, (BoundSet.canonicalize_eq_none_iff hlength').mpr hnormal⟩

open LoopInFunction in
theorem canonicalize_normalForm_loopInFunction :
    map.operands.length = map.map.inputs ∧ set.operands.length = set.set.inputs ∧
    map.canonicalize store = .ok (some (map.canonical store)) ∧
    (map.canonical store).toExprs.NormalForm store ∧
    (map.canonical store).canonicalize store = .ok none ∧
    set.canonicalize store = .ok (some (set.canonical store)) ∧
    (set.canonical store).toExprs.NormalForm store ∧
    (set.canonical store).canonicalize store = .ok none := by
  have hmap : map.canonicalize store = .ok (some (map.canonical store)) := by decide
  have hset : set.canonicalize store = .ok (some (set.canonical store)) := by decide
  obtain ⟨hmaps, hsets⟩ := canonicalize_normalForm store
  obtain ⟨-, changed, hchanged, hnormal, hagain⟩ := hmaps map (by decide)
  obtain ⟨-, changed', hchanged', hnormal', hagain'⟩ := hsets set (by decide)
  obtain rfl := Except.ok.inj (hchanged.symm.trans hmap)
  obtain rfl := Except.ok.inj (hchanged'.symm.trans hset)
  exact ⟨by decide, by decide, hmap, hnormal, hagain, hset, hnormal', hagain'⟩

end AffineLoops
