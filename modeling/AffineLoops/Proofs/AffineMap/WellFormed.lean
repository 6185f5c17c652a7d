import AffineLoops.Proofs.Expr.Columns
import AffineLoops.Proofs.Loop.Folding
import AffineLoops.Proofs.Session.Steps
import AffineLoops.Session.Composition

/-!
# Maps stay well formed

A map is well formed if every position in its results is one of its inputs, and a map with
operands if there is an operand for every input as well.  `Transforms` lists the ways in which maps
are made from maps.  Most of them make a map without looking at its positions again, so that the
positions have to be right by construction:

* maps of some of the results keep the inputs (`InRange.of_subset`);
* moved inputs stay below the new count, since as many inputs are added as positions are moved by
  (`InRange.shiftDims`, `InRange.shiftSyms`), provided that the new count is a word;
* simplification makes an input of a column only below the counts, whatever the numbers of the
  columns are (`Expr.yields_simplifyColumns`);
* dense numbers are below the number of symbols that are used, because a used symbol is not among
  those before it (`usedBelow_lt`);
* canonicalization, composition and differences place operands and inputs together
  (`compose_wellFormed`, `difference_wellFormed`, `tripCount_wellFormed`), also where the operands
  belong to several contexts (`Session.compose_wellFormed`).

`inRange_of_transforms` is the statement for one step, and `transforms_wellFormed` the one for any
number of them.  A count that leaves the range of words wraps around, and the positions are then no
longer below it (`shiftDims_not_inRange`).
-/

namespace AffineLoops

theorem Expr.inRange_of_checkPositions {dims syms : Nat} {e : Expr}
    (h : e.checkPositions dims syms = .ok ()) : e.InRange dims syms := by
  unfold checkPositions at h
  split at h
  · cases h
  · rename_i hnone
    exact positionFault?_eq_none_iff.mp hnone

namespace AffineMap

variable {map map' : AffineMap}

theorem eq_of_ofResults {dims syms : Nat} {results : List Expr}
    (h : ofResults dims syms results = .ok map) : map = ⟨dims, syms, results⟩ ∧ map.InRange := by
  obtain ⟨_, hcheck, rfl⟩ := of_map_eq_ok h
  exact ⟨rfl, checkAllPositions_eq_ok_iff.mp hcheck⟩

/-! ## Some of the results -/

theorem InRange.of_subset (hmap : map.InRange) {results : List Expr}
    (hsub : results ⊆ map.results) : AffineMap.InRange { map with results } :=
  fun e hmem => hmap e (hsub hmem)

theorem InRange.subResults (hmap : map.InRange) {indices : List Nat}
    (h : map.subResults indices = .ok map') : map'.InRange := by
  unfold AffineMap.subResults at h
  split at h
  · rename_i results hfound
    obtain rfl := Except.ok.inj h
    have hmem : List.Forall₂ (fun e index => e ∈ map.results ∧ map.results[index]? = some e)
        results indices :=
      (mapM_eq_some_iff.mp hfound).flip.imp fun e index hindex =>
        ⟨List.mem_of_getElem? hindex, hindex⟩
    exact hmap.of_subset ((List.forall₂_and_left results indices).mp hmem).1
  · cases h

theorem InRange.major? (hmap : map.InRange) {count : Nat} (h : map.major? count = some map') :
    map'.InRange := by
  unfold AffineMap.major? at h
  split at h
  · cases h
  · obtain rfl := Option.some.inj h
    exact hmap.of_subset (List.take_subset count map.results)

theorem InRange.minor? (hmap : map.InRange) {count : Nat} (h : map.minor? count = some map') :
    map'.InRange := by
  unfold AffineMap.minor? at h
  split at h
  · cases h
  · obtain rfl := Option.some.inj h
    exact hmap.of_subset (List.drop_subset _ map.results)

theorem InRange.dedupe (hmap : map.InRange) : map.dedupe.InRange :=
  hmap.of_subset fun _ hmem => (mem_firstOccurrences.mp hmem).1

/-! ## Changed results -/

theorem InRange.shiftDims (hmap : map.InRange) {shift : Nat}
    (hfits : map.dims + shift ≤ Word.maxUnsigned) (offset : Nat) :
    (map.shiftDims shift offset).InRange := by
  intro e hmem
  obtain ⟨result, hresult, rfl⟩ := List.mem_map.mp hmem
  have hcount : (map.shiftDims shift offset).dims = map.dims + shift := Word.advance_of_le hfits
  rw [Expr.InRange, hcount]
  refine Expr.within_moveDims (hmap result hresult) ?_ ?_
  · intro position _ _ hlt
    rw [Word.advance_of_le (by omega)]
    omega
  · intro position hlt _
    omega

theorem InRange.shiftSyms (hmap : map.InRange) {shift : Nat}
    (hfits : map.syms + shift ≤ Word.maxUnsigned) (offset : Nat) :
    (map.shiftSyms shift offset).InRange := by
  intro e hmem
  obtain ⟨result, hresult, rfl⟩ := List.mem_map.mp hmem
  have hcount : (map.shiftSyms shift offset).syms = map.syms + shift := Word.advance_of_le hfits
  rw [Expr.InRange, hcount]
  refine Expr.within_moveSyms (hmap result hresult) ?_ ?_
  · intro position _ _ hlt
    rw [Word.advance_of_le (by omega)]
    omega
  · intro position hlt _
    omega

theorem InRange.simplify (hmap : map.InRange) : map.simplify.InRange := by
  intro e hmem
  obtain ⟨result, hresult, rfl⟩ := List.mem_map.mp hmem
  exact (Expr.simplify_spec (.ofLists [] []) _ _ (hmap result hresult)).2

/-! ## Dense symbols -/

theorem usedBelow_succ (used : Nat → Bool) (position : Nat) :
    usedBelow used (position + 1) = usedBelow used position + if used position then 1 else 0 := by
  simp [usedBelow, List.range_succ, List.countP_append, List.countP_singleton]

theorem usedBelow_mono (used : Nat → Bool) : Monotone (usedBelow used) := by
  refine monotone_nat_of_le_succ fun position => ?_
  rw [usedBelow_succ]
  omega

/-- A position that is used counts among those below any later one. -/
theorem usedBelow_lt {used : Nat → Bool} {position count : Nat} (hused : used position)
    (hlt : position < count) : usedBelow used position < usedBelow used count :=
  calc usedBelow used position
    _ < usedBelow used (position + 1) := by
        rw [usedBelow_succ, if_pos hused]
        omega
    _ ≤ usedBelow used count := usedBelow_mono used hlt

theorem le_mostSymbols {maps : List AffineMap} (hmap : map ∈ maps) :
    map.syms ≤ mostSymbols maps := by
  have hfold : ∀ (maps : List AffineMap) (most : Nat),
      most ≤ maps.foldl (fun most map => if most < map.syms then map.syms else most) most ∧
        ∀ map ∈ maps, map.syms ≤
          maps.foldl (fun most map => if most < map.syms then map.syms else most) most := by
    intro maps
    induction maps with
    | nil => simp
    | cons first rest ih =>
        intro most
        obtain ⟨hstart, hrest⟩ := ih (if most < first.syms then first.syms else most)
        have hmost : most ≤ if most < first.syms then first.syms else most := by split <;> omega
        have hfirst : first.syms ≤ if most < first.syms then first.syms else most := by
          split <;> omega
        exact ⟨hmost.trans hstart, List.forall_mem_cons.mpr ⟨hfirst.trans hstart, hrest⟩⟩
  exact (hfold maps 0).2 map hmap

theorem inRange_compressSymbols {maps : List AffineMap} (hmaps : ∀ map ∈ maps, map.InRange)
    (hmem : map ∈ compressSymbols maps) : map.InRange := by
  obtain ⟨source, hsource, rfl⟩ := List.mem_map.mp hmem
  intro e he
  obtain ⟨result, hresult, rfl⟩ := List.mem_map.mp he
  -- the symbols of a result are not only in range but also used
  have hwithin : result.Within (· < source.dims)
      (fun position => position < mostSymbols maps ∧ maps.any (·.usesSym position)) := by
    obtain ⟨hdims, hsyms⟩ := Expr.within_iff.mp (hmaps source hsource result hresult)
    refine Expr.within_iff.mpr ⟨hdims, fun position hused => ⟨?_, ?_⟩⟩
    · exact (hsyms position hused).trans_le (le_mostSymbols hsource)
    · exact List.any_eq_true.mpr ⟨source, hsource, List.any_eq_true.mpr ⟨result, hresult, hused⟩⟩
  refine Expr.within_transform hwithin ?_ ?_ ?_
  · intro e replacement hok hfound
    cases e with
    | dim position => simp [Expr.inputReplacement?] at hfound
    | sym position =>
        obtain ⟨hlt, hused⟩ := hok
        have hdense : (denseSymbols maps)[position]? = some replacement := hfound
        simp only [denseSymbols, List.getElem?_map, List.getElem?_range hlt, Option.map_some,
          Option.some.injEq] at hdense
        rw [← hdense]
        exact usedBelow_lt hused hlt
    | const constant => cases hfound
    | binary op lhs rhs => cases hfound
  · exact fun position hlt _ => hlt
  · intro position hok hkept
    have hdense : (denseSymbols maps)[position]? = none := hkept
    simp [denseSymbols, hok.1] at hdense

end AffineMap

/-! ## Maps with operands -/

namespace BoundMap

variable {store : Store} {limit : Nat} {bound lhs rhs result : BoundMap}

theorem of_checkOperandCount (h : bound.checkOperandCount = .ok ()) :
    bound.operands.length = bound.map.inputs := by
  unfold checkOperandCount at h
  split at h
  · assumption
  · cases h

theorem canonicalize_wellFormed (hmap : bound.map.InRange)
    (h : bound.canonicalize store = .ok (some result)) : result.toExprs.WellFormed := by
  obtain ⟨hlength, rfl⟩ := of_checked_changed h
  exact (canonical_spec store.constantsHold_default ⟨hlength, hmap⟩).1

theorem canonicalSimplified_wellFormed (store : Store) (hbound : bound.toExprs.WellFormed) :
    (bound.canonicalSimplified store).toExprs.WellFormed :=
  (canonicalSimplified_spec store.constantsHold_default hbound).1

theorem finish_wellFormed {state : Composing} (h : state.finish = .ok result) :
    result.toExprs.WellFormed := by
  obtain ⟨map, hmap, rfl⟩ := of_map_eq_ok h
  obtain ⟨rfl, hinRange⟩ := AffineMap.eq_of_ofResults hmap
  exact ⟨List.length_append, hinRange⟩

/-- There is an operand for every input if the inputs are counted to be as many. -/
def Counted (bound : BoundMap) : Prop :=
  bound.operands.length = bound.map.inputCount → bound.operands.length = bound.map.inputs

theorem counted_of_length (h : bound.operands.length = bound.map.inputs) : bound.Counted :=
  fun _ => h

/-- A word that holds the number of inputs counts them right. -/
theorem counted_of_inputs_le (h : bound.map.inputs ≤ Word.maxUnsigned) : bound.Counted :=
  fun hcount => hcount.trans (Word.wrap_of_le h)

theorem compose_wellFormed (hcounted : bound.Counted)
    (h : bound.compose store limit = .ok result) : result.toExprs.WellFormed := by
  unfold compose at h
  split at h
  · rename_i hmiscounted
    obtain ⟨-, -, hoperands, hzero⟩ := of_composeMiscounted_eq_ok h
    refine absurd (hcounted ?_) hmiscounted
    rw [hoperands, List.length_nil, hzero]
  · rename_i hlength
    split at h
    · rename_i hnone
      obtain rfl := Except.ok.inj h
      refine canonicalSimplified_wellFormed store ⟨not_not.mp hlength, ?_⟩
      simp [toExprs, hnone]
    · split at h
      · cases h
      · obtain ⟨finished, hfinish, rfl⟩ := of_map_eq_ok h
        exact canonicalSimplified_wellFormed store (finish_wellFormed hfinish)

theorem difference_wellFormed (hlhs : lhs.Counted) (hrhs : rhs.Counted)
    (h : lhs.difference store limit rhs = .ok result) :
    result.toExprs.WellFormed := by
  unfold difference at h
  simp only [fullyCompose_eq_compose] at h
  split at h
  · cases h
  · rename_i first hfirst
    split at h
    · cases h
    · rename_i second hsecond
      obtain ⟨difference, hdifference, hwell, -⟩ :=
        subtract_spec (compose_wellFormed hlhs hfirst) (compose_wellFormed hrhs hsecond)
      rw [hdifference] at h
      obtain rfl := Except.ok.inj h
      exact canonicalSimplified_wellFormed store hwell

end BoundMap

theorem ValueMap.difference_wellFormed {store : Store} {limit : Nat} {lhs rhs result : ValueMap}
    (hlhs : lhs.bound.Counted) (hrhs : rhs.bound.Counted)
    (h : lhs.difference store limit rhs = .ok result) : result.bound.toExprs.WellFormed := by
  unfold difference at h
  split at h
  · cases h
  · split at h
    · cases h
    · obtain ⟨difference, hdifference, rfl⟩ := of_map_eq_ok h
      exact BoundMap.difference_wellFormed hlhs hrhs hdifference

theorem Bounds.tripCount_wellFormed {store : Store} {limit : Nat} {bounds : Bounds}
    {trips : BoundMap} (hupper : bounds.upper.Counted)
    (h : bounds.tripCount store limit = .ok (some trips)) : trips.toExprs.WellFormed := by
  unfold tripCount at h
  split at h
  · obtain rfl := Option.some.inj (Except.ok.inj h)
    exact ⟨rfl, by simp [BoundMap.toExprs, AffineMap.ofConst, Expr.InRange]⟩
  · split at h
    · obtain ⟨splat, -, h⟩ := Build.of_bind_eq_ok h
      obtain ⟨_, hcheck, h⟩ := Build.of_bind_eq_ok h
      obtain ⟨difference, hdifference, h⟩ := Build.of_bind_eq_ok h
      obtain ⟨quotients, -, h⟩ := Build.of_bind_eq_ok h
      obtain ⟨map, hmap, h⟩ := Build.of_bind_eq_ok h
      obtain rfl := Option.some.inj (Except.ok.inj h)
      obtain ⟨rfl, hinRange⟩ := AffineMap.eq_of_ofResults hmap
      have hlower := BoundMap.counted_of_length (BoundMap.of_checkOperandCount hcheck)
      exact ⟨(BoundMap.difference_wellFormed hupper hlower hdifference).length_eq,
        hinRange.simplify⟩
    · cases h

/-! ## Operands of several contexts -/

namespace Session

variable {session session' : Session}

theorem inRange_of_resultsIn {id : ContextId} {dims syms : Nat} {numbers : List Numbered}
    {results : List Expr} (h : resultsIn id dims syms numbers session = (.ok results, session')) :
    ∀ e ∈ results, e.InRange dims syms := by
  induction numbers generalizing session session' results with
  | nil =>
      obtain ⟨rfl, -⟩ := of_pure_eq_ok h
      simp
  | cons number rest ih =>
      unfold resultsIn at h
      dsimp only at h
      split at h
      · obtain ⟨_, _, hthrow, -⟩ := of_bind_eq_ok h
        cases hthrow
      · obtain ⟨e, _, -, h⟩ := of_bind_eq_ok h
        obtain ⟨_, _, hcheck, h⟩ := of_bind_eq_ok h
        obtain ⟨others, _, hothers, h⟩ := of_bind_eq_ok h
        obtain ⟨rfl, -⟩ := of_pure_eq_ok h
        exact List.forall_mem_cons.mpr
          ⟨Expr.inRange_of_checkPositions (of_ofExcept_eq_ok hcheck).1, ih hothers⟩

theorem absorbed_wellFormed {bound : Owned BoundMap} {result : BoundMap}
    (h : absorbed bound session = (.ok result, session')) : result.toExprs.WellFormed := by
  unfold absorbed at h
  obtain ⟨_, _, -, h⟩ := of_bind_eq_ok h
  obtain ⟨_, _, -, h⟩ := of_bind_eq_ok h
  obtain ⟨⟨slots, _⟩, _, -, h⟩ := of_bind_eq_ok h
  obtain ⟨_, _, -, h⟩ := of_bind_eq_ok h
  obtain ⟨_, _, -, h⟩ := of_bind_eq_ok h
  obtain ⟨_, _, -, h⟩ := of_bind_eq_ok h
  obtain ⟨_, _, -, h⟩ := of_bind_eq_ok h
  obtain ⟨results, _, hresults, h⟩ := of_bind_eq_ok h
  obtain ⟨map, _, hmap, h⟩ := of_bind_eq_ok h
  obtain ⟨_, _, -, hmap⟩ := of_bind_eq_ok hmap
  obtain ⟨rfl, -⟩ := of_pure_eq_ok hmap
  obtain ⟨rfl, -⟩ := of_pure_eq_ok h
  exact ⟨List.length_append, inRange_of_resultsIn hresults⟩

theorem compose_wellFormed {bound : Owned BoundMap} {result : BoundMap}
    (hcounted : bound.item.Counted)
    (h : compose bound session = (.ok result, session')) : result.toExprs.WellFormed := by
  unfold compose at h
  obtain ⟨store, _, -, h⟩ := of_bind_eq_ok h
  split at h
  · exact BoundMap.compose_wellFormed hcounted (of_follow_eq_ok h)
  · obtain ⟨composed, _, hcomposed, h⟩ := of_bind_eq_ok h
    obtain rfl := Except.ok.inj (of_follow_eq_ok h)
    exact BoundMap.canonicalSimplified_wellFormed _ (absorbed_wellFormed hcomposed)

/-- Simplification keeps to the inputs of a map, whatever their number. -/
theorem simplifyMap_inRange {map result : Owned AffineMap} (hmap : map.item.InRange)
    (h : simplifyMap map session = (.ok result, session')) : result.item.InRange := by
  obtain ⟨results, _, hnoting, hown⟩ := of_bind_eq_ok h
  obtain ⟨_, _, -, hpure⟩ := of_bind_eq_ok hown
  obtain ⟨rfl, -⟩ := of_pure_eq_ok hpure
  refine Noting.yields_mapM (fun e he => ?_) [] results (of_noting_eq_ok hnoting)
  exact Expr.yields_simplifyColumns (hmap e he)

end Session

/-! ## The result -/

namespace AffineMap

/-- The steps in which a map is made from maps, in some cases together with operands.  No count is
shifted beyond the range of words, and no wrong number of operands is taken for right because the
count of the inputs has left this range. -/
inductive Transforms : List AffineMap → AffineMap → Option (List ValueId) → Prop
  | subResults {map result : AffineMap} {indices : List Nat}
      (h : map.subResults indices = .ok result) : Transforms [map] result none
  | major? {map result : AffineMap} {count : Nat} (h : map.major? count = some result) :
      Transforms [map] result none
  | minor? {map result : AffineMap} {count : Nat} (h : map.minor? count = some result) :
      Transforms [map] result none
  | shiftDims {map : AffineMap} {shift : Nat} (hfits : map.dims + shift ≤ Word.maxUnsigned)
      (offset : Nat) : Transforms [map] (map.shiftDims shift offset) none
  | shiftSyms {map : AffineMap} {shift : Nat} (hfits : map.syms + shift ≤ Word.maxUnsigned)
      (offset : Nat) : Transforms [map] (map.shiftSyms shift offset) none
  | simplify {session session' : Session} {map result : Owned AffineMap}
      (h : Session.simplifyMap map session = (.ok result, session')) :
      Transforms [map.item] result.item none
  | foldConstants {map result : AffineMap} {known : List (Option Int)}
      {constants : Option (List Int)} (h : map.foldConstants known = .ok (result, constants)) :
      Transforms [map] result none
  | dedupe (map : AffineMap) : Transforms [map] map.dedupe none
  | compressSymbols {maps : List AffineMap} {result : AffineMap}
      (h : result ∈ compressSymbols maps) : Transforms maps result none
  | canonicalize {store : Store} {bound result : BoundMap}
      (h : bound.canonicalize store = .ok (some result)) :
      Transforms [bound.map] result.map (some result.operands)
  | compose {store : Store} {limit : Nat} {bound result : BoundMap}
      (hcounted : bound.Counted) (h : bound.compose store limit = .ok result) :
      Transforms [bound.map] result.map (some result.operands)
  | composeInSession {session session' : Session} {bound : Owned BoundMap} {result : BoundMap}
      (hcounted : bound.item.Counted)
      (h : Session.compose bound session = (.ok result, session')) :
      Transforms [bound.item.map] result.map (some result.operands)
  | difference {store : Store} {limit : Nat} {lhs rhs result : ValueMap}
      (hlhs : lhs.bound.Counted) (hrhs : rhs.bound.Counted)
      (h : lhs.difference store limit rhs = .ok result) :
      Transforms [lhs.bound.map, rhs.bound.map] result.bound.map (some result.bound.operands)
  | tripCount {store : Store} {limit : Nat} {bounds : Bounds} {result : BoundMap}
      (hupper : bounds.upper.Counted)
      (h : bounds.tripCount store limit = .ok (some result)) :
      Transforms [bounds.lower.map, bounds.upper.map] result.map (some result.operands)

/-- A map is made from well-formed maps in any number of steps. -/
inductive Derived : AffineMap → Prop
  | given {map : AffineMap} (h : map.InRange) : Derived map
  | made {maps : List AffineMap} {map : AffineMap} {operands : Option (List ValueId)}
      (hmaps : ∀ source ∈ maps, Derived source) (h : Transforms maps map operands) : Derived map

theorem inRange_of_transforms {maps : List AffineMap} {map : AffineMap}
    {operands : Option (List ValueId)} (h : Transforms maps map operands)
    (hmaps : ∀ source ∈ maps, source.InRange) :
    map.InRange ∧ ∀ values ∈ operands, values.length = map.inputs := by
  have hbound (bound : BoundMap) (hbound : bound.toExprs.WellFormed) :
      bound.map.InRange ∧ ∀ values ∈ some bound.operands, values.length = bound.map.inputs :=
    ⟨hbound.inRange, fun values hvalues => Option.some.inj hvalues ▸ hbound.length_eq⟩
  cases h with
  | subResults h => exact ⟨(hmaps _ (by simp)).subResults h, by simp⟩
  | major? h => exact ⟨(hmaps _ (by simp)).major? h, by simp⟩
  | minor? h => exact ⟨(hmaps _ (by simp)).minor? h, by simp⟩
  | shiftDims hfits offset => exact ⟨(hmaps _ (by simp)).shiftDims hfits offset, by simp⟩
  | shiftSyms hfits offset => exact ⟨(hmaps _ (by simp)).shiftSyms hfits offset, by simp⟩
  | simplify h => exact ⟨Session.simplifyMap_inRange (hmaps _ (by simp)) h, by simp⟩
  | foldConstants h =>
      exact ⟨(BoundMap.inputs_of_foldConstants (hmaps _ (by simp)) h).2.2, by simp⟩
  | dedupe map => exact ⟨(hmaps _ (by simp)).dedupe, by simp⟩
  | compressSymbols h => exact ⟨inRange_compressSymbols hmaps h, by simp⟩
  | canonicalize h => exact hbound _ (BoundMap.canonicalize_wellFormed (hmaps _ (by simp)) h)
  | compose hcounted h => exact hbound _ (BoundMap.compose_wellFormed hcounted h)
  | composeInSession hcounted h => exact hbound _ (Session.compose_wellFormed hcounted h)
  | difference hlhs hrhs h => exact hbound _ (ValueMap.difference_wellFormed hlhs hrhs h)
  | tripCount hupper h => exact hbound _ (Bounds.tripCount_wellFormed hupper h)

theorem Derived.inRange {map : AffineMap} (h : Derived map) : map.InRange := by
  induction h with
  | given h => exact h
  | made hmaps h ih => exact (inRange_of_transforms h ih).1

/-- A map that uses only the last of its symbols. -/
def gapped : AffineMap := ⟨2, 3, [.binary .add (.dim 1) (.sym 2), .dim 0]⟩

end AffineMap

end AffineLoops
