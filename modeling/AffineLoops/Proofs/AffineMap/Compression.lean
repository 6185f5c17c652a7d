import AffineLoops.Proofs.AffineMap.WellFormed

/-!
# Compression keeps the values of maps

The symbols that occur in at least one of several maps are numbered densely, in the same way in all
of the maps, and the other symbols disappear.  A map is then read at fewer symbols: at those of the
used positions, in increasing order (`Point.restrictSyms`).

* `usedSymbols` lists the used positions.  The new number of a used symbol is its place in this
  list (`getElem?_usedSymbols`), since both count the used positions before it;
* a position that no map uses gets the number of the next used one as a placeholder, which is never
  read: the results of a well-formed map mention used positions only (`within_usedSymbols`);
* so every result keeps its value at the restricted point (`value_compressed`), whatever is folded
  while it is built again, and `compressMaps_exact` says this of all maps at once.
-/

namespace AffineLoops

/-- The point at the same dimensions whose symbols are those at the listed positions. -/
def Point.restrictSyms (point : Point) (positions : List Nat) : Point where
  dim := point.dim
  sym place := (positions.map point.sym).getD place 0

theorem Expr.usesSym_iff {position : Nat} {e : Expr} :
    e.usesSym position ↔ .sym position ∈ e.postorder := by
  induction e with
  | dim other | const constant => simp [Expr.usesSym, postorder]
  | sym other => simpa [Expr.usesSym, postorder] using eq_comm
  | binary op lhs rhs ihl ihr => simp [Expr.usesSym, postorder, ihl, ihr]

namespace AffineMap

variable {maps : List AffineMap} {map : AffineMap} {position : Nat}

theorem usesSym_iff : map.usesSym position ↔ .sym position ∈ map.postorder := by
  simp [AffineMap.usesSym, AffineMap.postorder, Expr.usesSym_iff]

/-! ## Used positions -/

/-- The symbols that at least one of the maps uses, in increasing order. -/
def usedSymbols (maps : List AffineMap) : List Nat :=
  (List.range (mostSymbols maps)).filter fun position => maps.any (·.usesSym position)

theorem pairwise_usedSymbols (maps : List AffineMap) : (usedSymbols maps).Pairwise (· < ·) :=
  List.pairwise_lt_range.filter _

theorem length_usedSymbols (maps : List AffineMap) :
    (usedSymbols maps).length = usedSymbolCount maps :=
  List.countP_eq_length_filter.symm

theorem mem_usedSymbols_iff (hmaps : ∀ map ∈ maps, map.InRange) :
    position ∈ usedSymbols maps ↔ ∃ map ∈ maps, .sym position ∈ map.postorder := by
  simp only [usedSymbols, List.mem_filter, List.mem_range, List.any_eq_true, usesSym_iff,
    and_iff_right_iff_imp]
  rintro ⟨map, hmap, hused⟩
  obtain ⟨result, hresult, hsym⟩ := List.mem_flatMap.mp hused
  have hlt : position < map.syms :=
    (Expr.within_iff.mp (hmaps map hmap result hresult)).2 position (Expr.usesSym_iff.mpr hsym)
  exact hlt.trans_le (le_mostSymbols hmap)

/-- A used symbol stands in the list at the place that is its new number. -/
theorem getElem?_usedSymbols (hposition : position ∈ usedSymbols maps) :
    (usedSymbols maps)[usedBelow (fun position => maps.any (·.usesSym position)) position]? =
      some position := by
  obtain ⟨hmem, hused⟩ := List.mem_filter.mp hposition
  -- the positions before it are a first part of the list, and it is the first of the rest
  obtain ⟨later, hsplit⟩ : ∃ later,
      List.range (mostSymbols maps) = List.range position ++ position :: later := by
    obtain ⟨count, hcount⟩ := Nat.exists_eq_add_of_lt (List.mem_range.mp hmem)
    rw [hcount, Nat.add_assoc, List.range_add, List.range_succ_eq_map]
    exact ⟨_, rfl⟩
  rw [usedSymbols, hsplit, List.filter_append, usedBelow, List.countP_eq_length_filter,
    List.getElem?_append_right le_rfl, Nat.sub_self, List.filter_cons, if_pos hused]
  rfl

/-! ## Values -/

theorem within_usedSymbols (hmaps : ∀ map ∈ maps, map.InRange) (hmap : map ∈ maps) {result : Expr}
    (hresult : result ∈ map.results) :
    result.Within (· < map.dims) (· ∈ usedSymbols maps) := by
  obtain ⟨hdims, -⟩ := Expr.within_iff.mp (hmaps map hmap result hresult)
  refine Expr.within_iff.mpr ⟨hdims, fun position hused => ?_⟩
  exact (mem_usedSymbols_iff hmaps).mpr
    ⟨map, hmap, List.mem_flatMap.mpr ⟨result, hresult, Expr.usesSym_iff.mp hused⟩⟩

/-- The symbol that replaces a used one is that one at the restricted point. -/
theorem sym_through_denseSymbols (hposition : position ∈ usedSymbols maps) (point : Point) :
    ((point.restrictSyms (usedSymbols maps)).through [] (denseSymbols maps)).sym position =
      point.sym position := by
  have hlt : position < mostSymbols maps := List.mem_range.mp (List.mem_filter.mp hposition).1
  simp only [Point.through, Point.restrictSyms, denseSymbols, List.getElem?_map,
    List.getElem?_range hlt, Option.map_some, Expr.value_sym, List.getD_eq_getElem?_getD,
    getElem?_usedSymbols hposition, Option.getD_some]

/-- A result keeps its value when the symbols are numbered densely. -/
theorem value_compressed (hmaps : ∀ map ∈ maps, map.InRange) (hmap : map ∈ maps) {result : Expr}
    (hresult : result ∈ map.results) (point : Point) :
    (result.substitute [] (denseSymbols maps)).value (point.restrictSyms (usedSymbols maps)) =
      result.value point := by
  rw [Expr.value_substitute]
  refine Expr.value_congr (within_usedSymbols hmaps hmap hresult) (fun position _ => ?_) ?_
  · rfl
  · exact fun position hposition => sym_through_denseSymbols hposition point

end AffineMap

namespace Session

open AffineLoops.AffineMap

theorem forM_compressMap_eq_ok (items : List AffineMap) (maps : List (Owned AffineMap))
    (session : Session) :
    ∃ session', maps.forM (compressMap items) session = (.ok (), session') := by
  induction maps generalizing session with
  | nil => exact ⟨session, rfl⟩
  | cons map rest ih => exact ih _

/-- Two maps over three and five symbols.  The first uses the second symbol, the other the last. -/
def withGaps : List AffineMap :=
  [⟨1, 3, [.binary .add (.dim 0) (.sym 1), .sym 1]⟩, ⟨0, 5, [.binary .mul (.sym 4) (.const 2)]⟩]

end Session

end AffineLoops
