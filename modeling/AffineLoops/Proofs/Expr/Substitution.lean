import AffineLoops.Proofs.Expr.Value

/-!
# Substitution and values

A substitution is exact in the sense of the substitution lemma: the value of the new expression
at a point is the value of the old one at the point that gives every replaced input the value of
its replacement.  All substitutions are instances of `Expr.transform`, so the statement is proved
once (`value_transform`) and read off for replacement lists (`value_substitute`), for a single
target (`value_replace`) and for moved inputs (`value_moveDims`, `value_moveSyms`).  What a
substitution can mention is again said once, in `within_transform`.  Positions that are shifted wrap
around, and a shift is exact where none of the moved positions that occur leaves the range of words
(`value_shiftDims`, `value_shiftSyms`).
-/

namespace AffineLoops

/-- The point that gives every input with a replacement the value of that replacement. -/
def Point.through (point : Point) (dims syms : List Expr) : Point where
  dim position :=
    match dims[position]? with
    | some replacement => replacement.value point
    | none => point.dim position
  sym position :=
    match syms[position]? with
    | some replacement => replacement.value point
    | none => point.sym position

/-- The point at which the dimensions from `offset` up to `count` are read where they are moved. -/
def Point.moveDims (point : Point) (offset count : Nat) (move : Nat → Nat) : Point where
  dim position :=
    point.dim (if offset ≤ position ∧ position < count then move position else position)
  sym := point.sym

/-- The point at which the symbols from `offset` up to `count` are read where they are moved. -/
def Point.moveSyms (point : Point) (offset count : Nat) (move : Nat → Nat) : Point where
  dim := point.dim
  sym position :=
    point.sym (if offset ≤ position ∧ position < count then move position else position)

/-- The point at which the dimensions from `offset` up to `count` are read `shift` further on. -/
def Point.shiftDims (point : Point) (offset count shift : Nat) : Point :=
  point.moveDims offset count (· + shift)

/-- The point at which the symbols from `offset` up to `count` are read `shift` further on. -/
def Point.shiftSyms (point : Point) (offset count shift : Nat) : Point :=
  point.moveSyms offset count (· + shift)

namespace Expr

/-! ## Values -/

theorem value_transform {replacement? : Expr → Option Expr} {point point' : Point}
    (hreplaced : ∀ e replacement, replacement? e = some replacement →
      replacement.value point = e.value point')
    (hdim : ∀ position, replacement? (dim position) = none →
      point.dim position = point'.dim position)
    (hsym : ∀ position, replacement? (sym position) = none →
      point.sym position = point'.sym position)
    (e : Expr) : (transform replacement? e).value point = e.value point' := by
  induction e with
  | dim position =>
      cases hfound : replacement? (dim position) with
      | some replacement => simpa [transform, hfound] using hreplaced _ _ hfound
      | none => simpa [transform, hfound] using hdim position hfound
  | sym position =>
      cases hfound : replacement? (sym position) with
      | some replacement => simpa [transform, hfound] using hreplaced _ _ hfound
      | none => simpa [transform, hfound] using hsym position hfound
  | const constant =>
      cases hfound : replacement? (const constant) with
      | some replacement => simpa [transform, hfound] using hreplaced _ _ hfound
      | none => simp [transform, hfound]
  | binary op lhs rhs ihl ihr =>
      rw [transform]
      split
      · rename_i replacement hfound
        exact hreplaced _ _ hfound
      · dsimp only
        split
        · rename_i hsame
          rw [hsame.1] at ihl
          rw [hsame.2] at ihr
          rw [value_binary, value_binary, ihl, ihr]
        · rw [value_fold, value_binary, ihl, ihr]

/-- **Substitution lemma.** -/
theorem value_substitute (dims syms : List Expr) (point : Point) (e : Expr) :
    (substitute dims syms e).value point = e.value (point.through dims syms) := by
  refine value_transform ?_ ?_ ?_ e
  · intro e replacement hfound
    cases e with
    | dim position =>
        have hfound : dims[position]? = some replacement := hfound
        simp [Point.through, hfound]
    | sym position =>
        have hfound : syms[position]? = some replacement := hfound
        simp [Point.through, hfound]
    | const constant => cases hfound
    | binary op lhs rhs => cases hfound
  · intro position hkept
    have hkept : dims[position]? = none := hkept
    simp [Point.through, hkept]
  · intro position hkept
    have hkept : syms[position]? = none := hkept
    simp [Point.through, hkept]

theorem value_replace {target replacement : Expr} {point point' : Point}
    (htarget : replacement.value point = target.value point')
    (hdim : ∀ position, dim position ≠ target → point.dim position = point'.dim position)
    (hsym : ∀ position, sym position ≠ target → point.sym position = point'.sym position)
    (e : Expr) : (replace target replacement e).value point = e.value point' := by
  refine value_transform ?_ ?_ ?_ e
  · intro e found hfound
    unfold targetReplacement? at hfound
    split at hfound
    · rename_i heq
      rw [← Option.some.inj hfound, heq, htarget]
    · cases hfound
  · intro position hkept
    exact hdim position (by simpa [targetReplacement?] using hkept)
  · intro position hkept
    exact hsym position (by simpa [targetReplacement?] using hkept)

theorem value_moveDims (offset count : Nat) (move : Nat → Nat) (point : Point) (e : Expr) :
    (moveDims offset count move e).value point = e.value (point.moveDims offset count move) := by
  refine value_transform ?_ ?_ ?_ e
  · intro e moved hmoved
    cases e with
    | dim position =>
        simp only [movedDim?, Option.ite_none_right_eq_some, Option.some.injEq] at hmoved
        simp [← hmoved.2, Point.moveDims, hmoved.1]
    | sym position => cases hmoved
    | const constant => cases hmoved
    | binary op lhs rhs => cases hmoved
  · intro position hkept
    simp only [movedDim?, ite_eq_right_iff, reduceCtorEq, imp_false] at hkept
    simp [Point.moveDims, hkept]
  · intro position _
    rfl

theorem value_moveSyms (offset count : Nat) (move : Nat → Nat) (point : Point) (e : Expr) :
    (moveSyms offset count move e).value point = e.value (point.moveSyms offset count move) := by
  refine value_transform ?_ ?_ ?_ e
  · intro e moved hmoved
    cases e with
    | dim position => cases hmoved
    | sym position =>
        simp only [movedSym?, Option.ite_none_right_eq_some, Option.some.injEq] at hmoved
        simp [← hmoved.2, Point.moveSyms, hmoved.1]
    | const constant => cases hmoved
    | binary op lhs rhs => cases hmoved
  · intro position _
    rfl
  · intro position hkept
    simp only [movedSym?, ite_eq_right_iff, reduceCtorEq, imp_false] at hkept
    simp [Point.moveSyms, hkept]

theorem value_shiftDims {offset count shift : Nat} {e : Expr}
    (hfits : ∀ position, e.usesDim position → offset ≤ position → position < count →
      position + shift ≤ Word.maxUnsigned) (point : Point) :
    (shiftDims offset count shift e).value point =
      e.value (point.shiftDims offset count shift) := by
  rw [shiftDims, value_moveDims]
  refine value_congr (within_iff.mpr ⟨fun _ h => h, fun _ h => h⟩) ?_ fun _ _ => rfl
  intro position hused
  dsimp only [Point.shiftDims, Point.moveDims]
  split
  · rename_i hmoved
    rw [Word.advance_of_le (hfits position hused hmoved.1 hmoved.2)]
  · rfl

theorem value_shiftSyms {offset count shift : Nat} {e : Expr}
    (hfits : ∀ position, e.usesSym position → offset ≤ position → position < count →
      position + shift ≤ Word.maxUnsigned) (point : Point) :
    (shiftSyms offset count shift e).value point =
      e.value (point.shiftSyms offset count shift) := by
  rw [shiftSyms, value_moveSyms]
  refine value_congr (within_iff.mpr ⟨fun _ h => h, fun _ h => h⟩) (fun _ _ => rfl) ?_
  intro position hused
  dsimp only [Point.shiftSyms, Point.moveSyms]
  split
  · rename_i hmoved
    rw [Word.advance_of_le (hfits position hused hmoved.1 hmoved.2)]
  · rfl

/-! ## Positions -/

section Positions

variable {dimOk symOk dimOk' symOk' : Nat → Prop} {e : Expr}

theorem within_transform {replacement? : Expr → Option Expr} (h : e.Within dimOk symOk)
    (hreplaced : ∀ e replacement, e.Within dimOk symOk → replacement? e = some replacement →
      replacement.Within dimOk' symOk')
    (hdim : ∀ position, dimOk position → replacement? (dim position) = none → dimOk' position)
    (hsym : ∀ position, symOk position → replacement? (sym position) = none → symOk' position) :
    (transform replacement? e).Within dimOk' symOk' := by
  induction e with
  | dim position =>
      cases hfound : replacement? (dim position) with
      | some replacement => simpa [transform, hfound] using hreplaced _ _ h hfound
      | none => simpa [transform, hfound] using hdim position h hfound
  | sym position =>
      cases hfound : replacement? (sym position) with
      | some replacement => simpa [transform, hfound] using hreplaced _ _ h hfound
      | none => simpa [transform, hfound] using hsym position h hfound
  | const constant =>
      cases hfound : replacement? (const constant) with
      | some replacement => simpa [transform, hfound] using hreplaced _ _ h hfound
      | none => simp [transform, hfound]
  | binary op lhs rhs ihl ihr =>
      rw [transform]
      split
      · rename_i replacement hfound
        exact hreplaced _ _ h hfound
      · dsimp only
        split
        · rename_i hsame
          rw [← hsame.1, ← hsame.2]
          exact ⟨hsame.1.symm ▸ ihl h.1, hsame.2.symm ▸ ihr h.2⟩
        · exact within_fold (ihl h.1) (ihr h.2) op

/-- If every input has a replacement, the positions are those of the replacements. -/
theorem within_substitute {dims syms : List Expr} (h : e.InRange dims.length syms.length)
    (hdims : ∀ replacement ∈ dims, replacement.Within dimOk symOk)
    (hsyms : ∀ replacement ∈ syms, replacement.Within dimOk symOk) :
    (substitute dims syms e).Within dimOk symOk := by
  refine within_transform h ?_ ?_ ?_
  · intro e replacement _ hfound
    cases e with
    | dim position => exact hdims replacement (List.mem_of_getElem? hfound)
    | sym position => exact hsyms replacement (List.mem_of_getElem? hfound)
    | const constant => cases hfound
    | binary op lhs rhs => cases hfound
  · intro position hlt hkept
    exact absurd hlt (not_lt.mpr (List.getElem?_eq_none_iff.mp hkept))
  · intro position hlt hkept
    exact absurd hlt (not_lt.mpr (List.getElem?_eq_none_iff.mp hkept))

theorem within_replace {target replacement : Expr} (h : e.Within dimOk symOk)
    (hreplacement : replacement.Within dimOk' symOk')
    (hdim : ∀ position, dimOk position → dim position ≠ target → dimOk' position)
    (hsym : ∀ position, symOk position → sym position ≠ target → symOk' position) :
    (replace target replacement e).Within dimOk' symOk' := by
  refine within_transform h ?_ ?_ ?_
  · intro e found _ hfound
    unfold targetReplacement? at hfound
    split at hfound
    · rw [← Option.some.inj hfound]
      exact hreplacement
    · cases hfound
  · intro position hok hkept
    exact hdim position hok (by simpa [targetReplacement?] using hkept)
  · intro position hok hkept
    exact hsym position hok (by simpa [targetReplacement?] using hkept)

theorem within_moveDims {offset count : Nat} {move : Nat → Nat} (h : e.Within dimOk symOk)
    (hmoved : ∀ position, dimOk position → offset ≤ position → position < count →
      dimOk' (move position))
    (hkept : ∀ position, dimOk position → ¬ (offset ≤ position ∧ position < count) →
      dimOk' position) :
    (moveDims offset count move e).Within dimOk' symOk := by
  refine within_transform h ?_ ?_ fun position hok _ => hok
  · intro e moved hok hfound
    cases e with
    | dim position =>
        simp only [movedDim?, Option.ite_none_right_eq_some, Option.some.injEq] at hfound
        rw [← hfound.2]
        exact hmoved position hok hfound.1.1 hfound.1.2
    | sym position => cases hfound
    | const constant => cases hfound
    | binary op lhs rhs => cases hfound
  · intro position hok hnone
    simp only [movedDim?, ite_eq_right_iff, reduceCtorEq, imp_false] at hnone
    exact hkept position hok hnone

theorem within_moveSyms {offset count : Nat} {move : Nat → Nat} (h : e.Within dimOk symOk)
    (hmoved : ∀ position, symOk position → offset ≤ position → position < count →
      symOk' (move position))
    (hkept : ∀ position, symOk position → ¬ (offset ≤ position ∧ position < count) →
      symOk' position) :
    (moveSyms offset count move e).Within dimOk symOk' := by
  refine within_transform h ?_ (fun position hok _ => hok) ?_
  · intro e moved hok hfound
    cases e with
    | dim position => cases hfound
    | sym position =>
        simp only [movedSym?, Option.ite_none_right_eq_some, Option.some.injEq] at hfound
        rw [← hfound.2]
        exact hmoved position hok hfound.1.1 hfound.1.2
    | const constant => cases hfound
    | binary op lhs rhs => cases hfound
  · intro position hok hnone
    simp only [movedSym?, ite_eq_right_iff, reduceCtorEq, imp_false] at hnone
    exact hkept position hok hnone

end Positions

end Expr

end AffineLoops
