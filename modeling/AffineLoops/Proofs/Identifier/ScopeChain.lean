import AffineLoops.Proofs.Identifier.Scope
import Mathlib.Data.Finset.Card

/-!
# Ascents that reach the top

Ancestors, scopes and scope chains are found by going up a bounded number of times.  Where no
operation is nested in itself, the bound is large enough: an ascent never comes back to where it
was, so it makes at most one step for every node of the store.

* `exists_rank`: a step function without cycles on finitely many sources has a rank that falls
  with every step and is at most the number of sources;
* `ancestors_eq`, `scope?_eq` and `scopeChain_eq`: ancestors, scopes and scope chains satisfy
  equations that mention no bound;
* `mem_scopeChain_iff`: a scope chain holds all regions around the scope that are reached without
  leaving an operation that is isolated from above.
-/

namespace AffineLoops

/-! ## Ranks of step functions -/

section Rank

variable {α : Type} {next? : α → Option α}

/-- The rank of an element is the number of sources that are reached from it. -/
theorem exists_rank {index : α → Nat} {size : Nat} (hinjective : Function.Injective index)
    (hsource : ∀ {a b}, next? a = some b → index a < size)
    (hacyclic : ∀ a, ¬ Relation.TransGen (fun a b => next? a = some b) a a) :
    ∃ rank : α → Nat, (∀ {a b}, next? a = some b → rank b < rank a) ∧ ∀ a, rank a ≤ size := by
  classical
  let reached (a : α) : Finset Nat := (Finset.range size).filter fun i =>
    ∃ b, index b = i ∧ Relation.ReflTransGen (fun a b => next? a = some b) a b
  refine ⟨fun a => (reached a).card, ?_, fun a => ?_⟩
  · intro a b hstep
    have hsubset : reached b ⊆ reached a := by
      intro i hi
      obtain ⟨hrange, c, hc, hpath⟩ := Finset.mem_filter.mp hi
      exact Finset.mem_filter.mpr ⟨hrange, c, hc, .head hstep hpath⟩
    have hmem : index a ∈ reached a :=
      Finset.mem_filter.mpr ⟨Finset.mem_range.mpr (hsource hstep), a, rfl, .refl⟩
    have hnotMem : index a ∉ reached b := by
      intro hi
      obtain ⟨-, c, hc, hpath⟩ := Finset.mem_filter.mp hi
      obtain rfl := hinjective hc
      exact hacyclic c (.head' hstep hpath)
    exact Finset.card_lt_card (Finset.ssubset_iff_of_subset hsubset |>.mpr ⟨_, hmem, hnotMem⟩)
  · calc (reached a).card
        ≤ (Finset.range size).card := Finset.card_filter_le _ _
      _ = size := Finset.card_range size

variable {rank : α → Nat} (hrank : ∀ {a b}, next? a = some b → rank b < rank a)

include hrank

/-- A chain that is allowed more steps than the rank of its first element is complete. -/
theorem chain_congr {bound bound' : Nat} {a : α} (h : rank a < bound) (h' : rank a < bound') :
    chain next? bound a = chain next? bound' a := by
  induction bound generalizing bound' a with
  | zero => omega
  | succ bound ih =>
      obtain ⟨bound', rfl⟩ : ∃ fewer, bound' = fewer + 1 := ⟨bound' - 1, by omega⟩
      rw [chain, chain]
      cases hnext : next? a with
      | none => rfl
      | some b =>
          have hlt := hrank hnext
          exact congrArg _ (ih (by omega) (by omega))

theorem chain_eq {bound : Nat} {a : α} (h : rank a < bound) :
    chain next? bound a = a :: match next? a with
      | none => []
      | some b => chain next? bound b := by
  obtain ⟨bound, rfl⟩ : ∃ fewer, bound = fewer + 1 := ⟨bound - 1, by omega⟩
  rw [chain]
  cases hnext : next? a with
  | none => rfl
  | some b =>
      have hlt := hrank hnext
      exact congrArg _ (chain_congr hrank (by omega) (by omega))

theorem mem_chain_of_reflTransGen {bound : Nat} {a b : α} (h : rank a < bound)
    (hpath : Relation.ReflTransGen (fun a b => next? a = some b) a b) :
    b ∈ chain next? bound a := by
  induction hpath using Relation.ReflTransGen.head_induction_on with
  | refl =>
      rw [chain_eq hrank h]
      exact List.mem_cons_self
  | head hstep _ ih =>
      rw [chain_eq hrank h, hstep]
      exact List.mem_cons_of_mem _ (ih ((hrank hstep).trans h))

end Rank

namespace Store

variable {store : Store}

/-! ## Ancestors and scopes -/

/-- Every ancestor of an operation is found. -/
theorem ancestors_eq (hnesting : store.NoSelfNesting) (id : OpId) :
    store.ancestors id = id :: match store.opParent? id with
      | none => []
      | some parent => store.ancestors parent := by
  have hinjective : Function.Injective OpId.index := fun _ _ h => congrArg OpId.mk h
  obtain ⟨rank, hrank, hle⟩ := exists_rank hinjective index_lt_of_opParent? hnesting
  refine (chain_eq hrank (Nat.lt_succ_of_le (hle id))).trans ?_
  cases store.opParent? id <;> rfl

/-- The scope of an operation is its region or the scope of the operation around it. -/
theorem scope?_eq (hnesting : store.NoSelfNesting) (id : OpId) :
    store.scope? id = match store.opParent? id with
      | none => none
      | some parent =>
          if store.hasTrait parent .affineScope then store.opRegion? id
          else store.scope? parent := by
  rw [scope?, ancestors_eq hnesting, List.find?_cons]
  cases hparent : store.opParent? id with
  | none => rfl
  | some parent => cases htrait : store.hasTrait parent .affineScope <;> simp [htrait, scope?]

/-! ## Scope chains -/

variable (store) in
/-- A region is another one or lies around it, with no operation in between that is isolated from
above. -/
def EnclosesOpenly (outer inner : RegionId) : Prop :=
  Relation.ReflTransGen (fun inner outer => store.enclosingRegion? inner = some outer) inner outer

theorem index_lt_of_enclosingRegion? {inner outer : RegionId}
    (h : store.enclosingRegion? inner = some outer) : inner.index < store.regions.size := by
  by_contra hge
  have hdefault : store.region inner = default := getD_of_size_le (not_lt.mp hge)
  simp [enclosingRegion?, hdefault, show (default : Region).parent = none from rfl] at h

theorem not_transGen_enclosingRegion? (hnesting : store.NoSelfNesting) (region : RegionId) :
    ¬ Relation.TransGen (fun inner outer => store.enclosingRegion? inner = some outer)
      region region := by
  intro hcycle
  have hcycle' : Relation.TransGen (fun inner outer => store.regionParent? inner = some outer)
      region region :=
    Relation.TransGen.mono (fun _ _ => regionParent?_of_enclosingRegion?) _ _ hcycle
  obtain ⟨next, hfirst, -⟩ := Relation.TransGen.head'_iff.mp hcycle'
  obtain ⟨op, hop, -⟩ := regionParent?_eq_some.mp hfirst
  exact hnesting op (transGen_opParent? hcycle' hop hop)

theorem exists_rank_of_enclosingRegion? (hnesting : store.NoSelfNesting) :
    ∃ rank : RegionId → Nat,
      (∀ {inner outer}, store.enclosingRegion? inner = some outer → rank outer < rank inner) ∧
        ∀ region, rank region ≤ store.regions.size := by
  have hinjective : Function.Injective RegionId.index := fun _ _ h => congrArg RegionId.mk h
  exact exists_rank hinjective index_lt_of_enclosingRegion?
    (not_transGen_enclosingRegion? hnesting)

/-- A scope chain goes on with the region around the scope. -/
theorem scopeChain_eq (hnesting : store.NoSelfNesting) (region : RegionId) :
    store.scopeChain (some region) =
      region :: store.scopeChain (store.enclosingRegion? region) := by
  obtain ⟨rank, hrank, hle⟩ := exists_rank_of_enclosingRegion? hnesting
  refine (chain_eq hrank (Nat.lt_succ_of_le (hle region))).trans ?_
  cases store.enclosingRegion? region <;> rfl

/-- The regions of a scope chain are those that enclose the scope openly. -/
theorem mem_scopeChain_iff (hnesting : store.NoSelfNesting) {scope region : RegionId} :
    region ∈ store.scopeChain (some scope) ↔ store.EnclosesOpenly region scope := by
  refine ⟨reflTransGen_of_mem_chain, fun hpath => ?_⟩
  obtain ⟨rank, hrank, hle⟩ := exists_rank_of_enclosingRegion? hnesting
  exact mem_chain_of_reflTransGen hrank (Nat.lt_succ_of_le (hle scope)) hpath

end Store

end AffineLoops
