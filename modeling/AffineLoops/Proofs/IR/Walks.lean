import AffineLoops.Proofs.IR.Descent
import AffineLoops.Proofs.Identifier.OwnScope

/-!
# Walks

A walk goes through an operation and all operations below it, and may be interrupted at each of
them.  `Store.listing` is the list of these operations, in the order in which a walk comes to them.
A walk that skips nothing goes through the listing from left to right (`next_walkFrom`), so
everything about its course is a statement about a list.

Walks descend a bounded number of levels.  Where no operation is nested in itself the bound is
large enough (`endsWithin_walk`), and then

* `mem_listing_iff`: the listing holds what the operation contains, besides itself;
* `nodup_listing`: nothing is listed twice;
* `children_sublist_listing` and `arrange_sublist_listing`: operations side by side are listed in
  order, and an operation before or after all that it contains.
-/

namespace AffineLoops

/-! ## Parts of lists -/

section Sublists

variable {α β : Type} {a b : α} {as bs : List α}

theorem sublist_flatMap_of_mem {f : α → List β} (h : a ∈ as) : (f a).Sublist (as.flatMap f) := by
  rw [List.flatMap_def]
  exact List.sublist_flatten_of_mem (List.mem_map_of_mem h)

theorem sublist_flatMap_self {f : α → List α} (h : ∀ a ∈ as, a ∈ f a) :
    as.Sublist (as.flatMap f) := by
  induction as with
  | nil => exact List.Sublist.refl []
  | cons a as ih =>
      have hfirst := List.singleton_sublist.mpr (h a List.mem_cons_self)
      exact hfirst.append (ih fun b hb => h b (List.mem_cons_of_mem a hb))

variable [DecidableEq α]

/-- Two elements of a list without repetitions come in the order of their places. -/
theorem pair_sublist_iff (hnodup : as.Nodup) (hb : b ∈ as) :
    [a, b].Sublist as ↔ as.idxOf a < as.idxOf b := by
  induction as with
  | nil => cases hb
  | cons c rest ih =>
      obtain ⟨hc, hrest⟩ := List.nodup_cons.mp hnodup
      by_cases hca : c = a
      · subst hca
        by_cases hcb : c = b
        · subst hcb
          simp [hc]
        · have hmem : b ∈ rest := (List.mem_cons.mp hb).resolve_left (Ne.symm hcb)
          simp [hcb, List.idxOf_cons_ne, hmem]
      · by_cases hcb : c = b
        · subst hcb
          have hnot : ¬ [a, c].Sublist rest := fun h => hc (h.subset (by simp))
          simp [List.sublist_cons_iff, hnot, Ne.symm hca]
        · have hmem : b ∈ rest := (List.mem_cons.mp hb).resolve_left (Ne.symm hcb)
          rw [List.idxOf_cons_ne _ hca, List.idxOf_cons_ne _ hcb, Nat.succ_lt_succ_iff,
            ← ih hrest hmem]
          simp [List.sublist_cons_iff, Ne.symm hca]

/-- A part of a list without repetitions has its elements in the order of the list. -/
theorem idxOf_lt_iff_of_sublist (h : as.Sublist bs) (hnodup : bs.Nodup) (ha : a ∈ as)
    (hb : b ∈ as) : as.idxOf a < as.idxOf b ↔ bs.idxOf a < bs.idxOf b := by
  have hpart : ∀ {a b}, b ∈ as → as.idxOf a < as.idxOf b → bs.idxOf a < bs.idxOf b := by
    intro a b hb hlt
    have hpair := (pair_sublist_iff (h.nodup hnodup) hb).mpr hlt
    exact (pair_sublist_iff hnodup (h.subset hb)).mp (hpair.trans h)
  refine ⟨hpart hb, fun hlt => ?_⟩
  rcases Nat.lt_trichotomy (as.idxOf a) (as.idxOf b) with hbefore | heq | hafter
  · exact hbefore
  · have hsame : a = b := (List.idxOf_inj ha).mp heq
    exact absurd hlt (by rw [hsame]; exact lt_irrefl _)
  · exact absurd hlt (Nat.lt_asymm (hpart ha hafter))

end Sublists

/-! ## The course of a walk -/

namespace WalkTrace

variable {step : OpId → WalkStep} {trace : WalkTrace} {ids : List OpId}

/-- Continues a walk with one visit, unless it was interrupted before. -/
def extend (step : OpId → WalkStep) (trace : WalkTrace) (id : OpId) : WalkTrace :=
  trace.next fun trace =>
    if step id = .interrupt then (trace.visit id).interrupt else trace.visit id

theorem next_of_completed (h : trace.completed) (continuation : WalkTrace → WalkTrace) :
    trace.next continuation = continuation trace := if_pos h

theorem next_of_not_completed (h : ¬ trace.completed) (continuation : WalkTrace → WalkTrace) :
    trace.next continuation = trace := if_neg h

/-- A walk that is over does not go on. -/
theorem foldl_extend_of_not_completed (h : ¬ trace.completed) :
    ids.foldl (extend step) trace = trace := by
  induction ids with
  | nil => rfl
  | cons id ids ih => rw [List.foldl_cons, extend, next_of_not_completed h, ih]

/-- A walk is completed if no visit interrupts it. -/
theorem completed_foldl_extend :
    (ids.foldl (extend step) trace).completed ↔
      trace.completed ∧ ∀ id ∈ ids, step id ≠ .interrupt := by
  induction ids generalizing trace with
  | nil => simp
  | cons id ids ih =>
      by_cases hcompleted : trace.completed
      · rw [List.foldl_cons, ih, extend, next_of_completed hcompleted]
        by_cases hstep : step id = .interrupt
        · simp [hstep, interrupt]
        · simp [hstep, visit, hcompleted]
      · rw [foldl_extend_of_not_completed hcompleted]
        simp [hcompleted]

/-- A completed walk has visited everything, in order. -/
theorem visited_foldl_extend (h : (ids.foldl (extend step) trace).completed) :
    (ids.foldl (extend step) trace).visited = trace.visited ++ ids := by
  induction ids generalizing trace with
  | nil => simp
  | cons id ids ih =>
      obtain ⟨hcompleted, hsteps⟩ := completed_foldl_extend.mp h
      rw [List.foldl_cons] at h ⊢
      rw [ih h, extend, next_of_completed hcompleted, if_neg (hsteps id List.mem_cons_self), visit,
        List.append_assoc, List.singleton_append]

end WalkTrace

/-- An operation and one that it contains, in the order in which a walk visits them. -/
def WalkOrder.arrange (outer inner : OpId) : WalkOrder → List OpId
  | .pre => [outer, inner]
  | .post => [inner, outer]

namespace Store

variable {store : Store} {order : WalkOrder} {step : OpId → WalkStep} {depth : Nat}
  {root outer inner op : OpId}

/-! ## Listings -/

variable (store) in
/-- The operations at and below an operation, down to the given depth, in the order of a walk. -/
def listing (order : WalkOrder) : Nat → OpId → List OpId
  | 0, _ => []
  | depth + 1, id =>
      let below := (store.children id).flatMap (listing order depth)
      match order with
      | .pre => id :: below
      | .post => below ++ [id]

/-- A walk that skips nothing goes through the listing. -/
theorem next_walkFrom (hskip : ∀ id, step id ≠ .skip) (trace : WalkTrace) :
    trace.next (store.walkFrom order step depth root) =
      (store.listing order depth root).foldl (WalkTrace.extend step) trace := by
  induction depth generalizing root trace with
  | zero => exact ite_self trace
  | succ depth ih =>
      by_cases hcompleted : trace.completed
      · -- the walks through the operations below follow each other
        have hbelow : ∀ trace : WalkTrace, (store.children root).foldl
            (fun trace child => trace.next (store.walkFrom order step depth child)) trace =
              ((store.children root).flatMap (store.listing order depth)).foldl
                (WalkTrace.extend step) trace := by
          intro trace
          rw [List.foldl_flatMap]
          simp only [ih]
        rw [WalkTrace.next_of_completed hcompleted]
        cases order with
        | pre =>
            have hvisit := WalkTrace.next_of_completed hcompleted fun trace =>
              if step root = .interrupt then (trace.visit root).interrupt else trace.visit root
            rw [walkFrom, listing, List.foldl_cons, WalkTrace.extend, hvisit]
            cases hstep : step root with
            | advance => exact hbelow _
            | interrupt =>
                have hover : ¬ (trace.visit root).interrupt.completed := Bool.false_ne_true
                exact (WalkTrace.foldl_extend_of_not_completed hover).symm
            | skip => exact absurd hstep (hskip root)
        | post =>
            rw [walkFrom, listing, List.foldl_append, ← hbelow]
            rfl
      · rw [WalkTrace.next_of_not_completed hcompleted,
          WalkTrace.foldl_extend_of_not_completed hcompleted]

theorem walk_eq (hskip : ∀ id, step id ≠ .skip) :
    store.walk order step root =
      (store.listing order (store.operations.size + 1) root).foldl (WalkTrace.extend step) .start :=
  (WalkTrace.next_of_completed rfl _).symm.trans (next_walkFrom hskip .start)

theorem completed_walk_iff (hskip : ∀ id, step id ≠ .skip) :
    (store.walk order step root).completed ↔
      ∀ op ∈ store.listing order (store.operations.size + 1) root, step op ≠ .interrupt := by
  rw [walk_eq hskip, WalkTrace.completed_foldl_extend]
  exact and_iff_right rfl

theorem visited_walk (hskip : ∀ id, step id ≠ .skip)
    (hcompleted : (store.walk order step root).completed) :
    (store.walk order step root).visited =
      store.listing order (store.operations.size + 1) root := by
  rw [walk_eq hskip] at hcompleted ⊢
  exact WalkTrace.visited_foldl_extend hcompleted

/-! ## The depth of a walk -/

variable (store) in
/-- The way down from an operation ends within a number of levels, wherever it leads. -/
inductive EndsWithin : Nat → OpId → Prop
  | intro {depth : Nat} {op : OpId} (h : ∀ child ∈ store.children op, EndsWithin depth child) :
      EndsWithin (depth + 1) op

theorem Nested.endsWithin_walk (hnested : store.Nested) (hnesting : store.NoSelfNesting)
    (root : OpId) : store.EndsWithin (store.operations.size + 1) root := by
  have hinjective : Function.Injective OpId.index := fun _ _ h => congrArg OpId.mk h
  obtain ⟨rank, hrank, hle⟩ := exists_rank hinjective index_lt_of_opParent? hnesting
  -- an operation has a larger rank than the one around it, and no rank exceeds the size
  have hends : ∀ depth op, store.operations.size < depth + rank op →
      store.EndsWithin depth op := by
    intro depth
    induction depth with
    | zero =>
        intro op hlt
        have := hle op
        omega
    | succ depth ih =>
        intro op hlt
        refine .intro fun child hchild => ih child ?_
        have := hrank (hnested.holds_iff.mp (mem_children_iff.mp hchild))
        omega
  exact hends _ root (by omega)

theorem mem_listing_succ_iff :
    op ∈ store.listing order (depth + 1) root ↔
      op = root ∨ ∃ child ∈ store.children root, op ∈ store.listing order depth child := by
  cases order with
  | pre => simp [listing]
  | post => simp [listing, or_comm]

/-- The listing of an operation holds the operation and all that it contains. -/
theorem mem_listing_iff (hends : store.EndsWithin depth root) :
    op ∈ store.listing order depth root ↔ Relation.ReflTransGen store.Holds root op := by
  induction hends with
  | @intro depth root _ ih =>
      rw [mem_listing_succ_iff, Relation.ReflTransGen.cases_head_iff]
      refine or_congr eq_comm (exists_congr fun child => ?_)
      rw [mem_children_iff]
      exact and_congr_right fun hchild => ih child (mem_children_iff.mpr hchild)

theorem below_sublist_listing :
    ((store.children root).flatMap (store.listing order depth)).Sublist
      (store.listing order (depth + 1) root) := by
  cases order with
  | pre => exact List.sublist_cons_self ..
  | post => exact List.sublist_append_left ..

/-- The listing of an operation that another one holds is a part of the listing of that one. -/
theorem listing_sublist_succ {child : OpId} (hchild : child ∈ store.children root) :
    (store.listing order depth child).Sublist (store.listing order (depth + 1) root) :=
  (sublist_flatMap_of_mem hchild).trans below_sublist_listing

/-- Nothing is listed twice. -/
theorem Nested.nodup_listing (hnested : store.Nested) (hnesting : store.NoSelfNesting)
    (hends : store.EndsWithin depth root) : (store.listing order depth root).Nodup := by
  induction hends with
  | @intro depth root hchildren ih =>
      have hbelow : ((store.children root).flatMap (store.listing order depth)).Nodup := by
        refine List.nodup_flatMap.mpr ⟨ih, ?_⟩
        refine (hnested.nodup_children root).imp_of_mem ?_
        intro child child' hchild hchild' hne op hop hop'
        exact hne (hnested.eq_of_below_both hnesting (mem_children_iff.mp hchild)
          (mem_children_iff.mp hchild') ((mem_listing_iff (hchildren child hchild)).mp hop)
          ((mem_listing_iff (hchildren child' hchild')).mp hop'))
      have hroot : root ∉ (store.children root).flatMap (store.listing order depth) := by
        rw [List.mem_flatMap]
        rintro ⟨child, hchild, hmem⟩
        exact hnested.not_contains_self hnesting root
          (.head' (mem_children_iff.mp hchild) ((mem_listing_iff (hchildren child hchild)).mp hmem))
      cases order with
      | pre => exact List.nodup_cons.mpr ⟨hroot, hbelow⟩
      | post =>
          refine List.nodup_append.mpr ⟨hbelow, List.nodup_singleton root, ?_⟩
          rintro op hop op' hop' rfl
          obtain rfl := List.mem_singleton.mp hop'
          exact hroot hop

/-! ## The order of a listing -/

/-- Operations side by side are listed in their order. -/
theorem children_sublist_listing (hends : store.EndsWithin depth root)
    (hop : op ∈ store.listing order depth root) :
    (store.children op).Sublist (store.listing order depth root) := by
  induction hends with
  | @intro depth root hchildren ih =>
      rcases mem_listing_succ_iff.mp hop with rfl | ⟨child, hchild, hmem⟩
      · -- every listing holds the operation that it starts from
        have hself : ∀ child ∈ store.children op, child ∈ store.listing order depth child :=
          fun child hchild => (mem_listing_iff (hchildren child hchild)).mpr .refl
        exact (sublist_flatMap_self hself).trans below_sublist_listing
      · exact (ih child hchild hmem).trans (listing_sublist_succ hchild)

theorem operations_sublist_children {region : RegionId} {block : BlockId}
    (hregion : region ∈ (store.op op).regions) (hblock : block ∈ (store.region region).blocks) :
    (store.block block).operations.Sublist (store.children op) := by
  have hinner := sublist_flatMap_of_mem (f := fun block => (store.block block).operations) hblock
  rw [children]
  exact hinner.trans (sublist_flatMap_of_mem (f := fun region =>
    (store.region region).blocks.flatMap fun block => (store.block block).operations) hregion)

/-- An operation is listed before or after all that it contains. -/
theorem arrange_sublist_listing (hends : store.EndsWithin depth root)
    (houter : outer ∈ store.listing order depth root) (hcontains : store.Contains outer inner) :
    (order.arrange outer inner).Sublist (store.listing order depth root) := by
  induction hends with
  | @intro depth root hchildren ih =>
      rcases mem_listing_succ_iff.mp houter with rfl | ⟨child, hchild, hmem⟩
      · have hbelow : inner ∈ (store.children outer).flatMap (store.listing order depth) := by
          obtain ⟨child, hholds, hpath⟩ := Relation.TransGen.head'_iff.mp hcontains
          have hchild := mem_children_iff.mpr hholds
          exact List.mem_flatMap.mpr
            ⟨child, hchild, (mem_listing_iff (hchildren child hchild)).mpr hpath⟩
        cases order with
        | pre => exact List.cons_sublist_cons.mpr (List.singleton_sublist.mpr hbelow)
        | post => exact (List.singleton_sublist.mpr hbelow).append (List.Sublist.refl [outer])
      · exact (ih child hchild hmem).trans (listing_sublist_succ hchild)

/-- Two operations of one block are listed in the order of the block. -/
theorem Reachable.isBefore_iff_listing (hstore : store.Reachable) (hnesting : store.NoSelfNesting)
    (hends : store.EndsWithin depth root) {block : BlockId} {first second : OpId}
    (hfirst : (store.op first).parent = some block)
    (hsecond : (store.op second).parent = some block)
    (hmem : first ∈ store.listing order depth root)
    (hmem' : second ∈ store.listing order depth root) :
    store.isBefore first second ↔
      (store.listing order depth root).idxOf first <
        (store.listing order depth root).idxOf second := by
  have hnested := hstore.nested
  rw [hstore.isBefore_iff hfirst hsecond]
  rcases Relation.ReflTransGen.cases_tail ((mem_listing_iff hends).mp hmem) with
    rfl | ⟨owner, hpath, hholds⟩
  · -- nothing else of the block of the first operation is below it
    have howner : store.opParent? second = store.opParent? first := by
      simp [opParent?, opRegion?, hfirst, hsecond]
    have heq := eq_of_opParent?_eq hnesting howner
      (hnested.reflTransGen_holds_iff.mp ((mem_listing_iff hends).mp hmem'))
    simp [heq]
  · obtain ⟨region, hregion, block', hblock, hlisted⟩ := hholds
    obtain rfl : block' = block :=
      Option.some.inj (((hnested.operations.mem_iff first block').mp hlisted).symm.trans hfirst)
    have howner : owner ∈ store.listing order depth root := (mem_listing_iff hends).mpr hpath
    have hpart := (operations_sublist_children hregion hblock).trans
      (children_sublist_listing hends howner)
    exact idxOf_lt_iff_of_sublist hpart (hnested.nodup_listing hnesting hends) hlisted
      ((hnested.operations.mem_iff second block').mpr hsecond)

/-! ## Walks that always advance -/

/-- A walk that always advances visits the operation that it starts from and all that this one
contains, each of them once.  It visits an operation before all that it contains, or after, as the
order says, and the operations of a block in the order of the block. -/
theorem walk_visits_descendants (hstore : store.Reachable) (hnesting : store.NoSelfNesting)
    (order : WalkOrder) (root : OpId) :
    let trace := store.walk order (fun _ => .advance) root
    trace.completed ∧ trace.visited.Nodup ∧
    (∀ op, op ∈ trace.visited ↔ store.isAncestor root op) ∧
    (∀ outer inner, outer ∈ trace.visited → store.isProperAncestor outer inner →
      inner ∈ trace.visited ∧
      match order with
      | .pre => trace.visited.idxOf outer < trace.visited.idxOf inner
      | .post => trace.visited.idxOf inner < trace.visited.idxOf outer) ∧
    ∀ block first second, first ∈ trace.visited → second ∈ trace.visited →
      (store.op first).parent = some block → (store.op second).parent = some block →
      (store.isBefore first second ↔ trace.visited.idxOf first < trace.visited.idxOf second) := by
  have hnested := hstore.nested
  have hends := hnested.endsWithin_walk hnesting root
  have hcompleted : (store.walk order (fun _ => .advance) root).completed :=
    (completed_walk_iff fun _ => WalkStep.noConfusion).mpr fun _ _ => WalkStep.noConfusion
  have hvisited := visited_walk (fun _ => WalkStep.noConfusion) hcompleted
  have hnodup : (store.listing order (store.operations.size + 1) root).Nodup :=
    hnested.nodup_listing hnesting hends
  intro trace
  rw [show trace.visited = _ from hvisited]
  refine ⟨hcompleted, hnodup, fun op => ?_, fun outer inner houter hinner => ?_, ?_⟩
  · rw [mem_listing_iff hends, isAncestor_iff hnested hnesting]
  · have hpair := arrange_sublist_listing hends houter
      ((isProperAncestor_iff hnested hnesting).mp hinner)
    cases order with
    | pre =>
        have hmem := hpair.subset (List.mem_cons_of_mem outer (List.mem_singleton_self inner))
        exact ⟨hmem, (pair_sublist_iff hnodup hmem).mp hpair⟩
    | post =>
        exact ⟨hpair.subset List.mem_cons_self, (pair_sublist_iff hnodup houter).mp hpair⟩
  · intro block first second hmem hmem' hfirst hsecond
    exact hstore.isBefore_iff_listing hnesting hends hfirst hsecond hmem hmem'

end Store

open NestedScopes in
set_option maxRecDepth 2000 in
/-- After a scope with two blocks inside of a loop come the operation that ends the loop and the
loop itself. -/
theorem walk_visits_descendants_nestedScopes :
    store.Reachable ∧ store.NoSelfNesting ∧
    (store.walk .post (fun _ => .advance) ⟨1⟩).visited =
      [⟨2⟩, ⟨3⟩, ⟨5⟩, ⟨7⟩, ⟨6⟩, ⟨8⟩, ⟨4⟩, ⟨0⟩, ⟨1⟩] ∧
    (∀ op, op ∈ [⟨2⟩, ⟨3⟩, ⟨5⟩, ⟨7⟩, ⟨6⟩, ⟨8⟩, ⟨4⟩, ⟨0⟩, ⟨1⟩] ↔ store.isAncestor ⟨1⟩ op) ∧
    store.isProperAncestor ⟨4⟩ ⟨7⟩ ∧ store.isBefore ⟨5⟩ ⟨6⟩ := by
  have hvisited : (store.walk .post (fun _ => .advance) ⟨1⟩).visited =
      [⟨2⟩, ⟨3⟩, ⟨5⟩, ⟨7⟩, ⟨6⟩, ⟨8⟩, ⟨4⟩, ⟨0⟩, ⟨1⟩] := by decide
  obtain ⟨-, -, hmem, -, hbefore⟩ :=
    Store.walk_visits_descendants reachable noSelfNesting .post ⟨1⟩
  rw [hvisited] at hmem hbefore
  refine ⟨reachable, noSelfNesting, hvisited, hmem, by decide, ?_⟩
  exact (hbefore ⟨1⟩ ⟨5⟩ ⟨6⟩ (by decide) (by decide) (by decide) (by decide)).mpr
    (by decide)

end AffineLoops
