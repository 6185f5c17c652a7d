import AffineLoops.Proofs.Session.Steps
import AffineLoops.Proofs.Uniquing.Interning
import AffineLoops.Proofs.Uniquing.Trails

/-!
# Objects made in one context

Steps of a session that make objects from objects of one context only enter whole objects in the
tables of that context (`Enters`), and what they give is stored there.  `Makes` says both of a step,
relative to the objects that it is given, whether the step succeeds or is refused.  It is proved for
the few ways in which anything is entered, carried through sequences of steps (`Makes.bind`), and
read off for every construction.

For most constructions the object that is given is not the last one that was entered: folding may
hand on a part of an operand.  Here the trail lemmas come in, with "is stored in the tables" for
"is known" (`makes_made`).
-/

namespace AffineLoops

namespace Session

/-! ## Tables of a session -/

section Contexts

variable {session session' session'' : Session} {id other : ContextId} {tables : Tables}

theorem size_withTables : (session.withTables id tables).contexts.size = session.contexts.size :=
  Array.size_modify

theorem tables_withTables_self (hid : id < session.contexts.size) :
    ((session.withTables id tables).context id).tables = tables := by
  simp only [context, withTables, Array.getD_eq_getD_getElem?, Array.getElem?_modify, if_true,
    Array.getElem?_eq_getElem hid, Option.map_some, Option.getD_some]

theorem context_withTables_of_ne (hne : other ≠ id) :
    (session.withTables id tables).context other = session.context other := by
  simp [context, withTables, Array.getD_eq_getD_getElem?, Array.getElem?_modify, hne.symm]

/-- Objects are entered in the tables of one context, and the other contexts stay as they are. -/
structure Enters (id : ContextId) (session session' : Session) : Prop where
  size_eq : session'.contexts.size = session.contexts.size
  others : ∀ other, other ≠ id → (session'.context other).tables = (session.context other).tables
  grows : (session.context id).tables.Grows (session'.context id).tables

theorem Enters.refl (id : ContextId) (session : Session) : Enters id session session :=
  ⟨rfl, fun _ _ => rfl, .refl _⟩

theorem Enters.trans (h : Enters id session session') (h' : Enters id session' session'') :
    Enters id session session'' where
  size_eq := h'.size_eq.trans h.size_eq
  others other hne := (h'.others other hne).trans (h.others other hne)
  grows := h.grows.trans h'.grows

theorem enters_withTables (hid : id < session.contexts.size)
    (hgrows : (session.context id).tables.Grows tables) :
    Enters id session (session.withTables id tables) where
  size_eq := size_withTables
  others other hne := by rw [context_withTables_of_ne hne]
  grows := by rwa [tables_withTables_self hid]

end Contexts

/-! ## Steps that make objects -/

/-- Where the parts are stored in a context, a step only enters objects there, and what it makes is
stored there too. -/
def Makes {α : Type} (id : ContextId) (parts : List Object) (step : SessionM α)
    (made : α → List (Owned Object)) : Prop :=
  ∀ session : Session, id < session.contexts.size →
    (∀ part ∈ parts, (session.context id).tables.Stores part) →
    Enters id session (step session).2 ∧
      ∀ a, (step session).1 = .ok a → ∀ object ∈ made a,
        object.context = id ∧ ((step session).2.context id).tables.Stores object.item

section Making

variable {α β : Type} {id : ContextId} {parts : List Object} {step : SessionM α}
  {made made' : α → List (Owned Object)}

/-- A step that changes nothing makes nothing. -/
theorem makes_of_unchanged (h : ∀ session, (step session).2 = session) :
    Makes id parts step fun _ => [] := by
  intro session _ _
  rw [h session]
  exact ⟨.refl id session, by simp⟩

theorem makes_pure {a : α} (h : ∀ object ∈ made a, object.context = id ∧ object.item ∈ parts) :
    Makes id parts (pure a) made := by
  intro session _ hparts
  refine ⟨.refl id session, ?_⟩
  rintro _ ⟨⟩ object hmem
  exact ⟨(h object hmem).1, hparts _ (h object hmem).2⟩

theorem Makes.bind {next : α → SessionM β} {made' : β → List (Owned Object)}
    (hfirst : Makes id parts step made)
    (hnext : ∀ a, (∀ object ∈ made a, object.context = id) →
      Makes id (parts ++ (made a).map (·.item)) (next a) made') :
    Makes id parts (step >>= next) made' := by
  intro session hid hparts
  obtain ⟨henters, hmade⟩ := hfirst session hid hparts
  rw [bind_run]
  cases hrun : step session with
  | mk result between =>
      rw [hrun] at henters hmade
      cases result with
      | error fault => exact ⟨henters, by rintro _ ⟨⟩⟩
      | ok a =>
          have hid' : id < between.contexts.size := by rwa [henters.size_eq]
          have hparts' : ∀ part ∈ parts ++ (made a).map (·.item),
              (between.context id).tables.Stores part := by
            refine List.forall_mem_append.mpr ⟨fun part hmem => ?_, ?_⟩
            · exact (hparts part hmem).extend henters.grows.keeps
            · intro part hmem
              obtain ⟨object, hobject, rfl⟩ := List.mem_map.mp hmem
              exact (hmade a rfl object hobject).2
          obtain ⟨henters', hmade'⟩ :=
            hnext a (fun object hmem => (hmade a rfl object hmem).1) between hid' hparts'
          exact ⟨henters.trans henters', hmade'⟩

/-- What follows from stored objects is stored. -/
theorem Makes.derive (h : Makes id parts step made)
    (hderive : ∀ a (tables : Tables), (∀ part ∈ parts, tables.Stores part) →
      (∀ object ∈ made a, object.context = id ∧ tables.Stores object.item) →
      ∀ object ∈ made' a, object.context = id ∧ tables.Stores object.item) :
    Makes id parts step made' := by
  intro session hid hparts
  obtain ⟨henters, hmade⟩ := h session hid hparts
  refine ⟨henters, fun a ha => hderive a _ ?_ (hmade a ha)⟩
  exact fun part hmem => (hparts part hmem).extend henters.grows.keeps

theorem makes_enter (trail : Trail) :
    Makes id parts (enter id trail) fun _ => trail.map fun entry => ⟨id, entry.toObject⟩ := by
  intro session hid _
  obtain ⟨hgrows, hstored⟩ := (session.context id).tables.enterAll_spec trail
  refine ⟨enters_withTables hid hgrows, ?_⟩
  rintro _ ⟨⟩ object hmem
  obtain ⟨entry, hentry, rfl⟩ := List.mem_map.mp hmem
  exact ⟨rfl, by
    show ((session.withTables id _).context id).tables.Stores _
    rw [tables_withTables_self hid]
    exact hstored entry hentry⟩

theorem makes_lookUp (object : Object)
    (hplain : ∀ tables : Tables, (∀ part ∈ parts, tables.Stores part) → object.IsPlain) :
    Makes id parts (lookUp id (·.intern object)) fun _ => [⟨id, object⟩] := by
  intro session hid hparts
  obtain ⟨hgrows, hdenotes⟩ := (session.context id).tables.intern_spec (hplain _ hparts)
  refine ⟨enters_withTables hid hgrows, ?_⟩
  intro number _ made hmem
  obtain rfl := List.mem_singleton.mp hmem
  refine ⟨rfl, ?_⟩
  show ((session.withTables id _).context id).tables.Stores object
  rw [tables_withTables_self hid]
  exact ⟨_, hdenotes⟩

/-- A step after a computation that may be refused. -/
theorem makes_ofExcept_bind {result : Except Fault β} {next : β → SessionM α}
    (h : ∀ b, result = .ok b → Makes id parts (next b) made) :
    Makes id parts (ofExcept result >>= next) made := by
  intro session hid hparts
  cases hresult : result with
  | ok b => exact h b hresult session hid hparts
  | error fault =>
      have hfault : ∃ fault', ofExcept (.error fault : Except Fault β) session =
          (.error fault', session) := by
        cases hrun : ofExcept (.error fault : Except Fault β) session with
        | mk outcome between =>
            have hbetween := ofExcept_unchanged (.error fault : Except Fault β) session
            rw [hrun] at hbetween
            cases outcome with
            | ok b => cases (of_ofExcept_eq_ok hrun).1
            | error fault' => exact ⟨fault', by rw [← hbetween]⟩
      obtain ⟨fault', hrun⟩ := hfault
      rw [bind_run, hrun]
      exact ⟨.refl id session, by rintro _ ⟨⟩⟩

/-- A step after a check. -/
theorem Makes.after {check : SessionM β} (h : Makes id parts step made)
    (hcheck : ∀ session, (check session).2 = session) :
    Makes id parts (check >>= fun _ => step) made := by
  refine (makes_of_unchanged hcheck).bind fun _ _ => ?_
  rwa [List.map_nil, List.append_nil]

theorem Makes.weaken {parts' : List Object} (h : Makes id parts step made)
    (hparts : parts ⊆ parts') : Makes id parts' step made :=
  fun session hid hstored => h session hid fun part hmem => hstored part (hparts hmem)

theorem makes_forM {list : List β} {steps : β → SessionM PUnit} (made : β → List (Owned Object))
    (h : ∀ b ∈ list, Makes id parts (steps b) fun _ => made b) :
    Makes id parts (list.forM steps) fun _ => list.flatMap made := by
  induction list generalizing parts with
  | nil => exact makes_pure (by simp)
  | cons b rest ih =>
      obtain ⟨hb, hrest⟩ := List.forall_mem_cons.mp h
      refine hb.bind fun _ hcontext => ?_
      have hothers := ih fun other hmem => (hrest other hmem).weaken
        (List.subset_append_left parts ((made b).map (·.item)))
      refine hothers.derive fun _ tables hparts hmade object hmem => ?_
      rcases List.mem_append.mp hmem with hfirst | hlater
      · exact ⟨hcontext object hfirst,
          hparts object.item (List.mem_append_right parts (List.mem_map_of_mem hfirst))⟩
      · exact hmade object hlater

end Making

/-! ## Expressions -/

/-- What an expression of a context is as an object. -/
def ofExpr (e : Owned Expr) : Owned Object := ⟨e.context, .expr e.item⟩

/-- What a map of a context is as an object. -/
def ofMap (map : Owned AffineMap) : Owned Object := ⟨map.context, .map map.item⟩

/-- What a set of a context is as an object. -/
def ofSet (set : Owned IntegerSet) : Owned Object := ⟨set.context, .set set.item⟩

section Expressions

variable {id : ContextId} {parts : List Object} {lhs rhs e : Expr}

theorem subtermClosed_stores (tables : Tables) :
    Expr.SubtermClosed fun e => tables.Stores (.expr e) := fun _ _ _ h => h.operands

theorem makes_ownExpr (e : Expr) : Makes id parts (ownExpr id e) fun made => [ofExpr made] := by
  refine (makes_lookUp (.expr e) fun _ _ => trivial).bind fun _ _ => ?_
  exact makes_pure (by simp [ofExpr])

/-- An expression that is known wherever its parts and its trail are can be made along it. -/
theorem makes_made {trail : List Expr}
    (h : ∀ known, Expr.SubtermClosed known → (∀ part, .expr part ∈ parts → known part) →
      (∀ made ∈ trail, known made) → known e) :
    Makes id parts (made id trail e) fun made => [ofExpr made] := by
  have hentered : Makes id parts (enter id (.ofExprs trail)) fun _ => [⟨id, .expr e⟩] := by
    refine (makes_enter (.ofExprs trail)).derive fun _ tables hparts htrail object hmem => ?_
    obtain rfl := List.mem_singleton.mp hmem
    refine ⟨rfl, h _ (subtermClosed_stores tables) (fun part => hparts (.expr part)) ?_⟩
    intro made hmade
    exact (htrail ⟨id, .expr made⟩ (by simpa [Trail.ofExprs, Entry.toObject] using hmade)).2
  exact hentered.bind fun _ _ => makes_pure (by simp [ofExpr])

theorem makes_add (hlhs : .expr lhs ∈ parts) (hrhs : .expr rhs ∈ parts) :
    Makes id parts (add ⟨id, lhs⟩ ⟨id, rhs⟩) fun made => [ofExpr made] := by
  refine Makes.after (makes_made fun known hknown hparts htrail => ?_) (ofExcept_unchanged _)
  exact Expr.known_add hknown (hparts lhs hlhs) (hparts rhs hrhs) htrail

theorem makes_scale (hlhs : .expr lhs ∈ parts) (hrhs : .expr rhs ∈ parts) :
    Makes id parts (scale ⟨id, lhs⟩ ⟨id, rhs⟩) fun made => [ofExpr made] := by
  refine Makes.after (makes_made fun known hknown hparts htrail => ?_) (ofExcept_unchanged _)
  exact Expr.known_mul hknown (hparts lhs hlhs) (hparts rhs hrhs) htrail

theorem makes_neg (he : .expr e ∈ parts) :
    Makes id parts (neg ⟨id, e⟩) fun made => [ofExpr made] := by
  refine (makes_ownExpr (.const (-1))).bind fun unit hunit => ?_
  obtain ⟨context, minusOne⟩ := unit
  obtain rfl : context = id := by simpa [ofExpr] using hunit
  exact makes_scale (by simp [he]) (by simp [ofExpr])

theorem makes_sub (hlhs : .expr lhs ∈ parts) (hrhs : .expr rhs ∈ parts) :
    Makes id parts (sub ⟨id, lhs⟩ ⟨id, rhs⟩) fun made => [ofExpr made] := by
  refine (makes_neg hrhs).bind fun negation hnegation => ?_
  obtain ⟨context, minusRhs⟩ := negation
  obtain rfl : context = id := by simpa [ofExpr] using hnegation
  exact makes_add (by simp [hlhs]) (by simp [ofExpr])

theorem makes_operation (op : BinaryOp) (hlhs : .expr lhs ∈ parts) (hrhs : .expr rhs ∈ parts) :
    Makes id parts (operation op ⟨id, lhs⟩ ⟨id, rhs⟩) fun made => [ofExpr made] := by
  refine Makes.after ?_ (ofExcept_unchanged _)
  refine makes_ofExcept_bind fun built hbuilt => ?_
  obtain ⟨_, -, rfl⟩ := of_map_eq_ok hbuilt
  exact makes_made fun _ hknown hparts htrail =>
    Expr.known_fold hknown (hparts lhs hlhs) (hparts rhs hrhs) htrail

theorem makes_rawOperation (op : BinaryOp) :
    Makes id parts (rawOperation op ⟨id, lhs⟩ ⟨id, rhs⟩) fun made => [ofExpr made] :=
  Makes.after (makes_ofExcept_bind fun built _ => makes_ownExpr built) (ofExcept_unchanged _)

/-- Every substitution makes what it gives along its trail. -/
theorem makes_transformed (replacement? : Expr → Option Expr) (he : .expr e ∈ parts) :
    Makes id parts (made id (e.transformTrail replacement?) (e.transform replacement?))
      fun made => [ofExpr made] :=
  makes_made fun _ hknown hparts htrail => Expr.known_transform hknown (hparts e he) htrail

/-- What a computation notes is entered. -/
theorem makes_noting {α : Type} (program : Noting α) :
    Makes id parts (noting id program) fun _ => [] :=
  (makes_enter _).bind fun _ _ => makes_of_unchanged (ofExcept_unchanged _)

theorem makes_simplify (dims syms : Nat) :
    Makes id parts (simplify dims syms ⟨id, e⟩) fun made => [ofExpr made] :=
  (makes_noting _).bind fun simplified _ => makes_ownExpr simplified

theorem makes_substitute (dims syms : List Expr) (he : .expr e ∈ parts) :
    Makes id parts (substitute (dims.map (⟨id, ·⟩)) (syms.map (⟨id, ·⟩)) ⟨id, e⟩)
      fun made => [ofExpr made] := by
  rw [substitute_eq_made]
  exact makes_transformed (Expr.inputReplacement? dims syms) he

theorem makes_replace (target replacement : Expr) (he : .expr e ∈ parts) :
    Makes id parts (replace ⟨id, target⟩ ⟨id, replacement⟩ ⟨id, e⟩) fun made => [ofExpr made] := by
  rw [replace_eq_made]
  exact makes_transformed (Expr.targetReplacement? target replacement) he

end Expressions

/-! ## Maps, sets and types -/

section Maps

variable {id : ContextId} {parts : List Object} {map : AffineMap}

theorem makes_ownMap (map : AffineMap) :
    Makes id parts (ownMap id map) fun made => [ofMap made] := by
  refine (makes_lookUp (.map map) fun _ _ => trivial).bind fun _ _ => ?_
  exact makes_pure (by simp [ofMap])

theorem makes_ownSet (set : IntegerSet) :
    Makes id parts (ownSet id set) fun made => [ofSet made] := by
  refine (makes_lookUp (.set set) fun _ _ => trivial).bind fun _ _ => ?_
  exact makes_pure (by simp [ofSet])

theorem makes_simplifyMap (map : AffineMap) :
    Makes id parts (simplifyMap ⟨id, map⟩) fun made => [ofMap made] :=
  (makes_noting _).bind fun _ _ => makes_ownMap _

theorem makes_map (dims syms : Nat) (results : List (Owned Expr)) :
    Makes id parts (Session.map id dims syms results) fun made => [ofMap made] :=
  (makes_ownMap _).after (requireExprs_unchanged id dims syms results)

theorem makes_set (dims syms : Nat) (constraints : List (Relation × Owned Expr)) :
    Makes id parts (set id dims syms constraints) fun made => [ofSet made] :=
  (makes_ownSet _).after (requireExprs_unchanged id dims syms _)

/-- A map that its trail ends with is made along it. -/
theorem makes_remade {source new : AffineMap} {trail : Trail} (h : .map new ∈ trail) :
    Makes id parts (remade ⟨id, source⟩ trail new) fun made => [ofMap made] := by
  have hentered : Makes id parts (enter id trail) fun _ => [⟨id, .map new⟩] := by
    refine (makes_enter trail).derive fun _ tables _ htrail object hmem => ?_
    obtain rfl := List.mem_singleton.mp hmem
    exact htrail ⟨id, .map new⟩ (List.mem_map.mpr ⟨.map new, h, rfl⟩)
  exact hentered.bind fun _ _ => makes_pure (by simp [ofMap])

theorem mem_remakeTrail (map new : AffineMap) (trailOf : Expr → List Expr) :
    .map new ∈ map.remakeTrail trailOf new := by
  simp [AffineMap.remakeTrail]

theorem makes_foldMap (constants : List (Option Int)) (map : AffineMap) :
    Makes id parts (foldMap constants ⟨id, map⟩) fun made => [ofMap made.1] := by
  refine makes_ofExcept_bind fun folded hfolded => ?_
  have htrail : .map folded.1 ∈ map.foldConstantsTrail constants := by
    rw [AffineMap.foldConstantsTrail, hfolded]
    exact List.mem_append_right _ (mem_remakeTrail map folded.1 _)
  exact (makes_remade htrail).bind fun made hmade => makes_pure (by simpa [ofMap] using hmade)

theorem makes_compressMaps (maps : List AffineMap) :
    Makes id parts (compressMaps (maps.map (⟨id, ·⟩)))
      fun made => made.map fun map => ⟨id, .map map⟩ := by
  rw [compressMaps, map_item]
  have hall : Makes id parts ((maps.map (⟨id, ·⟩)).forM (compressMap maps))
      fun _ => (AffineMap.compressSymbols maps).map fun map => ⟨id, .map map⟩ := by
    refine (makes_forM (fun map => (map.item.compressTrail maps).map
      fun entry => ⟨id, entry.toObject⟩) ?_).derive ?_
    · intro map hmem
      obtain ⟨item, -, rfl⟩ := List.mem_map.mp hmem
      exact makes_enter _
    · intro _ tables _ htrails object hmem
      obtain ⟨new, hnew, rfl⟩ := List.mem_map.mp hmem
      obtain ⟨item, hitem, rfl⟩ := List.mem_map.mp hnew
      refine htrails ⟨id, .map _⟩ (List.mem_flatMap.mpr ⟨⟨id, item⟩, ?_, ?_⟩)
      · exact List.mem_map.mpr ⟨item, hitem, rfl⟩
      · exact List.mem_map.mpr
          ⟨.map _, List.mem_append_right _ (mem_remakeTrail item _ _), rfl⟩
  refine hall.bind fun _ hcontext => makes_pure fun object hmem => ⟨hcontext object hmem, ?_⟩
  exact List.mem_append_right parts (List.mem_map_of_mem hmem)

theorem makes_substituteSet (dimExprs symExprs : List Expr) (dims syms : Nat) (set : IntegerSet) :
    Makes id parts
      (substituteSet (dimExprs.map (⟨id, ·⟩)) (symExprs.map (⟨id, ·⟩)) dims syms ⟨id, set⟩)
      fun made => [ofSet made] := by
  rw [substituteSet_eq]
  have hentered : Makes id parts (enter id (set.substituteTrail dimExprs symExprs dims syms))
      fun _ => [⟨id, .set (set.substitute dimExprs symExprs dims syms)⟩] := by
    refine (makes_enter _).derive fun _ tables _ htrail object hmem => ?_
    obtain rfl := List.mem_singleton.mp hmem
    refine htrail ⟨id, .set _⟩ (List.mem_map.mpr ⟨.set _, ?_, rfl⟩)
    simp [IntegerSet.substituteTrail]
  exact hentered.bind fun _ _ => makes_pure (by simp [ofSet])

end Maps

section Types

variable {id : ContextId} {parts : List Object}

theorem makes_ownType {type : Ty}
    (hplain : ∀ tables : Tables, (∀ part ∈ parts, tables.Stores part) → type.IsPlain) :
    Makes id parts (ownType id type) fun made => [⟨id, .type made⟩] := by
  refine (makes_lookUp (.type type) hplain).bind fun _ _ => ?_
  exact makes_pure (by simp)

theorem isPlain_of_stores {tables : Tables} {type : Ty} (h : tables.Stores (.type type)) :
    type.IsPlain := by
  obtain ⟨number, hnumber⟩ := h
  exact Tables.isPlain_of_denotes hnumber

theorem makes_memrefType (shape : List Size) {element : Ty} (layouts : List AffineMap)
    (helement : .type element ∈ parts) :
    Makes id parts (memrefType id shape ⟨id, element⟩ (layouts.map (⟨id, ·⟩)))
      fun made => [⟨id, .type made⟩] := by
  rw [memrefType_eq_ownType]
  refine makes_ownType fun tables hparts => ⟨isPlain_of_stores (hparts _ helement), ?_⟩
  intro layout hmem
  obtain ⟨map, -, rfl⟩ := List.mem_map.mp hmem
  trivial

theorem makes_vectorType (shape : List Nat) {element : Ty} (helement : .type element ∈ parts) :
    Makes id parts (vectorType id shape ⟨id, element⟩) fun made => [⟨id, .type made⟩] := by
  rw [vectorType_eq_ownType]
  refine makes_ownType fun tables hparts => ?_
  have hplain : element.IsPlain := isPlain_of_stores (hparts _ helement)
  exact hplain

end Types

end Session

end AffineLoops
