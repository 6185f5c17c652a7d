import AffineLoops.Proofs.Expr.Renaming

/-!
# Simplifying again

Simplification is not idempotent.  The local terms of an expression are numbered in the order in
which they are first met, and sums are written in the order of these numbers.  In the simplified
expression a term may have moved in front of another one that contains it, so that a second run
meets the parts of the latter in a different order and writes it differently
(`not_forall_simplify_idempotent`).

This file says exactly when that happens, and that it happens once at most (`simplify_settles`).
The second run is followed along the expression: `Rerun` relates what it does to the sum that is
flattened, for inputs (`rerun_input`), local terms (`Rerun.local_known`, `Rerun.local_new`),
factors (`Rerun.scaled`) and sums (`Rerun.add`, `Rerun.sumFrom`), and `Locals.termReruns` puts
these together by an induction along the list of local terms.  The result is a renaming
(`Locals.exists_renaming`), and two facts about it are left.

* What the second run writes, it writes in the order in which it is met
  (`Locals.writtenAsMet_simplify`), since each local term is added just behind the parts that it
  adds itself.
* What is written in this order is not changed (`Locals.simplify_of_writtenAsMet`).
-/

namespace AffineLoops.Expr

/-! ## Flattening a second time -/

/-- What flattening a written sum does when some local terms have been renamed before: it renames
those that it meets for the first time, and its form has the weights of the sum.  The new local
terms are what is met along the new terms of the renamed sum. -/
structure Rerun (dims syms : Nat) (basis : List Expr) (pairs : List (Expr × Expr)) (e : Expr)
    (w : WrittenSum) (added : List (Expr × Expr)) (form : LinearForm) : Prop where
  renames : Renaming dims syms basis (pairs ++ added)
  flattenWith_eq : flattenWith dims syms e (pairs.map Prod.snd) =
    some (form, (pairs ++ added).map Prod.snd)
  met_eq : e.met (pairs.map Prod.fst) = (pairs ++ added).map Prod.fst
  weights : HasWeights (formTerms dims syms ((pairs ++ added).map Prod.fst)) w form
  terms_mem : ∀ term ∈ w.terms, term ∈ formTerms dims syms ((pairs ++ added).map Prod.fst)
  added_part : ∀ pair ∈ added, ∃ term ∈ w.terms, pair.1 ∈ term.postorder
  metAll_eq : metAll ((added.filter (weight w.entries ·.1 ≠ 0)).map Prod.snd)
    (pairs.map Prod.snd) = (pairs ++ added).map Prod.snd

section Rerun

variable {dims syms : Nat} {basis : List Expr} {pairs added added' : List (Expr × Expr)}
  {lhs rhs : Expr} {w w' : WrittenSum} {form left right : LinearForm}

theorem flattenWith_binary {op : BinaryOp} {locals locals' locals'' : List Expr}
    (hlhs : flattenWith dims syms lhs locals = some (left, locals'))
    (hrhs : flattenWith dims syms rhs locals' = some (right, locals'')) :
    flattenWith dims syms (binary op lhs rhs) locals =
      flattenBinary dims syms op left right locals'' := by
  rw [flattenWith, hlhs]
  simp only [hrhs]

theorem rerun_const (h : Renaming dims syms basis pairs) (constant : Int) :
    Rerun dims syms basis pairs (const constant) ⟨[], constant⟩ [] (.ofConst constant) where
  renames := by rwa [List.append_nil]
  flattenWith_eq := by rw [List.append_nil, flattenWith]
  met_eq := by simp [met]
  weights := hasWeights_ofConst _ constant
  terms_mem := by simp [WrittenSum.terms]
  added_part := by simp
  metAll_eq := by simp [metAll]

/-- The terms of a sum are no terms that a later part of the sum adds. -/
theorem Rerun.terms_notMem (hleft : Rerun dims syms basis pairs lhs w added left)
    (hright : Rerun dims syms basis (pairs ++ added) rhs w' added' right) :
    ∀ term ∈ w.terms, term ∉ added'.map Prod.fst := by
  intro term hterm hmem
  have hnodup := hright.renames.nodup
  rw [List.map_append, formTerms_append] at hnodup
  exact (List.nodup_append.mp hnodup).2.2 term (hleft.terms_mem term hterm) term hmem rfl

/-- Two sums are flattened one after the other.  The second one must not have terms that are met
first within the first one. -/
theorem Rerun.add (hleft : Rerun dims syms basis pairs lhs w added left)
    (hright : Rerun dims syms basis (pairs ++ added) rhs w' added' right)
    (hnew : ∀ term ∈ w'.terms, term ∉ added.map Prod.fst)
    (hw : w.Words) (hw' : w'.Words) (hsum : (w.append w').Words) :
    ∃ form, Rerun dims syms basis pairs (binary .add lhs rhs) (w.append w') (added ++ added')
      form := by
  have hterms := hleft.terms_notMem hright
  have hweights :
      HasWeights (formTerms dims syms ((pairs ++ added ++ added').map Prod.fst)) w left := by
    rw [List.map_append, formTerms_append]
    exact hleft.weights.append hterms
  obtain ⟨form, hform, hweights⟩ := hweights.add? hright.weights hw hw' hsum
  refine ⟨form, ?_⟩
  constructor
  · rw [← List.append_assoc]
    exact hright.renames
  · rw [flattenWith_binary hleft.flattenWith_eq hright.flattenWith_eq, ← List.append_assoc]
    simp only [flattenBinary, hform, Option.map_some]
  · simp only [met, BinaryOp.isDivision, hleft.met_eq, hright.met_eq, ← List.append_assoc]
    simp
  · rw [← List.append_assoc]
    exact hweights
  · intro term hterm
    rw [← List.append_assoc]
    rw [WrittenSum.terms_append] at hterm
    rcases List.mem_append.mp hterm with hterm | hterm
    · rw [List.map_append, formTerms_append]
      exact List.mem_append_left _ (hleft.terms_mem term hterm)
    · exact hright.terms_mem term hterm
  · intro pair hpair
    rw [WrittenSum.terms_append]
    rcases List.mem_append.mp hpair with hpair | hpair
    · obtain ⟨term, hterm, hpart⟩ := hleft.added_part pair hpair
      exact ⟨term, List.mem_append_left _ hterm, hpart⟩
    · obtain ⟨term, hterm, hpart⟩ := hright.added_part pair hpair
      exact ⟨term, List.mem_append_right _ hterm, hpart⟩
  -- each side meets what it adds, since the other side has no weight there
  · rw [List.filter_append, WrittenSum.filter_append_left hnew,
      WrittenSum.filter_append_right hterms, List.map_append, metAll_append, hleft.metAll_eq,
      hright.metAll_eq, List.append_assoc]

/-- A factor changes the form only. -/
theorem Rerun.scaled {term : Expr} {factor : Int} (hne : factor ≠ 0) (hword : Word.InRange factor)
    (h : Rerun dims syms basis pairs term (.single (term, 1)) added form) :
    ∃ form, Rerun dims syms basis pairs (scaled (term, factor)) (.single (term, factor)) added
      form := by
  by_cases hone : factor = 1
  · subst hone
    exact ⟨form, h⟩
  · obtain ⟨product, hproduct, hweights⟩ := h.weights.scale? hword
    have hfilter : added.filter (weight (WrittenSum.single (term, factor)).entries ·.1 ≠ 0) =
        added.filter (weight (WrittenSum.single (term, 1)).entries ·.1 ≠ 0) := by
      refine List.filter_congr fun pair _ => ?_
      simp [WrittenSum.weight_single, hne]
    refine ⟨product, h.renames, ?_, ?_, hweights, h.terms_mem, h.added_part, ?_⟩
    · rw [Expr.scaled, if_neg hone, flattenWith_binary h.flattenWith_eq rfl]
      simp only [flattenBinary, LinearForm.ofConst, LinearForm.isConst, List.all_nil, if_true,
        hproduct, Option.map_some]
    · rw [met_scaled]
      exact h.met_eq
    · rw [hfilter]
      exact h.metAll_eq

theorem flattenWith_input {term : Expr} (h : term ∈ inputs dims syms) (locals : List Expr) :
    ∃ index, (inputs dims syms)[index]? = some term ∧
      flattenWith dims syms term locals = some (.ofTerm index, locals) := by
  rcases List.mem_append.mp h with h | h
  · obtain ⟨position, hposition, rfl⟩ := List.mem_map.mp h
    have hlt : position < dims := List.mem_range.mp hposition
    exact ⟨position, by simp [inputs, List.getElem?_append, hlt], by simp [flattenWith, hlt]⟩
  · obtain ⟨position, hposition, rfl⟩ := List.mem_map.mp h
    have hlt : position < syms := List.mem_range.mp hposition
    exact ⟨dims + position, by simp [inputs, hlt], by simp [flattenWith, hlt]⟩

/-- A term that is an input or has been renamed before adds nothing. -/
theorem rerun_known (h : Renaming dims syms basis pairs) (hbasis : IsBasis basis) {term : Expr}
    {index : Nat} (hat : (formTerms dims syms (pairs.map Prod.fst))[index]? = some term)
    (hrun : flattenWith dims syms term (pairs.map Prod.snd) =
      some (.ofTerm index, pairs.map Prod.snd)) :
    Rerun dims syms basis pairs term (.single (term, 1)) [] (.ofTerm index) := by
  have hmem : term ∈ formTerms dims syms (pairs.map Prod.fst) := List.mem_of_getElem? hat
  refine ⟨?_, ?_, ?_, ?_, ?_, by simp, by simp [metAll]⟩ <;> rw [List.append_nil]
  · exact h
  · exact hrun
  · exact met_eq_self fun part hpart hlocal => h.mem_of_mem_postorder hbasis hmem hpart hlocal
  · exact hasWeights_ofTerm h.nodup hat
  · intro other hother
    rwa [show other = term by simpa using hother]

theorem rerun_input (h : Renaming dims syms basis pairs) (hbasis : IsBasis basis) {term : Expr}
    (hterm : term ∈ inputs dims syms) :
    ∃ added form, Rerun dims syms basis pairs term (.single (term, 1)) added form := by
  obtain ⟨index, hat, hrun⟩ := flattenWith_input hterm (pairs.map Prod.snd)
  refine ⟨_, _, rerun_known h hbasis ?_ hrun⟩
  rw [formTerms, List.getElem?_append_left (List.getElem?_eq_some_iff.mp hat).1, hat]

theorem flattenBinary_division {op : BinaryOp} (hop : op.isDivision) {divisor : Int}
    (hpos : 0 < divisor) (locals : List Expr) :
    flattenBinary dims syms op left (.ofConst divisor) locals =
      some (flattenDivision dims syms op left divisor locals) := by
  cases op with
  | add | mul => cases hop
  | mod | floorDiv | ceilDiv =>
      simp [flattenBinary, LinearForm.ofConst, LinearForm.isConst, hpos]

/-- Dividing the sum again leads to the renamed local term. -/
theorem Rerun.flattenWith_local (hbasis : IsBasis basis) {q : LocalTerm} (hq : q.Unresolved basis)
    (h : Rerun dims syms basis pairs q.dividend.expr q.dividend added form) :
    flattenWith dims syms q.expr (pairs.map Prod.snd) =
      some (localForm dims syms (q.renamed (termPairs dims syms (pairs ++ added))).expr
        ((pairs ++ added).map Prod.snd)) := by
  have hlocals : Locals dims syms ((pairs ++ added).map Prod.snd) :=
    h.renames.locals hbasis.nodup
  have hfactors : ∀ entry ∈ q.dividend.entries, ∃ index, form.coefficient index = entry.2 := by
    intro entry hentry
    obtain ⟨index, hat⟩ := List.mem_iff_getElem?.mp
      (h.terms_mem entry.1 (List.mem_map_of_mem hentry))
    refine ⟨index, ?_⟩
    rw [h.weights.coefficient_eq, hat]
    exact weight_of_mem (hq.dividend_over.proper hbasis).nodup hentry
  have hcoefficients : ∀ index, form.coefficient index = 0 ∨
      ∃ entry ∈ q.dividend.entries, form.coefficient index = entry.2 := by
    intro index
    rw [h.weights.coefficient_eq]
    cases (formTerms dims syms ((pairs ++ added).map Prod.fst))[index]? with
    | none => exact .inl rfl
    | some term =>
        refine (hq.dividend_over.weight_cases hbasis.nodup term).imp_right ?_
        rintro ⟨entry, hentry, heq⟩
        exact ⟨entry, hentry, by rw [heq]; rfl⟩
  obtain ⟨same, hsame, hconstant, hdivision⟩ := hq.flattenDivision_eq hfactors hcoefficients
    h.weights.constant_eq dims syms ((pairs ++ added).map Prod.snd)
  have hweights := h.weights.congr hsame hconstant
  have hfits : same.Fits (dims + syms + ((pairs ++ added).map Prod.snd).length) := by
    simpa using hweights.fits (hq.dividend_over.words hbasis.nodup)
  have hrenamed : (q.renamed (termPairs dims syms (pairs ++ added))).Unresolved
      (formTerms dims syms ((pairs ++ added).map Prod.snd)) := by
    rw [← map_snd_termPairs]
    exact hq.renamed hbasis.nodup (by simpa using h.terms_mem)
  rw [LocalTerm.expr, flattenWith_binary h.flattenWith_eq rfl,
    flattenBinary_division hq.isDivision hq.pos, hdivision,
    ofLinearForm_eq_expr hlocals.isBasis hfits, hweights.written_eq]
  exact congrArg (fun term => some (localForm dims syms term _))
    (hrenamed.divide_eq hlocals.isBasis)

/-- The local terms that are added are parts of the expression. -/
theorem Rerun.mem_postorder_of_mem_added {e term : Expr}
    (h : Rerun dims syms basis pairs e w added form) (hterm : term ∈ added.map Prod.fst) :
    term ∈ e.postorder := by
  have hnodup := h.renames.nodup
  rw [formTerms, List.map_append, ← List.append_assoc, List.nodup_append] at hnodup
  have hmet : term ∈ e.met (pairs.map Prod.fst) := by
    rw [h.met_eq, List.map_append]
    exact List.mem_append_right _ hterm
  rcases mem_met.mp hmet with hmem | ⟨hpart, -⟩
  · exact absurd rfl (hnodup.2.2 term (List.mem_append_right _ hmem) term hterm)
  · exact hpart

/-- On the way through the renamed sum, what the sum added is met in the order of the renaming. -/
theorem Rerun.metAll_renamed {e : Expr} (hbasis : IsBasis basis)
    (hpairs : Renaming dims syms basis pairs) (h : Rerun dims syms basis pairs e w added form) :
    metAll (w.renamed (termPairs dims syms (pairs ++ added))).terms (pairs.map Prod.snd) =
      (pairs ++ added).map Prod.snd := by
  have hold : metAll (((termPairs dims syms pairs).filter (weight w.entries ·.1 ≠ 0)).map Prod.snd)
      (pairs.map Prod.snd) = pairs.map Prod.snd := by
    refine metAll_eq_self fun term hterm => ?_
    refine (hpairs.locals hbasis.nodup).met_eq_self ?_
    rw [← map_snd_termPairs]
    exact (List.filter_sublist.map Prod.snd).subset hterm
  rw [terms_renamed, termPairs_append, List.filter_append, List.map_append, metAll_append, hold,
    h.metAll_eq]

theorem localForm_of_getElem? {locals : List Expr} (hlocals : locals.Nodup) {index : Nat}
    {term : Expr} (hat : locals[index]? = some term) :
    localForm dims syms term locals = (.ofTerm (dims + syms + index), locals) := by
  obtain ⟨hlt, heq⟩ := List.getElem?_eq_some_iff.mp hat
  have hfound : locals.idxOf? term = some index := by
    rw [List.idxOf?_eq_some_iff]
    refine ⟨hlt, heq, fun other hother hsame => hother.ne ?_⟩
    exact (List.Nodup.getElem_inj_iff hlocals).mp (hsame.trans heq.symm)
  simp [localForm, hfound]

theorem localForm_of_notMem {locals : List Expr} {term : Expr} (hnew : term ∉ locals) :
    localForm dims syms term locals =
      (.ofTerm (dims + syms + locals.length), locals ++ [term]) := by
  simp [localForm, List.idxOf?_eq_none_iff.mpr hnew]

/-- A local term that has been renamed before is found again. -/
theorem Rerun.local_known (hbasis : IsBasis basis) {q : LocalTerm} (hq : q.Unresolved basis)
    (hpairs : Renaming dims syms basis pairs)
    (h : Rerun dims syms basis pairs q.dividend.expr q.dividend added form)
    (hknown : q.expr ∈ pairs.map Prod.fst) :
    ∃ form, Rerun dims syms basis pairs q.expr (.single (q.expr, 1)) [] form := by
  -- the parts of the dividend have been renamed before it, so that it adds nothing
  obtain rfl : added = [] := by
    have hmet : q.dividend.expr.met (pairs.map Prod.fst) = pairs.map Prod.fst := by
      refine met_eq_self fun part hpart hlocal => ?_
      exact hpairs.mem_of_mem_postorder hbasis (List.mem_append_right _ hknown)
        (mem_postorder_binary.mpr (.inl hpart)) hlocal
    have hlength := congrArg List.length (hmet.symm.trans h.met_eq)
    simpa using hlength
  obtain ⟨pair, hpair, heq⟩ := List.mem_map.mp hknown
  obtain ⟨index, hat⟩ := List.mem_iff_getElem?.mp hpair
  obtain ⟨q', hq', -, rfl⟩ := hpairs.exists_of_mem hpair
  obtain rfl := LocalTerm.expr_injective hbasis hq' hq heq
  have hrun := h.flattenWith_local hbasis hq
  rw [List.append_nil, localForm_of_getElem? (List.nodup_append.mp
    (hpairs.locals hbasis.nodup).isBasis.nodup).2.1 (by rw [List.getElem?_map, hat]; rfl)] at hrun
  refine ⟨_, rerun_known hpairs hbasis ?_ hrun⟩
  rw [formTerms, List.getElem?_append_right (by simp), length_inputs, Nat.add_sub_cancel_left,
    List.getElem?_map, hat]
  rfl

/-- On the way through the renamed local term, what its dividend added is met, and then the term
itself. -/
theorem Rerun.met_renamed (hbasis : IsBasis basis) {q : LocalTerm} (hq : q.Unresolved basis)
    (hpairs : Renaming dims syms basis pairs)
    (h : Rerun dims syms basis pairs q.dividend.expr q.dividend added form)
    (hnew : (q.renamed (termPairs dims syms (pairs ++ added))).expr ∉
      (pairs ++ added).map Prod.snd) :
    (q.renamed (termPairs dims syms (pairs ++ added))).expr.met (pairs.map Prod.snd) =
      (pairs ++ added).map Prod.snd ++
        [(q.renamed (termPairs dims syms (pairs ++ added))).expr] := by
  have hop : (q.renamed (termPairs dims syms (pairs ++ added))).op.isDivision := hq.isDivision
  have hdividend : (q.renamed (termPairs dims syms (pairs ++ added))).dividend.expr.met
      (pairs.map Prod.snd) = (pairs ++ added).map Prod.snd :=
    (WrittenSum.met_expr _ _).trans (h.metAll_renamed hbasis hpairs)
  rw [LocalTerm.met_expr hop (by rwa [hdividend]), hdividend]

/-- A local term that has not been renamed yet is renamed behind the parts of its dividend. -/
theorem Rerun.local_new (hbasis : IsBasis basis) {q : LocalTerm} (hq : q.Unresolved basis)
    (hpairs : Renaming dims syms basis pairs)
    (h : Rerun dims syms basis pairs q.dividend.expr q.dividend added form)
    (hnew : q.expr ∉ pairs.map Prod.fst) :
    ∃ added form, Rerun dims syms basis pairs q.expr (.single (q.expr, 1)) added form := by
  have hpart : q.expr ∉ added.map Prod.fst := fun hmem =>
    notMem_postorder_lhs _ _ _ (h.mem_postorder_of_mem_added hmem)
  have hnotMem : q.expr ∉ (pairs ++ added).map Prod.fst := by
    rw [List.map_append, List.mem_append]
    exact fun hmem => hmem.elim hnew hpart
  have hrenames := h.renames.snoc hq h.terms_mem hnotMem
  have hlocals := hrenames.notMem_of_snoc hbasis.nodup
  have hrun := h.flattenWith_local hbasis hq
  have hmet := h.met_renamed hbasis hq hpairs hlocals
  generalize (q.renamed (termPairs dims syms (pairs ++ added))).expr = renamed at *
  rw [localForm_of_notMem hlocals] at hrun
  have hsnoc : ∀ f : Expr × Expr → Expr, (pairs ++ (added ++ [(q.expr, renamed)])).map f =
      (pairs ++ added).map f ++ [f (q.expr, renamed)] := by simp
  refine ⟨added ++ [(q.expr, renamed)],
    .ofTerm (dims + syms + ((pairs ++ added).map Prod.snd).length), ?_⟩
  constructor
  · rw [← List.append_assoc]
    exact hrenames
  · rw [hrun, hsnoc]
  · rw [LocalTerm.met_expr hq.isDivision (by rwa [h.met_eq]), h.met_eq, hsnoc]
  · refine hasWeights_ofTerm ?_ ?_
    · rw [← List.append_assoc]
      exact hrenames.nodup
    · rw [hsnoc, formTerms_append, List.getElem?_append_right (by simp)]
      simp
  · intro term hterm
    rw [show term = q.expr by simpa using hterm, hsnoc, formTerms_append]
    exact List.mem_append_right _ List.mem_cons_self
  · intro pair hpair
    refine ⟨q.expr, by simp, ?_⟩
    rcases List.mem_append.mp hpair with hpair | hpair
    · exact mem_postorder_binary.mpr
        (.inl (h.mem_postorder_of_mem_added (List.mem_map_of_mem hpair)))
    · rw [List.mem_singleton.mp hpair]
      exact self_mem_postorder _
  · rw [WrittenSum.filter_weight_single hpart, hsnoc]
    exact hmet

/-- A term can be flattened a second time, whatever has been renamed before. -/
def TermReruns (dims syms : Nat) (basis : List Expr) (term : Expr) : Prop :=
  ∀ pairs, Renaming dims syms basis pairs →
    ∃ added form, Rerun dims syms basis pairs term (.single (term, 1)) added form

/-- A sum is flattened a second time term by term.  No term is a part of an earlier one, so that
each is still new when its turn comes. -/
theorem Rerun.sumFrom {sum : Expr} {es rest : List (Expr × Int)} (hbasis : IsBasis basis)
    (h : Rerun dims syms basis pairs sum ⟨es, 0⟩ added form)
    (hterms : ∀ entry ∈ rest, TermReruns dims syms basis entry.1)
    (hover : WrittenSum.Over basis ⟨es ++ rest, 0⟩)
    (hpairwise : ((es ++ rest).map Prod.fst).Pairwise fun earlier later =>
      later ∉ earlier.postorder) :
    ∃ added form, Rerun dims syms basis pairs (sumFrom sum rest) ⟨es ++ rest, 0⟩ added form := by
  induction rest generalizing es sum added form with
  | nil =>
      rw [List.append_nil]
      exact ⟨added, form, h⟩
  | cons entry rest ih =>
      obtain ⟨hterm, hrest⟩ := List.forall_mem_cons.mp hterms
      have hassoc : es ++ entry :: rest = es ++ [entry] ++ rest := by simp
      have hmem : entry ∈ es ++ entry :: rest := by simp
      obtain ⟨added', form', hrun⟩ := hterm _ h.renames
      obtain ⟨form', hscaled⟩ := hrun.scaled (hover.factor_ne_zero entry hmem)
        (hover.factor_word entry hmem)
      have hnew : ∀ term ∈ (WrittenSum.single entry).terms, term ∉ added.map Prod.fst := by
        intro term hterm hadded
        obtain rfl : term = entry.1 := by simpa using hterm
        obtain ⟨pair, hpair, heq⟩ := List.mem_map.mp hadded
        obtain ⟨earlier, hearlier, hpart⟩ := h.added_part pair hpair
        rw [List.map_append, List.pairwise_append] at hpairwise
        exact hpairwise.2.2 earlier hearlier entry.1 (by simp) (heq ▸ hpart)
      have hwords : WrittenSum.Words ⟨es, 0⟩ :=
        (hover.of_sublist (List.sublist_append_left _ _) Word.inRange_zero).words hbasis.nodup
      have hwords' : WrittenSum.Words ⟨es ++ [entry], 0⟩ := by
        refine (hover.of_sublist ?_ Word.inRange_zero).words hbasis.nodup
        rw [hassoc]
        exact List.sublist_append_left _ _
      obtain ⟨form'', hsum⟩ := h.add hscaled hnew hwords
        (WrittenSum.words_single (hover.factor_word entry hmem)) hwords'
      have hnext : Rerun dims syms basis pairs (binary .add sum (Expr.scaled entry))
        ⟨es ++ [entry], 0⟩ (added ++ added') form'' := hsum
      rw [hassoc] at hover hpairwise ⊢
      exact ih hnext hrest hover hpairwise

theorem rerun_expr (hbasis : IsBasis basis) (hw : w.Over basis)
    (hpairwise : w.terms.Pairwise fun earlier later => later ∉ earlier.postorder)
    (hterms : ∀ term ∈ w.terms, TermReruns dims syms basis term)
    (hpairs : Renaming dims syms basis pairs) :
    ∃ added form, Rerun dims syms basis pairs w.expr w added form := by
  obtain ⟨entries, constant⟩ := w
  cases entries with
  | nil => exact ⟨_, _, rerun_const hpairs constant⟩
  | cons entry rest =>
      have hmem : entry ∈ entry :: rest := List.mem_cons_self
      obtain ⟨added, form, hfirst⟩ := hterms entry.1 (List.mem_map_of_mem hmem) pairs hpairs
      obtain ⟨form, hfirst⟩ := hfirst.scaled (hw.factor_ne_zero entry hmem)
        (hw.factor_word entry hmem)
      have hover : WrittenSum.Over basis ⟨entry :: rest, 0⟩ :=
        hw.of_sublist (List.Sublist.refl _) Word.inRange_zero
      have hrest : ∀ other ∈ rest, TermReruns dims syms basis other.1 := fun other hother =>
        hterms other.1 (List.mem_map_of_mem (List.mem_cons_of_mem _ hother))
      obtain ⟨added, form, hsum⟩ : ∃ added form, Rerun dims syms basis pairs
          (sumFrom (scaled entry) rest) ⟨entry :: rest, 0⟩ added form :=
        hfirst.sumFrom hbasis hrest hover hpairwise
      by_cases hzero : constant = 0
      · subst hzero
        exact ⟨added, form, hsum⟩
      · have happend : WrittenSum.append ⟨entry :: rest, 0⟩ ⟨[], constant⟩ =
            ⟨entry :: rest, constant⟩ := by simp [WrittenSum.append]
        have hconst : WrittenSum.Words ⟨[], constant⟩ :=
          ⟨fun _ => Word.inRange_zero, hw.constant_word⟩
        obtain ⟨form, hresult⟩ := hsum.add (rerun_const hsum.renames constant)
          (by simp [WrittenSum.terms]) (hover.words hbasis.nodup) hconst
          (happend ▸ hw.words hbasis.nodup)
        rw [happend] at hresult
        simp only [WrittenSum.expr, if_neg hzero]
        exact ⟨_, form, hresult⟩

/-- Every local term can be flattened a second time. -/
theorem Locals.termReruns {locals : List Expr} (h : Locals dims syms locals)
    (hbasis : IsBasis basis) (hlocals : (formTerms dims syms locals).Sublist basis) :
    ∀ term ∈ formTerms dims syms locals, TermReruns dims syms basis term := by
  -- a dividend has earlier terms only, so the induction follows the list and not the expression
  induction h with
  | nil =>
      intro term hterm pairs hpairs
      rw [formTerms, List.append_nil] at hterm
      exact rerun_input hpairs hbasis hterm
  | @snoc locals q hprevious hq hnew ih =>
      rw [formTerms_append] at hlocals ⊢
      have hsublist : (formTerms dims syms locals).Sublist basis :=
        (List.sublist_append_left _ _).trans hlocals
      intro term hterm
      rcases List.mem_append.mp hterm with hterm | hterm
      · exact ih hsublist term hterm
      · rw [List.mem_singleton.mp hterm]
        intro pairs hpairs
        have hunresolved : q.Unresolved basis := hq.mono hsublist
        obtain ⟨added, form, hdividend⟩ := rerun_expr hbasis hunresolved.dividend_over
          (hprevious.pairwise_notMem_postorder.sublist hq.dividend_over.sublist)
          (fun term hterm => ih hsublist term (hq.dividend_over.sublist.subset hterm)) hpairs
        by_cases hknown : q.expr ∈ pairs.map Prod.fst
        · exact ⟨_, hdividend.local_known hbasis hunresolved hpairs hknown⟩
        · exact hdividend.local_new hbasis hunresolved hpairs hknown

end Rerun

/-! ## The second run -/

section Settling

variable {dims syms : Nat} {locals : List Expr} {w : WrittenSum}

/-- Simplifying a written sum renames its local terms, in the order in which they are met, and the
renamed ones are met in this order. -/
theorem Locals.exists_renaming (h : Locals dims syms locals)
    (hw : w.Over (formTerms dims syms locals)) :
    ∃ pairs, Renaming dims syms (formTerms dims syms locals) pairs ∧
      w.expr.met [] = pairs.map Prod.fst ∧
      w.expr.simplify dims syms = (w.renamed (termPairs dims syms pairs)).expr ∧
      (w.renamed (termPairs dims syms pairs)).expr.met [] = pairs.map Prod.snd := by
  have hbasis := h.isBasis
  obtain ⟨pairs, form, hrun⟩ := rerun_expr hbasis hw
    (h.pairwise_notMem_postorder.sublist hw.sublist)
    (fun term hterm => h.termReruns hbasis (List.Sublist.refl _) term (hw.sublist.subset hterm))
    Renaming.nil
  have hlocals : Locals dims syms (pairs.map Prod.snd) := hrun.renames.locals hbasis.nodup
  have hfits : form.Fits (dims + syms + (pairs.map Prod.snd).length) := by
    simpa using hrun.weights.fits (hw.words hbasis.nodup)
  have hflatten : w.expr.flatten? dims syms = some (form, pairs.map Prod.snd) :=
    hrun.flattenWith_eq
  refine ⟨pairs, hrun.renames, hrun.met_eq, ?_, ?_⟩
  · rw [simplify, hflatten]
    exact (ofLinearForm_eq_expr hlocals.isBasis hfits).trans
      (congrArg WrittenSum.expr hrun.weights.written_eq)
  · rw [WrittenSum.met_expr]
    exact hrun.metAll_renamed hbasis Renaming.nil

theorem Locals.over_renamed (h : Locals dims syms locals)
    (hw : w.Over (formTerms dims syms locals)) (pairs : List (Expr × Expr)) :
    (w.renamed (termPairs dims syms pairs)).Over (formTerms dims syms (pairs.map Prod.snd)) := by
  rw [← map_snd_termPairs]
  exact hw.renamed h.isBasis.nodup _

/-- A sum that has been simplified is written in the order in which its local terms are met. -/
theorem Locals.writtenAsMet_simplify (h : Locals dims syms locals)
    (hw : w.Over (formTerms dims syms locals)) : (w.expr.simplify dims syms).WrittenAsMet := by
  obtain ⟨pairs, hpairs, -, hsimplify, hmet⟩ := h.exists_renaming hw
  have hlocals : Locals dims syms (pairs.map Prod.snd) := hpairs.locals h.isBasis.nodup
  intro part hpart
  rw [hsimplify] at hpart ⊢
  rw [hmet]
  exact hlocals.sublist_of_mem_expr (h.over_renamed hw pairs) hlocals.sublist_of_mem_postorder hpart

/-- A sum over inputs and local terms in one order, whose local terms are also in another order,
is a sum over the inputs and that order. -/
theorem Locals.sublist_formTerms (h : Locals dims syms locals)
    (hw : w.Over (formTerms dims syms locals)) {order : List Expr}
    (horder : w.expr.localSummands.Sublist order) :
    w.terms.Sublist (formTerms dims syms order) := by
  rw [WrittenSum.localSummands_expr (hw.proper h.isBasis)] at horder
  obtain ⟨first, second, heq, hfirst, hsecond⟩ := List.sublist_append_iff.mp hw.sublist
  have hnone : first.filter Expr.isLocal = [] :=
    List.filter_eq_nil_iff.mpr fun term hterm => by
      simp [isLocal_of_mem_inputs (hfirst.subset hterm)]
  have hall : second.filter Expr.isLocal = second :=
    List.filter_eq_self.mpr fun term hterm => h.isLocal term (hsecond.subset hterm)
  rw [heq, List.filter_append, hnone, hall, List.nil_append] at horder
  rw [heq]
  exact hfirst.append horder

/-- A sum that is written in the order in which its local terms are met is not changed. -/
theorem Locals.simplify_of_writtenAsMet (h : Locals dims syms locals)
    (hw : w.Over (formTerms dims syms locals)) (hmet : w.expr.WrittenAsMet) :
    w.expr.simplify dims syms = w.expr := by
  obtain ⟨pairs, hpairs, horder, hsimplify, -⟩ := h.exists_renaming hw
  unfold WrittenAsMet at hmet
  rw [horder] at hmet
  have hself : pairs = (pairs.map Prod.fst).map fun term => (term, term) := by
    refine hpairs.eq_self List.prefix_rfl hpairs.nodup fun q hq hmem => ?_
    -- the dividend of a local term that is met is a part of the sum
    rw [← horder, mem_met] at hmem
    have hdividend : q.dividend.expr ∈ w.expr.postorder :=
      mem_postorder_trans (hmem.resolve_left List.not_mem_nil).1
        (mem_postorder_binary.mpr (.inl (self_mem_postorder _)))
    exact h.sublist_formTerms hq.dividend_over (hmet _ hdividend)
  have hover : w.Over (formTerms dims syms (pairs.map Prod.fst)) :=
    { hw with sublist := h.sublist_formTerms hw (hmet _ (self_mem_postorder _)) }
  rw [hsimplify, hself, termPairs_self, hover.renamed_self hpairs.nodup]

/-- A simplified expression is a sum over the local terms that flattening has made. -/
theorem exists_written {e : Expr} (he : e.HasWords) {form : LinearForm}
    (h : e.flatten? dims syms = some (form, locals)) :
    Locals dims syms locals ∧ ∃ w : WrittenSum, w.Over (formTerms dims syms locals) ∧
      e.simplify dims syms = w.expr := by
  have hleaves : Leaves dims syms [] (form, locals) := leaves_flattenWith .nil he h
  refine ⟨hleaves.unresolved, written (formTerms dims syms locals) form, over_written ?_, ?_⟩
  · rw [length_formTerms]
    exact hleaves.fits
  · rw [simplify, h]
    exact ofLinearForm_eq_expr hleaves.unresolved.isBasis hleaves.fits

end Settling

/-- Simplifying twice changes nothing more exactly if the expression has no linear form or its
simplified form has, in each of its sums, the quotients and remainders in the order in which they
are met on the way through it.  Simplifying for a third time changes nothing. -/
theorem simplify_settles {e : Expr} (he : e.HasWords) (dims syms : Nat) :
    ((e.simplify dims syms).simplify dims syms = e.simplify dims syms ↔
      e.flatten? dims syms = none ∨ (e.simplify dims syms).WrittenAsMet) ∧
    ((e.simplify dims syms).simplify dims syms).simplify dims syms =
      (e.simplify dims syms).simplify dims syms := by
  cases hflatten : e.flatten? dims syms with
  | none =>
      have hsame : e.simplify dims syms = e := by rw [simplify, hflatten]
      simp [hsame]
  | some result =>
      obtain ⟨form, locals⟩ := result
      obtain ⟨hlocals, w, hw, hsimplify⟩ := exists_written he hflatten
      rw [hsimplify]
      refine ⟨⟨fun hsame => .inr ?_, ?_⟩, ?_⟩
      · exact hsame ▸ hlocals.writtenAsMet_simplify hw
      · rintro (hnone | hmet)
        · cases hnone
        · exact hlocals.simplify_of_writtenAsMet hw hmet
      -- the second result is again a written sum, and one that is written as met
      · obtain ⟨pairs, hpairs, -, hagain, -⟩ := hlocals.exists_renaming hw
        have hmet := hlocals.writtenAsMet_simplify hw
        rw [hagain] at hmet ⊢
        exact (hpairs.locals hlocals.isBasis.nodup).simplify_of_writtenAsMet
          (hlocals.over_renamed hw pairs) hmet

/-- The expression `(d0 floordiv 2 + d1 floordiv 3) mod 4 + d1 floordiv 3`.  Its simplified form
puts the quotient of `d1` first, and in the remainder second. -/
def sharedQuotient : Expr :=
  binary .add
    (binary .mod (binary .add (binary .floorDiv (dim 0) (const 2))
      (binary .floorDiv (dim 1) (const 3))) (const 4))
    (binary .floorDiv (dim 1) (const 3))

theorem simplify_settles_sharedQuotient :
    sharedQuotient.HasWords ∧ (sharedQuotient.flatten? 2 0).isSome ∧
    ¬ (sharedQuotient.simplify 2 0).WrittenAsMet ∧
    (sharedQuotient.simplify 2 0).simplify 2 0 ≠ sharedQuotient.simplify 2 0 ∧
    ((sharedQuotient.simplify 2 0).simplify 2 0).simplify 2 0 =
      (sharedQuotient.simplify 2 0).simplify 2 0 := by
  have hwords : sharedQuotient.HasWords := by decide
  have hsome : (sharedQuotient.flatten? 2 0).isSome := by decide
  have hmet : ¬ (sharedQuotient.simplify 2 0).WrittenAsMet := by decide
  obtain ⟨hiff, hthird⟩ := simplify_settles hwords 2 0
  refine ⟨hwords, hsome, hmet, fun hsame => ?_, hthird⟩
  rcases hiff.mp hsame with hnone | hmet'
  · simp [hnone] at hsome
  · exact hmet hmet'

theorem not_forall_simplify_idempotent :
    ¬ ∀ (e : Expr) (dims syms : Nat), e.HasWords →
      (e.simplify dims syms).simplify dims syms = e.simplify dims syms := by
  intro h
  exact absurd (h sharedQuotient 2 0 (by decide)) (by decide)

end AffineLoops.Expr
