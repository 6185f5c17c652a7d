import AffineLoops.Proofs.Expr.LocalTerms

/-!
# The order in which local terms are met

On the way through an expression, operands first, its quotients and remainders are met in some
order (`met`).  The sums within the expression list theirs in an order of their own, and
`WrittenAsMet` says that the two agree.

The local terms of a flattened expression are closed under taking parts
(`Locals.mem_of_mem_postorder`), no term is a part of an earlier one
(`Locals.pairwise_notMem_postorder`), and all sums within them follow the order of the list
(`Locals.sublist_of_mem_postorder`).  The two inductions go along the list, and each step looks at
the parts of one written sum (`WrittenSum.mem_postorder_expr`).
-/

namespace AffineLoops.Expr

/-- Whether an expression is a quotient or a remainder. -/
def isLocal : Expr → Bool
  | binary op _ _ => op.isDivision
  | _ => false

/-- The quotients and remainders that are met on the way through an expression, operands first,
behind those that were met before. -/
def met : Expr → List Expr → List Expr
  | binary op lhs rhs, seen =>
      let seen := met rhs (met lhs seen)
      if op.isDivision ∧ binary op lhs rhs ∉ seen then seen ++ [binary op lhs rhs] else seen
  | _, seen => seen

/-- The quotients and remainders among the terms of a sum, from left to right. -/
def localSummands (e : Expr) : List Expr :=
  (e.summands.map (·.scaledTerm.1)).filter isLocal

/-- Every sum within an expression has its quotients and remainders in the order in which they are
met on the way through the expression. -/
def WrittenAsMet (e : Expr) : Prop :=
  ∀ part ∈ e.postorder, part.localSummands.Sublist (e.met [])

instance (e : Expr) : Decidable e.WrittenAsMet :=
  inferInstanceAs (Decidable (∀ part ∈ e.postorder, _))

/-! ## What is met -/

/-- What is met in an expression are its quotients and remainders. -/
theorem mem_met {e term : Expr} {seen : List Expr} :
    term ∈ e.met seen ↔ term ∈ seen ∨ (term ∈ e.postorder ∧ term.isLocal) := by
  induction e generalizing seen with
  | dim _ | sym _ | const _ =>
      simp only [met, postorder, List.mem_singleton]
      constructor
      · exact .inl
      · rintro (h | ⟨rfl, h⟩)
        · exact h
        · cases h
  | binary op lhs rhs ihl ihr =>
      have hoperands : term ∈ rhs.met (lhs.met seen) ↔
          term ∈ seen ∨ (term ∈ lhs.postorder ∨ term ∈ rhs.postorder) ∧ term.isLocal := by
        rw [ihr, ihl]
        tauto
      rw [mem_postorder_binary, met]
      split
      · rename_i hnew
        rw [List.mem_append, hoperands, List.mem_singleton]
        constructor
        · rintro ((h | ⟨h, hlocal⟩) | rfl)
          · exact .inl h
          · exact .inr ⟨h.elim .inl fun h => .inr (.inl h), hlocal⟩
          · exact .inr ⟨.inr (.inr rfl), hnew.1⟩
        · tauto
      · rename_i hold
        rw [hoperands]
        constructor
        · tauto
        · rintro (h | ⟨h | h | rfl, hlocal⟩)
          · exact .inl h
          · exact .inr ⟨.inl h, hlocal⟩
          · exact .inr ⟨.inr h, hlocal⟩
          · exact hoperands.mp (by_contra fun hnew => hold ⟨hlocal, hnew⟩)

/-- An expression whose quotients and remainders have been met brings nothing new. -/
theorem met_eq_self {e : Expr} {seen : List Expr}
    (h : ∀ term ∈ e.postorder, term.isLocal → term ∈ seen) : e.met seen = seen := by
  induction e with
  | dim _ | sym _ | const _ => rfl
  | binary op lhs rhs ihl ihr =>
      rw [forall_mem_postorder_binary] at h
      obtain ⟨hlhs, hrhs, hself⟩ := h
      rw [met, ihl hlhs, ihr hrhs]
      exact if_neg fun hnew => hnew.2 (hself hnew.1)

/-! ## The parts of a written sum -/

section WrittenSum

theorem met_scaled (entry : Expr × Int) (seen : List Expr) :
    (scaled entry).met seen = entry.1.met seen := by
  unfold scaled
  split
  · rfl
  · simp [met, BinaryOp.isDivision]

/-- The terms of a sum are met one after the other. -/
def metAll (terms : List Expr) (seen : List Expr) : List Expr :=
  terms.foldl (fun seen term => term.met seen) seen

theorem metAll_append (terms terms' seen : List Expr) :
    metAll (terms ++ terms') seen = metAll terms' (metAll terms seen) :=
  List.foldl_append

theorem metAll_eq_self {terms seen : List Expr} (h : ∀ term ∈ terms, term.met seen = seen) :
    metAll terms seen = seen := by
  induction terms with
  | nil => rfl
  | cons term terms ih =>
      obtain ⟨hterm, hterms⟩ := List.forall_mem_cons.mp h
      rw [metAll, List.foldl_cons, hterm]
      exact ih hterms

theorem met_sumFrom (sum : Expr) (rest : List (Expr × Int)) (seen : List Expr) :
    (sumFrom sum rest).met seen = metAll (rest.map Prod.fst) (sum.met seen) := by
  induction rest generalizing sum with
  | nil => rfl
  | cons entry rest ih =>
      have hstep :
          sumFrom sum (entry :: rest) = sumFrom (binary .add sum (scaled entry)) rest := rfl
      have hmet : (binary .add sum (scaled entry)).met seen = entry.1.met (sum.met seen) := by
        simp [met, BinaryOp.isDivision, met_scaled]
      rw [hstep, ih, hmet]
      rfl

theorem WrittenSum.met_expr (w : WrittenSum) (seen : List Expr) :
    w.expr.met seen = metAll w.terms seen := by
  obtain ⟨entries, constant⟩ := w
  cases entries with
  | nil => rfl
  | cons entry rest =>
      have hsum : (sumFrom (scaled entry) rest).met seen =
          metAll ((entry :: rest).map Prod.fst) seen := by
        rw [met_sumFrom, met_scaled]
        rfl
      by_cases hzero : constant = 0
      · simp [expr, hzero, hsum, terms]
      · simp [expr, hzero, met, BinaryOp.isDivision, hsum, terms]

/-- A local term is met behind its dividend. -/
theorem LocalTerm.met_expr {q : LocalTerm} (hop : q.op.isDivision) {seen : List Expr}
    (hnew : q.expr ∉ q.dividend.expr.met seen) :
    q.expr.met seen = q.dividend.expr.met seen ++ [q.expr] :=
  if_pos ⟨hop, hnew⟩

theorem localSummands_of_isLocal {e : Expr} (h : e.isLocal) : e.localSummands = [e] := by
  cases e with
  | dim _ | sym _ | const _ => cases h
  | binary op lhs rhs =>
      cases op with
      | add | mul => cases h
      | mod | floorDiv | ceilDiv => rfl

theorem map_scaled {es : List (Expr × Int)} (hterms : ∀ entry ∈ es, entry.1.IsTerm) :
    (es.map scaled).map (·.scaledTerm.1) = es.map Prod.fst := by
  rw [List.map_map]
  refine List.map_congr_left fun entry hentry => ?_
  exact congrArg Prod.fst (scaledTerm_scaled (hterms entry hentry))

theorem localSummands_sumFrom {entry : Expr × Int} {rest : List (Expr × Int)}
    (hterms : ∀ other ∈ entry :: rest, other.1.IsTerm) :
    (sumFrom (scaled entry) rest).localSummands =
      ((entry :: rest).map Prod.fst).filter isLocal := by
  obtain ⟨hterm, hrest⟩ := List.forall_mem_cons.mp hterms
  rw [localSummands, summands_sumFrom hrest, summands_scaled hterm, ← map_scaled hterms]
  rfl

theorem WrittenSum.localSummands_expr {w : WrittenSum} (hw : w.Proper) :
    w.expr.localSummands = w.terms.filter isLocal := by
  rw [localSummands, summands_expr hw, List.map_append, List.filter_append, map_scaled hw.isTerm,
    terms]
  split <;> simp [scaledTerm, isLocal]

theorem mem_postorder_scaled {entry : Expr × Int} {part : Expr}
    (h : part ∈ (scaled entry).postorder) :
    part ∈ entry.1.postorder ∨ part = const entry.2 ∨ part = scaled entry := by
  by_cases hone : entry.2 = 1
  · rw [scaled, if_pos hone] at h
    exact .inl h
  · rw [scaled, if_neg hone] at h ⊢
    simpa [postorder, or_assoc] using h

/-- The parts of a sum are parts of its summands, and the partial sums. -/
theorem mem_postorder_sumFrom {sum part : Expr} {rest : List (Expr × Int)}
    (h : part ∈ (sumFrom sum rest).postorder) :
    part ∈ sum.postorder ∨ (∃ entry ∈ rest, part ∈ (scaled entry).postorder) ∨
      ∃ taken, taken <+: rest ∧ part = sumFrom sum taken := by
  induction rest generalizing sum with
  | nil => exact .inl h
  | cons entry rest ih =>
      have hstep : part ∈ (sumFrom (binary .add sum (scaled entry)) rest).postorder := h
      rcases ih hstep with hpart | ⟨other, hother, hpart⟩ | ⟨taken, htaken, rfl⟩
      · rcases mem_postorder_binary.mp hpart with hpart | hpart | rfl
        · exact .inl hpart
        · exact .inr (.inl ⟨entry, by simp, hpart⟩)
        · exact .inr (.inr ⟨[entry], by simp, rfl⟩)
      · exact .inr (.inl ⟨other, List.mem_cons_of_mem _ hother, hpart⟩)
      · exact .inr (.inr ⟨entry :: taken, by simpa using htaken, rfl⟩)

/-- A part of a written sum is a part of one of its terms, or has its quotients and remainders in
the order of the sum. -/
theorem WrittenSum.mem_postorder_expr {w : WrittenSum} (hw : w.Proper) {part : Expr}
    (h : part ∈ w.expr.postorder) :
    (∃ term ∈ w.terms, part ∈ term.postorder) ∨
      part.localSummands.Sublist (w.terms.filter isLocal) := by
  have hscaled : ∀ {entry}, entry ∈ w.entries → part ∈ (scaled entry).postorder →
      (∃ term ∈ w.terms, part ∈ term.postorder) ∨
        part.localSummands.Sublist (w.terms.filter isLocal) := by
    intro entry hentry hpart
    have hmem : entry.1 ∈ w.terms := List.mem_map_of_mem hentry
    rcases mem_postorder_scaled hpart with hpart | rfl | rfl
    · exact .inl ⟨entry.1, hmem, hpart⟩
    · exact .inr (List.nil_sublist _)
    · have hsummands : (sumFrom (scaled entry) []).localSummands = [entry.1].filter isLocal :=
        localSummands_sumFrom (by simpa using hw.isTerm entry hentry)
      exact .inr (hsummands ▸ (List.singleton_sublist.mpr hmem).filter isLocal)
  obtain ⟨entries, constant⟩ := w
  cases entries with
  | nil =>
      rw [List.mem_singleton.mp h]
      exact .inr (List.nil_sublist _)
  | cons entry rest =>
      have hsum : part ∈ (sumFrom (scaled entry) rest).postorder →
          (∃ term ∈ terms ⟨entry :: rest, constant⟩, part ∈ term.postorder) ∨
            part.localSummands.Sublist ((terms ⟨entry :: rest, constant⟩).filter isLocal) := by
        intro hpart
        rcases mem_postorder_sumFrom hpart with
          hpart | ⟨other, hother, hpart⟩ | ⟨taken, htaken, rfl⟩
        · exact hscaled List.mem_cons_self hpart
        · exact hscaled (List.mem_cons_of_mem _ hother) hpart
        · have hsublist : (entry :: taken).Sublist (entry :: rest) := htaken.sublist.cons_cons entry
          rw [localSummands_sumFrom fun other hother => hw.isTerm other (hsublist.subset hother)]
          exact .inr ((hsublist.map Prod.fst).filter isLocal)
      by_cases hzero : constant = 0
      · simp only [expr, if_pos hzero] at h
        exact hsum h
      · have hwhole := localSummands_expr hw
        simp only [expr, if_neg hzero] at h hwhole
        rcases mem_postorder_binary.mp h with hpart | hpart | rfl
        · exact hsum hpart
        · rw [List.mem_singleton.mp hpart]
          exact .inr (List.nil_sublist _)
        · exact .inr (hwhole ▸ List.Sublist.refl _)

end WrittenSum

/-! ## The parts of local terms -/

section Locals

variable {dims syms : Nat} {locals : List Expr}

theorem isLocal_of_mem_inputs {term : Expr} (h : term ∈ inputs dims syms) :
    term.isLocal = false := by
  rcases List.mem_append.mp h with h | h <;> obtain ⟨position, -, rfl⟩ := List.mem_map.mp h <;> rfl

theorem postorder_of_mem_inputs {term : Expr} (h : term ∈ inputs dims syms) :
    term.postorder = [term] := by
  rcases List.mem_append.mp h with h | h <;> obtain ⟨position, -, rfl⟩ := List.mem_map.mp h <;> rfl

theorem Locals.isLocal (h : Locals dims syms locals) : ∀ term ∈ locals, term.isLocal := by
  induction h with
  | nil => simp
  | snoc _ hq _ ih =>
      intro term hterm
      rcases List.mem_append.mp hterm with hterm | hterm
      · exact ih term hterm
      · rw [List.mem_singleton.mp hterm]
        exact hq.isDivision

theorem mem_of_isLocal {term : Expr} (h : term ∈ formTerms dims syms locals)
    (hlocal : term.isLocal) : term ∈ locals := by
  rcases List.mem_append.mp h with h | h
  · rw [isLocal_of_mem_inputs h] at hlocal
    cases hlocal
  · exact h

theorem filter_isLocal_inputs : (inputs dims syms).filter isLocal = [] :=
  List.filter_eq_nil_iff.mpr fun _ hterm => by simp [isLocal_of_mem_inputs hterm]

theorem Locals.filter_formTerms (h : Locals dims syms locals) :
    (formTerms dims syms locals).filter Expr.isLocal = locals := by
  rw [formTerms, List.filter_append, filter_isLocal_inputs, List.nil_append]
  exact List.filter_eq_self.mpr h.isLocal

theorem Locals.sublist_of_mem_expr (h : Locals dims syms locals) {w : WrittenSum}
    (hw : w.Over (formTerms dims syms locals))
    (hterms : ∀ term ∈ formTerms dims syms locals, ∀ part ∈ term.postorder,
      part.localSummands.Sublist locals)
    {part : Expr} (hpart : part ∈ w.expr.postorder) : part.localSummands.Sublist locals := by
  rcases WrittenSum.mem_postorder_expr (hw.proper h.isBasis) hpart with
    ⟨term, hterm, hpart⟩ | hsublist
  · exact hterms term (hw.sublist.subset hterm) part hpart
  · have hfilter := hw.sublist.filter Expr.isLocal
    rw [h.filter_formTerms] at hfilter
    exact hsublist.trans hfilter

/-- The parts of a local term have their quotients and remainders in the order of the list. -/
theorem Locals.sublist_of_mem_postorder (h : Locals dims syms locals) :
    ∀ term ∈ formTerms dims syms locals, ∀ part ∈ term.postorder,
      part.localSummands.Sublist locals := by
  have hinput : ∀ {locals : List Expr}, ∀ term ∈ inputs dims syms, ∀ part ∈ term.postorder,
      part.localSummands.Sublist locals := by
    intro locals term hterm part hpart
    rw [postorder_of_mem_inputs hterm, List.mem_singleton] at hpart
    rcases List.mem_append.mp hterm with hterm | hterm <;>
      obtain ⟨position, -, rfl⟩ := List.mem_map.mp hterm <;>
      exact hpart ▸ List.nil_sublist _
  induction h with
  | nil =>
      rw [formTerms, List.append_nil]
      exact hinput
  | @snoc locals q hlocals hq _ ih =>
      have hextend : locals.Sublist (locals ++ [q.expr]) := List.sublist_append_left _ _
      intro term hterm part hpart
      rw [formTerms_append] at hterm
      rcases List.mem_append.mp hterm with hterm | hterm
      · exact (ih term hterm part hpart).trans hextend
      · rw [List.mem_singleton.mp hterm] at hpart
        rcases mem_postorder_binary.mp hpart with hpart | hpart | rfl
        · exact (hlocals.sublist_of_mem_expr hq.dividend_over ih hpart).trans hextend
        · rw [List.mem_singleton.mp hpart]
          exact List.nil_sublist _
        · have hlocal : q.expr.isLocal := hq.isDivision
          exact localSummands_of_isLocal hlocal ▸ List.sublist_append_right _ _

/-- The list of local terms is closed under taking parts. -/
theorem Locals.mem_of_mem_postorder (h : Locals dims syms locals) {term part : Expr}
    (hterm : term ∈ formTerms dims syms locals) (hpart : part ∈ term.postorder)
    (hlocal : part.isLocal) : part ∈ locals := by
  have hsublist := h.sublist_of_mem_postorder term hterm part hpart
  rw [localSummands_of_isLocal hlocal] at hsublist
  exact List.singleton_sublist.mp hsublist

theorem Locals.met_eq_self (h : Locals dims syms locals) {term : Expr}
    (hterm : term ∈ formTerms dims syms locals) : term.met locals = locals :=
  Expr.met_eq_self fun _ hpart hlocal => h.mem_of_mem_postorder hterm hpart hlocal

/-- No term is a part of an earlier one. -/
theorem Locals.pairwise_notMem_postorder (h : Locals dims syms locals) :
    (formTerms dims syms locals).Pairwise fun earlier later => later ∉ earlier.postorder := by
  induction h with
  | nil =>
      rw [formTerms, List.append_nil]
      refine isBasis_inputs.nodup.imp_of_mem ?_
      intro earlier later hearlier _ hne hpart
      rw [postorder_of_mem_inputs hearlier, List.mem_singleton] at hpart
      exact hne hpart.symm
  | @snoc locals q hlocals hq hnew ih =>
      rw [formTerms_append, List.pairwise_append]
      refine ⟨ih, List.pairwise_singleton _ _, ?_⟩
      intro earlier hearlier later hlater hpart
      rw [List.mem_singleton.mp hlater] at hpart
      exact hnew (hlocals.mem_of_mem_postorder hearlier hpart hq.isDivision)

end Locals

end AffineLoops.Expr
