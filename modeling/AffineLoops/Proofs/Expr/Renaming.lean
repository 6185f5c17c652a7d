import AffineLoops.Proofs.Expr.Meeting
import Mathlib.Data.List.Nodup

/-!
# Renaming local terms

When a simplified expression is flattened again, its local terms are met in an order that need not
be the one in which they were made.  They become the local terms of the second run in this new
order, and within each of them the dividend is put into the new order, too: every local term gets
a new name, the expression that stands for it from then on.

A `Renaming` lists the local terms with their new names in the order in which they are met.

* `Renaming.locals`: the new names are again local terms that cannot be resolved, and they differ.
  The point is that a sum can be recovered from the renamed one
  (`WrittenSum.Over.eq_of_renamed_eq`), so that different local terms keep different names.
* `Renaming.eq_self`: nothing is renamed if all dividends follow the order of the renaming.
* `HasWeights`: a form of the second run has the weights of the sum that is flattened, for the
  terms under their old names; what it is put together to is the renamed sum
  (`HasWeights.written_eq`).
-/

namespace AffineLoops.Expr

/-! ## Renamed sums -/

/-- The sum over the second components of pairs of terms that has the factors of a sum over the
first ones, in the order of the pairs. -/
def WrittenSum.renamed (pairs : List (Expr × Expr)) (w : WrittenSum) : WrittenSum :=
  ⟨(pairs.filter (weight w.entries ·.1 ≠ 0)).map fun pair => (pair.2, weight w.entries pair.1),
    w.constant⟩

/-- The local term with its dividend renamed. -/
def LocalTerm.renamed (pairs : List (Expr × Expr)) (q : LocalTerm) : LocalTerm :=
  { q with dividend := q.dividend.renamed pairs }

section Renamed

variable {basis : List Expr} {pairs : List (Expr × Expr)} {w : WrittenSum}

theorem terms_renamed :
    (w.renamed pairs).terms = (pairs.filter (weight w.entries ·.1 ≠ 0)).map Prod.snd := by
  rw [WrittenSum.terms, WrittenSum.renamed, List.map_map]
  rfl

theorem mem_entries_renamed {entry : Expr × Int} :
    entry ∈ (w.renamed pairs).entries ↔ ∃ pair ∈ pairs, weight w.entries pair.1 ≠ 0 ∧
      entry = (pair.2, weight w.entries pair.1) := by
  simp only [WrittenSum.renamed, List.mem_map, List.mem_filter, decide_eq_true_eq, and_assoc,
    eq_comm (a := entry)]

/-- A sum of different terms has the factors of its terms as weights. -/
theorem WrittenSum.Over.weight_cases (hw : w.Over basis) (hbasis : basis.Nodup) (term : Expr) :
    weight w.entries term = 0 ∨ ∃ entry ∈ w.entries, entry = (term, weight w.entries term) := by
  by_cases hmem : term ∈ w.terms
  · obtain ⟨entry, hentry, rfl⟩ := List.mem_map.mp hmem
    refine .inr ⟨entry, hentry, ?_⟩
    rw [weight_of_mem (hbasis.sublist hw.sublist) hentry]
  · exact .inl (weight_eq_zero hmem)

/-- The factors of a renamed sum are factors of the sum. -/
theorem WrittenSum.Over.exists_of_mem_renamed (hw : w.Over basis) (hbasis : basis.Nodup)
    {entry : Expr × Int} (h : entry ∈ (w.renamed pairs).entries) :
    ∃ original ∈ w.entries, original.2 = entry.2 := by
  obtain ⟨pair, -, hne, rfl⟩ := mem_entries_renamed.mp h
  obtain ⟨original, horiginal, heq⟩ := (hw.weight_cases hbasis pair.1).resolve_left hne
  exact ⟨original, horiginal, by rw [heq]⟩

/-- All factors are kept if every term is renamed. -/
theorem WrittenSum.Over.exists_mem_renamed (hw : w.Over basis) (hbasis : basis.Nodup)
    (hterms : ∀ term ∈ w.terms, term ∈ pairs.map Prod.fst) {entry : Expr × Int}
    (h : entry ∈ w.entries) : ∃ renamed ∈ (w.renamed pairs).entries, renamed.2 = entry.2 := by
  obtain ⟨pair, hpair, heq⟩ := List.mem_map.mp (hterms entry.1 (List.mem_map_of_mem h))
  have hweight : weight w.entries pair.1 = entry.2 := by
    rw [heq, weight_of_mem (hbasis.sublist hw.sublist) h]
  refine ⟨(pair.2, entry.2), mem_entries_renamed.mpr ⟨pair, hpair, ?_, ?_⟩, rfl⟩
  · rw [hweight]
    exact hw.factor_ne_zero entry h
  · rw [hweight]

theorem WrittenSum.Over.renamed (hw : w.Over basis) (hbasis : basis.Nodup)
    (pairs : List (Expr × Expr)) : (w.renamed pairs).Over (pairs.map Prod.snd) where
  sublist := by
    rw [terms_renamed]
    exact List.filter_sublist.map Prod.snd
  factor_ne_zero := by
    intro entry hentry
    obtain ⟨original, horiginal, heq⟩ := hw.exists_of_mem_renamed hbasis hentry
    exact heq ▸ hw.factor_ne_zero original horiginal
  factor_word := by
    intro entry hentry
    obtain ⟨original, horiginal, heq⟩ := hw.exists_of_mem_renamed hbasis hentry
    exact heq ▸ hw.factor_word original horiginal
  constant_word := hw.constant_word

/-- A local term that cannot be resolved is not resolved by renaming. -/
theorem LocalTerm.Unresolved.renamed {q : LocalTerm} (hq : q.Unresolved basis)
    (hbasis : basis.Nodup) (hterms : ∀ term ∈ q.dividend.terms, term ∈ pairs.map Prod.fst) :
    (q.renamed pairs).Unresolved (pairs.map Prod.snd) where
  isDivision := hq.isDivision
  pos := hq.pos
  divisor_word := hq.divisor_word
  dividend_over := hq.dividend_over.renamed hbasis pairs
  reduced := by
    intro hmod
    refine ⟨fun entry hentry => ?_, (hq.reduced hmod).2⟩
    obtain ⟨original, horiginal, heq⟩ := hq.dividend_over.exists_of_mem_renamed hbasis hentry
    exact heq ▸ (hq.reduced hmod).1 original horiginal
  coprime := by
    intro hmod n hdivisor hfactors hconstant
    refine hq.coprime hmod n hdivisor (fun entry hentry => ?_) hconstant
    obtain ⟨renamed, hrenamed, heq⟩ := hq.dividend_over.exists_mem_renamed hbasis hterms hentry
    exact heq ▸ hfactors renamed hrenamed
  not_dvd := by
    obtain ⟨entry, hentry, hnotDvd⟩ := hq.not_dvd
    obtain ⟨renamed, hrenamed, heq⟩ := hq.dividend_over.exists_mem_renamed hbasis hterms hentry
    exact ⟨renamed, hrenamed, heq ▸ hnotDvd⟩

theorem weight_eq_zero_of_mem (hterms : ∀ term ∈ w.terms, term ∉ pairs.map Prod.fst)
    {pair : Expr × Expr} (hpair : pair ∈ pairs) : weight w.entries pair.1 = 0 :=
  weight_eq_zero fun hterm => hterms pair.1 hterm (List.mem_map_of_mem hpair)

/-- Pairs for other terms do not matter. -/
theorem renamed_append {added : List (Expr × Expr)}
    (hterms : ∀ term ∈ w.terms, term ∉ added.map Prod.fst) :
    w.renamed (pairs ++ added) = w.renamed pairs := by
  have hnone : added.filter (weight w.entries ·.1 ≠ 0) = [] := by
    refine List.filter_eq_nil_iff.mpr fun pair hpair => ?_
    simpa using weight_eq_zero_of_mem hterms hpair
  rw [WrittenSum.renamed, List.filter_append, hnone, List.append_nil]
  rfl

/-- The weights of a sum can be read off the renamed sum. -/
theorem weight_renamed (hpairs : (pairs.map Prod.snd).Nodup) {pair : Expr × Expr}
    (hpair : pair ∈ pairs) :
    weight (w.renamed pairs).entries pair.2 = weight w.entries pair.1 := by
  have hnodup : (w.renamed pairs).terms.Nodup := by
    rw [terms_renamed]
    exact hpairs.sublist (List.filter_sublist.map Prod.snd)
  by_cases hzero : weight w.entries pair.1 = 0
  · rw [hzero]
    refine weight_eq_zero fun hmem => ?_
    obtain ⟨entry, hentry, heq⟩ := List.mem_map.mp hmem
    obtain ⟨other, hother, hne, rfl⟩ := mem_entries_renamed.mp hentry
    obtain rfl : other = pair := List.inj_on_of_nodup_map hpairs hother hpair heq
    exact hne hzero
  · exact weight_of_mem hnodup (mem_entries_renamed.mpr ⟨pair, hpair, hzero, rfl⟩)

/-- A sum is determined by the renamed sum. -/
theorem WrittenSum.Over.eq_of_renamed_eq {w' : WrittenSum} (hbasis : basis.Nodup)
    (hw : w.Over basis) (hw' : w'.Over basis) (hpairs : (pairs.map Prod.snd).Nodup)
    (hterms : ∀ term ∈ w.terms, term ∈ pairs.map Prod.fst)
    (hterms' : ∀ term ∈ w'.terms, term ∈ pairs.map Prod.fst)
    (h : w.renamed pairs = w'.renamed pairs) : w = w' := by
  have hweight : ∀ term, weight w.entries term = weight w'.entries term := by
    intro term
    by_cases hmem : term ∈ pairs.map Prod.fst
    · obtain ⟨pair, hpair, rfl⟩ := List.mem_map.mp hmem
      rw [← weight_renamed hpairs hpair, h, weight_renamed hpairs hpair]
    · rw [weight_eq_zero fun hterm => hmem (hterms term hterm),
        weight_eq_zero fun hterm => hmem (hterms' term hterm)]
  have hentries : w.entries = w'.entries := by
    rw [← entries_map_weight hw.sublist hbasis hw.factor_ne_zero,
      ← entries_map_weight hw'.sublist hbasis hw'.factor_ne_zero, funext hweight]
  have hconstant : (w.renamed pairs).constant = (w'.renamed pairs).constant := by rw [h]
  obtain ⟨entries, constant⟩ := w
  obtain ⟨entries', constant'⟩ := w'
  obtain rfl : entries = entries' := hentries
  obtain rfl : constant = constant' := hconstant
  rfl

theorem LocalTerm.Unresolved.eq_of_renamed_eq {q q' : LocalTerm} (hbasis : basis.Nodup)
    (hq : q.Unresolved basis) (hq' : q'.Unresolved basis) (hpairs : (pairs.map Prod.snd).Nodup)
    (hterms : ∀ term ∈ q.dividend.terms, term ∈ pairs.map Prod.fst)
    (hterms' : ∀ term ∈ q'.dividend.terms, term ∈ pairs.map Prod.fst)
    (h : q.renamed pairs = q'.renamed pairs) : q = q' := by
  obtain ⟨op, dividend, divisor⟩ := q
  obtain ⟨op', dividend', divisor'⟩ := q'
  obtain ⟨rfl, hdividend, rfl⟩ := LocalTerm.mk.inj h
  obtain rfl := hq.dividend_over.eq_of_renamed_eq hbasis hq'.dividend_over hpairs hterms hterms'
    hdividend
  rfl

/-- A sum whose terms come in the order of the pairs is not changed by renaming nothing. -/
theorem WrittenSum.Over.renamed_self (hw : w.Over basis) (hbasis : basis.Nodup) :
    w.renamed (basis.map fun term => (term, term)) = w := by
  have hentries : (w.renamed (basis.map fun term => (term, term))).entries = w.entries := by
    rw [WrittenSum.renamed, ← entries_map, List.map_map, List.map_map]
    exact (congrArg (Expr.entries · _) (List.map_id _)).trans
      (entries_map_weight hw.sublist hbasis hw.factor_ne_zero)
  obtain ⟨entries, constant⟩ := w
  exact congrArg (WrittenSum.mk · constant) hentries

end Renamed

/-! ## Renamings -/

/-- Pairs of terms for a renaming of local terms, with the inputs for themselves. -/
def termPairs (dims syms : Nat) (pairs : List (Expr × Expr)) : List (Expr × Expr) :=
  (inputs dims syms).map (fun term => (term, term)) ++ pairs

/-- A renaming of local terms, in the order in which they are met: each is paired with the local
term that has the earlier ones renamed. -/
inductive Renaming (dims syms : Nat) (basis : List Expr) : List (Expr × Expr) → Prop
  | nil : Renaming dims syms basis []
  | snoc {pairs : List (Expr × Expr)} {q : LocalTerm} : Renaming dims syms basis pairs →
      q.Unresolved basis →
      (∀ term ∈ q.dividend.terms, term ∈ formTerms dims syms (pairs.map Prod.fst)) →
      q.expr ∉ pairs.map Prod.fst →
      Renaming dims syms basis
        (pairs ++ [(q.expr, (q.renamed (termPairs dims syms pairs)).expr)])

section Renaming

variable {dims syms : Nat} {basis : List Expr} {pairs : List (Expr × Expr)}

@[simp] theorem map_fst_termPairs :
    (termPairs dims syms pairs).map Prod.fst = formTerms dims syms (pairs.map Prod.fst) := by
  simp [termPairs, formTerms, Function.comp_def]

@[simp] theorem map_snd_termPairs :
    (termPairs dims syms pairs).map Prod.snd = formTerms dims syms (pairs.map Prod.snd) := by
  simp [termPairs, formTerms, Function.comp_def]

theorem termPairs_append (pairs added : List (Expr × Expr)) :
    termPairs dims syms (pairs ++ added) = termPairs dims syms pairs ++ added :=
  (List.append_assoc ..).symm

/-- No local term is renamed twice. -/
theorem Renaming.nodup (h : Renaming dims syms basis pairs) :
    (formTerms dims syms (pairs.map Prod.fst)).Nodup := by
  induction h with
  | nil => simpa [formTerms] using isBasis_inputs.nodup
  | @snoc pairs q _ _ _ hnew ih =>
      rw [List.map_append, formTerms_append]
      refine List.nodup_append.mpr ⟨ih, List.pairwise_singleton _ _, ?_⟩
      rintro term hterm _ hmem rfl
      rw [show term = q.expr by simpa using hmem] at hterm
      exact expr_notMem_formTerms hnew hterm

theorem renamed_termPairs_append {added : List (Expr × Expr)} {w : WrittenSum}
    (hnodup : (formTerms dims syms ((pairs ++ added).map Prod.fst)).Nodup)
    (hw : ∀ term ∈ w.terms, term ∈ formTerms dims syms (pairs.map Prod.fst)) :
    w.renamed (termPairs dims syms (pairs ++ added)) = w.renamed (termPairs dims syms pairs) := by
  rw [List.map_append, formTerms_append, List.nodup_append] at hnodup
  rw [termPairs_append]
  exact renamed_append fun term hterm hmem => hnodup.2.2 term (hw term hterm) term hmem rfl

/-- Each local term is renamed as the whole renaming says. -/
theorem Renaming.exists_of_mem (h : Renaming dims syms basis pairs) {pair : Expr × Expr}
    (hpair : pair ∈ pairs) :
    ∃ q : LocalTerm, q.Unresolved basis ∧
      (∀ term ∈ q.dividend.terms, term ∈ formTerms dims syms (pairs.map Prod.fst)) ∧
      pair = (q.expr, (q.renamed (termPairs dims syms pairs)).expr) := by
  induction h with
  | nil => cases hpair
  | @snoc pairs q hpairs hq hterms hnew ih =>
      have hnodup := (hpairs.snoc hq hterms hnew).nodup
      obtain ⟨q', hq', hterms', rfl⟩ : ∃ q' : LocalTerm, q'.Unresolved basis ∧
          (∀ term ∈ q'.dividend.terms, term ∈ formTerms dims syms (pairs.map Prod.fst)) ∧
          pair = (q'.expr, (q'.renamed (termPairs dims syms pairs)).expr) := by
        rcases List.mem_append.mp hpair with hpair | hpair
        · exact ih hpair
        · exact ⟨q, hq, hterms, List.mem_singleton.mp hpair⟩
      refine ⟨q', hq', fun term hterm => ?_, ?_⟩
      · rw [List.map_append, formTerms_append]
        exact List.mem_append_left _ (hterms' term hterm)
      · rw [LocalTerm.renamed, LocalTerm.renamed, renamed_termPairs_append hnodup hterms']

/-- The renamed terms are local terms that cannot be resolved, in the order of the renaming. -/
theorem Renaming.locals (h : Renaming dims syms basis pairs) (hbasis : basis.Nodup) :
    Locals dims syms (pairs.map Prod.snd) := by
  induction h with
  | nil => exact .nil
  | @snoc pairs q hpairs hq hterms hnew ih =>
      have hrename : ∀ {q' : LocalTerm}, q'.Unresolved basis →
          (∀ term ∈ q'.dividend.terms, term ∈ formTerms dims syms (pairs.map Prod.fst)) →
          (q'.renamed (termPairs dims syms pairs)).Unresolved
            (formTerms dims syms (pairs.map Prod.snd)) := by
        intro q' hq' hterms'
        rw [← map_snd_termPairs]
        exact hq'.renamed hbasis (by simpa using hterms')
      rw [List.map_append]
      -- a new name that is in use already would belong to a local term with the same dividend
      refine ih.snoc (hrename hq hterms) fun hmem => hnew ?_
      obtain ⟨pair, hpair, heq⟩ := List.mem_map.mp hmem
      obtain ⟨q', hq', hterms', rfl⟩ := hpairs.exists_of_mem hpair
      have hrenamed := LocalTerm.expr_injective ih.isBasis (hrename hq' hterms')
        (hrename hq hterms) heq
      obtain rfl : q' = q := by
        refine hq'.eq_of_renamed_eq hbasis hq ?_ ?_ ?_ hrenamed
        · simpa using ih.isBasis.nodup
        · simpa using hterms'
        · simpa using hterms
      exact List.mem_map_of_mem hpair

theorem Renaming.notMem_of_snoc {pair : Expr × Expr}
    (h : Renaming dims syms basis (pairs ++ [pair])) (hbasis : basis.Nodup) :
    pair.2 ∉ pairs.map Prod.snd := by
  have hnodup := (h.locals hbasis).isBasis.nodup
  rw [List.map_append, formTerms_append, List.nodup_append] at hnodup
  intro hmem
  exact hnodup.2.2 pair.2 (List.mem_append_right _ hmem) pair.2 (by simp) rfl

/-- What is renamed is closed under taking parts. -/
theorem Renaming.mem_of_mem_postorder (h : Renaming dims syms basis pairs) (hbasis : IsBasis basis)
    {term part : Expr} (hterm : term ∈ formTerms dims syms (pairs.map Prod.fst))
    (hpart : part ∈ term.postorder) (hlocal : part.isLocal) : part ∈ pairs.map Prod.fst := by
  induction h generalizing term with
  | nil =>
      have hinput : term ∈ inputs dims syms := by simpa [formTerms] using hterm
      rw [postorder_of_mem_inputs hinput, List.mem_singleton] at hpart
      rw [hpart, isLocal_of_mem_inputs hinput] at hlocal
      cases hlocal
  | @snoc pairs q _ hq hterms _ ih =>
      rw [List.map_append, formTerms_append] at hterm
      rw [List.map_append, List.mem_append]
      rcases List.mem_append.mp hterm with hterm | hterm
      · exact .inl (ih hterm hpart)
      · rw [show term = q.expr by simpa using hterm] at hpart
        rcases mem_postorder_binary.mp hpart with hpart | hpart | rfl
        · rcases WrittenSum.mem_postorder_expr (hq.dividend_over.proper hbasis) hpart with
            ⟨inner, hinner, hpart⟩ | hsublist
          · exact .inl (ih (hterms inner hinner) hpart)
          · rw [localSummands_of_isLocal hlocal, List.singleton_sublist] at hsublist
            exact .inl (mem_of_isLocal (hterms part (List.mem_of_mem_filter hsublist)) hlocal)
        · rw [List.mem_singleton.mp hpart] at hlocal
          cases hlocal
        · exact .inr (by simp [LocalTerm.expr])

theorem termPairs_self (locals : List Expr) :
    termPairs dims syms (locals.map fun term => (term, term)) =
      (formTerms dims syms locals).map fun term => (term, term) :=
  List.map_append.symm

theorem sublist_left_of_forall_mem {l first second : List Expr} (h : l.Sublist (first ++ second))
    (hnodup : (first ++ second).Nodup) (hmem : ∀ x ∈ l, x ∈ first) : l.Sublist first := by
  obtain ⟨l₁, l₂, rfl, hfirst, hsecond⟩ := List.sublist_append_iff.mp h
  have hnil : l₂ = [] := by
    refine List.eq_nil_iff_forall_not_mem.mpr fun x hx => ?_
    exact (List.nodup_append.mp hnodup).2.2 x (hmem x (List.mem_append_right _ hx)) x
      (hsecond.subset hx) rfl
  rwa [hnil, List.append_nil]

/-- Nothing is renamed if every dividend is written in the order of the renaming. -/
theorem Renaming.eq_self (h : Renaming dims syms basis pairs) {order : List Expr}
    (horder : pairs.map Prod.fst <+: order) (hnodup : (formTerms dims syms order).Nodup)
    (hsorted : ∀ q : LocalTerm, q.Unresolved basis → q.expr ∈ order →
      q.dividend.terms.Sublist (formTerms dims syms order)) :
    pairs = (pairs.map Prod.fst).map fun term => (term, term) := by
  induction h with
  | nil => rfl
  | @snoc pairs q hpairs hq hterms _ ih =>
      rw [List.map_append] at horder
      have hprefix : pairs.map Prod.fst <+: order := (List.prefix_append ..).trans horder
      have hself := ih hprefix
      obtain ⟨rest, rfl⟩ := hprefix
      have hmem : q.expr ∈ pairs.map Prod.fst ++ rest := horder.subset (by simp)
      have hsublist := hsorted q hq hmem
      rw [formTerms_append] at hsublist hnodup
      have hover : q.dividend.Over (formTerms dims syms (pairs.map Prod.fst)) :=
        { hq.dividend_over with sublist := sublist_left_of_forall_mem hsublist hnodup hterms }
      have hrenamed : q.renamed (termPairs dims syms pairs) = q := by
        rw [hself, termPairs_self, LocalTerm.renamed, hover.renamed_self hpairs.nodup]
      rw [hrenamed, List.map_append, List.map_append, ← hself]
      rfl

end Renaming

/-! ## Forms with the weights of a sum -/

namespace WrittenSum

/-- Two sums as one. -/
def append (w w' : WrittenSum) : WrittenSum := ⟨w.entries ++ w'.entries, w.constant + w'.constant⟩

/-- The sum of a single term. -/
def single (entry : Expr × Int) : WrittenSum := ⟨[entry], 0⟩

@[simp] theorem terms_append (w w' : WrittenSum) : (w.append w').terms = w.terms ++ w'.terms :=
  List.map_append

/-- Pairs for terms of one sum only are chosen by its weights. -/
theorem filter_append_left {w w' : WrittenSum} {pairs : List (Expr × Expr)}
    (h : ∀ term ∈ w'.terms, term ∉ pairs.map Prod.fst) :
    pairs.filter (weight (w.append w').entries ·.1 ≠ 0) =
      pairs.filter (weight w.entries ·.1 ≠ 0) := by
  refine List.filter_congr fun pair hpair => ?_
  rw [append, weight_append, weight_eq_zero_of_mem h hpair, add_zero]

theorem filter_append_right {w w' : WrittenSum} {pairs : List (Expr × Expr)}
    (h : ∀ term ∈ w.terms, term ∉ pairs.map Prod.fst) :
    pairs.filter (weight (w.append w').entries ·.1 ≠ 0) =
      pairs.filter (weight w'.entries ·.1 ≠ 0) := by
  refine List.filter_congr fun pair hpair => ?_
  rw [append, weight_append, weight_eq_zero_of_mem h hpair, zero_add]

@[simp] theorem terms_single (entry : Expr × Int) : (single entry).terms = [entry.1] := rfl

theorem weight_single (entry : Expr × Int) (term : Expr) :
    weight (single entry).entries term = if entry.1 = term then entry.2 else 0 :=
  weight_singleton entry term

/-- All weights of a sum and its constant are words. -/
structure Words (w : WrittenSum) : Prop where
  weight_word : ∀ term, Word.InRange (weight w.entries term)
  constant_word : Word.InRange w.constant

theorem Over.words {basis : List Expr} {w : WrittenSum} (hw : w.Over basis) (hbasis : basis.Nodup) :
    w.Words where
  weight_word := by
    intro term
    rcases hw.weight_cases hbasis term with hzero | ⟨entry, hentry, heq⟩
    · exact hzero ▸ Word.inRange_zero
    · have hword := hw.factor_word entry hentry
      rwa [heq] at hword
  constant_word := hw.constant_word

theorem words_single {entry : Expr × Int} (h : Word.InRange entry.2) : (single entry).Words where
  weight_word := by
    intro term
    rw [weight_single]
    split
    · exact h
    · exact Word.inRange_zero
  constant_word := Word.inRange_zero

/-- Of pairs for different terms, only the last one has the only term of a sum. -/
theorem filter_weight_single {pairs : List (Expr × Expr)} {term renamed : Expr}
    (hnew : term ∉ pairs.map Prod.fst) :
    (pairs ++ [(term, renamed)]).filter (weight (single (term, 1)).entries ·.1 ≠ 0) =
      [(term, renamed)] := by
  have hnone : pairs.filter (weight (single (term, 1)).entries ·.1 ≠ 0) = [] := by
    refine List.filter_eq_nil_iff.mpr fun pair hpair => ?_
    have hne : term ≠ pair.1 := fun heq => hnew (heq ▸ List.mem_map_of_mem hpair)
    simp [weight_single, hne]
  rw [List.filter_append, hnone]
  simp [weight_single]

theorem Over.of_sublist {basis : List Expr} {w : WrittenSum} (hw : w.Over basis)
    {es : List (Expr × Int)} (hes : es.Sublist w.entries) {constant : Int}
    (hconstant : Word.InRange constant) : Over basis ⟨es, constant⟩ where
  sublist := (hes.map Prod.fst).trans hw.sublist
  factor_ne_zero := fun entry hentry => hw.factor_ne_zero entry (hes.subset hentry)
  factor_word := fun entry hentry => hw.factor_word entry (hes.subset hentry)
  constant_word := hconstant

end WrittenSum

/-- The coefficients of a form are the weights of a sum, for terms in the order of a list. -/
structure HasWeights (terms : List Expr) (w : WrittenSum) (form : LinearForm) : Prop where
  coefficient_eq : ∀ index, form.coefficient index = (terms[index]?).elim 0 (weight w.entries)
  constant_eq : form.constant = w.constant

section HasWeights

variable {terms : List Expr} {w w' : WrittenSum} {form left right : LinearForm}

theorem WrittenSum.Words.elim (hw : w.Words) (term? : Option Expr) :
    Word.InRange (term?.elim 0 (weight w.entries)) := by
  cases term? with
  | none => exact Word.inRange_zero
  | some term => exact hw.weight_word term

theorem HasWeights.fits (h : HasWeights terms w form) (hw : w.Words) : form.Fits terms.length where
  coefficient_word := fun index => h.coefficient_eq index ▸ hw.elim _
  constant_word := h.constant_eq ▸ hw.constant_word
  eq_zero := by
    intro index hindex
    rw [h.coefficient_eq, List.getElem?_eq_none hindex]
    rfl

theorem HasWeights.congr {form' : LinearForm} (h : HasWeights terms w form)
    (hcoefficient : ∀ index, form'.coefficient index = form.coefficient index)
    (hconstant : form'.constant = form.constant) : HasWeights terms w form' :=
  ⟨fun index => (hcoefficient index).trans (h.coefficient_eq index),
    hconstant.trans h.constant_eq⟩

/-- Further terms that are not in the sum do not matter. -/
theorem HasWeights.append {added : List Expr} (h : HasWeights terms w form)
    (hadded : ∀ term ∈ w.terms, term ∉ added) : HasWeights (terms ++ added) w form := by
  refine ⟨fun index => ?_, h.constant_eq⟩
  rw [h.coefficient_eq, List.getElem?_append]
  split
  · rfl
  · rename_i hindex
    rw [List.getElem?_eq_none (not_lt.mp hindex)]
    cases hat : added[index - terms.length]? with
    | none => rfl
    | some term =>
        exact (weight_eq_zero fun hterm => hadded term hterm (List.mem_of_getElem? hat)).symm

theorem hasWeights_ofConst (terms : List Expr) (constant : Int) :
    HasWeights terms ⟨[], constant⟩ (.ofConst constant) := by
  refine ⟨fun index => ?_, rfl⟩
  cases terms[index]? <;> rfl

theorem hasWeights_ofTerm (hterms : terms.Nodup) {index : Nat} {term : Expr}
    (hat : terms[index]? = some term) : HasWeights terms (.single (term, 1)) (.ofTerm index) := by
  refine ⟨fun other => ?_, rfl⟩
  rw [LinearForm.coefficient_ofTerm]
  by_cases hsame : other = index
  · simp [hsame, hat, WrittenSum.weight_single]
  · rw [if_neg hsame]
    cases hother : terms[other]? with
    | none => rfl
    | some otherTerm =>
        have hne : term ≠ otherTerm := by
          rintro rfl
          exact hsame ((List.getElem?_inj (List.getElem?_eq_some_iff.mp hother).1 hterms).mp
            (hother.trans hat.symm))
        simp [WrittenSum.weight_single, hne]

theorem HasWeights.add? (hleft : HasWeights terms w left) (hright : HasWeights terms w' right)
    (hw : w.Words) (hw' : w'.Words) (hsum : (w.append w').Words) :
    ∃ form, left.add? right = some form ∧ HasWeights terms (w.append w') form := by
  have hcoefficient : ∀ index, left.coefficient index + right.coefficient index =
      (terms[index]?).elim 0 (weight (w.append w').entries) := by
    intro index
    rw [hleft.coefficient_eq, hright.coefficient_eq]
    cases terms[index]? with
    | none => rfl
    | some term => exact (weight_append _ _ term).symm
  have hconstant : left.constant + right.constant = (w.append w').constant := by
    rw [hleft.constant_eq, hright.constant_eq]
    rfl
  have hsome : (left.add? right).isSome :=
    (LinearForm.isSome_add?_iff (hleft.fits hw) (hright.fits hw')).mpr
      ⟨fun index => hcoefficient index ▸ hsum.elim _, hconstant ▸ hsum.constant_word⟩
  obtain ⟨form, hform⟩ := Option.isSome_iff_exists.mp hsome
  obtain ⟨hcoefficients, hconstants⟩ := LinearForm.coefficient_add? hform
  exact ⟨form, hform, fun index => (hcoefficients index).trans (hcoefficient index),
    hconstants.trans hconstant⟩

theorem HasWeights.scale? {term : Expr} {factor : Int}
    (hform : HasWeights terms (.single (term, 1)) form) (hfactor : Word.InRange factor) :
    ∃ scaled, form.scale? factor = some scaled ∧
      HasWeights terms (.single (term, factor)) scaled := by
  have hcoefficient : ∀ index, form.coefficient index * factor =
      (terms[index]?).elim 0 (weight (WrittenSum.single (term, factor)).entries) := by
    intro index
    rw [hform.coefficient_eq]
    cases terms[index]? with
    | none => exact zero_mul factor
    | some other => simp [WrittenSum.weight_single]
  have hconstant : form.constant * factor = 0 := by
    rw [hform.constant_eq]
    exact zero_mul factor
  have hsome : (form.scale? factor).isSome :=
    LinearForm.isSome_scale?_iff.mpr
      ⟨fun index => hcoefficient index ▸ (WrittenSum.words_single hfactor).elim _,
        hconstant ▸ Word.inRange_zero⟩
  obtain ⟨scaled, hscaled⟩ := Option.isSome_iff_exists.mp hsome
  obtain ⟨hcoefficients, hconstants⟩ := LinearForm.coefficient_scale? hscaled
  exact ⟨scaled, hscaled, fun index => (hcoefficients index).trans (hcoefficient index),
    hconstants.trans hconstant⟩

/-- The sum that such a form stands for, over renamed terms, is the renamed sum. -/
theorem HasWeights.written_eq {dims syms : Nat} {pairs : List (Expr × Expr)}
    (h : HasWeights (formTerms dims syms (pairs.map Prod.fst)) w form) :
    written (formTerms dims syms (pairs.map Prod.snd)) form =
      w.renamed (termPairs dims syms pairs) := by
  have hrow : ∀ index, form.coefficients.getD index 0 =
      ((termPairs dims syms pairs).map fun pair => weight w.entries pair.1).getD index 0 := by
    intro index
    have hcoefficient := h.coefficient_eq index
    rw [← map_fst_termPairs, List.getElem?_map] at hcoefficient
    rw [LinearForm.coefficient] at hcoefficient
    rw [hcoefficient, List.getD_eq_getElem?_getD, List.getElem?_map]
    cases (termPairs dims syms pairs)[index]? <;> rfl
  rw [written, h.constant_eq, WrittenSum.renamed, ← entries_map, map_snd_termPairs,
    entries_congr fun index _ => hrow index]

end HasWeights

end AffineLoops.Expr
