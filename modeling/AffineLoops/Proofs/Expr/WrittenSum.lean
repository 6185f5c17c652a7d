import AffineLoops.Proofs.Expr.Simplification

/-!
# Sums as they are written

The expression of a linear form is put together by folding sums and products, which merge terms
where they can.  Over different terms that are inputs, quotients or remainders there is nothing to
merge, and what comes out is written down plainly: the terms with a coefficient other than zero,
each with its factor, in the order of the form, and the constant last.

* `entries` are the terms of a row with the coefficients that are not zero, and
  `ofLinearForm_eq_foldl` says that the expression of a form depends on nothing else but the
  constant;
* `WrittenSum.expr_eq_foldl`: if the terms differ, they are written one behind the other;
* `WrittenSum.expr_injective`: terms, factors and constant can be read off the expression;
* `entries_map_weight`: a sum is determined by the `weight` that it gives to each term, once the
  order of the terms is known.
-/

namespace AffineLoops.Expr

/-! ## The terms of a form -/

/-- The inputs as terms of a form: the dimensions, then the symbols. -/
def inputs (dims syms : Nat) : List Expr := (List.range dims).map dim ++ (List.range syms).map sym

/-- The terms of a form, in the order of its coefficients. -/
def formTerms (dims syms : Nat) (locals : List Expr) : List Expr := inputs dims syms ++ locals

/-- The terms of a row of coefficients with those coefficients that are not zero. -/
def entries (terms : List Expr) (row : List Int) : List (Expr × Int) :=
  (terms.zip row).filter (·.2 ≠ 0)

section Entries

variable {dims syms : Nat} {locals : List Expr}

@[simp] theorem length_inputs : (inputs dims syms).length = dims + syms := by simp [inputs]

@[simp] theorem length_formTerms :
    (formTerms dims syms locals).length = dims + syms + locals.length := by simp [formTerms]

theorem termAt_eq_getD (index : Nat) :
    termAt dims syms locals index = (formTerms dims syms locals).getD index (const 0) := by
  simp only [termAt, formTerms, inputs, List.getD_eq_getElem?_getD, List.getElem?_append,
    List.length_append, List.length_map, List.length_range, Nat.sub_sub]
  split
  · rw [if_pos (by omega)]
    simp [*]
  · split
    · simp [show index - dims < syms by omega]
    · rfl

theorem entries_cons (term : Expr) (terms : List Expr) (row : List Int) :
    entries (term :: terms) row =
      if row.getD 0 0 = 0 then entries terms row.tail
      else (term, row.getD 0 0) :: entries terms row.tail := by
  cases row with
  | nil => simp [entries]
  | cons coefficient row => by_cases hzero : coefficient = 0 <;> simp [entries, hzero]

theorem getD_tail (row : List Int) (index : Nat) :
    row.tail.getD index 0 = row.getD (index + 1) 0 := by
  cases row <;> simp

/-- Coefficients that are left out count as zero. -/
theorem entries_congr {terms : List Expr} {row row' : List Int}
    (h : ∀ index < terms.length, row.getD index 0 = row'.getD index 0) :
    entries terms row = entries terms row' := by
  induction terms generalizing row row' with
  | nil => rfl
  | cons term terms ih =>
      have htail : entries terms row.tail = entries terms row'.tail := by
        refine ih fun index hindex => ?_
        rw [getD_tail, getD_tail]
        exact h (index + 1) (by simpa using hindex)
      rw [entries_cons, entries_cons, h 0 (by simp), htail]

theorem entries_eq_nil {terms : List Expr} {row : List Int}
    (h : ∀ index < terms.length, row.getD index 0 = 0) : entries terms row = [] := by
  have hnil : entries terms row = entries terms [] := entries_congr (by simpa using h)
  rw [hnil, entries, List.zip_nil_right, List.filter_nil]

/-- Terms without a coefficient can be left out at the end. -/
theorem entries_append_of_zero {terms : List Expr} {row : List Int} (terms' : List Expr)
    (h : ∀ index, terms.length ≤ index → row.getD index 0 = 0) :
    entries (terms ++ terms') row = entries terms row := by
  induction terms generalizing row with
  | nil => exact entries_eq_nil fun index _ => h index (Nat.zero_le _)
  | cons term terms ih =>
      have htail : entries (terms ++ terms') row.tail = entries terms row.tail := by
        refine ih fun index hindex => ?_
        rw [getD_tail]
        exact h (index + 1) (by simpa using hindex)
      rw [List.cons_append, entries_cons, entries_cons, htail]

theorem of_mem_entries {terms : List Expr} {row : List Int} {entry : Expr × Int}
    (h : entry ∈ entries terms row) : entry.1 ∈ terms ∧ entry.2 ∈ row ∧ entry.2 ≠ 0 := by
  obtain ⟨hzip, hne⟩ := List.mem_filter.mp h
  have hmem : (entry.1, entry.2) ∈ terms.zip row := hzip
  exact ⟨(List.of_mem_zip hmem).1, (List.of_mem_zip hmem).2, by simpa using hne⟩

theorem exists_mem_entries {terms : List Expr} {row : List Int} {coefficient : Int}
    (h : ∀ index, terms.length ≤ index → row.getD index 0 = 0) (hmem : coefficient ∈ row)
    (hne : coefficient ≠ 0) : ∃ entry ∈ entries terms row, entry.2 = coefficient := by
  obtain ⟨index, hindex, rfl⟩ := List.mem_iff_getElem.mp hmem
  have hterm : index < terms.length := by
    by_contra hge
    exact hne (by simpa [hindex] using h index (not_lt.mp hge))
  refine ⟨(terms[index], row[index]), List.mem_filter.mpr ⟨?_, by simpa using hne⟩, rfl⟩
  rw [List.mem_iff_getElem]
  exact ⟨index, by simp [hterm, hindex], by simp⟩

theorem sublist_entries (terms : List Expr) (row : List Int) :
    ((entries terms row).map Prod.fst).Sublist terms := by
  induction terms generalizing row with
  | nil => exact List.Sublist.refl _
  | cons term terms ih =>
      rw [entries_cons]
      split
      · exact (ih row.tail).cons term
      · exact (ih row.tail).cons_cons term

/-! ## The expression of a form -/

/-- A term with its factor, which is left out if it is one. -/
def scaledBy (entry : Expr × Int) : Expr :=
  if entry.2 = 1 then entry.1 else mulConst entry.1 entry.2

/-- A partial sum with one more term. -/
def addEntry (partialSum : Option Expr) (entry : Expr × Int) : Option Expr :=
  some <|
    match partialSum with
    | some sum => add sum (scaledBy entry)
    | none => scaledBy entry

theorem sumTerms_eq_foldl (index : Nat) (row : List Int) (partialSum : Option Expr)
    (h : ∀ offset, (formTerms dims syms locals).length ≤ index + offset → row.getD offset 0 = 0) :
    sumTerms dims syms locals index row partialSum =
      (entries ((formTerms dims syms locals).drop index) row).foldl addEntry partialSum := by
  induction row generalizing index partialSum with
  | nil => simp [sumTerms, entries]
  | cons coefficient row ih =>
      have htail : ∀ offset, (formTerms dims syms locals).length ≤ index + 1 + offset →
          row.getD offset 0 = 0 := by
        intro offset hoffset
        simpa using h (offset + 1) (by omega)
      rw [sumTerms]
      by_cases hindex : index < (formTerms dims syms locals).length
      · have hterm : termAt dims syms locals index = (formTerms dims syms locals)[index] := by
          rw [termAt_eq_getD, List.getD_eq_getElem?_getD, List.getElem?_eq_getElem hindex]
          rfl
        rw [List.drop_eq_getElem_cons hindex, entries_cons, List.getD_cons_zero, List.tail_cons]
        split
        · exact ih (index + 1) partialSum htail
        · rw [ih _ _ htail, List.foldl_cons, hterm]
          rfl
      · have hzero : coefficient = 0 := by simpa using h 0 (by omega)
        rw [if_pos hzero, ih _ _ htail, List.drop_of_length_le (by omega),
          List.drop_of_length_le (by omega)]
        rfl

/-- A sum with its constant, which stands alone if there are no terms. -/
def closeSum (partialSum : Option Expr) (constant : Int) : Expr :=
  match partialSum with
  | some sum => if constant = 0 then sum else addConst sum constant
  | none => const constant

/-- An expression of a form depends on the entries of the form and on its constant only. -/
theorem ofLinearForm_eq_foldl {form : LinearForm}
    (h : ∀ index, (formTerms dims syms locals).length ≤ index → form.coefficient index = 0) :
    ofLinearForm dims syms locals form =
      closeSum ((entries (formTerms dims syms locals) form.coefficients).foldl addEntry none)
        form.constant := by
  rw [ofLinearForm, sumTerms_eq_foldl 0 form.coefficients none
    (by simpa [LinearForm.coefficient] using h), List.drop_zero]
  rfl

end Entries

/-! ## Written sums -/

/-- What can stand as a term of a sum without being merged: an input, a quotient or a remainder. -/
def IsTerm : Expr → Prop
  | dim _ => True
  | sym _ => True
  | const _ => False
  | binary op _ _ => op.isDivision

/-- A term with its factor as it is written. -/
def scaled (entry : Expr × Int) : Expr :=
  if entry.2 = 1 then entry.1 else binary .mul entry.1 (const entry.2)

/-- The sum of an expression and further terms, from left to right. -/
def sumFrom (first : Expr) (rest : List (Expr × Int)) : Expr :=
  rest.foldl (fun sum entry => binary .add sum (scaled entry)) first

/-- A sum as it is written: terms with their factors, and a constant at the end. -/
structure WrittenSum where
  entries : List (Expr × Int)
  constant : Int

namespace WrittenSum

/-- The terms of a written sum. -/
def terms (w : WrittenSum) : List Expr := w.entries.map Prod.fst

/-- The expression of a written sum.  The constant is left out if it is zero and not alone. -/
def expr (w : WrittenSum) : Expr :=
  match w.entries with
  | [] => const w.constant
  | entry :: rest =>
      if w.constant = 0 then sumFrom (scaled entry) rest
      else binary .add (sumFrom (scaled entry) rest) (const w.constant)

/-- The terms of a written sum are different terms, and none has the factor zero. -/
structure Proper (w : WrittenSum) : Prop where
  isTerm : ∀ entry ∈ w.entries, entry.1.IsTerm
  ne_zero : ∀ entry ∈ w.entries, entry.2 ≠ 0
  nodup : w.terms.Nodup

end WrittenSum

section WrittenSum

variable {term : Expr} {factor : Int}

theorem IsTerm.ne_const (hterm : term.IsTerm) (constant : Int) : term ≠ const constant := by
  rintro rfl
  exact hterm

theorem IsTerm.ne_add (hterm : term.IsTerm) (lhs rhs : Expr) : term ≠ binary .add lhs rhs := by
  rintro rfl
  cases hterm

theorem IsTerm.ne_mul (hterm : term.IsTerm) (lhs rhs : Expr) : term ≠ binary .mul lhs rhs := by
  rintro rfl
  cases hterm

theorem scaledBy_eq_scaled (hterm : term.IsTerm) (hfactor : factor ≠ 0) :
    scaledBy (term, factor) = scaled (term, factor) := by
  unfold scaledBy scaled
  split
  · rfl
  · rename_i hone
    dsimp only at hone ⊢
    rw [mulConst, if_neg hfactor, if_neg hone]
    · exact fun constant => hterm.ne_const constant
    · exact fun x constant => hterm.ne_mul x (const constant)

theorem scaledTerm_scaled (hterm : term.IsTerm) :
    (scaled (term, factor)).scaledTerm = (term, factor) := by
  unfold scaled
  split
  · rename_i hone
    obtain rfl : factor = 1 := hone
    rw [scaledTerm]
    exact fun x constant => hterm.ne_mul x (const constant)
  · rfl

theorem scaled_ne_const (hterm : term.IsTerm) (constant : Int) :
    scaled (term, factor) ≠ const constant := by
  unfold scaled
  split
  · exact hterm.ne_const constant
  · simp

theorem scaled_ne_add (hterm : term.IsTerm) (lhs rhs : Expr) :
    scaled (term, factor) ≠ binary .add lhs rhs := by
  unfold scaled
  split
  · exact hterm.ne_add lhs rhs
  · simp

/-- A partial sum to which no constant has been added. -/
structure IsOpen (sum : Expr) : Prop where
  ne_const : ∀ constant, sum ≠ const constant
  ne_add_const : ∀ x constant, sum ≠ binary .add x (const constant)

theorem isOpen_scaled (hterm : term.IsTerm) : IsOpen (scaled (term, factor)) :=
  ⟨scaled_ne_const hterm, fun x constant => scaled_ne_add hterm x (const constant)⟩

theorem isOpen_add_scaled (hterm : term.IsTerm) (sum : Expr) :
    IsOpen (binary .add sum (scaled (term, factor))) := by
  refine ⟨by simp, ?_⟩
  intro x constant heq
  injection heq with _ _ hconst
  exact scaled_ne_const hterm constant hconst

/-- A term that the partial sum does not end in is written behind it. -/
theorem add_scaled {sum : Expr} (hsum : IsOpen sum) (hterm : term.IsTerm)
    (hne : sum.scaledTerm.1 ≠ term) :
    add sum (scaled (term, factor)) = binary .add sum (scaled (term, factor)) := by
  rw [add]
  · rw [addTerms, scaledTerm_scaled hterm, if_neg hne]
  · exact hsum.ne_const
  · exact hsum.ne_add_const
  · exact scaled_ne_const hterm

theorem addConst_of_isOpen {sum : Expr} (hsum : IsOpen sum) {constant : Int} (hne : constant ≠ 0) :
    addConst sum constant = binary .add sum (const constant) := by
  rw [addConst, if_neg hne]
  · exact hsum.ne_const
  · exact hsum.ne_add_const

/-- Terms that differ from each other and from the end of the partial sum are written one behind
the other. -/
theorem foldl_addEntry {sum : Expr} {rest : List (Expr × Int)} (hsum : IsOpen sum)
    (hterms : ∀ entry ∈ rest, entry.1.IsTerm) (hfactors : ∀ entry ∈ rest, entry.2 ≠ 0)
    (hne : ∀ entry ∈ rest, sum.scaledTerm.1 ≠ entry.1) (hnodup : (rest.map Prod.fst).Nodup) :
    rest.foldl addEntry (some sum) = some (sumFrom sum rest) ∧ IsOpen (sumFrom sum rest) := by
  induction rest generalizing sum with
  | nil => exact ⟨rfl, hsum⟩
  | cons entry rest ih =>
      obtain ⟨hterm, hterms⟩ := List.forall_mem_cons.mp hterms
      obtain ⟨hfactor, hfactors⟩ := List.forall_mem_cons.mp hfactors
      have hstep : addEntry (some sum) entry = some (binary .add sum (scaled entry)) := by
        rw [addEntry, scaledBy_eq_scaled hterm hfactor]
        exact congrArg some (add_scaled hsum hterm (hne entry (by simp)))
      rw [List.foldl_cons, hstep]
      -- a sum of two terms is not a multiple of a term, so that nothing merges with it
      exact ih (isOpen_add_scaled hterm sum) hterms hfactors
        (fun other hother => ((hterms other hother).ne_add _ _).symm) (List.nodup_cons.mp hnodup).2

namespace WrittenSum

/-- The expression of a form over different terms is the sum as it is written. -/
theorem expr_eq_foldl {w : WrittenSum} (hw : w.Proper) :
    closeSum (w.entries.foldl addEntry none) w.constant = w.expr := by
  obtain ⟨entries, constant⟩ := w
  cases entries with
  | nil => rfl
  | cons entry rest =>
      obtain ⟨hterm, hterms⟩ := List.forall_mem_cons.mp hw.isTerm
      obtain ⟨hfactor, hfactors⟩ := List.forall_mem_cons.mp hw.ne_zero
      obtain ⟨hnotMem, hnodup⟩ := List.nodup_cons.mp hw.nodup
      have hne : ∀ other ∈ rest, (scaled entry).scaledTerm.1 ≠ other.1 := by
        intro other hother heq
        rw [scaledTerm_scaled hterm] at heq
        exact hnotMem (List.mem_map.mpr ⟨other, hother, heq.symm⟩)
      obtain ⟨hsum, hopen⟩ := foldl_addEntry (isOpen_scaled hterm) hterms hfactors hne hnodup
      have hfirst : addEntry none entry = some (scaled entry) :=
        congrArg some (scaledBy_eq_scaled hterm hfactor)
      simp only [closeSum, List.foldl_cons, hfirst, hsum, expr]
      split
      · rfl
      · rename_i hconstant
        exact addConst_of_isOpen hopen hconstant

end WrittenSum

/-! ## Reading a sum -/

/-- The summands of an expression, from left to right. -/
def summands : Expr → List Expr
  | binary .add lhs rhs => summands lhs ++ summands rhs
  | e => [e]

theorem summands_scaled (hterm : term.IsTerm) :
    (scaled (term, factor)).summands = [scaled (term, factor)] := by
  rw [summands]
  exact scaled_ne_add hterm

theorem summands_sumFrom {sum : Expr} {rest : List (Expr × Int)}
    (hterms : ∀ entry ∈ rest, entry.1.IsTerm) :
    (sumFrom sum rest).summands = sum.summands ++ rest.map scaled := by
  induction rest generalizing sum with
  | nil => simp [sumFrom]
  | cons entry rest ih =>
      obtain ⟨hterm, hterms⟩ := List.forall_mem_cons.mp hterms
      have hstep :
          sumFrom sum (entry :: rest) = sumFrom (binary .add sum (scaled entry)) rest := rfl
      rw [hstep, ih hterms, summands, summands_scaled hterm, List.map_cons, List.append_assoc]
      rfl

namespace WrittenSum

theorem summands_expr {w : WrittenSum} (hw : w.Proper) :
    w.expr.summands = w.entries.map scaled ++
      if w.entries = [] ∨ w.constant ≠ 0 then [const w.constant] else [] := by
  obtain ⟨entries, constant⟩ := w
  cases entries with
  | nil => simp [expr, summands]
  | cons entry rest =>
      obtain ⟨hterm, hterms⟩ := List.forall_mem_cons.mp hw.isTerm
      have hsum : (sumFrom (scaled entry) rest).summands = (entry :: rest).map scaled := by
        rw [summands_sumFrom hterms, summands_scaled hterm]
        rfl
      by_cases hzero : constant = 0
      · simp [expr, hzero, hsum]
      · simp [expr, hzero, hsum, summands]

theorem constant?_scaled {w : WrittenSum} (hw : w.Proper) {entry : Expr × Int}
    (hentry : entry ∈ w.entries) : (scaled entry).constant? = none := by
  cases heq : scaled entry with
  | const constant => exact absurd heq (scaled_ne_const (hw.isTerm entry hentry) constant)
  | dim _ | sym _ | binary _ _ _ => rfl

/-- The terms and factors of a sum can be read off its expression. -/
theorem read_entries {w : WrittenSum} (hw : w.Proper) :
    (w.expr.summands.filter (·.constant? = none)).map scaledTerm = w.entries := by
  have hscaled : (w.entries.map scaled).filter (·.constant? = none) = w.entries.map scaled := by
    refine List.filter_eq_self.mpr fun summand hsummand => ?_
    obtain ⟨entry, hentry, rfl⟩ := List.mem_map.mp hsummand
    simpa using constant?_scaled hw hentry
  have hconstant : (if w.entries = [] ∨ w.constant ≠ 0 then [const w.constant] else []).filter
      (·.constant? = none) = [] := by
    split <;> simp [constant?]
  rw [summands_expr hw, List.filter_append, hscaled, hconstant, List.append_nil, List.map_map]
  refine (List.map_congr_left fun entry hentry => ?_).trans (List.map_id _)
  exact scaledTerm_scaled (hw.isTerm entry hentry)

/-- So can its constant. -/
theorem read_constant {w : WrittenSum} (hw : w.Proper) :
    (w.expr.summands.filterMap constant?).sum = w.constant := by
  have hscaled : (w.entries.map scaled).filterMap constant? = [] := by
    refine List.filterMap_eq_nil_iff.mpr fun summand hsummand => ?_
    obtain ⟨entry, hentry, rfl⟩ := List.mem_map.mp hsummand
    exact constant?_scaled hw hentry
  rw [summands_expr hw, List.filterMap_append, hscaled, List.nil_append]
  split
  · simp [constant?]
  · rename_i hzero
    simp only [not_or, not_not] at hzero
    simp [hzero.2]

theorem expr_injective {w w' : WrittenSum} (hw : w.Proper) (hw' : w'.Proper)
    (h : w.expr = w'.expr) : w = w' := by
  have hentries : w.entries = w'.entries := by rw [← read_entries hw, ← read_entries hw', h]
  have hconstant : w.constant = w'.constant := by rw [← read_constant hw, ← read_constant hw', h]
  obtain ⟨entries, constant⟩ := w
  obtain ⟨entries', constant'⟩ := w'
  obtain rfl : entries = entries' := hentries
  obtain rfl : constant = constant' := hconstant
  rfl

end WrittenSum

/-! ## Weights -/

/-- The factor of a term in a list of terms with factors, which is zero if it is not there. -/
def weight (entries : List (Expr × Int)) (term : Expr) : Int :=
  (entries.map fun entry => if entry.1 = term then entry.2 else 0).sum

theorem weight_append (entries entries' : List (Expr × Int)) (term : Expr) :
    weight (entries ++ entries') term = weight entries term + weight entries' term := by
  simp [weight]

theorem weight_singleton (entry : Expr × Int) (term : Expr) :
    weight [entry] term = if entry.1 = term then entry.2 else 0 := by
  simp [weight]

theorem weight_eq_zero {entries : List (Expr × Int)} {term : Expr}
    (h : term ∉ entries.map Prod.fst) : weight entries term = 0 := by
  refine List.sum_eq_zero fun factor hfactor => ?_
  obtain ⟨entry, hentry, rfl⟩ := List.mem_map.mp hfactor
  refine if_neg fun heq => h ?_
  rw [← heq]
  exact List.mem_map_of_mem hentry

theorem weight_of_mem {entries : List (Expr × Int)} (hnodup : (entries.map Prod.fst).Nodup)
    {entry : Expr × Int} (hentry : entry ∈ entries) : weight entries entry.1 = entry.2 := by
  induction entries with
  | nil => cases hentry
  | cons first rest ih =>
      obtain ⟨hnotMem, hnodup⟩ := List.nodup_cons.mp hnodup
      rw [← List.singleton_append, weight_append, weight_singleton]
      rcases List.mem_cons.mp hentry with rfl | hentry
      · rw [if_pos rfl, weight_eq_zero hnotMem, add_zero]
      · have hne : first.1 ≠ entry.1 := fun heq => hnotMem (heq ▸ List.mem_map_of_mem hentry)
        rw [if_neg hne, zero_add, ih hnodup hentry]

theorem weight_ne_zero_iff {entries : List (Expr × Int)} (hnodup : (entries.map Prod.fst).Nodup)
    (hfactors : ∀ entry ∈ entries, entry.2 ≠ 0) {term : Expr} :
    weight entries term ≠ 0 ↔ term ∈ entries.map Prod.fst := by
  constructor
  · intro hne
    by_contra hnotMem
    exact hne (weight_eq_zero hnotMem)
  · intro hmem
    obtain ⟨entry, hentry, rfl⟩ := List.mem_map.mp hmem
    rw [weight_of_mem hnodup hentry]
    exact hfactors entry hentry

theorem entries_map {α : Type} (items : List α) (term : α → Expr) (factor : α → Int) :
    entries (items.map term) (items.map factor) =
      (items.filter (factor · ≠ 0)).map fun item => (term item, factor item) := by
  induction items with
  | nil => rfl
  | cons item items ih =>
      rw [List.map_cons, List.map_cons, entries_cons, List.getD_cons_zero, List.tail_cons, ih]
      by_cases hzero : factor item = 0 <;> simp [hzero]

theorem filter_mem_of_sublist {terms all : List Expr} (h : terms.Sublist all) (hnodup : all.Nodup) :
    all.filter (· ∈ terms) = terms := by
  induction h with
  | slnil => rfl
  | @cons terms all term h ih =>
      obtain ⟨hnotMem, hnodup⟩ := List.nodup_cons.mp hnodup
      rw [List.filter_cons_of_neg (by simpa using fun hmem => hnotMem (h.subset hmem)), ih hnodup]
  | @cons_cons terms all term h ih =>
      obtain ⟨hnotMem, hnodup⟩ := List.nodup_cons.mp hnodup
      have htail : all.filter (· ∈ term :: terms) = all.filter (· ∈ terms) := by
        refine List.filter_congr fun other hother => ?_
        have hne : other ≠ term := fun heq => hnotMem (heq ▸ hother)
        simp [hne]
      rw [List.filter_cons_of_pos (by simp), htail, ih hnodup]

/-- A list of terms with factors is determined by its weights, given an order of the terms. -/
theorem entries_map_weight {terms : List Expr} {es : List (Expr × Int)}
    (hsublist : (es.map Prod.fst).Sublist terms) (hnodup : terms.Nodup)
    (hfactors : ∀ entry ∈ es, entry.2 ≠ 0) : entries terms (terms.map (weight es)) = es := by
  have hnodup' : (es.map Prod.fst).Nodup := hnodup.sublist hsublist
  have hfilter : terms.filter (weight es · ≠ 0) = es.map Prod.fst := by
    rw [← filter_mem_of_sublist hsublist hnodup]
    exact List.filter_congr fun term _ => decide_eq_decide.mpr (weight_ne_zero_iff hnodup' hfactors)
  have hentries := entries_map terms id (weight es)
  rw [List.map_id] at hentries
  rw [hentries, hfilter, List.map_map]
  refine (List.map_congr_left fun entry hentry => ?_).trans (List.map_id _)
  simp [weight_of_mem hnodup' hentry]

end WrittenSum

end AffineLoops.Expr
