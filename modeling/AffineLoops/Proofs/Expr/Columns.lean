import AffineLoops.Expr.Columns
import AffineLoops.Proofs.Expr.Linearity

/-!
# Columns with numbers of their own

Simplification works on rows of coefficients whose columns are numbered by words.  Where no number
wraps around, it gives what the exact computation gives, unless a row is too long to be stored: this
is `Noting.Agrees`, which is proved for one function after the other and carried through sequences
of steps by `Agrees.bind`.  The number of local terms is bounded by the number of divisions.

Where a number wraps around, two columns are taken for one.  Even then all positions that occur in
the outcome are inputs (`yields_simplifyColumns`), since a term is a dimension or a symbol only
below the counts.
-/

namespace AffineLoops

/-! ## Outcomes of programs -/

namespace Noting

variable {α β : Type} {small : Prop} {program : Noting α} {next : α → Noting β} {a : α} {b : β}
  {P : α → Prop} {Q : β → Prop} {noted : List Expr}

theorem bind_of_ok (h : (program noted).1 = .ok a) :
    (program >>= next) noted = next a (program noted).2 := by
  have hrun : (program >>= next) noted =
      ExceptT.bindCont next (program noted).1 (program noted).2 := rfl
  rw [hrun, h]
  rfl

theorem bind_of_error {fault : Fault} (h : (program noted).1 = .error fault) :
    ((program >>= next) noted).1 = .error fault := by
  have hrun : (program >>= next) noted =
      ExceptT.bindCont next (program noted).1 (program noted).2 := rfl
  rw [hrun, h]
  rfl

/-- A program gives the exact outcome, unless the rows are too long to be stored. -/
def Agrees (small : Prop) (program : Noting α) (a : α) : Prop :=
  ∀ noted, (program noted).1 = .ok a ∨ ¬ small ∧ (program noted).1 = .error .capacity

theorem agrees_pure (a : α) : Agrees small (pure a) a := fun _ => .inl rfl

theorem Agrees.bind (h : Agrees small program a) (hnext : Agrees small (next a) b) :
    Agrees small (program >>= next) b := by
  intro noted
  rcases h noted with hok | ⟨hlarge, herror⟩
  · rw [bind_of_ok hok]
    exact hnext _
  · exact .inr ⟨hlarge, bind_of_error herror⟩

theorem agrees_note (made : List Expr) : Agrees small (note made) () := fun _ => .inl rfl

/-- Whatever a program gives has a property. -/
def Yields (P : α → Prop) (program : Noting α) : Prop :=
  ∀ noted a, (program noted).1 = .ok a → P a

theorem yields_pure (h : P a) : Yields P (pure a) := by
  rintro noted _ ⟨⟩
  exact h

theorem yields_throw (fault : Fault) : Yields P (throw fault) := by
  rintro noted _ ⟨⟩

theorem Yields.bind (h : Yields P program) (hnext : ∀ a, P a → Yields Q (next a)) :
    Yields Q (program >>= next) := by
  intro noted b hb
  cases hrun : (program noted).1 with
  | error fault =>
      rw [bind_of_error hrun] at hb
      cases hb
  | ok a =>
      rw [bind_of_ok hrun] at hb
      exact hnext a (h noted a hrun) _ b hb

theorem yields_mapM {list : List α} {f : α → Noting β} (h : ∀ a ∈ list, Yields Q (f a)) :
    Yields (fun results => ∀ b ∈ results, Q b) (list.mapM f) := by
  induction list with
  | nil => exact yields_pure (by simp)
  | cons a rest ih =>
      obtain ⟨ha, hrest⟩ := List.forall_mem_cons.mp h
      rw [List.mapM_cons]
      refine ha.bind fun b hb => (ih hrest).bind fun others hothers => yields_pure ?_
      exact List.forall_mem_cons.mpr ⟨hb, hothers⟩

theorem yields_true (program : Noting α) : Yields (fun _ => True) program := fun _ _ _ => trivial

end Noting

open Noting

namespace Expr

/-- The number of quotients and remainders in an expression. -/
def divisions : Expr → Nat
  | binary op lhs rhs => lhs.divisions + rhs.divisions + if op.isDivision then 1 else 0
  | _ => 0

/-! ## Agreement with the exact computation -/

section Agreement

variable {dims syms total : Nat} {locals : List Expr} {form left right : LinearForm}
  {small : Prop}

theorem agrees_ofColumn {column : Nat} (hcolumn : column < total)
    (htotal : total ≤ Word.maxUnsigned) :
    Agrees (total ≤ Word.maxLength) (LinearForm.ofColumn column) (.ofTerm column) := by
  intro noted
  have hlength : Word.wrap (column + 1) = column + 1 := Word.wrap_of_le (by omega)
  simp only [LinearForm.ofColumn, hlength, if_neg (Nat.succ_ne_zero column)]
  split
  · rename_i hlarge
    exact .inr ⟨by omega, rfl⟩
  · exact .inl rfl

/-- A column that belongs to a term has this term behind it. -/
theorem agrees_termIn {column : Nat} (hcolumn : column < dims + syms + locals.length)
    (htotal : dims + syms + locals.length ≤ Word.maxUnsigned) :
    Agrees small (termIn dims syms locals column) (termAt dims syms locals column) := by
  have hinputs : Word.wrap (dims + syms) = dims + syms := Word.wrap_of_le (by omega)
  unfold termIn termAt
  rw [hinputs]
  split
  · exact agrees_pure _
  · split
    · exact agrees_pure _
    · have hindex : Word.wrap (column - dims + (Word.maxUnsigned + 1 - syms)) =
          column - dims - syms := by
        rw [Word.wrap, show column - dims + (Word.maxUnsigned + 1 - syms) =
          column - dims - syms + (Word.maxUnsigned + 1) by omega, Nat.add_mod_right,
          Nat.mod_eq_of_lt (by omega)]
      have hlt : column - dims - syms < locals.length := by omega
      dsimp only
      rw [hindex, List.getD_eq_getElem?_getD, List.getElem?_eq_getElem hlt]
      exact agrees_pure _

theorem agrees_sumColumns {column : Nat} {row : List Int} {partialSum : Option Expr}
    (hrow : column + row.length ≤ dims + syms + locals.length)
    (htotal : dims + syms + locals.length ≤ Word.maxUnsigned) :
    Agrees small (sumColumns dims syms locals column row partialSum)
      (sumTerms dims syms locals column row partialSum) := by
  induction row generalizing column partialSum with
  | nil => exact agrees_pure _
  | cons coefficient row ih =>
      have hlength : column + (row.length + 1) ≤ dims + syms + locals.length := hrow
      rw [sumColumns, sumTerms]
      split
      · exact ih (by omega)
      · refine (agrees_termIn (by omega) htotal).bind ((agrees_note _).bind ?_)
        cases partialSum with
        | none => exact ih (by omega)
        | some sum => exact (agrees_note _).bind (ih (by omega))

theorem agrees_ofColumns (hlength : form.coefficients.length ≤ dims + syms + locals.length)
    (htotal : dims + syms + locals.length ≤ Word.maxUnsigned) :
    Agrees small (ofColumns dims syms locals form) (ofLinearForm dims syms locals form) := by
  have hsum : Agrees small (sumColumns dims syms locals 0 form.coefficients none)
      (sumTerms dims syms locals 0 form.coefficients none) :=
    agrees_sumColumns (by omega) htotal
  refine hsum.bind ?_
  unfold ofLinearForm
  cases sumTerms dims syms locals 0 form.coefficients none with
  | none => exact (agrees_note _).bind (agrees_pure _)
  | some sum =>
      dsimp only
      split
      · exact agrees_pure _
      · exact (agrees_note _).bind (agrees_pure _)

theorem agrees_localColumn (term : Expr) (hfits : dims + syms + locals.length < total)
    (htotal : total ≤ Word.maxUnsigned) :
    Agrees (total ≤ Word.maxLength) (localColumn dims syms term locals)
      (localForm dims syms term locals) := by
  unfold localColumn localForm
  cases hindex : locals.idxOf? term with
  | none =>
      dsimp only
      rw [Word.wrap_of_le (by omega)]
      exact (agrees_ofColumn hfits htotal).bind (agrees_pure _)
  | some index =>
      have hlt : index < locals.length := (List.findIdx?_eq_some_iff_findIdx_eq.mp hindex).1
      dsimp only
      rw [Word.wrap_of_le (by omega)]
      exact (agrees_ofColumn (by omega) htotal).bind (agrees_pure _)

theorem agrees_divideColumns (op : BinaryOp) (divisor : Int)
    (hlength : form.coefficients.length ≤ dims + syms + locals.length)
    (hfits : dims + syms + locals.length < total) (htotal : total ≤ Word.maxUnsigned) :
    Agrees (total ≤ Word.maxLength) (divideColumns dims syms op form divisor locals)
      (localForm dims syms (divide op (ofLinearForm dims syms locals form) (const divisor))
        locals) := by
  have hdividend : Agrees (total ≤ Word.maxLength) (ofColumns dims syms locals form)
      (ofLinearForm dims syms locals form) := agrees_ofColumns hlength (by omega)
  have hlocal := agrees_localColumn
    (divide op (ofLinearForm dims syms locals form) (const divisor)) hfits htotal
  exact (agrees_note _).bind (hdividend.bind ((agrees_note _).bind ((agrees_note _).bind hlocal)))

theorem agrees_flattenDivisionColumns (op : BinaryOp) (divisor : Int)
    (hlength : form.coefficients.length ≤ dims + syms + locals.length)
    (hfits : dims + syms + locals.length < total) (htotal : total ≤ Word.maxUnsigned) :
    Agrees (total ≤ Word.maxLength) (flattenDivisionColumns dims syms op form divisor locals)
      (flattenDivision dims syms op form divisor locals) := by
  unfold flattenDivisionColumns flattenDivision
  split
  · dsimp only
    split
    · exact agrees_pure _
    · exact agrees_divideColumns op _ (by simpa [LinearForm.reduce] using hlength) hfits htotal
  · dsimp only
    split
    · exact agrees_pure _
    · exact agrees_divideColumns op _ (by simpa [LinearForm.cancel] using hlength) hfits htotal

theorem agrees_flattenBinaryColumns (op : BinaryOp)
    (hlength : left.coefficients.length ≤ dims + syms + locals.length)
    (hfits : dims + syms + locals.length + (if op.isDivision then 1 else 0) ≤ total)
    (htotal : total ≤ Word.maxUnsigned) :
    Agrees (total ≤ Word.maxLength) (flattenBinaryColumns dims syms op left right locals)
      (flattenBinary dims syms op left right locals) := by
  unfold flattenBinaryColumns
  split
  · rename_i hdivides
    simp only [Bool.and_eq_true, decide_eq_true_eq] at hdivides
    obtain ⟨⟨hop, hconst⟩, hpos⟩ := hdivides
    rw [if_pos hop] at hfits
    have hexact : flattenBinary dims syms op left right locals =
        some (flattenDivision dims syms op left right.constant locals) := by
      cases op with
      | add | mul => cases hop
      | mod | floorDiv | ceilDiv => exact if_pos ⟨hconst, hpos⟩
    rw [hexact]
    exact (agrees_flattenDivisionColumns op _ hlength (by omega) htotal).bind (agrees_pure _)
  · exact agrees_pure _

/-! ### Local terms -/

/-- Only divisions that are carried out add local terms. -/
theorem locals_of_flattenBinary {op : BinaryOp} {result : LinearForm × List Expr}
    (hkept : ¬ (op.isDivision && right.isConst && 0 < right.constant) = true)
    (h : flattenBinary dims syms op left right locals = some result) : result.2 = locals := by
  cases op with
  | add =>
      obtain ⟨sum, -, rfl⟩ := Option.map_eq_some_iff.mp h
      rfl
  | mul =>
      unfold flattenBinary at h
      dsimp only at h
      split_ifs at h with hright hleft
      · obtain ⟨product, -, rfl⟩ := Option.map_eq_some_iff.mp h
        rfl
      · obtain ⟨product, -, rfl⟩ := Option.map_eq_some_iff.mp h
        rfl
  | mod | floorDiv | ceilDiv =>
      obtain ⟨⟨hconst, hpos⟩, -⟩ := Option.ite_none_right_eq_some.mp h
      simp [BinaryOp.isDivision, hconst, hpos] at hkept

theorem length_localForm_le (term : Expr) :
    (localForm dims syms term locals).2.length ≤ locals.length + 1 := by
  unfold localForm
  split <;> simp

theorem length_flattenDivision_le (op : BinaryOp) (divisor : Int) :
    (flattenDivision dims syms op form divisor locals).2.length ≤ locals.length + 1 := by
  unfold flattenDivision
  split
  · dsimp only
    split
    · exact Nat.le_succ _
    · exact length_localForm_le _
  · dsimp only
    split
    · exact Nat.le_succ _
    · exact length_localForm_le _

theorem length_flattenBinary_le {op : BinaryOp} {result : LinearForm × List Expr}
    (h : flattenBinary dims syms op left right locals = some result) :
    result.2.length ≤ locals.length + if op.isDivision then 1 else 0 := by
  cases op with
  | add | mul =>
      rw [locals_of_flattenBinary (by simp [BinaryOp.isDivision]) h]
      exact Nat.le_add_right _ _
  | mod | floorDiv | ceilDiv =>
      obtain ⟨-, ⟨⟩⟩ := Option.ite_none_right_eq_some.mp h
      exact length_flattenDivision_le _ _

/-- Every division makes at most one local term. -/
theorem length_flattenWith_le {e : Expr} {result : LinearForm × List Expr}
    (h : flattenWith dims syms e locals = some result) :
    result.2.length ≤ locals.length + e.divisions := by
  induction e generalizing locals result with
  | dim position | sym position =>
      obtain ⟨-, ⟨⟩⟩ := Option.ite_none_right_eq_some.mp h
      exact Nat.le_add_right _ _
  | const constant =>
      obtain rfl := Option.some.inj h
      exact Nat.le_add_right _ _
  | binary op lhs rhs ihl ihr =>
      unfold flattenWith at h
      split at h
      · cases h
      · rename_i left locals' hlhs
        split at h
        · cases h
        · rename_i right locals'' hrhs
          have hleft : locals'.length ≤ locals.length + lhs.divisions := ihl hlhs
          have hright : locals''.length ≤ locals'.length + rhs.divisions := ihr hrhs
          have hresult := length_flattenBinary_le h
          rw [divisions]
          omega

theorem within_true (e : Expr) : e.Within (fun _ => True) fun _ => True :=
  within_iff.mpr ⟨fun _ _ => trivial, fun _ _ => trivial⟩

/-- Rows end with the local terms, which are only added to. -/
theorem length_of_flattenWith {e : Expr} {locals' : List Expr}
    (h : flattenWith dims syms e locals = some (form, locals')) :
    locals.length ≤ locals'.length ∧
      form.coefficients.length ≤ dims + syms + locals'.length := by
  have hflattened : Flattened (.ofLists [] []) (fun _ => True) (fun _ => True) dims syms locals
      (form, locals') _ :=
    flattened_flattenWith (within_true e) (fun e _ => within_true e) h
  exact ⟨hflattened.grows.length_le, hflattened.flat.length_le⟩

/-! ### Whole expressions -/

theorem agrees_flattenColumns {e : Expr}
    (hfits : dims + syms + locals.length + e.divisions ≤ total)
    (htotal : total ≤ Word.maxUnsigned) :
    Agrees (total ≤ Word.maxLength) (flattenColumns dims syms e locals)
      (flattenWith dims syms e locals) := by
  induction e generalizing locals with
  | dim position =>
      unfold flattenColumns flattenWith
      split
      · exact (agrees_ofColumn (by omega) htotal).bind (agrees_pure _)
      · exact agrees_pure _
  | sym position =>
      unfold flattenColumns flattenWith
      split
      · rw [Word.wrap_of_le (by omega)]
        exact (agrees_ofColumn (by omega) htotal).bind (agrees_pure _)
      · exact agrees_pure _
  | const constant => exact agrees_pure _
  | binary op lhs rhs ihl ihr =>
      rw [divisions] at hfits
      refine (ihl (by omega)).bind ?_
      rw [flattenWith]
      cases hlhs : flattenWith dims syms lhs locals with
      | none => exact agrees_pure _
      | some result =>
          obtain ⟨left, locals'⟩ := result
          have hlocals : locals'.length ≤ locals.length + lhs.divisions :=
            length_flattenWith_le hlhs
          refine (ihr (by omega)).bind ?_
          dsimp only
          cases hrhs : flattenWith dims syms rhs locals' with
          | none => exact agrees_pure _
          | some result =>
              obtain ⟨right, locals''⟩ := result
              have hlocals' : locals''.length ≤ locals'.length + rhs.divisions :=
                length_flattenWith_le hrhs
              have hleft := (length_of_flattenWith hlhs).2
              have hgrows := (length_of_flattenWith hrhs).1
              exact agrees_flattenBinaryColumns op (by omega) (by omega) htotal

end Agreement

/-- The entries that are added to a row to bring it to its full length are zero. -/
theorem padded_row {row : List Int} {inputs length : Nat} (hrow : row.length ≤ length)
    (hinputs : inputs ≤ length) :
    ((row.take length ++ List.replicate (length - row.length) 0).drop inputs).all (· == 0) =
        (row.drop inputs).all (· == 0) ∧
      (row.take length ++ List.replicate (length - row.length) 0).take inputs =
        row.take inputs ++ List.replicate (inputs - (row.take inputs).length) 0 := by
  rw [List.take_of_length_le hrow]
  constructor
  · simp [List.drop_append]
  · rw [List.take_append, List.take_replicate, List.length_take]
    congr 2
    omega

section Simplification

variable {dims syms : Nat} {e : Expr} (hfits : dims + syms + e.divisions ≤ Word.maxUnsigned)

include hfits

theorem agrees_rebuildColumns {small : Prop} :
    Agrees small (rebuildColumns dims syms e (flattenWith dims syms e []))
      (e.simplify dims syms) := by
  unfold simplify flatten?
  cases hflatten : flattenWith dims syms e [] with
  | none => exact agrees_pure _
  | some result =>
      obtain ⟨form, locals⟩ := result
      have hlocals : locals.length ≤ 0 + e.divisions := length_flattenWith_le hflatten
      exact agrees_ofColumns (length_of_flattenWith hflatten).2 (by omega)

/-- Where every column has a number of its own, simplification is the exact one, unless a row is too
long to be stored. -/
theorem agrees_simplifyColumns :
    Agrees (dims + syms + e.divisions ≤ Word.maxLength) (simplifyColumns dims syms e)
      (e.simplify dims syms) :=
  (agrees_flattenColumns (Nat.le_refl _) hfits).bind (agrees_rebuildColumns hfits)

/-- The coefficients are the exact ones, too. -/
theorem agrees_inputColumns? :
    Agrees (dims + syms + e.divisions ≤ Word.maxLength) (inputColumns? dims syms e)
      (e.coefficients? dims syms) := by
  refine (agrees_flattenColumns (Nat.le_refl _) hfits).bind ?_
  unfold coefficients? flatten?
  cases hflatten : flattenWith dims syms e [] with
  | none => exact agrees_pure _
  | some result =>
      obtain ⟨form, locals⟩ := result
      have hlocals : locals.length ≤ 0 + e.divisions := length_flattenWith_le hflatten
      have hlength := (length_of_flattenWith hflatten).2
      have hinputs : Word.wrap (dims + syms) = dims + syms := Word.wrap_of_le (by omega)
      have hcolumns : Word.wrap (dims + syms + locals.length) = dims + syms + locals.length :=
        Word.wrap_of_le (by omega)
      obtain ⟨hrest, htaken⟩ := padded_row hlength (Nat.le_add_right (dims + syms) locals.length)
      dsimp only
      rw [hinputs, hcolumns, hrest, htaken]
      split
      · rename_i hlarge
        exact fun _ => .inr ⟨by omega, rfl⟩
      · split <;> exact agrees_pure _

/-- An expression whose coefficients are given can also be simplified. -/
theorem simplifyColumns_eq_ok {coefficients : Option (List Int)} {noted : List Expr}
    (h : (inputColumns? dims syms e noted).1 = .ok coefficients) :
    (simplifyColumns dims syms e noted).1 = .ok (e.simplify dims syms) := by
  have hflattened : Agrees (dims + syms + e.divisions ≤ Word.maxLength)
      (flattenColumns dims syms e []) (flattenWith dims syms e []) :=
    agrees_flattenColumns (Nat.le_refl _) hfits
  have hrebuilt : Agrees True (rebuildColumns dims syms e (flattenWith dims syms e []))
      (e.simplify dims syms) := agrees_rebuildColumns hfits
  rcases hflattened noted with hflatten | ⟨-, hlarge⟩
  · rw [simplifyColumns, bind_of_ok hflatten]
    exact (hrebuilt _).resolve_right fun hlarge => hlarge.1 trivial
  · rw [inputColumns?, bind_of_error hlarge] at h
    cases h

end Simplification

/-! ## Positions of the outcome -/

section Positions

variable {dims syms : Nat} {locals : List Expr}

theorem yields_termIn (hlocals : ∀ e ∈ locals, e.InRange dims syms) (column : Nat) :
    Yields (·.InRange dims syms) (termIn dims syms locals column) := by
  unfold termIn
  split
  · rename_i hdim
    exact yields_pure hdim
  · split
    · rename_i hge hsym
      have hwrap : Word.wrap (dims + syms) ≤ dims + syms := Nat.mod_le _ _
      exact yields_pure (show column - dims < syms by omega)
    · dsimp only
      split
      · rename_i term hterm
        exact yields_pure (hlocals term (List.mem_of_getElem? hterm))
      · exact yields_throw _

theorem yields_sumColumns (hlocals : ∀ e ∈ locals, e.InRange dims syms) {column : Nat}
    {row : List Int} {partialSum : Option Expr}
    (hpartial : ∀ sum ∈ partialSum, sum.InRange dims syms) :
    Yields (fun result => ∀ sum ∈ result, sum.InRange dims syms)
      (sumColumns dims syms locals column row partialSum) := by
  induction row generalizing column partialSum with
  | nil => exact yields_pure hpartial
  | cons coefficient row ih =>
      rw [sumColumns]
      split
      · exact ih hpartial
      · refine (yields_termIn hlocals column).bind fun term hterm => ?_
        refine (yields_true _).bind fun _ _ => ?_
        have hscaled : (if coefficient = 1 then term else mulConst term coefficient).InRange
            dims syms := by
          split
          · exact hterm
          · exact within_mulConst hterm coefficient
        cases partialSum with
        | none => exact ih (by simpa using hscaled)
        | some sum =>
            refine (yields_true _).bind fun _ _ => ih ?_
            simpa using within_add (hpartial sum rfl) hscaled

theorem yields_ofColumns (hlocals : ∀ e ∈ locals, e.InRange dims syms) (form : LinearForm) :
    Yields (·.InRange dims syms) (ofColumns dims syms locals form) := by
  refine (yields_sumColumns hlocals (by simp)).bind fun result hresult => ?_
  cases result with
  | none => exact (yields_true _).bind fun _ _ => yields_pure trivial
  | some sum =>
      dsimp only
      split
      · exact yields_pure (hresult sum rfl)
      · exact (yields_true _).bind fun _ _ => yields_pure (within_addConst (hresult sum rfl) _)

theorem yields_localColumn {term : Expr} (hterm : term.InRange dims syms)
    (hlocals : ∀ e ∈ locals, e.InRange dims syms) :
    Yields (fun result => ∀ e ∈ result.2, e.InRange dims syms)
      (localColumn dims syms term locals) := by
  unfold localColumn
  split
  · exact (yields_true _).bind fun _ _ => yields_pure hlocals
  · refine (yields_true _).bind fun _ _ => yields_pure ?_
    exact List.forall_mem_append.mpr ⟨hlocals, by simpa using hterm⟩

theorem yields_divideColumns (hlocals : ∀ e ∈ locals, e.InRange dims syms) (op : BinaryOp)
    (form : LinearForm) (divisor : Int) :
    Yields (fun result => ∀ e ∈ result.2, e.InRange dims syms)
      (divideColumns dims syms op form divisor locals) := by
  refine (yields_true _).bind fun _ _ => ?_
  refine (yields_ofColumns hlocals form).bind fun dividend hdividend => ?_
  refine (yields_true _).bind fun _ _ => (yields_true _).bind fun _ _ => ?_
  exact yields_localColumn (within_divide hdividend within_const op) hlocals

theorem yields_flattenBinaryColumns (hlocals : ∀ e ∈ locals, e.InRange dims syms)
    (op : BinaryOp) (left right : LinearForm) :
    Yields (fun result => ∀ pair ∈ result, ∀ e ∈ pair.2, e.InRange dims syms)
      (flattenBinaryColumns dims syms op left right locals) := by
  unfold flattenBinaryColumns
  split
  · have hdivision : Yields (fun result => ∀ e ∈ result.2, e.InRange dims syms)
        (flattenDivisionColumns dims syms op left right.constant locals) := by
      unfold flattenDivisionColumns
      split <;> dsimp only <;> split
      · exact yields_pure hlocals
      · exact yields_divideColumns hlocals op _ _
      · exact yields_pure hlocals
      · exact yields_divideColumns hlocals op _ _
    exact hdivision.bind fun result hresult => yields_pure (by simpa using hresult)
  · rename_i hkept
    refine yields_pure fun pair hpair => ?_
    rwa [locals_of_flattenBinary hkept hpair]

theorem yields_flattenColumns (hlocals : ∀ e ∈ locals, e.InRange dims syms) (e : Expr) :
    Yields (fun result => ∀ pair ∈ result, ∀ e ∈ pair.2, e.InRange dims syms)
      (flattenColumns dims syms e locals) := by
  induction e generalizing locals with
  | dim position =>
      rw [flattenColumns]
      split
      · exact (yields_true _).bind fun _ _ => yields_pure (by simpa using hlocals)
      · exact yields_pure (by simp)
  | sym position =>
      rw [flattenColumns]
      split
      · exact (yields_true _).bind fun _ _ => yields_pure (by simpa using hlocals)
      · exact yields_pure (by simp)
  | const constant => exact yields_pure (by simpa using hlocals)
  | binary op lhs rhs ihl ihr =>
      refine (ihl hlocals).bind fun result hresult => ?_
      cases result with
      | none => exact yields_pure (by simp)
      | some result =>
          refine (ihr (hresult result rfl)).bind fun result' hresult' => ?_
          cases result' with
          | none => exact yields_pure (by simp)
          | some result' => exact yields_flattenBinaryColumns (hresult' result' rfl) op _ _

/-- Whatever the counts are, only inputs occur in the outcome of simplification. -/
theorem yields_simplifyColumns {e : Expr} (he : e.InRange dims syms) :
    Yields (·.InRange dims syms) (simplifyColumns dims syms e) := by
  refine (yields_flattenColumns (by simp) e).bind fun result hresult => ?_
  cases result with
  | none => exact yields_pure he
  | some result => exact yields_ofColumns (hresult result rfl) _

end Positions

end Expr

end AffineLoops
