import AffineLoops.Proofs.Expr.Evaluation
import AffineLoops.Proofs.Expr.WrittenSum

/-!
# Local terms

Flattening an expression collects the quotients and remainders that it cannot resolve as local
terms, each of them over the inputs and the local terms before it.  This file says what they look
like.

* A form is one of words, with no coefficients beyond the local terms (`LinearForm.Fits`), and its
  expression is then written without merging anything (`ofLinearForm_eq_expr`).
* A quotient or remainder becomes a local term only if it is `Unresolved`: the entries of a
  remainder have been reduced by its divisor, those of a quotient have no common divisor with it,
  and the divisor does not divide all factors (`flattenDivision_cases`).
* Such a term is not folded (`LocalTerm.Unresolved.divide_eq`), and dividing its dividend once more
  leads back to it (`LocalTerm.Unresolved.flattenDivision_eq`).

`Locals` are the lists of local terms that arise in this way, and `leaves_flattenWith` shows that
flattening makes no others.
-/

namespace AffineLoops

/-! ## Forms of words -/

namespace LinearForm

/-- A form of words that has no coefficients from a count on. -/
structure Fits (count : Nat) (form : LinearForm) : Prop where
  coefficient_word : ∀ index, Word.InRange (form.coefficient index)
  constant_word : Word.InRange form.constant
  eq_zero : ∀ index, count ≤ index → form.coefficient index = 0

theorem isSome_addRows?_iff {row row' : List Int} (hrow : ∀ index, Word.InRange (row.getD index 0))
    (hrow' : ∀ index, Word.InRange (row'.getD index 0)) :
    (addRows? row row').isSome ↔ ∀ index, Word.InRange (row.getD index 0 + row'.getD index 0) := by
  induction row generalizing row' with
  | nil => simpa [addRows?] using hrow'
  | cons a row ih =>
      cases row' with
      | nil => simpa [addRows?] using hrow
      | cons b row' =>
          have htail := ih (fun index => hrow (index + 1)) (fun index => hrow' (index + 1))
          rw [← Nat.and_forall_add_one]
          simp only [List.getD_cons_zero, List.getD_cons_succ, ← htail, addRows?, Word.add?,
            Word.checked]
          cases addRows? row row' <;> by_cases hsum : Word.InRange (a + b) <;> simp [hsum]

theorem isSome_scaleRow?_iff {factor : Int} {row : List Int} :
    (scaleRow? factor row).isSome ↔ ∀ index, Word.InRange (row.getD index 0 * factor) := by
  induction row with
  | nil => simp [scaleRow?, Word.inRange_zero]
  | cons a row ih =>
      rw [← Nat.and_forall_add_one]
      simp only [List.getD_cons_zero, List.getD_cons_succ, ← ih, scaleRow?, Word.mul?, Word.checked]
      cases scaleRow? factor row <;> by_cases hproduct : Word.InRange (a * factor) <;>
        simp [hproduct]

variable {left right form : LinearForm} {factor : Int} {count : Nat}

theorem coefficient_add? (h : left.add? right = some form) :
    (∀ index, form.coefficient index = left.coefficient index + right.coefficient index) ∧
      form.constant = left.constant + right.constant := by
  unfold add? at h
  split at h
  · rename_i row constant hrow hconstant
    obtain rfl := Option.some.inj h
    exact ⟨getD_addRows? hrow, (Word.eq_of_add? hconstant).symm⟩
  · cases h

theorem coefficient_scale? (h : form.scale? factor = some left) :
    (∀ index, left.coefficient index = form.coefficient index * factor) ∧
      left.constant = form.constant * factor := by
  unfold scale? at h
  split at h
  · rename_i row constant hrow hconstant
    obtain rfl := Option.some.inj h
    exact ⟨getD_scaleRow? hrow, (Word.eq_of_mul? hconstant).symm⟩
  · cases h

/-- Forms of words have a sum exactly if it is one of words. -/
theorem isSome_add?_iff (hleft : left.Fits count) (hright : right.Fits count) :
    (left.add? right).isSome ↔
      (∀ index, Word.InRange (left.coefficient index + right.coefficient index)) ∧
        Word.InRange (left.constant + right.constant) := by
  unfold coefficient
  rw [← isSome_addRows?_iff hleft.coefficient_word hright.coefficient_word]
  simp only [add?, Word.add?, Word.checked]
  cases addRows? left.coefficients right.coefficients <;>
    by_cases hsum : Word.InRange (left.constant + right.constant) <;> simp [hsum]

theorem isSome_scale?_iff :
    (form.scale? factor).isSome ↔
      (∀ index, Word.InRange (form.coefficient index * factor)) ∧
        Word.InRange (form.constant * factor) := by
  unfold coefficient
  rw [← isSome_scaleRow?_iff]
  simp only [scale?, Word.mul?, Word.checked]
  cases scaleRow? factor form.coefficients <;>
    by_cases hproduct : Word.InRange (form.constant * factor) <;> simp [hproduct]

theorem coefficient_ofTerm (index other : Nat) :
    (ofTerm index).coefficient other = if other = index then 1 else 0 := by
  rw [coefficient, ofTerm, List.getD_eq_getElem?_getD, List.getElem?_append, List.length_replicate]
  split
  · rename_i hlt
    rw [List.getElem?_replicate, if_pos hlt, if_neg hlt.ne]
    rfl
  · rename_i hge
    by_cases hsame : other = index
    · simp [hsame]
    · rw [if_neg hsame, List.getElem?_eq_none (by simp; omega)]
      rfl

theorem coefficient_map {f : Int → Int} (hzero : f 0 = 0) (constant : Int) (index : Nat) :
    coefficient ⟨form.coefficients.map f, constant⟩ index = f (form.coefficient index) :=
  getD_map hzero form.coefficients index

/-- What holds of zero and of the row of a form holds of every coefficient. -/
theorem forall_coefficient {p : Int → Prop} (hzero : p 0) (h : ∀ c ∈ form.coefficients, p c)
    (index : Nat) : p (form.coefficient index) := by
  rw [coefficient, List.getD_eq_getElem?_getD]
  cases hat : form.coefficients[index]? with
  | none => exact hzero
  | some c => exact h c (List.mem_of_getElem? hat)

theorem Fits.mono {count' : Nat} (h : form.Fits count) (hle : count ≤ count') : form.Fits count' :=
  ⟨h.coefficient_word, h.constant_word, fun index hindex => h.eq_zero index (hle.trans hindex)⟩

theorem fits_ofConst {constant : Int} (h : Word.InRange constant) : (ofConst constant).Fits count :=
  ⟨fun _ => Word.inRange_zero, h, fun _ _ => rfl⟩

theorem fits_ofTerm {index : Nat} (h : index < count) : (ofTerm index).Fits count where
  coefficient_word := by
    intro other
    rw [coefficient_ofTerm]
    split <;> decide
  constant_word := Word.inRange_zero
  eq_zero := by
    intro other hother
    rw [coefficient_ofTerm, if_neg (by omega)]

theorem Fits.add? (hleft : left.Fits count) (hright : right.Fits count)
    (h : left.add? right = some form) : form.Fits count := by
  obtain ⟨hcoefficient, hconstant⟩ := coefficient_add? h
  obtain ⟨hwords, hword⟩ := (isSome_add?_iff hleft hright).mp (by rw [h]; rfl)
  refine ⟨fun index => hcoefficient index ▸ hwords index, hconstant ▸ hword, ?_⟩
  intro index hindex
  rw [hcoefficient, hleft.eq_zero index hindex, hright.eq_zero index hindex, add_zero]

theorem Fits.scale? (hform : form.Fits count) (h : form.scale? factor = some left) :
    left.Fits count := by
  obtain ⟨hcoefficient, hconstant⟩ := coefficient_scale? h
  obtain ⟨hwords, hword⟩ := isSome_scale?_iff.mp (by rw [h]; rfl : (form.scale? factor).isSome)
  refine ⟨fun index => hcoefficient index ▸ hwords index, hconstant ▸ hword, ?_⟩
  intro index hindex
  rw [hcoefficient, hform.eq_zero index hindex, zero_mul]

theorem Fits.map {f : Int → Int} {constant : Int} (hform : form.Fits count) (hzero : f 0 = 0)
    (hf : ∀ c, Word.InRange c → Word.InRange (f c)) (hconstant : Word.InRange constant) :
    Fits count ⟨form.coefficients.map f, constant⟩ where
  coefficient_word := fun index =>
    coefficient_map hzero constant index ▸ hf _ (hform.coefficient_word index)
  constant_word := hconstant
  eq_zero := by
    intro index hindex
    rw [coefficient_map hzero, hform.eq_zero index hindex, hzero]

theorem Fits.reduce {divisor : Int} (hform : form.Fits count) (hpos : 0 < divisor)
    (hdivisor : Word.InRange divisor) : (form.reduce divisor).Fits count :=
  hform.map (Int.zero_emod divisor) (fun _ _ => Word.inRange_emod hpos hdivisor)
    (Word.inRange_emod hpos hdivisor)

theorem Fits.cancel {divisor : Int} (hform : form.Fits count) (hpos : 0 < divisor) :
    (form.cancel divisor).Fits count :=
  hform.map (Int.zero_ediv divisor) (fun _ => Word.inRange_ediv hpos)
    (Word.inRange_ediv hpos hform.constant_word)

theorem commonDivisor_pos {divisor : Int} (hpos : 0 < divisor) :
    0 < (form.commonDivisor divisor : Int) := by
  have hne : (form.commonDivisor divisor : Int) ≠ 0 := by
    intro hzero
    exact hpos.ne' (Int.zero_dvd.mp (hzero ▸ form.commonDivisor_dvd divisor))
  omega

private theorem dvd_foldl_gcd {n : Nat} {entries : List Int} {start : Nat} (hstart : n ∣ start)
    (hentries : ∀ entry ∈ entries, n ∣ entry.natAbs) :
    n ∣ entries.foldl (fun result entry => Nat.gcd result entry.natAbs) start := by
  induction entries generalizing start with
  | nil => exact hstart
  | cons entry entries ih =>
      obtain ⟨hentry, hentries⟩ := List.forall_mem_cons.mp hentries
      exact ih (Nat.dvd_gcd hstart hentry) hentries

/-- The common divisor of a form is the greatest one. -/
theorem dvd_commonDivisor {n : Nat} {divisor : Int} (hdivisor : (n : Int) ∣ divisor)
    (hcoefficients : ∀ coefficient ∈ form.coefficients, (n : Int) ∣ coefficient)
    (hconstant : (n : Int) ∣ form.constant) : n ∣ form.commonDivisor divisor := by
  refine dvd_foldl_gcd (Int.natCast_dvd.mp hdivisor) fun entry hentry => Int.natCast_dvd.mp ?_
  rcases List.mem_append.mp hentry with hentry | hentry
  · exact hcoefficients entry hentry
  · rw [List.mem_singleton.mp hentry]
    exact hconstant

end LinearForm

namespace Expr

/-! ## Sums over an order of terms -/

/-- A list of different terms, in the order in which sums are written. -/
structure IsBasis (terms : List Expr) : Prop where
  isTerm : ∀ term ∈ terms, term.IsTerm
  nodup : terms.Nodup

/-- The terms of a sum come in a given order, and its factors and its constant are words. -/
structure WrittenSum.Over (basis : List Expr) (w : WrittenSum) : Prop where
  sublist : w.terms.Sublist basis
  factor_ne_zero : ∀ entry ∈ w.entries, entry.2 ≠ 0
  factor_word : ∀ entry ∈ w.entries, Word.InRange entry.2
  constant_word : Word.InRange w.constant

theorem WrittenSum.Over.mono {basis basis' : List Expr} {w : WrittenSum} (h : w.Over basis)
    (hbasis : basis.Sublist basis') : w.Over basis' :=
  { h with sublist := h.sublist.trans hbasis }

theorem WrittenSum.Over.proper {basis : List Expr} {w : WrittenSum} (h : w.Over basis)
    (hbasis : IsBasis basis) : w.Proper where
  isTerm := fun _ hentry => hbasis.isTerm _ (h.sublist.subset (List.mem_map_of_mem hentry))
  ne_zero := h.factor_ne_zero
  nodup := hbasis.nodup.sublist h.sublist

/-- The sum that a form stands for. -/
def written (basis : List Expr) (form : LinearForm) : WrittenSum :=
  ⟨entries basis form.coefficients, form.constant⟩

section Forms

variable {dims syms : Nat} {basis locals : List Expr} {form : LinearForm}

theorem over_written (hform : form.Fits basis.length) : (written basis form).Over basis where
  sublist := sublist_entries basis form.coefficients
  factor_ne_zero := fun _ hentry => (of_mem_entries hentry).2.2
  factor_word := by
    intro entry hentry
    obtain ⟨index, hindex, heq⟩ := List.mem_iff_getElem.mp (of_mem_entries hentry).2.1
    have hword := hform.coefficient_word index
    rwa [LinearForm.coefficient, List.getD_eq_getElem?_getD, List.getElem?_eq_getElem hindex,
      Option.getD_some, heq] at hword
  constant_word := hform.constant_word

/-- The expression of a form is written without merging anything. -/
theorem ofLinearForm_eq_expr (hbasis : IsBasis (formTerms dims syms locals))
    (hform : form.Fits (dims + syms + locals.length)) :
    ofLinearForm dims syms locals form = (written (formTerms dims syms locals) form).expr := by
  have hover : (written (formTerms dims syms locals) form).Over _ :=
    over_written (by rwa [length_formTerms])
  rw [ofLinearForm_eq_foldl (by rw [length_formTerms]; exact hform.eq_zero),
    ← WrittenSum.expr_eq_foldl (hover.proper hbasis)]
  rfl

theorem isBasis_inputs : IsBasis (inputs dims syms) where
  isTerm := by
    intro term hterm
    rcases List.mem_append.mp hterm with hterm | hterm <;>
      obtain ⟨position, -, rfl⟩ := List.mem_map.mp hterm <;> trivial
  nodup := by
    refine List.nodup_append.mpr ⟨?_, ?_, ?_⟩
    · exact List.Pairwise.map dim (fun _ _ hne heq => hne (Expr.dim.inj heq)) List.nodup_range
    · exact List.Pairwise.map sym (fun _ _ hne heq => hne (Expr.sym.inj heq)) List.nodup_range
    · intro a ha b hb
      obtain ⟨_, -, rfl⟩ := List.mem_map.mp ha
      obtain ⟨_, -, rfl⟩ := List.mem_map.mp hb
      simp

end Forms

/-! ## Local terms -/

/-- A quotient or remainder of a sum by a constant. -/
structure LocalTerm where
  op : BinaryOp
  dividend : WrittenSum
  divisor : Int

namespace LocalTerm

/-- The expression of a local term. -/
def expr (q : LocalTerm) : Expr := binary q.op q.dividend.expr (const q.divisor)

/-- A local term that flattening cannot resolve: a remainder whose entries are reduced, or a
quotient whose entries and divisor have no common divisor, and in either case a factor that the
divisor does not divide. -/
structure Unresolved (basis : List Expr) (q : LocalTerm) : Prop where
  isDivision : q.op.isDivision
  pos : 0 < q.divisor
  divisor_word : Word.InRange q.divisor
  dividend_over : q.dividend.Over basis
  reduced : q.op = .mod → (∀ entry ∈ q.dividend.entries, entry.2 % q.divisor = entry.2) ∧
    q.dividend.constant % q.divisor = q.dividend.constant
  coprime : q.op ≠ .mod → ∀ n : Nat, (n : Int) ∣ q.divisor →
    (∀ entry ∈ q.dividend.entries, (n : Int) ∣ entry.2) → (n : Int) ∣ q.dividend.constant → n = 1
  not_dvd : ∃ entry ∈ q.dividend.entries, ¬ q.divisor ∣ entry.2

theorem Unresolved.mono {basis basis' : List Expr} {q : LocalTerm} (h : q.Unresolved basis)
    (hbasis : basis.Sublist basis') : q.Unresolved basis' :=
  { h with dividend_over := h.dividend_over.mono hbasis }

theorem expr_injective {basis : List Expr} (hbasis : IsBasis basis) {q q' : LocalTerm}
    (hq : q.Unresolved basis) (hq' : q'.Unresolved basis) (h : q.expr = q'.expr) : q = q' := by
  obtain ⟨op, dividend, divisor⟩ := q
  obtain ⟨op', dividend', divisor'⟩ := q'
  obtain ⟨rfl, hdividend, hdivisor⟩ := Expr.binary.inj h
  obtain rfl := Expr.const.inj hdivisor
  obtain rfl := WrittenSum.expr_injective (hq.dividend_over.proper hbasis)
    (hq'.dividend_over.proper hbasis) hdividend
  rfl

end LocalTerm

theorem divConst_of_not_dvd {op : BinaryOp} {lhs : Expr} {divisor : Int}
    (hconst : ∀ constant, lhs ≠ const constant) (hone : divisor ≠ 1)
    (hmul : ∀ x factor, lhs = binary .mul x (const factor) → factor % divisor ≠ 0) :
    divConst op lhs divisor = binary op lhs (const divisor) := by
  unfold divConst
  split
  · exact absurd rfl (hconst _)
  · rw [if_neg hone]
    split
    · rw [if_neg (hmul _ _ rfl)]
    · rfl

/-- A local term that cannot be resolved is not folded either. -/
theorem LocalTerm.Unresolved.divide_eq {basis : List Expr} (hbasis : IsBasis basis) {q : LocalTerm}
    (hq : q.Unresolved basis) : divide q.op q.dividend.expr (const q.divisor) = q.expr := by
  obtain ⟨entry, hentry, hnotDvd⟩ := hq.not_dvd
  have hread := WrittenSum.read_entries (hq.dividend_over.proper hbasis)
  simp only [divide, if_pos hq.pos]
  refine divConst_of_not_dvd ?_ ?_ ?_
  · intro constant heq
    rw [heq] at hread
    rw [← hread] at hentry
    simp [summands, constant?] at hentry
  · intro hone
    exact hnotDvd (hone ▸ one_dvd _)
  · intro x factor heq hzero
    rw [heq] at hread
    rw [← hread] at hentry
    obtain rfl : entry = (x, factor) := by simpa [summands, constant?, scaledTerm] using hentry
    exact hnotDvd (Int.dvd_of_emod_eq_zero hzero)

/-! ## Dividing a form -/

section Division

variable {dims syms : Nat} {basis locals : List Expr} {form : LinearForm} {divisor : Int}

/-- A coefficient other than zero is the factor of a term. -/
theorem exists_factor (hform : form.Fits basis.length) {coefficient : Int}
    (hmem : coefficient ∈ form.coefficients) (hne : coefficient ≠ 0) :
    ∃ entry ∈ (written basis form).entries, entry.2 = coefficient :=
  exists_mem_entries hform.eq_zero hmem hne

theorem unresolved_remainder (hpos : 0 < divisor) (hdivisor : Word.InRange divisor)
    (hform : form.Fits basis.length) (hconst : (form.reduce divisor).isConst = false) :
    LocalTerm.Unresolved basis ⟨.mod, written basis (form.reduce divisor), divisor⟩ := by
  have hfits : (form.reduce divisor).Fits basis.length := hform.reduce hpos hdivisor
  have hreduced : ∀ c ∈ (form.reduce divisor).coefficients, c % divisor = c := by
    intro c hc
    obtain ⟨c, -, rfl⟩ := List.mem_map.mp hc
    exact Int.emod_emod_of_dvd c dvd_rfl
  refine ⟨rfl, hpos, hdivisor, over_written hfits, fun _ => ⟨?_, ?_⟩, fun hmod => absurd rfl hmod,
    ?_⟩
  · exact fun entry hentry => hreduced _ (of_mem_entries hentry).2.1
  · exact Int.emod_emod_of_dvd _ dvd_rfl
  · obtain ⟨c, hc, hne⟩ : ∃ c ∈ (form.reduce divisor).coefficients, c ≠ 0 := by
      simpa [LinearForm.isConst] using hconst
    obtain ⟨entry, hentry, rfl⟩ := exists_factor hfits hc hne
    refine ⟨entry, hentry, fun hdvd => hne ?_⟩
    rw [← hreduced _ hc]
    exact Int.emod_eq_zero_of_dvd hdvd

theorem unresolved_quotient {op : BinaryOp} (hop : op.isDivision) (hmod : op ≠ .mod)
    (hpos : 0 < divisor) (hdivisor : Word.InRange divisor) (hform : form.Fits basis.length)
    {common : Int} (hcommon : (form.commonDivisor divisor : Int) = common)
    (hall : (form.cancel common).coefficients.all (· % (divisor / common) == 0) = false) :
    LocalTerm.Unresolved basis ⟨op, written basis (form.cancel common), divisor / common⟩ := by
  have hdvd : common ∣ divisor := hcommon ▸ form.commonDivisor_dvd divisor
  have hcommonPos : 0 < common := hcommon ▸ LinearForm.commonDivisor_pos hpos
  have hfits : (form.cancel common).Fits basis.length := hform.cancel hcommonPos
  refine ⟨hop, Int.ediv_pos_of_pos_of_dvd hpos hcommonPos.le hdvd,
    Word.inRange_ediv hcommonPos hdivisor, over_written hfits, fun h => absurd h hmod, ?_, ?_⟩
  · -- a common divisor of what is left would enlarge the one that was cancelled
    intro _ n hn hfactors hconstant
    have hscale : ∀ {x : Int}, common ∣ x → (n : Int) ∣ x / common →
        ((n * form.commonDivisor divisor : Nat) : Int) ∣ x := by
      intro x hx hquotient
      rw [Nat.cast_mul, hcommon, ← Int.ediv_mul_cancel hx]
      exact Int.mul_dvd_mul hquotient dvd_rfl
    have hcoefficients : ∀ c ∈ form.coefficients,
        ((n * form.commonDivisor divisor : Nat) : Int) ∣ c := by
      intro c hc
      refine hscale (hcommon ▸ LinearForm.commonDivisor_dvd_coefficient hc) ?_
      by_cases hzero : c / common = 0
      · rw [hzero]
        exact dvd_zero _
      · obtain ⟨entry, hentry, heq⟩ := exists_factor hfits (List.mem_map_of_mem hc) hzero
        exact heq ▸ hfactors entry hentry
    have hmul : n * form.commonDivisor divisor ∣ 1 * form.commonDivisor divisor := by
      rw [one_mul]
      exact LinearForm.dvd_commonDivisor (hscale hdvd hn) hcoefficients
        (hscale (hcommon ▸ form.commonDivisor_dvd_constant divisor) hconstant)
    exact Nat.dvd_one.mp (Nat.dvd_of_mul_dvd_mul_right (by omega) hmul)
  · obtain ⟨c, hc, hnotDvd⟩ :
        ∃ c ∈ (form.cancel common).coefficients, c % (divisor / common) ≠ 0 := by simpa using hall
    have hne : c ≠ 0 := by
      rintro rfl
      exact hnotDvd (Int.zero_emod _)
    obtain ⟨entry, hentry, rfl⟩ := exists_factor hfits hc hne
    exact ⟨entry, hentry, fun hdvd => hnotDvd (Int.emod_eq_zero_of_dvd hdvd)⟩

/-- A quotient or remainder of a form is a form over the same terms or a local term that cannot
be resolved. -/
theorem flattenDivision_cases {op : BinaryOp} (hop : op.isDivision) (hpos : 0 < divisor)
    (hdivisor : Word.InRange divisor) (hbasis : IsBasis (formTerms dims syms locals))
    (hform : form.Fits (dims + syms + locals.length)) :
    (∃ result, result.Fits (dims + syms + locals.length) ∧
      flattenDivision dims syms op form divisor locals = (result, locals)) ∨
    ∃ q : LocalTerm, q.Unresolved (formTerms dims syms locals) ∧
      flattenDivision dims syms op form divisor locals = localForm dims syms q.expr locals := by
  have hform' : form.Fits (formTerms dims syms locals).length := by rwa [length_formTerms]
  by_cases hmod : op = .mod
  · subst hmod
    simp only [flattenDivision, if_true]
    cases hconst : (form.reduce divisor).isConst with
    | true =>
        exact .inl ⟨_, LinearForm.fits_ofConst (hform.reduce hpos hdivisor).constant_word, rfl⟩
    | false =>
        have hq := unresolved_remainder hpos hdivisor hform' hconst
        refine .inr ⟨_, hq, ?_⟩
        rw [← hq.divide_eq hbasis, ← ofLinearForm_eq_expr hbasis (hform.reduce hpos hdivisor)]
        rfl
  · simp only [flattenDivision, if_neg hmod]
    obtain ⟨common, hcommon⟩ : ∃ common : Int, form.commonDivisor divisor = common := ⟨_, rfl⟩
    have hcommonPos : 0 < common := hcommon ▸ LinearForm.commonDivisor_pos hpos
    have hdvd : common ∣ divisor := hcommon ▸ form.commonDivisor_dvd divisor
    have hrest : 0 < divisor / common := Int.ediv_pos_of_pos_of_dvd hpos hcommonPos.le hdvd
    have hfits : (form.cancel common).Fits (dims + syms + locals.length) := hform.cancel hcommonPos
    rw [hcommon]
    cases hall : (form.cancel common).coefficients.all (· % (divisor / common) == 0) with
    | true =>
        refine .inl ⟨_, hfits.map (f := (· / (divisor / common))) (Int.zero_ediv _)
          (fun _ => Word.inRange_ediv hrest) ?_, rfl⟩
        exact BinaryOp.inRange_apply hop hfits.constant_word
          (Word.inRange_ediv hcommonPos hdivisor) hrest
    | false =>
        have hq := unresolved_quotient hop hmod hpos hdivisor hform' hcommon hall
        refine .inr ⟨_, hq, ?_⟩
        rw [← hq.divide_eq hbasis, ← ofLinearForm_eq_expr hbasis hfits]
        rfl

/-- A quotient or remainder that could not be resolved is not changed by dividing again, whatever
the order of the terms. -/
theorem LocalTerm.Unresolved.flattenDivision_eq {q : LocalTerm} (hq : q.Unresolved basis)
    (hfactors : ∀ entry ∈ q.dividend.entries, ∃ index, form.coefficient index = entry.2)
    (hcoefficients : ∀ index, form.coefficient index = 0 ∨
      ∃ entry ∈ q.dividend.entries, form.coefficient index = entry.2)
    (hconstant : form.constant = q.dividend.constant) (dims syms : Nat) (locals : List Expr) :
    ∃ same : LinearForm, (∀ index, same.coefficient index = form.coefficient index) ∧
      same.constant = form.constant ∧
      flattenDivision dims syms q.op form q.divisor locals =
        localForm dims syms
          (divide q.op (ofLinearForm dims syms locals same) (const q.divisor)) locals := by
  -- the factor that the divisor does not divide keeps the form from being resolved
  obtain ⟨index, hindex⟩ : ∃ index, ¬ q.divisor ∣ form.coefficient index := by
    obtain ⟨entry, hentry, hnotDvd⟩ := hq.not_dvd
    obtain ⟨index, hindex⟩ := hfactors entry hentry
    exact ⟨index, hindex ▸ hnotDvd⟩
  by_cases hmod : q.op = .mod
  · have hsame : ∀ index, (form.reduce q.divisor).coefficient index = form.coefficient index := by
      intro index
      rw [LinearForm.reduce, LinearForm.coefficient_map (Int.zero_emod q.divisor)]
      rcases hcoefficients index with hzero | ⟨entry, hentry, heq⟩
      · rw [hzero, Int.zero_emod]
      · rw [heq, (hq.reduced hmod).1 entry hentry]
    have hconst : ¬ (form.reduce q.divisor).isConst := by
      intro hconst
      have hzero : (form.reduce q.divisor).coefficient index = 0 :=
        LinearForm.forall_coefficient (p := (· = 0)) rfl
          (by simpa [LinearForm.isConst] using hconst) index
      rw [hsame] at hzero
      exact hindex (hzero ▸ dvd_zero _)
    refine ⟨form.reduce q.divisor, hsame, ?_, ?_⟩
    · rw [LinearForm.reduce, hconstant, (hq.reduced hmod).2]
    · simp only [flattenDivision, if_pos hmod, if_neg hconst]
  · have hcommon : form.commonDivisor q.divisor = 1 := by
      refine hq.coprime hmod _ (form.commonDivisor_dvd q.divisor) ?_ ?_
      · intro entry hentry
        obtain ⟨index, hindex⟩ := hfactors entry hentry
        rw [← hindex]
        exact LinearForm.forall_coefficient (dvd_zero _)
          (fun _ => LinearForm.commonDivisor_dvd_coefficient) index
      · exact hconstant ▸ form.commonDivisor_dvd_constant q.divisor
    have hsame : ∀ index, (form.cancel 1).coefficient index = form.coefficient index := by
      intro index
      rw [LinearForm.cancel, LinearForm.coefficient_map (Int.zero_ediv 1), Int.ediv_one]
    have hall : ¬ (form.cancel 1).coefficients.all (· % q.divisor == 0) := by
      intro hall
      have hdvd : (form.cancel 1).coefficient index % q.divisor = 0 :=
        LinearForm.forall_coefficient (p := (· % q.divisor = 0)) (Int.zero_emod q.divisor)
          (by simpa using hall) index
      rw [hsame] at hdvd
      exact hindex (Int.dvd_of_emod_eq_zero hdvd)
    refine ⟨form.cancel 1, hsame, Int.ediv_one _, ?_⟩
    simp only [flattenDivision, if_neg hmod, hcommon, Nat.cast_one, Int.ediv_one, if_neg hall]

end Division

/-! ## The local terms of an expression -/

/-- The lists of local terms that flattening makes: each term is new and cannot be resolved, and
its dividend is a sum of inputs and earlier local terms, in this order. -/
inductive Locals (dims syms : Nat) : List Expr → Prop
  | nil : Locals dims syms []
  | snoc {locals : List Expr} {q : LocalTerm} : Locals dims syms locals →
      q.Unresolved (formTerms dims syms locals) → q.expr ∉ locals →
      Locals dims syms (locals ++ [q.expr])

section Locals

variable {dims syms : Nat} {locals : List Expr}

theorem formTerms_append (locals added : List Expr) :
    formTerms dims syms (locals ++ added) = formTerms dims syms locals ++ added :=
  (List.append_assoc ..).symm

theorem expr_notMem_formTerms {q : LocalTerm} (hnew : q.expr ∉ locals) :
    q.expr ∉ formTerms dims syms locals := by
  have hinput : q.expr ∉ inputs dims syms := by simp [inputs, LocalTerm.expr]
  exact fun hmem => (List.mem_append.mp hmem).elim hinput hnew

theorem Locals.isBasis (h : Locals dims syms locals) : IsBasis (formTerms dims syms locals) := by
  induction h with
  | nil =>
      rw [formTerms, List.append_nil]
      exact isBasis_inputs
  | @snoc locals q _ hq hnew ih =>
      rw [formTerms_append]
      refine ⟨?_, ?_⟩
      · intro term hterm
        rcases List.mem_append.mp hterm with hterm | hterm
        · exact ih.isTerm term hterm
        · rw [List.mem_singleton.mp hterm]
          exact hq.isDivision
      · refine List.nodup_append.mpr ⟨ih.nodup, List.pairwise_singleton _ _, ?_⟩
        intro a ha b hb heq
        exact expr_notMem_formTerms hnew (List.mem_singleton.mp hb ▸ heq ▸ ha)

/-- What flattening a part of an expression leaves behind: local terms that have grown at their
end, and a form of words over them. -/
structure Leaves (dims syms : Nat) (locals : List Expr) (result : LinearForm × List Expr) :
    Prop where
  unresolved : Locals dims syms result.2
  grows : locals <+: result.2
  fits : result.1.Fits (dims + syms + result.2.length)

theorem Leaves.of_fits {form : LinearForm} (hlocals : Locals dims syms locals)
    (hform : form.Fits (dims + syms + locals.length)) : Leaves dims syms locals (form, locals) :=
  ⟨hlocals, List.prefix_rfl, hform⟩

theorem leaves_localForm (hlocals : Locals dims syms locals) {q : LocalTerm}
    (hq : q.Unresolved (formTerms dims syms locals)) :
    Leaves dims syms locals (localForm dims syms q.expr locals) := by
  unfold localForm
  split
  · rename_i index hfound
    obtain ⟨hlt, -⟩ := List.idxOf?_eq_some_iff.mp hfound
    exact .of_fits hlocals (LinearForm.fits_ofTerm (Nat.add_lt_add_left hlt _))
  · rename_i hfound
    have hnew : q.expr ∉ locals := List.idxOf?_eq_none_iff.mp hfound
    exact ⟨hlocals.snoc hq hnew, List.prefix_append .., LinearForm.fits_ofTerm (by simp)⟩

theorem leaves_flattenDivision (hlocals : Locals dims syms locals) {op : BinaryOp}
    (hop : op.isDivision) {divisor : Int} (hpos : 0 < divisor) (hdivisor : Word.InRange divisor)
    {form : LinearForm} (hform : form.Fits (dims + syms + locals.length)) :
    Leaves dims syms locals (flattenDivision dims syms op form divisor locals) := by
  rcases flattenDivision_cases hop hpos hdivisor hlocals.isBasis hform with
    ⟨result, hresult, heq⟩ | ⟨q, hq, heq⟩
  · exact heq ▸ .of_fits hlocals hresult
  · exact heq ▸ leaves_localForm hlocals hq

theorem leaves_flattenBinary (hlocals : Locals dims syms locals) {op : BinaryOp}
    {left right : LinearForm} {result : LinearForm × List Expr}
    (hleft : left.Fits (dims + syms + locals.length))
    (hright : right.Fits (dims + syms + locals.length))
    (h : flattenBinary dims syms op left right locals = some result) :
    Leaves dims syms locals result := by
  cases op with
  | add =>
      obtain ⟨sum, hsum, rfl⟩ := Option.map_eq_some_iff.mp h
      exact .of_fits hlocals (hleft.add? hright hsum)
  | mul =>
      simp only [flattenBinary] at h
      split at h
      · obtain ⟨product, hproduct, rfl⟩ := Option.map_eq_some_iff.mp h
        exact .of_fits hlocals (hleft.scale? hproduct)
      · split at h
        · obtain ⟨product, hproduct, rfl⟩ := Option.map_eq_some_iff.mp h
          exact .of_fits hlocals (hright.scale? hproduct)
        · cases h
  | mod | floorDiv | ceilDiv =>
      obtain ⟨⟨-, hpos⟩, ⟨⟩⟩ := Option.ite_none_right_eq_some.mp h
      exact leaves_flattenDivision hlocals rfl hpos hright.constant_word hleft

/-- Flattening an expression of words makes local terms that cannot be resolved. -/
theorem leaves_flattenWith (hlocals : Locals dims syms locals) {e : Expr} (he : e.HasWords)
    {result : LinearForm × List Expr} (h : flattenWith dims syms e locals = some result) :
    Leaves dims syms locals result := by
  induction e generalizing locals result with
  | dim position =>
      obtain ⟨hlt, ⟨⟩⟩ := Option.ite_none_right_eq_some.mp h
      exact .of_fits hlocals (LinearForm.fits_ofTerm (by omega))
  | sym position =>
      obtain ⟨hlt, ⟨⟩⟩ := Option.ite_none_right_eq_some.mp h
      exact .of_fits hlocals (LinearForm.fits_ofTerm (by omega))
  | const constant =>
      obtain rfl := Option.some.inj h
      exact .of_fits hlocals (LinearForm.fits_ofConst (inRange_of_hasWords he))
  | binary op lhs rhs ihl ihr =>
      obtain ⟨hlhsWords, hrhsWords⟩ := hasWords_binary_iff.mp he
      unfold flattenWith at h
      split at h
      · cases h
      · rename_i left locals' hlhs
        split at h
        · cases h
        · rename_i right locals'' hrhs
          have hleft := ihl hlocals hlhsWords hlhs
          have hright := ihr hleft.unresolved hrhsWords hrhs
          have hlength : locals'.length ≤ locals''.length := hright.grows.length_le
          have hresult := leaves_flattenBinary hright.unresolved
            (hleft.fits.mono (by simpa using hlength)) hright.fits h
          exact ⟨hresult.unresolved, (hleft.grows.trans hright.grows).trans hresult.grows,
            hresult.fits⟩

end Locals

end Expr

end AffineLoops
