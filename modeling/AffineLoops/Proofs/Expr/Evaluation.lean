import AffineLoops.Proofs.Expr.Affinity

/-!
# Evaluation on words is exact

An expression is evaluated on words, bottom up, and the evaluation stops at the first part whose
value is missing or is not a word.  This file says that nothing else can happen: for words as
inputs and constants and positive divisors, an evaluation gives a result exactly if every position
has a value and the exact value of every part is a word, and the result is then the exact value
(`evaluate?_exact`).

The argument goes along the expression.  Both operands have words as values, since each operand is
a part of the expression itself (`self_mem_postorder`), and on words an operator gives its exact
result or nothing (`BinaryOp.evaluate?_eq_checked`).
-/

namespace AffineLoops.Expr

/-- Every constant of an expression is a word. -/
def HasWords (e : Expr) : Prop :=
  ∀ part ∈ e.postorder, ∀ constant ∈ part.constant?, Word.InRange constant

instance (e : Expr) : Decidable e.HasWords :=
  inferInstanceAs (Decidable (∀ part ∈ e.postorder, ∀ constant ∈ part.constant?, _))

/-! ## The parts of an expression -/

theorem self_mem_postorder (e : Expr) : e ∈ e.postorder := by
  cases e <;> simp [postorder]

theorem mem_postorder_binary {op : BinaryOp} {lhs rhs part : Expr} :
    part ∈ (binary op lhs rhs).postorder ↔
      part ∈ lhs.postorder ∨ part ∈ rhs.postorder ∨ part = binary op lhs rhs := by
  simp [postorder]

/-- A part of a part is a part. -/
theorem mem_postorder_trans {e part inner : Expr} (hpart : part ∈ e.postorder)
    (hinner : inner ∈ part.postorder) : inner ∈ e.postorder := by
  induction e with
  | dim _ | sym _ | const _ =>
      rw [List.mem_singleton.mp hpart] at hinner
      exact hinner
  | binary op lhs rhs ihl ihr =>
      rcases mem_postorder_binary.mp hpart with hpart | hpart | rfl
      · exact mem_postorder_binary.mpr (.inl (ihl hpart))
      · exact mem_postorder_binary.mpr (.inr (.inl (ihr hpart)))
      · exact hinner

/-- A part is not larger than the whole. -/
theorem sizeOf_le_of_mem_postorder {e part : Expr} (h : part ∈ e.postorder) :
    sizeOf part ≤ sizeOf e := by
  induction e with
  | dim _ | sym _ | const _ => rw [List.mem_singleton.mp h]
  | binary op lhs rhs ihl ihr =>
      rw [binary.sizeOf_spec]
      rcases mem_postorder_binary.mp h with h | h | rfl
      · have hle := ihl h
        omega
      · have hle := ihr h
        omega
      · rw [binary.sizeOf_spec]

theorem notMem_postorder_lhs (op : BinaryOp) (lhs rhs : Expr) :
    binary op lhs rhs ∉ lhs.postorder := by
  intro hmem
  have hle := sizeOf_le_of_mem_postorder hmem
  rw [binary.sizeOf_spec] at hle
  omega

theorem notMem_postorder_rhs (op : BinaryOp) (lhs rhs : Expr) :
    binary op lhs rhs ∉ rhs.postorder := by
  intro hmem
  have hle := sizeOf_le_of_mem_postorder hmem
  rw [binary.sizeOf_spec] at hle
  omega

theorem forall_mem_postorder_binary {p : Expr → Prop} {op : BinaryOp} {lhs rhs : Expr} :
    (∀ part ∈ (binary op lhs rhs).postorder, p part) ↔
      (∀ part ∈ lhs.postorder, p part) ∧ (∀ part ∈ rhs.postorder, p part) ∧
        p (binary op lhs rhs) := by
  simp only [postorder, List.mem_append, List.mem_singleton, or_imp, forall_and, forall_eq,
    and_assoc]

theorem hasWords_binary_iff {op : BinaryOp} {lhs rhs : Expr} :
    (binary op lhs rhs).HasWords ↔ lhs.HasWords ∧ rhs.HasWords := by
  unfold HasWords
  rw [forall_mem_postorder_binary]
  simp [constant?]

theorem inRange_of_hasWords {constant : Int} (h : (const constant).HasWords) :
    Word.InRange constant :=
  h (const constant) (self_mem_postorder _) constant rfl

theorem value_eq_meaning {op : BinaryOp} {e lhs rhs : Expr} (he : e.PositiveDivisors)
    (hpart : binary op lhs rhs ∈ e.postorder) (point : Point) :
    (binary op lhs rhs).value point = op.meaning (lhs.value point) (rhs.value point) := by
  refine BinaryOp.apply_eq_meaning fun hop => ?_
  obtain ⟨divisor, rfl, hdivisor⟩ := he op lhs rhs hpart hop
  exact hdivisor

/-! ## Evaluation -/

theorem pos_of_evaluate? {op : BinaryOp} (hop : op.isDivision) {a b result : Int}
    (h : op.evaluate? a b = some result) : 0 < b := by
  by_contra hneg
  rw [BinaryOp.evaluate?.eq_def, if_pos (by simpa [hop] using hneg)] at h
  cases h

theorem evaluate?_binary_eq_some_iff {op : BinaryOp} {lhs rhs : Expr} {dims syms : List Int}
    {result : Int} :
    (binary op lhs rhs).evaluate? dims syms = some result ↔
      ∃ a b, lhs.evaluate? dims syms = some a ∧ rhs.evaluate? dims syms = some b ∧
        op.evaluate? a b = some result := by
  rw [evaluate?]
  cases lhs.evaluate? dims syms with
  | none => simp
  | some a => cases rhs.evaluate? dims syms <;> simp

/-- All positions of an expression have a value, and the exact value of each part is a word. -/
def Computes (dims syms : List Int) (e : Expr) : Prop :=
  e.InRange dims.length syms.length ∧
    ∀ part ∈ e.postorder, Word.InRange (part.value (.ofLists dims syms))

section Evaluation

variable {dims syms : List Int}

theorem Computes.inRange_value {e : Expr} (h : e.Computes dims syms) :
    Word.InRange (e.value (.ofLists dims syms)) :=
  h.2 e e.self_mem_postorder

theorem computes_binary_iff {op : BinaryOp} {lhs rhs : Expr} :
    (binary op lhs rhs).Computes dims syms ↔
      lhs.Computes dims syms ∧ rhs.Computes dims syms ∧
        Word.InRange ((binary op lhs rhs).value (.ofLists dims syms)) := by
  unfold Computes InRange
  rw [forall_mem_postorder_binary, within_binary]
  tauto

/-- An input with a word is evaluated to that word. -/
theorem getElem?_eq_some_iff_getD {values : List Int} {position : Nat} {result : Int}
    (hvalues : ∀ x ∈ values, Word.InRange x) :
    values[position]? = some result ↔
      (position < values.length ∧ Word.InRange (values.getD position 0)) ∧
        result = values.getD position 0 := by
  by_cases hlt : position < values.length
  · have hat : values[position]? = some (values.getD position 0) := by
      simp [List.getD_eq_getElem?_getD, hlt]
    have hword := hvalues _ (List.mem_of_getElem? hat)
    rw [hat]
    simp only [Option.some.injEq, hlt, hword, and_self, true_and]
    exact eq_comm
  · simp [hlt]

theorem evaluate?_eq_some_iff {e : Expr} (hdivisors : e.PositiveDivisors) (hconstants : e.HasWords)
    (hdims : ∀ x ∈ dims, Word.InRange x) (hsyms : ∀ x ∈ syms, Word.InRange x) {result : Int} :
    e.evaluate? dims syms = some result ↔
      e.Computes dims syms ∧ result = e.value (.ofLists dims syms) := by
  induction e generalizing result with
  | dim position =>
      simpa [Computes, postorder, evaluate?, Point.ofLists] using getElem?_eq_some_iff_getD hdims
  | sym position =>
      simpa [Computes, postorder, evaluate?, Point.ofLists] using getElem?_eq_some_iff_getD hsyms
  | const constant =>
      simp [Computes, postorder, evaluate?, inRange_of_hasWords hconstants, eq_comm]
  | binary op lhs rhs ihl ihr =>
      obtain ⟨hlhs, hrhs, hop⟩ := positiveDivisors_binary_iff.mp hdivisors
      obtain ⟨hwords, hwords'⟩ := hasWords_binary_iff.mp hconstants
      have hpos : op.isDivision → 0 < rhs.value (.ofLists dims syms) := by
        intro hdivision
        obtain ⟨divisor, rfl, hdivisor⟩ := hop hdivision
        exact hdivisor
      rw [evaluate?_binary_eq_some_iff, computes_binary_iff]
      simp only [ihl hlhs hwords, ihr hrhs hwords', value_binary]
      constructor
      · rintro ⟨_, _, ⟨hleft, rfl⟩, ⟨hright, rfl⟩, hresult⟩
        rw [BinaryOp.evaluate?_eq_checked hleft.inRange_value hpos,
          Word.checked_eq_some_iff] at hresult
        exact ⟨⟨hleft, hright, hresult.1⟩, hresult.2.symm⟩
      · rintro ⟨⟨hleft, hright, hword⟩, rfl⟩
        refine ⟨_, _, ⟨hleft, rfl⟩, ⟨hright, rfl⟩, ?_⟩
        rw [BinaryOp.evaluate?_eq_checked hleft.inRange_value hpos]
        exact Word.checked_eq_some_iff.mpr ⟨hword, rfl⟩

end Evaluation

/-- Evaluation is exact.  For words as inputs and constants and positive divisors there is a result
exactly if every position has a value and the exact value of every part is a word, and it is then
the exact value of the expression; quotients are those of rational numbers, rounded down or up,
and remainders are what is left of them.  In particular quotients and remainders of words by
positive ones are found within the words. -/
theorem evaluate?_exact {e : Expr} {dims syms : List Int} (hdivisors : e.PositiveDivisors)
    (hconstants : e.HasWords) (hdims : ∀ x ∈ dims, Word.InRange x)
    (hsyms : ∀ x ∈ syms, Word.InRange x) :
    (∀ result, e.evaluate? dims syms = some result ↔
      ((∀ position, e.usesDim position → position < dims.length) ∧
        (∀ position, e.usesSym position → position < syms.length) ∧
        ∀ part ∈ e.postorder, Word.InRange (part.value (.ofLists dims syms))) ∧
      result = e.value (.ofLists dims syms)) ∧
    (∀ op lhs rhs, binary op lhs rhs ∈ e.postorder → ∀ point,
      (binary op lhs rhs).value point = op.meaning (lhs.value point) (rhs.value point)) ∧
    ∀ a b, Word.InRange a → Word.InRange b → 0 < b →
      Word.floorDiv? a b = some ⌊(a : ℚ) / b⌋ ∧
      Word.ceilDiv? a b = some ⌈(a : ℚ) / b⌉ ∧
      ∃ rest, Word.remainder? a b = some rest ∧ 0 ≤ rest ∧ rest < b ∧
        a = b * ⌊(a : ℚ) / b⌋ + rest := by
  refine ⟨fun result => ?_, fun op lhs rhs hpart => value_eq_meaning hdivisors hpart, ?_⟩
  · rw [evaluate?_eq_some_iff hdivisors hconstants hdims hsyms, Computes, InRange, within_iff]
    tauto
  · intro a b ha hb hpos
    rw [← Word.ediv_eq_floor hpos, ← Word.ceilDiv_eq_ceil hpos]
    exact ⟨Word.floorDiv?_of_inRange hpos ha, Word.ceilDiv?_of_inRange hpos ha, a % b,
      Word.remainder?_of_inRange hpos hb, Int.emod_nonneg a hpos.ne', Int.emod_lt_of_pos a hpos,
      (Int.mul_ediv_add_emod a b).symm⟩

/-- The expression `(d0 ceildiv 2 + d0 mod 3) floordiv 5 + s0 * -1`. -/
def roundedHalf : Expr :=
  binary .add
    (binary .floorDiv (binary .add (binary .ceilDiv (dim 0) (const 2))
      (binary .mod (dim 0) (const 3))) (const 5))
    (binary .mul (sym 0) (const (-1)))

/-- The smallest word is divided without harm, but it has no negation. -/
theorem evaluate?_exact_smallestWord :
    roundedHalf.evaluate? [Word.minValue] [1] = some (-922337203685477582) ∧
    roundedHalf.evaluate? [1] [Word.minValue] = none := by
  have haffine : roundedHalf.IsAffine :=
    ⟨isAffine_division rfl ⟨isAffine_division rfl trivial (by decide),
      isAffine_division rfl trivial (by decide), rfl⟩ (by decide), isAffine_mul_const trivial, rfl⟩
  have hdivisors := (isAffine_iff.mp haffine).2
  have hpositions := within_iff.mp (show roundedHalf.InRange 1 1 by decide)
  constructor
  · exact ((evaluate?_exact hdivisors (by decide) (by decide) (by decide)).1 _).mpr
      ⟨⟨hpositions.1, hpositions.2, by decide⟩, by decide⟩
  · rw [Option.eq_none_iff_forall_not_mem]
    intro result hresult
    have hparts := (((evaluate?_exact hdivisors (by decide) (by decide) (by decide)).1 _).mp
      hresult).1.2.2
    exact absurd (hparts (binary .mul (sym 0) (const (-1))) (by decide)) (by decide)

end AffineLoops.Expr
