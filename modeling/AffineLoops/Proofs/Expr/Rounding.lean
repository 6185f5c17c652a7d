import AffineLoops.Expr.Basic
import Mathlib.Data.Rat.Floor
import Mathlib.Tactic.Linarith
import Mathlib.Tactic.Ring

/-!
# Rounded quotients of words

Words are divided toward zero.  A quotient that is to be rounded down or up is corrected by one
where something is left over, and a remainder that is negative grows by the divisor.  For a
positive divisor this gives the floor, the ceiling and the remainder that is not negative
(`ediv_eq_tdiv`, `ceilDiv_eq_tdiv`, `emod_eq_tmod`), and no step of it leaves the range of words:
a quotient is at most one step further from the dividend divided exactly, and so at most as large
as the dividend (`inRange_quotient`).

So quotients and remainders of words are exact (`floorDiv?_of_inRange` and its companions), and
every operator on words gives its exact result whenever this is a word (`evaluate?_eq_checked`).
`BinaryOp.meaning` says what exact means, with quotients of rational numbers.
-/

namespace AffineLoops

namespace Word

theorem checked_eq_some_iff {value result : Int} :
    checked value = some result ↔ InRange value ∧ value = result := by
  unfold checked
  split <;> simp_all

theorem inRange_zero : InRange 0 := by decide

theorem eq_of_checked {value result : Int} (h : checked value = some result) : value = result :=
  (checked_eq_some_iff.mp h).2

theorem wrap_of_le {value : Nat} (h : value ≤ maxUnsigned) : wrap value = value :=
  Nat.mod_eq_of_lt (Nat.lt_succ_of_le h)

theorem advance_of_le {shift position : Nat} (h : position + shift ≤ maxUnsigned) :
    advance shift position = position + shift :=
  wrap_of_le h

theorem eq_of_add? {a b sum : Int} (h : add? a b = some sum) : a + b = sum :=
  eq_of_checked h

theorem eq_of_mul? {a b product : Int} (h : mul? a b = some product) : a * b = product :=
  eq_of_checked h

/-! ## Rounding toward zero -/

section Rounding

variable {a b : Int} (hb : 0 < b)

include hb

theorem ediv_eq_tdiv :
    a / b = if a.tmod b ≠ 0 ∧ a < 0 then a.tdiv b + -1 else a.tdiv b := by
  have htdiv : a.tdiv b = a / b + if 0 ≤ a ∨ b ∣ a then 0 else 1 := by
    rw [Int.tdiv_eq_ediv, Int.sign_eq_one_of_pos hb]
  have hleft : a.tmod b ≠ 0 ↔ ¬ b ∣ a := not_congr Int.dvd_iff_tmod_eq_zero.symm
  by_cases hneg : a < 0
  · by_cases hdvd : b ∣ a
    · rw [if_neg fun h => hleft.mp h.1 hdvd, htdiv, if_pos (.inr hdvd), add_zero]
    · rw [if_pos ⟨hleft.mpr hdvd, hneg⟩, htdiv, if_neg (by simp [hneg, hdvd])]
      ring
  · rw [if_neg fun h => hneg h.2, htdiv, if_pos (.inl (not_lt.mp hneg)), add_zero]

theorem ceilDiv_eq_tdiv :
    ceilDiv a b = if a.tmod b ≠ 0 ∧ ¬ a < 0 then a.tdiv b + 1 else a.tdiv b := by
  rw [ceilDiv, ediv_eq_tdiv hb, Int.neg_tmod, Int.neg_tdiv]
  by_cases hleft : a.tmod b = 0
  · simp [hleft]
  · -- something is left over, so the dividend is not zero and has one of the two signs
    have hne : a ≠ 0 := by
      rintro rfl
      exact hleft (Int.zero_tmod b)
    rcases lt_or_gt_of_ne hne with hneg | hpos
    · rw [if_neg (by omega), if_neg (by omega), neg_neg]
    · rw [if_pos (by omega), if_pos (by omega)]
      ring

theorem emod_eq_tmod : a % b = if a.tmod b < 0 then a.tmod b + b.natAbs else a.tmod b := by
  have htmod := Int.tmod_eq_emod (a := a) (b := b)
  have hnonneg : 0 ≤ a % b := Int.emod_nonneg a hb.ne'
  have hlt : a % b < b := Int.emod_lt_of_pos a hb
  split at htmod <;> split <;> omega

/-! ## The range of quotients -/

/-- A quotient of a word is a word, whichever way it is rounded. -/
theorem inRange_quotient {quotient : Int} (ha : InRange a) (hlow : (quotient - 1) * b < a)
    (hhigh : a < (quotient + 1) * b) : InRange quotient := by
  obtain ⟨hmin, hmax⟩ := ha
  constructor
  · by_contra hlt
    have hnonpos : quotient + 1 ≤ 0 := le_trans (by omega) (show minValue ≤ 0 by decide)
    have hmul : (quotient + 1) * b ≤ quotient + 1 := by nlinarith
    omega
  · by_contra hgt
    have hnonneg : 0 ≤ quotient - 1 := le_trans (show 0 ≤ maxValue by decide) (by omega)
    have hmul : quotient - 1 ≤ (quotient - 1) * b := by nlinarith
    omega

theorem inRange_tdiv (ha : InRange a) : InRange (a.tdiv b) := by
  have hsum := Int.tdiv_mul_add_tmod a b
  have hlow := Int.lt_tmod_of_pos a hb
  have hhigh := Int.tmod_lt_of_pos a hb
  refine inRange_quotient hb ha ?_ ?_ <;> linarith

theorem inRange_ediv (ha : InRange a) : InRange (a / b) := by
  have hsum := Int.ediv_mul_add_emod a b
  have hlow := Int.emod_nonneg a hb.ne'
  have hhigh := Int.emod_lt_of_pos a hb
  refine inRange_quotient hb ha ?_ ?_ <;> linarith

theorem inRange_ceilDiv (ha : InRange a) : InRange (ceilDiv a b) := by
  have hsum := Int.ediv_mul_add_emod (-a) b
  have hlow := Int.emod_nonneg (-a) hb.ne'
  have hhigh := Int.emod_lt_of_pos (-a) hb
  unfold ceilDiv
  refine inRange_quotient hb ha ?_ ?_ <;> linarith

theorem inRange_emod (hb' : InRange b) : InRange (a % b) := by
  have hlow := Int.emod_nonneg a hb.ne'
  have hhigh := Int.emod_lt_of_pos a hb
  unfold InRange minValue at *
  omega

/-! ## Division of words -/

omit hb in
theorem roundedDiv?_eq (correction : Int) (asked : Bool) :
    roundedDiv? a b correction asked = (checked (a.tdiv b)).bind fun _ =>
      checked (if a.tmod b ≠ 0 ∧ asked then a.tdiv b + correction else a.tdiv b) := by
  unfold roundedDiv?
  cases hquotient : checked (a.tdiv b) with
  | none => rfl
  | some quotient =>
      obtain ⟨-, rfl⟩ := checked_eq_some_iff.mp hquotient
      dsimp only [Option.bind_some]
      split
      · rfl
      · exact hquotient.symm

theorem floorDiv?_eq : floorDiv? a b = (checked (a.tdiv b)).bind fun _ => checked (a / b) := by
  have hsign : (decide (a < 0) != decide (b < 0)) = decide (a < 0) := by
    rw [decide_eq_false (not_lt.mpr hb.le), Bool.bne_false]
  simp only [floorDiv?, roundedDiv?_eq, ediv_eq_tdiv hb, hsign, decide_eq_true_eq]

theorem ceilDiv?_eq :
    ceilDiv? a b = (checked (a.tdiv b)).bind fun _ => checked (ceilDiv a b) := by
  have hsign : (decide (a < 0) == decide (b < 0)) = decide (¬ a < 0) := by
    rw [decide_eq_false (not_lt.mpr hb.le), beq_false, decide_not]
  simp only [ceilDiv?, roundedDiv?_eq, ceilDiv_eq_tdiv hb, hsign, decide_eq_true_eq]

theorem remainder?_eq : remainder? a b = checked (a % b) := by
  rw [remainder?, emod_eq_tmod hb]
  split <;> rfl

theorem floorDiv?_of_inRange (ha : InRange a) : floorDiv? a b = some (a / b) := by
  have hquotient := checked_eq_some_iff.mpr ⟨inRange_tdiv hb ha, rfl⟩
  have hfloor := checked_eq_some_iff.mpr ⟨inRange_ediv hb ha, rfl⟩
  rw [floorDiv?_eq hb, hquotient, Option.bind_some, hfloor]

theorem ceilDiv?_of_inRange (ha : InRange a) : ceilDiv? a b = some (ceilDiv a b) := by
  have hquotient := checked_eq_some_iff.mpr ⟨inRange_tdiv hb ha, rfl⟩
  have hceil := checked_eq_some_iff.mpr ⟨inRange_ceilDiv hb ha, rfl⟩
  rw [ceilDiv?_eq hb, hquotient, Option.bind_some, hceil]

theorem remainder?_of_inRange (hb' : InRange b) : remainder? a b = some (a % b) := by
  rw [remainder?_eq hb]
  exact checked_eq_some_iff.mpr ⟨inRange_emod hb hb', rfl⟩

/-! ## Quotients of rational numbers -/

theorem ediv_eq_floor : a / b = ⌊(a : ℚ) / b⌋ := by
  have hb' : (0 : ℚ) < b := by exact_mod_cast hb
  refine eq_of_forall_le_iff fun k => ?_
  rw [Int.le_ediv_iff_mul_le hb, Int.le_floor, le_div_iff₀ hb']
  exact_mod_cast Iff.rfl

theorem lt_ceilDiv_iff {k : Int} : k < ceilDiv a b ↔ k * b < a := by
  rw [ceilDiv, lt_neg, Int.ediv_lt_iff_lt_mul hb, neg_mul, neg_lt_neg_iff]

theorem ceilDiv_eq_ceil : ceilDiv a b = ⌈(a : ℚ) / b⌉ := by
  have hb' : (0 : ℚ) < b := by exact_mod_cast hb
  refine eq_of_forall_lt_iff fun k => ?_
  rw [lt_ceilDiv_iff hb, Int.lt_ceil, lt_div_iff₀ hb']
  exact_mod_cast Iff.rfl

end Rounding

end Word

/-! ## Operators -/

namespace BinaryOp

/-- The operators over the integers, with quotients of rational numbers. -/
def meaning : BinaryOp → Int → Int → Int
  | add, a, b => a + b
  | mul, a, b => a * b
  | mod, a, b => a - b * ⌊(a : ℚ) / b⌋
  | floorDiv, a, b => ⌊(a : ℚ) / b⌋
  | ceilDiv, a, b => ⌈(a : ℚ) / b⌉

theorem apply_eq_meaning {op : BinaryOp} {a b : Int} (hpos : op.isDivision → 0 < b) :
    op.apply a b = op.meaning a b := by
  cases op with
  | add | mul => rfl
  | floorDiv => exact Word.ediv_eq_floor (hpos rfl)
  | ceilDiv => exact Word.ceilDiv_eq_ceil (hpos rfl)
  | mod =>
      have hfloor := Word.ediv_eq_floor (a := a) (hpos rfl)
      rw [meaning, ← hfloor]
      exact Int.emod_def a b

variable {op : BinaryOp} {a b : Int}

/-- A quotient or remainder of a word is a word. -/
theorem inRange_apply (hop : op.isDivision) (ha : Word.InRange a) (hb : Word.InRange b)
    (hpos : 0 < b) : Word.InRange (op.apply a b) := by
  cases op with
  | add | mul => cases hop
  | mod => exact Word.inRange_emod hpos hb
  | floorDiv => exact Word.inRange_ediv hpos ha
  | ceilDiv => exact Word.inRange_ceilDiv hpos ha

/-- A result on words is the exact one. -/
theorem eq_of_evaluate? {result : Int} (h : op.evaluate? a b = some result) :
    op.apply a b = result := by
  have hbind {quotient exact : Int}
      (h : ((Word.checked quotient).bind fun _ => Word.checked exact) = some result) :
      exact = result := by
    obtain ⟨_, -, hexact⟩ := Option.bind_eq_some_iff.mp h
    exact Word.eq_of_checked hexact
  unfold evaluate? at h
  split at h
  · cases h
  · rename_i hdivisor
    cases op with
    | add | mul => exact Word.eq_of_checked h
    | mod =>
        have hpos : 0 < b := by simpa [isDivision] using hdivisor
        exact Word.eq_of_checked ((Word.remainder?_eq hpos).symm.trans h)
    | floorDiv =>
        have hpos : 0 < b := by simpa [isDivision] using hdivisor
        exact hbind ((Word.floorDiv?_eq hpos).symm.trans h)
    | ceilDiv =>
        have hpos : 0 < b := by simpa [isDivision] using hdivisor
        exact hbind ((Word.ceilDiv?_eq hpos).symm.trans h)

/-- On words, an operator gives its exact result if that is a word and nothing otherwise. -/
theorem evaluate?_eq_checked (ha : Word.InRange a) (hpos : op.isDivision → 0 < b) :
    op.evaluate? a b = Word.checked (op.apply a b) := by
  have hdivisor : ¬ (op.isDivision && decide (b ≤ 0)) = true := by
    simpa using fun hop => hpos hop
  have hword {result : Int} (h : Word.InRange result) : some result = Word.checked result :=
    (Word.checked_eq_some_iff.mpr ⟨h, rfl⟩).symm
  unfold evaluate?
  rw [if_neg hdivisor]
  cases op with
  | add | mul => rfl
  | mod => exact Word.remainder?_eq (hpos rfl)
  | floorDiv =>
      exact (Word.floorDiv?_of_inRange (hpos rfl) ha).trans
        (hword (Word.inRange_ediv (hpos rfl) ha))
  | ceilDiv =>
      exact (Word.ceilDiv?_of_inRange (hpos rfl) ha).trans
        (hword (Word.inRange_ceilDiv (hpos rfl) ha))

end BinaryOp

end AffineLoops
