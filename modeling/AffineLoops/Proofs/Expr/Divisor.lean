import AffineLoops.Expr.Divisor
import AffineLoops.Proofs.Expr.Evaluation

/-!
# Known divisors divide

The known divisor of an expression is read off its shape, as an unsigned word.  A product has the
product of the divisors of its factors, and where that is too large the largest unsigned word
stands in for it, which in general divides nothing.  This is sound because the value has to be a
word as well: a product of two numbers that are not zero is at least as large as the product
of their divisors, so a product whose divisor is cut off evaluates to zero or not at all
(`saturatingMul_dvd`).  Every other operator keeps what it knows (`dvd_apply_quotient`,
`dvd_apply_mod`), and so does a whole evaluation (`knownDivisor_dvd`).
-/

namespace AffineLoops

theorem Word.natAbs_le_maxUnsigned {value : Int} (h : Word.InRange value) :
    value.natAbs ≤ Word.maxUnsigned := by
  unfold Word.InRange Word.minValue Word.maxValue at h
  unfold Word.maxUnsigned
  omega

/-- The cut off product of two divisors divides every product that is a word. -/
theorem Word.saturatingMul_dvd {m n : Nat} {a b : Int} (ha : (m : Int) ∣ a) (hb : (n : Int) ∣ b)
    (hword : Word.InRange (a * b)) : (Word.saturatingMul m n : Int) ∣ a * b := by
  have hdvd : m * n ∣ (a * b).natAbs := by
    rw [Int.natAbs_mul]
    exact Nat.mul_dvd_mul (Int.natCast_dvd.mp ha) (Int.natCast_dvd.mp hb)
  unfold Word.saturatingMul
  split
  · exact Int.natCast_dvd.mpr hdvd
  · rename_i hlarge
    have hzero : (a * b).natAbs = 0 := by
      by_contra hne
      have hle := Nat.le_of_dvd (Nat.pos_of_ne_zero hne) hdvd
      exact hlarge (hle.trans (Word.natAbs_le_maxUnsigned hword))
    rw [Int.natAbs_eq_zero.mp hzero]
    exact Int.dvd_zero _

namespace BinaryOp

variable {m : Nat} {a divisor : Int}

/-- A divisor that the divisor of a quotient divides is divided by it. -/
theorem dvd_apply_quotient {op : BinaryOp} (hop : op.isDivision) (hmod : op ≠ .mod)
    (hdivisor : 0 < divisor) (ha : (m : Int) ∣ a) (hm : m % divisor.natAbs = 0) :
    ((m / divisor.natAbs : Nat) : Int) ∣ op.apply a divisor := by
  have habs : (divisor.natAbs : Int) = divisor := Int.natAbs_of_nonneg hdivisor.le
  have hcast : (m : Int) % divisor = 0 := by
    rw [← habs]
    exact_mod_cast hm
  obtain ⟨k, rfl⟩ := ha
  rw [mul_comm, apply_mul_of_emod_eq_zero hop hcast, if_neg hmod, Int.natCast_div, habs]
  exact Int.dvd_mul_left k _

theorem dvd_apply_mod (ha : (m : Int) ∣ a) :
    (Nat.gcd m divisor.natAbs : Int) ∣ apply .mod a divisor := by
  have hleft : (Nat.gcd m divisor.natAbs : Int) ∣ a :=
    (Int.natCast_dvd_natCast.mpr (Nat.gcd_dvd_left ..)).trans ha
  have hright : (Nat.gcd m divisor.natAbs : Int) ∣ divisor :=
    Int.natCast_dvd.mpr (Nat.gcd_dvd_right ..)
  rw [apply, Int.emod_def]
  exact Int.dvd_sub hleft (hright.mul_right _)

end BinaryOp

namespace Expr

variable {dims syms : List Int}

theorem knownDivisor_quotient_cases {op : BinaryOp} (hop : op.isDivision) (hmod : op ≠ .mod)
    (lhs rhs : Expr) :
    (binary op lhs rhs).knownDivisor = 1 ∨
      ∃ divisor, rhs = const divisor ∧ lhs.knownDivisor % divisor.natAbs = 0 ∧
        (binary op lhs rhs).knownDivisor = lhs.knownDivisor / divisor.natAbs := by
  cases op with
  | add | mul => cases hop
  | mod => exact absurd rfl hmod
  | floorDiv | ceilDiv =>
      cases rhs with
      | dim position | sym position | binary op' lhs' rhs' => exact .inl rfl
      | const divisor =>
          by_cases hknown : divisor ≠ 0 ∧ lhs.knownDivisor % divisor.natAbs = 0
          · exact .inr ⟨divisor, rfl, hknown.2, if_pos hknown⟩
          · exact .inl (if_neg hknown)

/-- The divisor of a quotient divides every value that the quotient has on words. -/
theorem knownDivisor_quotient_dvd {op : BinaryOp} {lhs rhs : Expr} {a b : Int}
    (hop : op.isDivision) (hmod : op ≠ .mod) (ha : (lhs.knownDivisor : Int) ∣ a)
    (hb : rhs.evaluate? dims syms = some b) (hpos : 0 < b) :
    ((binary op lhs rhs).knownDivisor : Int) ∣ op.apply a b := by
  rcases knownDivisor_quotient_cases hop hmod lhs rhs with hone | ⟨divisor, rfl, hknown, heq⟩
  · rw [hone]
    exact Int.one_dvd _
  · obtain rfl : divisor = b := Option.some.inj hb
    rw [heq]
    exact BinaryOp.dvd_apply_quotient hop hmod hpos ha hknown

/-- The known divisor of an expression divides every value that it has on words. -/
theorem knownDivisor_dvd {e : Expr} {result : Int} (h : e.evaluate? dims syms = some result) :
    (e.knownDivisor : Int) ∣ result := by
  induction e generalizing result with
  | dim position | sym position => exact Int.one_dvd _
  | const constant =>
      obtain rfl := Option.some.inj h
      exact Int.natAbs_dvd.mpr dvd_rfl
  | binary op lhs rhs ihl ihr =>
      obtain ⟨a, b, hlhs, hrhs, hresult⟩ := evaluate?_binary_eq_some_iff.mp h
      have hleft := ihl hlhs
      have hright := ihr hrhs
      obtain rfl := BinaryOp.eq_of_evaluate? hresult
      cases op with
      | add =>
          have hgcd :=
            Int.natCast_dvd_natCast.mpr (Nat.gcd_dvd_left lhs.knownDivisor rhs.knownDivisor)
          have hgcd' := Int.natCast_dvd_natCast.mpr
            (Nat.gcd_dvd_right lhs.knownDivisor rhs.knownDivisor)
          exact Int.dvd_add (hgcd.trans hleft) (hgcd'.trans hright)
      | mul => exact Word.saturatingMul_dvd hleft hright (Word.checked_eq_some_iff.mp hresult).1
      | mod =>
          cases rhs with
          | dim position | sym position | binary op' lhs' rhs' => exact Int.one_dvd _
          | const divisor =>
              obtain rfl : divisor = b := Option.some.inj hrhs
              exact BinaryOp.dvd_apply_mod hleft
      | floorDiv =>
          exact knownDivisor_quotient_dvd rfl (by simp) hleft hrhs (pos_of_evaluate? rfl hresult)
      | ceilDiv =>
          exact knownDivisor_quotient_dvd rfl (by simp) hleft hrhs (pos_of_evaluate? rfl hresult)

theorem dvd_knownDivisor_of_isMultipleOf {e : Expr} {factor : Nat} (h : e.isMultipleOf factor) :
    factor ∣ e.knownDivisor := by
  unfold isMultipleOf at h
  split at h
  · rename_i hzero
    rw [hzero, eq_of_beq h]
  · exact Nat.dvd_of_mod_eq_zero (eq_of_beq h)

/-- Known divisors divide.  Where an expression has a value on words, its known divisor divides that
value, and so does every number of which the expression is said to be a multiple.  The number zero
divides nothing but zero. -/
theorem isMultipleOf_sound {e : Expr} {result : Int} (h : e.evaluate? dims syms = some result) :
    ((e.knownDivisor : Int) ∣ result ∧ (e.knownDivisor = 0 → result = 0)) ∧
    ∀ factor, e.isMultipleOf factor → (factor : Int) ∣ result ∧ (factor = 0 → result = 0) := by
  have hzero {divisor : Nat} (hdvd : (divisor : Int) ∣ result) (heq : divisor = 0) :
      result = 0 := by
    rw [heq] at hdvd
    exact Int.zero_dvd.mp hdvd
  have hknown := knownDivisor_dvd h
  refine ⟨⟨hknown, hzero hknown⟩, fun factor hfactor => ?_⟩
  have hdvd : (factor : Int) ∣ result :=
    (Int.natCast_dvd_natCast.mpr (dvd_knownDivisor_of_isMultipleOf hfactor)).trans hknown
  exact ⟨hdvd, hzero hdvd⟩

/-- The expression `(d0 * 4294967296) * 4294967296 + s0 * 15`, whose product has a divisor that is
cut off. -/
def largeProduct : Expr :=
  binary .add
    (binary .mul (binary .mul (dim 0) (const 4294967296)) (const 4294967296))
    (binary .mul (sym 0) (const 15))

theorem isMultipleOf_sound_largeProduct :
    (binary .mul (binary .mul (dim 0) (const 4294967296)) (const 4294967296)).knownDivisor =
      Word.maxUnsigned ∧
    largeProduct.isMultipleOf 5 ∧
    largeProduct.evaluate? [0] [2] = some 30 ∧ (5 : Int) ∣ 30 := by
  have hvalue : largeProduct.evaluate? [0] [2] = some 30 := by decide
  have hmultiple : largeProduct.isMultipleOf 5 := by decide
  exact ⟨by decide, hmultiple, hvalue, ((isMultipleOf_sound hvalue).2 5 hmultiple).1⟩

end Expr

end AffineLoops
