import AffineLoops.Expr.Printer
import AffineLoops.Proofs.Expr.Value

/-!
# Texts of expressions can be read

The text of an expression drops parentheses, flattens sums that are nested to the right, writes a
product with `-1` as a prefix and negative summands as differences.  So different expressions have
the same text, but never two of different meaning: a text has a reading of its own, which does not
know the expression.

An `Interpretation` gives a meaning to numbers, names and operators.  Of sums and products it has to
satisfy only what a text takes for granted, so that it may also give no value to an expression with
a divisor that is not positive (`Expr.value?`).

A text is read character by character (`Reading.step`).  The reader knows the meaning of the terms
before the current one, whether the current term is subtracted, and its left operand and operator
once they are read; a parenthesis starts a new sum and keeps the old one on a stack.  Prefixes bind
more strongly than operators, operators other than sums are not repeated without parentheses, and
terms are added up from left to right.

What a reader does with a text is said for three kinds of texts, from the strongest to the weakest:

* `ReadsOperand`: numbers, names, texts in parentheses, and such texts with a prefix;
* `ReadsTerm`: also two operands with an operator in between, with any sign in front;
* `ReadsSum`: also sums and differences of terms, where nothing but a plus may stand in front.

`readsIn_renderIn` shows that an expression is read as an operand in a strong place and as a sum in
a weak one, by induction along the printer, and `read_render` that what is read is the meaning of
the expression.
-/

namespace AffineLoops

/-! ## Meanings of expressions -/

/-- A meaning for expressions. -/
structure Interpretation (D : Type) where
  dim : Nat → D
  sym : Nat → D
  const : Int → D
  neg : D → D
  apply : BinaryOp → D → D → D
  neg_neg : ∀ x, neg (neg x) = x
  neg_const : ∀ c, neg (const c) = const (-c)
  zero_add : ∀ x, apply .add (const 0) x = x
  add_assoc : ∀ x y z, apply .add (apply .add x y) z = apply .add x (apply .add y z)
  mul_neg_one : ∀ x, apply .mul x (const (-1)) = neg x
  mul_neg : ∀ x c, apply .mul x (const (-c)) = neg (apply .mul x (const c))

namespace Expr

variable {D : Type}

/-- What an expression means. -/
def eval (meaning : Interpretation D) : Expr → D
  | dim position => meaning.dim position
  | sym position => meaning.sym position
  | const value => meaning.const value
  | binary op lhs rhs => meaning.apply op (eval meaning lhs) (eval meaning rhs)

/-- The exact value of an expression at a point.  There is none if a divisor is not positive. -/
def value? (point : Point) : Expr → Option Int
  | dim position => some (point.dim position)
  | sym position => some (point.sym position)
  | const value => some value
  | binary op lhs rhs =>
      (value? point lhs).bind fun a => (value? point rhs).bind fun b =>
        if op.isDivision && b ≤ 0 then none else some (op.apply a b)

end Expr

namespace Interpretation

/-- Expressions mean their values at a point. -/
def exact (point : Point) : Interpretation Int where
  dim := point.dim
  sym := point.sym
  const := fun value => value
  neg := fun a => -a
  apply := BinaryOp.apply
  neg_neg := Int.neg_neg
  neg_const _ := rfl
  zero_add := Int.zero_add
  add_assoc := Int.add_assoc
  mul_neg_one := Int.mul_neg_one
  mul_neg := Int.mul_neg

/-- Expressions mean their values at a point if all divisors are positive. -/
def guarded (point : Point) : Interpretation (Option Int) where
  dim position := some (point.dim position)
  sym position := some (point.sym position)
  const := some
  neg := Option.map fun a => -a
  apply op x y := x.bind fun a => y.bind fun b =>
    if op.isDivision && b ≤ 0 then none else some (op.apply a b)
  neg_neg x := by cases x <;> simp
  neg_const _ := rfl
  zero_add x := by cases x <;> simp [BinaryOp.isDivision, BinaryOp.apply]
  add_assoc x y z := by
    cases x <;> cases y <;> cases z <;> simp [BinaryOp.isDivision, BinaryOp.apply, Int.add_assoc]
  mul_neg_one x := by cases x <;> simp [BinaryOp.isDivision, BinaryOp.apply]
  mul_neg x c := by cases x <;> simp [BinaryOp.isDivision, BinaryOp.apply]

variable {D : Type} (meaning : Interpretation D)

theorem eval_exact (point : Point) (e : Expr) : e.eval (exact point) = e.value point := by
  induction e with
  | dim position => rfl
  | sym position => rfl
  | const value => rfl
  | binary op lhs rhs ihlhs ihrhs =>
      rw [Expr.eval, ihlhs, ihrhs, Expr.value_binary]
      rfl

theorem eval_guarded (point : Point) (e : Expr) : e.eval (guarded point) = e.value? point := by
  induction e with
  | dim position => rfl
  | sym position => rfl
  | const value => rfl
  | binary op lhs rhs ihlhs ihrhs =>
      rw [Expr.eval, ihlhs, ihrhs, Expr.value?]
      rfl

/-- What a text means after a minus, or after none. -/
def signed (negative : Bool) (x : D) : D := if negative then meaning.neg x else x

theorem signed_not (negative : Bool) (x : D) :
    meaning.signed (!negative) x = meaning.signed negative (meaning.neg x) := by
  cases negative with
  | false => rfl
  | true => exact (meaning.neg_neg x).symm

end Interpretation

namespace Reading

/-! ## The reader -/

section Reader

variable (D : Type)

/-- A sum up to the operand that is read at the moment. -/
structure PartialSum where
  /-- The meaning of the terms before the current one. -/
  total : D
  /-- Whether the current term is subtracted. -/
  negative : Bool
  /-- The operator of the current term and its left operand. -/
  pending : Option (BinaryOp × D)

/-- What is read at the moment. -/
inductive Focus where
  /-- An operand begins, with or without a minus from the prefixes before it. -/
  | start (negative : Bool)
  /-- A number of which more digits may follow, and what it stands for. -/
  | digits (name : Nat → D) (number : Nat)
  /-- An operand has ended. -/
  | operand (value : D)
  /-- An operator after an operand, as far as it is read. -/
  | operator (operand : D) (letters : List Char)

/-- A reader of texts. -/
structure State where
  /-- The sums around the current one, with the prefixes of the parentheses in them. -/
  stack : List (PartialSum D × Bool)
  sum : PartialSum D
  focus : Focus D

end Reader

variable {D : Type}

namespace PartialSum

variable (meaning : Interpretation D)

/-- The sum before its first term. -/
def empty : PartialSum D := ⟨meaning.const 0, false, none⟩

/-- The meaning of the sum if it ends with an operand. -/
def close (sum : PartialSum D) (operand : D) : D :=
  meaning.apply .add sum.total <| meaning.signed sum.negative <|
    match sum.pending with
    | none => operand
    | some (op, lhs) => meaning.apply op lhs operand

/-- The sum after an operand and an operator. -/
def extend? (sum : PartialSum D) (operand : D) (operator : List Char) : Option (PartialSum D) :=
  if operator = ['+'] then some ⟨sum.close meaning operand, false, none⟩
  else if operator = ['-'] then some ⟨sum.close meaning operand, true, none⟩
  else
    let op? := [BinaryOp.mul, .mod, .floorDiv, .ceilDiv].find? (·.symbol.toList = operator)
    match sum.pending, op? with
    | none, some op => some { sum with pending := some (op, operand) }
    | _, _ => none

end PartialSum

/-- The meaning of an operand that may end here. -/
def Focus.value? : Focus D → Option D
  | start _ => none
  | digits name number => some (name number)
  | operand value => some value
  | operator _ _ => none

variable (meaning : Interpretation D)

/-- Reads a character that ends an operand. -/
def State.endOperand (state : State D) (operand : D) : Char → Option (State D)
  | ' ' => some { state with focus := .operator operand [] }
  | ')' =>
      match state.stack with
      | [] => none
      | (sum, negative) :: stack =>
          some ⟨stack, sum, .operand (meaning.signed negative (state.sum.close meaning operand))⟩
  | _ => none

/-- The number that a digit stands for. -/
def digit (c : Char) : Nat := c.toNat - '0'.toNat

/-- Reads one character. -/
def step (state : State D) (c : Char) : Option (State D) :=
  match state.focus with
  | .start negative =>
      let name (named : Nat → D) (number : Nat) := meaning.signed negative (named number)
      if c.isDigit then
        some { state with focus := .digits (name fun number => meaning.const number) (digit c) }
      else
        match c with
        | '-' => some { state with focus := .start (!negative) }
        | '(' => some ⟨(state.sum, negative) :: state.stack, .empty meaning, .start false⟩
        | 'd' => some { state with focus := .digits (name meaning.dim) 0 }
        | 's' => some { state with focus := .digits (name meaning.sym) 0 }
        | _ => none
  | .digits name number =>
      if c.isDigit then some { state with focus := .digits name (10 * number + digit c) }
      else state.endOperand meaning (name number) c
  | .operand value => state.endOperand meaning value c
  | .operator operand letters =>
      if c = ' ' then
        (state.sum.extend? meaning operand letters).map fun sum =>
          { state with sum, focus := .start false }
      else some { state with focus := .operator operand (letters ++ [c]) }

/-- Reads a text. -/
def run (state : State D) (text : String) : Option (State D) :=
  text.toList.foldlM (step meaning) state

/-- The meaning of a text. -/
def read (text : String) : Option D :=
  match run meaning ⟨[], .empty meaning, .start false⟩ text with
  | some ⟨[], sum, focus⟩ => focus.value?.map (sum.close meaning)
  | _ => none

/-! ## Steps -/

variable {meaning} {state state' : State D} {stack : List (PartialSum D × Bool)}
  {sum sum' : PartialSum D} {focus : Focus D} {text text' : String} {x y : D} {c : Char}

theorem step_first_digit (h : c.isDigit) (negative : Bool) :
    step meaning ⟨stack, sum, .start negative⟩ c =
      some ⟨stack, sum, .digits (fun number => meaning.signed negative (meaning.const number))
        (digit c)⟩ := if_pos h

theorem step_digit (h : c.isDigit) (name : Nat → D) (number : Nat) :
    step meaning ⟨stack, sum, .digits name number⟩ c =
      some ⟨stack, sum, .digits name (10 * number + digit c)⟩ := if_pos h

theorem step_space (h : focus.value? = some x) :
    step meaning ⟨stack, sum, focus⟩ ' ' = some ⟨stack, sum, .operator x []⟩ := by
  cases focus <;> cases h <;> rfl

theorem step_close (h : focus.value? = some x) (outer : PartialSum D) (negative : Bool) :
    step meaning ⟨(outer, negative) :: stack, sum, focus⟩ ')' =
      some ⟨stack, outer, .operand (meaning.signed negative (sum.close meaning x))⟩ := by
  cases focus <;> cases h <;> rfl

theorem step_letter (h : c ≠ ' ') (letters : List Char) :
    step meaning ⟨stack, sum, .operator x letters⟩ c =
      some ⟨stack, sum, .operator x (letters ++ [c])⟩ := if_neg h

theorem step_operator {operator : List Char} (h : sum.extend? meaning x operator = some sum') :
    step meaning ⟨stack, sum, .operator x operator⟩ ' ' = some ⟨stack, sum', .start false⟩ := by
  have hstep : step meaning ⟨stack, sum, .operator x operator⟩ ' ' =
      (sum.extend? meaning x operator).map fun sum => ⟨stack, sum, .start false⟩ := rfl
  rw [hstep, h]
  rfl

/-! ## Parts of texts -/

theorem run_append (h : run meaning state text = some state') :
    run meaning state (text ++ text') = run meaning state' text' := by
  unfold run at h ⊢
  rw [String.toList_append, List.foldlM_append, h]
  rfl

theorem run_single (htext : text.toList = [c]) (h : step meaning state c = some state') :
    run meaning state text = some state' := by
  rw [run, htext, List.foldlM_cons, h]
  rfl

theorem foldlM_digits {digits : List Char} (h : ∀ c ∈ digits, c.isDigit) (name : Nat → D)
    (number : Nat) :
    digits.foldlM (step meaning) ⟨stack, sum, .digits name number⟩ =
      some ⟨stack, sum, .digits name (Nat.ofDigitChars 10 digits number)⟩ := by
  induction digits generalizing number with
  | nil => rfl
  | cons c digits ih =>
      rw [List.foldlM_cons, step_digit (h c List.mem_cons_self), Nat.ofDigitChars_cons]
      exact ih (fun d hd => h d (List.mem_cons_of_mem c hd)) _

theorem isDigit_of_mem_repr (number : Nat) : ∀ c ∈ number.repr.toList, c.isDigit := by
  intro c hc
  rw [Nat.toList_repr] at hc
  exact Nat.isDigit_of_mem_toDigits (by decide) (by decide) hc

theorem ofDigitChars_repr (number : Nat) : Nat.ofDigitChars 10 number.repr.toList 0 = number := by
  rw [Nat.toList_repr]
  exact Nat.ofDigitChars_toDigits (by decide) (by decide)

/-- After the first letter of a name, its digits are read. -/
theorem run_position (name : Nat → D) (position : Nat) :
    run meaning ⟨stack, sum, .digits name 0⟩ position.repr =
      some ⟨stack, sum, .digits name position⟩ := by
  rw [run, foldlM_digits (isDigit_of_mem_repr position), ofDigitChars_repr]

theorem run_number (negative : Bool) (number : Nat) :
    run meaning ⟨stack, sum, .start negative⟩ number.repr =
      some ⟨stack, sum, .digits (fun number => meaning.signed negative (meaning.const number))
        number⟩ := by
  have hdigits := isDigit_of_mem_repr number
  have hvalue := ofDigitChars_repr number
  unfold run
  cases hchars : number.repr.toList with
  | nil => exact absurd (Nat.toList_repr.symm.trans hchars) Nat.toDigits_ne_nil
  | cons c rest =>
      rw [hchars] at hdigits hvalue
      rw [List.foldlM_cons, step_first_digit (hdigits c List.mem_cons_self)]
      refine (foldlM_digits (fun d hd => hdigits d (List.mem_cons_of_mem c hd)) _ _).trans ?_
      rw [Nat.ofDigitChars_cons, Nat.mul_zero, Nat.zero_add] at hvalue
      rw [digit, hvalue]

theorem foldlM_letters {letters : List Char} (h : ' ' ∉ letters) (before : List Char) :
    letters.foldlM (step meaning) ⟨stack, sum, .operator x before⟩ =
      some ⟨stack, sum, .operator x (before ++ letters)⟩ := by
  induction letters generalizing before with
  | nil => simp
  | cons c letters ih =>
      obtain ⟨hc, hletters⟩ := not_or.mp (mt List.mem_cons.mpr h)
      rw [List.foldlM_cons, step_letter (Ne.symm hc)]
      refine (ih hletters _).trans ?_
      simp

/-- After a text that ends with an operand, an operator between blanks is read and then what
follows. -/
theorem run_append_operator {operator : String}
    (h : run meaning state text = some ⟨stack, sum, focus⟩) (hfocus : focus.value? = some x)
    (hletters : ' ' ∉ operator.toList)
    (hextend : sum.extend? meaning x operator.toList = some sum') :
    run meaning state (text ++ (" " ++ operator ++ " " ++ text')) =
      run meaning ⟨stack, sum', .start false⟩ text' := by
  have hletters' : run meaning ⟨stack, sum, .operator x []⟩ operator =
      some ⟨stack, sum, .operator x operator.toList⟩ := foldlM_letters hletters []
  rw [run_append h, String.append_assoc, String.append_assoc,
    run_append (run_single rfl (step_space hfocus)), run_append hletters',
    run_append (run_single rfl (step_operator hextend))]

/-! ## Operands, terms and sums -/

/-- A text is read as an operand, whatever stands in front of it. -/
def ReadsOperand (meaning : Interpretation D) (text : String) (x : D) : Prop :=
  ∀ stack sum negative, ∃ focus,
    run meaning ⟨stack, sum, .start negative⟩ text = some ⟨stack, sum, focus⟩ ∧
      focus.value? = some (meaning.signed negative x)

/-- A text is read as the rest of a sum, of which the first term is subtracted or not. -/
def ReadsRest (negative : Bool) (meaning : Interpretation D) (text : String) (x : D) : Prop :=
  ∀ stack total, ∃ sum focus operand,
    run meaning ⟨stack, ⟨total, negative, none⟩, .start false⟩ text = some ⟨stack, sum, focus⟩ ∧
      focus.value? = some operand ∧
      sum.close meaning operand = meaning.apply .add total (meaning.signed negative x)

/-- A text is read as one term, whether it is subtracted or not. -/
def ReadsTerm (meaning : Interpretation D) (text : String) (x : D) : Prop :=
  ∀ negative, ReadsRest negative meaning text x

/-- A text is read as a sum.  After a minus only its first term would be subtracted. -/
def ReadsSum : Interpretation D → String → D → Prop := ReadsRest false

variable {l r : String}

theorem readsOperand_number (number : Nat) :
    ReadsOperand meaning number.repr (meaning.const number) :=
  fun _ _ negative => ⟨_, run_number negative number, rfl⟩

theorem readsOperand_dim (position : Nat) :
    ReadsOperand meaning ("d" ++ position.repr) (meaning.dim position) :=
  fun _ _ _ => ⟨_, (run_append (run_single rfl rfl)).trans (run_position _ _), rfl⟩

theorem readsOperand_sym (position : Nat) :
    ReadsOperand meaning ("s" ++ position.repr) (meaning.sym position) :=
  fun _ _ _ => ⟨_, (run_append (run_single rfl rfl)).trans (run_position _ _), rfl⟩

theorem ReadsOperand.neg (h : ReadsOperand meaning text x) :
    ReadsOperand meaning ("-" ++ text) (meaning.neg x) := by
  intro stack sum negative
  obtain ⟨focus, hrun, hfocus⟩ := h stack sum !negative
  rw [meaning.signed_not] at hfocus
  exact ⟨focus, (run_append (run_single rfl rfl)).trans hrun, hfocus⟩

theorem readsOperand_decimal (value : Int) :
    ReadsOperand meaning (decimal value) (meaning.const value) := by
  have hnumber : ReadsOperand meaning value.natAbs.repr (meaning.const value.natAbs) :=
    readsOperand_number _
  unfold decimal
  split
  · have hneg := hnumber.neg
    rwa [meaning.neg_const, show -(value.natAbs : Int) = value by omega] at hneg
  · rwa [Int.natAbs_of_nonneg (by omega)] at hnumber

theorem ReadsSum.parenthesize (h : ReadsSum meaning text x) :
    ReadsOperand meaning ("(" ++ text ++ ")") x := by
  intro stack sum negative
  obtain ⟨inner, focus, operand, hrun, hfocus, hclose⟩ :=
    h ((sum, negative) :: stack) (meaning.const 0)
  refine ⟨.operand (meaning.signed negative (inner.close meaning operand)), ?_, ?_⟩
  · have hopen : run meaning ⟨stack, sum, .start negative⟩ ("(" ++ text) =
        some ⟨(sum, negative) :: stack, inner, focus⟩ :=
      (run_append (run_single rfl rfl)).trans hrun
    exact (run_append hopen).trans (run_single rfl (step_close hfocus sum negative))
  · rw [hclose, meaning.zero_add]
    rfl

theorem ReadsOperand.readsTerm (h : ReadsOperand meaning text x) : ReadsTerm meaning text x := by
  intro negative stack total
  obtain ⟨focus, hrun, hfocus⟩ := h stack ⟨total, negative, none⟩ false
  exact ⟨_, focus, x, hrun, hfocus, rfl⟩

/-- Operators other than sums are found by their symbol. -/
theorem extend?_symbol {op : BinaryOp} (hop : op ≠ .add) (total : D) (negative : Bool)
    (operand : D) :
    PartialSum.extend? meaning ⟨total, negative, none⟩ operand op.symbol.toList =
      some ⟨total, negative, some (op, operand)⟩ := by
  cases op <;> first | rfl | exact absurd rfl hop

theorem ReadsOperand.operation {op : BinaryOp} (hop : op ≠ .add) (hl : ReadsOperand meaning l x)
    (hr : ReadsOperand meaning r y) :
    ReadsTerm meaning (l ++ (" " ++ op.symbol ++ " " ++ r)) (meaning.apply op x y) := by
  intro negative stack total
  obtain ⟨focus, hrun, hfocus⟩ := hl stack ⟨total, negative, none⟩ false
  obtain ⟨focus', hrun', hfocus'⟩ := hr stack ⟨total, negative, some (op, x)⟩ false
  have hletters : ' ' ∉ op.symbol.toList := by cases op <;> decide
  refine ⟨⟨total, negative, some (op, x)⟩, focus', y, ?_, hfocus', rfl⟩
  exact (run_append_operator hrun hfocus hletters (extend?_symbol hop total negative x)).trans hrun'

theorem ReadsOperand.mul (hl : ReadsOperand meaning l x) (hr : ReadsOperand meaning r y) :
    ReadsTerm meaning (l ++ (" * " ++ r)) (meaning.apply .mul x y) := by
  have hop : BinaryOp.mul ≠ .add := BinaryOp.noConfusion
  have hterm := operation hop hl hr
  rwa [show " " ++ BinaryOp.mul.symbol ++ " " = " * " from rfl] at hterm

/-- A sum goes on after an operator that closes a term. -/
theorem ReadsSum.append {negative : Bool} (operator : String) (hl : ReadsSum meaning l x)
    (hletters : ' ' ∉ operator.toList)
    (hextend : ∀ (sum : PartialSum D) (operand : D), sum.extend? meaning operand operator.toList =
      some ⟨sum.close meaning operand, negative, none⟩)
    (hr : ReadsRest negative meaning r y) :
    ReadsSum meaning (l ++ (" " ++ operator ++ " " ++ r))
      (meaning.apply .add x (meaning.signed negative y)) := by
  intro stack total
  obtain ⟨sum, focus, operand, hrun, hfocus, hclose⟩ := hl stack total
  obtain ⟨sum', focus', operand', hrun', hfocus', hclose'⟩ :=
    hr stack (sum.close meaning operand)
  refine ⟨sum', focus', operand', ?_, hfocus', ?_⟩
  · exact (run_append_operator hrun hfocus hletters (hextend sum operand)).trans hrun'
  · rw [hclose', hclose]
    exact meaning.add_assoc ..

theorem ReadsSum.add (hl : ReadsSum meaning l x) (hr : ReadsSum meaning r y) :
    ReadsSum meaning (l ++ (" + " ++ r)) (meaning.apply .add x y) :=
  hl.append "+" (by decide) (fun _ _ => rfl) hr

theorem ReadsSum.sub (hl : ReadsSum meaning l x) (hr : ReadsTerm meaning r y) :
    ReadsSum meaning (l ++ (" - " ++ r)) (meaning.apply .add x (meaning.neg y)) :=
  hl.append "-" (by decide) (fun _ _ => rfl) (hr true)

/-! ## Texts of expressions -/

/-- How the text of a sum, or of another expression, is read in a place of the given strength. -/
def ReadsIn (meaning : Interpretation D) : Expr.Binding → Bool → String → D → Prop
  | .strong, _ => ReadsOperand meaning
  | .weak, false => ReadsTerm meaning
  | .weak, true => ReadsSum meaning

variable {strength : Expr.Binding} {isSum : Bool}

theorem ReadsOperand.readsIn (h : ReadsOperand meaning text x) :
    ReadsIn meaning strength isSum text x := by
  cases strength with
  | strong => exact h
  | weak =>
      cases isSum with
      | false => exact h.readsTerm
      | true => exact h.readsTerm false

theorem ReadsTerm.readsIn_wrap (h : ReadsTerm meaning text x) :
    ReadsIn meaning strength false (strength.wrap text) x := by
  cases strength with
  | strong => exact ReadsSum.parenthesize (h false)
  | weak => exact h

theorem ReadsSum.readsIn_wrap (h : ReadsSum meaning text x) :
    ReadsIn meaning strength true (strength.wrap text) x := by
  cases strength with
  | strong => exact h.parenthesize
  | weak => exact h

theorem ReadsIn.readsSum (h : ReadsIn meaning .weak isSum text x) : ReadsSum meaning text x := by
  cases isSum with
  | false => exact h false
  | true => exact h

/-- A sum that is subtracted stands in parentheses. -/
theorem ReadsIn.readsTerm (h : ReadsIn meaning (if isSum then .strong else .weak) isSum text x) :
    ReadsTerm meaning text x := by
  cases isSum with
  | false => exact h
  | true => exact ReadsOperand.readsTerm h

theorem isSum_of_ne_add {op : BinaryOp} (hop : op ≠ .add) (lhs rhs : Expr) :
    (Expr.binary op lhs rhs).isSum = false := by
  cases op <;> first | rfl | exact absurd rfl hop

theorem renderIn_of_ne_add {op : BinaryOp} (hop : op ≠ .add) (lhs rhs : Expr) :
    (Expr.binary op lhs rhs).renderIn strength =
      if op = .mul ∧ rhs = .const (-1) then "-" ++ lhs.renderIn .strong
      else strength.wrap
        (lhs.renderIn .strong ++ (" " ++ op.symbol ++ " " ++ rhs.renderIn .strong)) := by
  rw [Expr.renderIn]
  · simp only [String.append_assoc]
  · exact fun _ _ hadd => absurd hadd hop
  · exact fun _ hadd => absurd hadd hop
  · exact hop

/-- The text of an expression is read as what the expression means, in any place. -/
theorem readsIn_renderIn (meaning : Interpretation D) (strength : Expr.Binding) (e : Expr) :
    ReadsIn meaning strength e.isSum (e.renderIn strength) (e.eval meaning) := by
  induction strength, e using Expr.renderIn.induct with
  | case1 strength position =>
      rw [Expr.renderIn]
      exact (readsOperand_dim position).readsIn
  | case2 strength position =>
      rw [Expr.renderIn]
      exact (readsOperand_sym position).readsIn
  | case3 strength value =>
      rw [Expr.renderIn]
      exact (readsOperand_decimal value).readsIn
  | case4 strength lhs term factor ihlhs ihterm ihstrong ihproduct =>
      rw [Expr.renderIn]
      refine ReadsSum.readsIn_wrap ?_
      by_cases hminus : factor = -1
      · rw [if_pos hminus, hminus, Expr.eval, Expr.eval, Expr.eval, meaning.mul_neg_one]
        exact ihlhs.readsSum.sub ihterm.readsTerm
      rw [if_neg hminus]
      split
      · -- the factor without its sign is written, and the sign in front of the term
        have hfactor : factor = -(factor.natAbs : Int) := by omega
        have hproduct := ReadsOperand.mul ihstrong (readsOperand_number factor.natAbs)
        rw [Expr.eval, Expr.eval, Expr.eval, String.append_assoc, String.append_assoc]
        nth_rewrite 2 [hfactor]
        rw [meaning.mul_neg]
        exact ihlhs.readsSum.sub hproduct
      · exact ihlhs.readsSum.add ihproduct.readsSum
  | case5 strength lhs value ihlhs =>
      rw [Expr.renderIn]
      refine ReadsSum.readsIn_wrap ?_
      split
      · have hvalue : value = -(value.natAbs : Int) := by omega
        rw [Expr.eval, Expr.eval]
        nth_rewrite 2 [hvalue]
        rw [← meaning.neg_const]
        exact ihlhs.readsSum.sub (readsOperand_number value.natAbs).readsTerm
      · exact ihlhs.readsSum.add ((readsOperand_decimal value).readsTerm false)
  | case6 strength lhs rhs hmul hconst ihlhs ihrhs =>
      rw [Expr.renderIn, String.append_assoc]
      · exact (ihlhs.readsSum.add ihrhs.readsSum).readsIn_wrap
      · exact hmul
      · exact hconst
  | case7 strength op lhs rhs _ _ hadd hminus ihlhs =>
      rw [renderIn_of_ne_add hadd, if_pos hminus]
      obtain ⟨rfl, rfl⟩ := hminus
      rw [Expr.eval, Expr.eval, meaning.mul_neg_one]
      exact (ReadsOperand.neg ihlhs).readsIn
  | case8 strength op lhs rhs _ _ hadd hminus ihlhs ihrhs =>
      rw [renderIn_of_ne_add hadd, if_neg hminus, isSum_of_ne_add hadd]
      exact (ReadsOperand.operation hadd ihlhs ihrhs).readsIn_wrap

theorem ReadsSum.read_eq (h : ReadsSum meaning text x) : read meaning text = some x := by
  obtain ⟨sum, focus, operand, hrun, hfocus, hclose⟩ := h [] (meaning.const 0)
  have hrun' : run meaning ⟨[], .empty meaning, .start false⟩ text = some ⟨[], sum, focus⟩ := hrun
  rw [meaning.zero_add] at hclose
  rw [read, hrun']
  dsimp only
  rw [hfocus, Option.map_some, hclose]
  rfl

/-- The text of an expression has the meaning of the expression. -/
theorem read_render (meaning : Interpretation D) (e : Expr) :
    read meaning e.render = some (e.eval meaning) :=
  (readsIn_renderIn meaning .weak e).readsSum.read_eq

theorem eval_eq_of_render_eq {e e' : Expr} (h : e.render = e'.render)
    (meaning : Interpretation D) : e.eval meaning = e'.eval meaning := by
  have hread := read_render meaning e
  rw [h, read_render] at hread
  exact (Option.some.inj hread).symm

end Reading

namespace Expr

/-- Expressions with the same text have the same value at every point, and one has only positive
divisors there if the other one does. -/
theorem value_eq_of_render_eq {e e' : Expr} (h : e.render = e'.render) (point : Point) :
    e.value point = e'.value point ∧ e.value? point = e'.value? point := by
  have hexact := Reading.eval_eq_of_render_eq h (.exact point)
  have hguarded := Reading.eval_eq_of_render_eq h (.guarded point)
  rw [Interpretation.eval_exact, Interpretation.eval_exact] at hexact
  rw [Interpretation.eval_guarded, Interpretation.eval_guarded] at hguarded
  exact ⟨hexact, hguarded⟩

/-- Both expressions have the text `d0 + -7 floordiv d1 - s0`. -/
theorem value_eq_of_render_eq_flattened :
    let rhs := binary .mul (sym 0) (const (-1))
    let nested := binary .add (dim 0) (binary .add (binary .floorDiv (const (-7)) (dim 1)) rhs)
    let flat := binary .add
      (binary .add (dim 0) (binary .floorDiv (binary .mul (const 7) (const (-1))) (dim 1))) rhs
    nested.render = flat.render ∧ nested.value? (.ofLists [1, 2] [3]) = some (-6) ∧
      flat.value? (.ofLists [1, 2] [3]) = some (-6) := by
  intro rhs nested flat
  have htext : nested.render = flat.render := by cbv
  have hvalue : nested.value? (.ofLists [1, 2] [3]) = some (-6) := by decide
  exact ⟨htext, hvalue, (value_eq_of_render_eq htext _).2.symm.trans hvalue⟩

end Expr

end AffineLoops
