import Mathlib.Tactic.Cases

/-!
# `boost::logic::tribool`

The three-valued booleans that `request_parser` returns, with the operators as the vendored
`boost/logic/tribool.hpp` defines them.  In a condition a `tribool` counts as true only when its
value is `true_value` (`Tribool.toBool`), so a test that evaluates to `indeterminate` is not taken.
-/

namespace BtcServer.Boost

inductive Tribool
  | falseValue
  | trueValue
  | indeterminateValue
  deriving DecidableEq, Repr

namespace Tribool

/-- The converting constructor from `bool`. -/
def ofBool (initialValue : Bool) : Tribool :=
  if initialValue then trueValue else falseValue

/-- `operator safe_bool`: the value of a `tribool` in a condition. -/
def toBool (x : Tribool) : Bool := x = trueValue

def indeterminate (x : Tribool) : Bool := x = indeterminateValue

/-- `operator!` -/
def not (x : Tribool) : Tribool :=
  if x = falseValue then trueValue
  else if x = trueValue then falseValue
  else indeterminateValue

/-- `operator&&` -/
def and (x y : Tribool) : Tribool :=
  if x.not.toBool || y.not.toBool then falseValue
  else if x.toBool && y.toBool then trueValue
  else indeterminateValue

/-- `operator||` -/
def or (x y : Tribool) : Tribool :=
  if x.not.toBool && y.not.toBool then falseValue
  else if x.toBool || y.toBool then trueValue
  else indeterminateValue

/-- `operator==` -/
def eq (x y : Tribool) : Tribool :=
  if x.indeterminate || y.indeterminate then indeterminateValue
  else (x.and y).or (x.not.and y.not)

/-- A decided `tribool` as an optional boolean; `none` is the third state. -/
def decided : Tribool → Option Bool
  | falseValue => some false
  | trueValue => some true
  | indeterminateValue => none

theorem decided_injective {x y : Tribool} (h : x.decided = y.decided) : x = y := by
  cases x <;> cases y <;> first | rfl | cases h

@[simp] theorem decided_eq_none_iff (x : Tribool) : x.decided = none ↔ x = indeterminateValue := by
  cases x <;> simp [decided]

@[simp] theorem decided_eq_some_true_iff (x : Tribool) :
    x.decided = some true ↔ x = trueValue := by
  cases x <;> simp [decided]

@[simp] theorem decided_eq_some_false_iff (x : Tribool) :
    x.decided = some false ↔ x = falseValue := by
  cases x <;> simp [decided]

/-- `x || !x` is true exactly when `x` is decided. -/
theorem or_not_toBool (x : Tribool) : (x.or x.not).toBool = x.decided.isSome := by
  cases x <;> rfl

/-- `!x || indeterminate == x` is true exactly when `x` is false: the comparison with
`indeterminate` is itself indeterminate and never decides the test. -/
theorem not_or_eq_indeterminate_toBool (x : Tribool) :
    (x.not.or (indeterminateValue.eq x)).toBool = decide (x = falseValue) := by
  cases x <;> rfl

end Tribool

end BtcServer.Boost
