/-!
The six comparisons, decided from the order of two values. Values without an order (a number that is not
a number) are only unequal.
-/
namespace StackScript

inductive Comparison
  | equal | notEqual | lessEqual | greaterEqual | lessThan | greaterThan
deriving DecidableEq, Repr, Inhabited

namespace Comparison

def all : List Comparison := [equal, notEqual, lessEqual, greaterEqual, lessThan, greaterThan]

def ofOrdering : Comparison → Ordering → Bool
  | equal, o => o == .eq
  | notEqual, o => o != .eq
  | lessEqual, o => o != .gt
  | greaterEqual, o => o != .lt
  | lessThan, o => o == .lt
  | greaterThan, o => o == .gt

def ofOrdering? (c : Comparison) : Option Ordering → Bool
  | some o => c.ofOrdering o
  | none => c = notEqual

def name : Comparison → String
  | equal => "equal"
  | notEqual => "not_equal"
  | lessEqual => "less_equal"
  | greaterEqual => "greater_equal"
  | lessThan => "less_than"
  | greaterThan => "greater_than"

theorem ofOrdering_notEqual (o : Ordering) : notEqual.ofOrdering o = !equal.ofOrdering o := by
  cases o <;> rfl

theorem ofOrdering_swap (o : Ordering) : lessThan.ofOrdering o = greaterThan.ofOrdering o.swap := by
  cases o <;> rfl

end Comparison

end StackScript
