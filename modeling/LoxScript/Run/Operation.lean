import LoxScript.Run.Error
import LoxScript.Run.Value
import LoxScript.Tree.Basic

/-!
# What operators compute

Arithmetic and comparison are those of doubles. Only equality and negation apply to values of every kind, and
only `+` also joins two strings.
-/

namespace LoxScript

namespace UnaryOp

def apply : UnaryOp → Value → Except RuntimeCause Value
  | negate, .plain (.number x) => .ok (.number (-x))
  | negate, _ => .error .operandNotNumber
  | not, v => .ok (.bool !v.isTruthy)

end UnaryOp

namespace BinaryOp

/-- The operators that take two numbers and nothing else. -/
def applyNumbers (op : BinaryOp) (x y : Float) : Except RuntimeCause Value :=
  match op with
  | minus => .ok (.number (x - y))
  | plus => .ok (.number (x + y))
  | star => .ok (.number (x * y))
  | slash => if y == 0 then .error .divisionByZero else .ok (.number (x / y))
  | greater => .ok (.bool (decide (x > y)))
  | greaterEqual => .ok (.bool (decide (x ≥ y)))
  | less => .ok (.bool (decide (x < y)))
  | lessEqual => .ok (.bool (decide (x ≤ y)))
  | equal => .ok (.bool (x == y))
  | notEqual => .ok (.bool (x != y))

def apply (op : BinaryOp) (left right : Value) : Except RuntimeCause Value :=
  match op with
  | equal => .ok (.bool (left.equals right))
  | notEqual => .ok (.bool !(left.equals right))
  | plus =>
      match left, right with
      | .plain (.number x), .plain (.number y) => applyNumbers plus x y
      | .plain (.string s), .plain (.string t) => .ok (.string (s ++ t))
      | _, _ => .error .operandsNotAddable
  | op =>
      match left, right with
      | .plain (.number x), .plain (.number y) => applyNumbers op x y
      | _, _ => .error .operandsNotNumbers

end BinaryOp

namespace LogicalOp

/-- Whether the left operand alone decides the result. -/
def decidedBy : LogicalOp → Value → Bool
  | or, left => left.isTruthy
  | and, left => !left.isTruthy

end LogicalOp

end LoxScript
