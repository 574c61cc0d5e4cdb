import Lox.Diagnostic
import Lox.Value

/-!
# Operators

What the operators of expressions compute from the values of their operands.
-/

namespace Lox

/-- A prefix operator applied to a value. -/
def applyUnary (operator : TokenKind) (operand : Value) : Except RuntimeFault Value :=
  match operator, operand with
  | .bang, v => .ok (.bool !v.isTruthy)
  | .minus, .number x => .ok (.number (-x))
  | .minus, _ => .error .operandNotNumber
  | _, _ => .error .invalidUnary

/-- An operator that takes numbers only. -/
def applyNumeric (operator : TokenKind) (a b : Float) : Except RuntimeFault Value :=
  match operator with
  | .minus => .ok (.number (a - b))
  | .star => .ok (.number (a * b))
  | .slash => .ok (.number (a / b))
  | .greater => .ok (.bool (a > b))
  | .greaterEqual => .ok (.bool (a ≥ b))
  | .less => .ok (.bool (a < b))
  | .lessEqual => .ok (.bool (a ≤ b))
  | _ => .error .invalidBinary

/-- An infix operator applied to two values. -/
def applyBinary (operator : TokenKind) (left right : Value) : Except RuntimeFault Value :=
  match operator with
  | .plus =>
    match left, right with
    | .number a, .number b => .ok (.number (a + b))
    | .string a, .string b => .ok (.string (a ++ b))
    | _, _ => .error .operandsNotAddable
  | .equalEqual => .ok (.bool (left.same right))
  | .bangEqual => .ok (.bool !(left.same right))
  | _ =>
    match left, right with
    | .number a, .number b => applyNumeric operator a b
    | _, _ => .error .operandsNotNumbers

/-- Does the left operand alone decide a logical expression? -/
def decidedByLeft (operator : TokenKind) (left : Value) : Bool :=
  if operator = .keyword .or then left.isTruthy else !left.isTruthy

end Lox
