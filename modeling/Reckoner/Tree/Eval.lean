import Reckoner.Tree
import Reckoner.Fault

/-!
# Reckoner.Tree.Eval — the value of a tree

Operands are evaluated from left to right before their operator is looked at. An operator over
values of the wrong type is a fault; nothing else fails on a tree that the grammar makes. Arithmetic
is that of doubles, so division by zero gives an infinity or a NaN.
-/

namespace Reckoner

/-- Why a tree has no value. -/
inductive EvalFault where
  /-- Negation of something other than a number. -/
  | notNumber (op : Token) (got : ValueType)
  /-- A sum of anything but two numbers or two strings. -/
  | notAddable (op : Token) (left right : ValueType)
  /-- Arithmetic or a comparison on anything but two numbers. -/
  | notNumbers (op : Token) (left right : ValueType)
  /-- A token that is no operator in front of an operand. -/
  | noUnary (kind : TokenKind)
  /-- A token that is no operator between operands. -/
  | noBinary (kind : TokenKind)
  /-- A place in the tree without an expression. -/
  | noTree

namespace EvalFault

/-- The fault that is reported: wrong types are diagnostics of the source, the others are not. -/
def fault : EvalFault → Fault
  | notNumber op got =>
    .diagnostic (.typeError op.line (utf8 "Operand must be a number, got " ++ got.name ++ utf8 "."))
  | notAddable op left right =>
    .diagnostic (.typeError op.line (utf8 "Operands must be two numbers or two strings, got "
      ++ left.name ++ utf8 " and " ++ right.name ++ utf8 "."))
  | notNumbers op left right =>
    .diagnostic (.typeError op.line (utf8 "Operands of '" ++ op.lexeme ++ utf8 "' must be numbers, got "
      ++ left.name ++ utf8 " and " ++ right.name ++ utf8 "."))
  | noUnary kind => .plain (utf8 "unsupported unary operator: " ++ kind.name)
  | noBinary kind => .plain (utf8 "unsupported binary operator: " ++ kind.name)
  | noTree => .plain (utf8 "unsupported expression node type: <nil>")

end EvalFault

/-- An operator applied to one value. -/
def Value.applyUnary (op : Token) (v : Value) : Except EvalFault Value :=
  match op.kind with
  | .bang => .ok (.bool (!v.truthy))
  | .minus =>
    match v with
    | .number x => .ok (.number (-x))
    | _ => .error (.notNumber op v.type)
  | kind => .error (.noUnary kind)

/-- The sum of two numbers or the concatenation of two strings. -/
def Value.add (op : Token) : Value → Value → Except EvalFault Value
  | .number x, .number y => .ok (.number (x + y))
  | .string s, .string t => .ok (.string (s ++ t))
  | left, right => .error (.notAddable op left.type right.type)

/-- A function of two numbers. -/
def Value.onNumbers (op : Token) (f : Float → Float → Value) : Value → Value → Except EvalFault Value
  | .number x, .number y => .ok (f x y)
  | left, right => .error (.notNumbers op left.type right.type)

/-- An operator applied to two values. -/
def Value.applyBinary (op : Token) (left right : Value) : Except EvalFault Value :=
  match op.kind with
  | .plus => left.add op right
  | .minus => left.onNumbers op (fun x y => .number (x - y)) right
  | .star => left.onNumbers op (fun x y => .number (x * y)) right
  | .slash => left.onNumbers op (fun x y => .number (x / y)) right
  | .greater => left.onNumbers op (fun x y => .bool (y < x)) right
  | .greaterEqual => left.onNumbers op (fun x y => .bool (y ≤ x)) right
  | .less => left.onNumbers op (fun x y => .bool (x < y)) right
  | .lessEqual => left.onNumbers op (fun x y => .bool (x ≤ y)) right
  | .equalEqual => .ok (.bool (left.equals right))
  | .bangEqual => .ok (.bool (!left.equals right))
  | kind => .error (.noBinary kind)

/-- The value of a tree, or the first fault from left to right. -/
def Tree.eval : Tree → Except EvalFault Value
  | missing => .error .noTree
  | literal v => .ok v
  | group inner => inner.eval
  | unary op operand =>
    match operand.eval with
    | .error fault => .error fault
    | .ok v => v.applyUnary op
  | binary left op right =>
    match left.eval with
    | .error fault => .error fault
    | .ok l =>
      match right.eval with
      | .error fault => .error fault
      | .ok r => l.applyBinary op r

end Reckoner
