import Reckoner.Token

/-!
# Reckoner.Tree — expression trees

A tree is a literal, a group in parentheses, or an operator over its operands; the operator is the
token it was read from, so a tree knows the lines of its operators. The printed form puts the
operator in front and parentheses around every inner node.
-/

namespace Reckoner

/-- An expression. -/
inductive Tree where
  /-- No expression at all; the grammar never makes one. -/
  | missing
  | literal (v : Value)
  | group (inner : Tree)
  | unary (op : Token) (operand : Tree)
  | binary (left : Tree) (op : Token) (right : Tree)

namespace Tree

instance : Inhabited Tree := ⟨missing⟩

/-- The printed form of a tree in front of `after`. -/
def textOnto : Tree → Bytes → Bytes
  | missing, after => utf8 "<invalid>" ++ after
  | literal v, after => v.text ++ after
  | group inner, after => utf8 "(group " ++ inner.textOnto (byte ')' :: after)
  | unary op operand, after =>
    byte '(' :: (op.lexeme ++ byte ' ' :: operand.textOnto (byte ')' :: after))
  | binary left op right, after =>
    byte '(' :: (op.lexeme ++ byte ' ' :: left.textOnto
      (byte ' ' :: right.textOnto (byte ')' :: after)))

/-- The printed form of a tree. -/
def text (t : Tree) : Bytes := t.textOnto []

theorem textOnto_eq (t : Tree) (after : Bytes) : t.textOnto after = t.text ++ after := by
  unfold text
  induction t generalizing after with
  | missing => simp [textOnto]
  | literal v => simp [textOnto]
  | group inner ih => rw [textOnto, textOnto, ih, ih [byte ')']]; simp
  | unary op operand ih => rw [textOnto, textOnto, ih, ih [byte ')']]; simp
  | binary left op right ihl ihr =>
    rw [textOnto, textOnto, ihr, ihl, ihr [byte ')'], ihl (byte ' ' :: _)]
    simp

@[simp]
theorem text_missing : text missing = utf8 "<invalid>" := by simp [text, textOnto]

@[simp]
theorem text_literal (v : Value) : text (literal v) = v.text := by simp [text, textOnto]

@[simp]
theorem text_group (inner : Tree) :
    text (group inner) = utf8 "(group " ++ inner.text ++ [byte ')'] := by
  rw [text, textOnto, textOnto_eq]; simp

@[simp]
theorem text_unary (op : Token) (operand : Tree) :
    text (unary op operand) = byte '(' :: op.lexeme ++ byte ' ' :: operand.text ++ [byte ')'] := by
  rw [text, textOnto, textOnto_eq]; simp

@[simp]
theorem text_binary (left : Tree) (op : Token) (right : Tree) :
    text (binary left op right)
      = byte '(' :: op.lexeme ++ byte ' ' :: left.text ++ byte ' ' :: right.text ++ [byte ')'] := by
  rw [text, textOnto, textOnto_eq, textOnto_eq right]; simp

end Tree

end Reckoner
