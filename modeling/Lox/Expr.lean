import Lox.Token

set_option autoImplicit false

namespace Lox

inductive Expr where
  | literal (value : Value)
  | var (name : Token)
  | assign (name : Token) (value : Expr)
  | unary (op : Token) (operand : Expr)
  | binary (op : Token) (left right : Expr)
  | logical (op : Token) (left right : Expr)
  | grouping (inner : Expr)
  deriving Repr, Inhabited

/-- The fully parenthesised form with the operator in front. -/
def Expr.text : Expr → String
  | .literal value => value.text
  | .var name => name.lexeme
  | .assign name value => "(= " ++ name.lexeme ++ " " ++ value.text ++ ")"
  | .unary op operand => "(" ++ op.lexeme ++ " " ++ operand.text ++ ")"
  | .binary op left right => "(" ++ op.lexeme ++ " " ++ left.text ++ " " ++ right.text ++ ")"
  | .logical op left right => "(" ++ op.lexeme ++ " " ++ left.text ++ " " ++ right.text ++ ")"
  | .grouping inner => "(group " ++ inner.text ++ ")"

end Lox
