import Lox.Token

set_option autoImplicit false

namespace Lox

inductive RuntimeError where
  /-- An operator met operands of the wrong kind. -/
  | typeMismatch (op : Token) (message : String)
  | undefinedVariable (name : Token)
  /-- The output did not take what was printed. -/
  | output (reason : String)
  /-- A tree holds an operator that no source spells there. -/
  | invalidUnary (op : Token)
  | invalidBinary (op : Token)
  deriving Repr

def RuntimeError.text : RuntimeError → String
  | .typeMismatch op message => "[line " ++ toString op.line ++ "] " ++ message
  | .undefinedVariable name =>
    "[line " ++ toString name.line ++ "] Undefined variable '" ++ name.lexeme ++ "'."
  | .output reason => "Failed to write output: " ++ reason
  | .invalidUnary op => "invalid unary operator " ++ op.kind.name
  | .invalidBinary op => "invalid binary operator " ++ op.kind.name

end Lox
