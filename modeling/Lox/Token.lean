import Lox.Value

set_option autoImplicit false

namespace Lox

inductive Kind where
  | leftParen | rightParen | leftBrace | rightBrace | comma | dot | minus | plus | semicolon | slash
  | star
  | bang | bangEqual | equal | equalEqual | greater | greaterEqual | less | lessEqual
  | identifier | string | number
  | kwAnd | kwClass | kwElse | kwFalse | kwFun | kwFor | kwIf | kwNil | kwOr | kwPrint | kwReturn
  | kwSuper | kwThis | kwTrue | kwVar | kwWhile
  | eof
  deriving DecidableEq, Repr, Inhabited

namespace Kind

def name : Kind → String
  | .leftParen => "LeftParen"
  | .rightParen => "RightParen"
  | .leftBrace => "LeftBrace"
  | .rightBrace => "RightBrace"
  | .comma => "Comma"
  | .dot => "Dot"
  | .minus => "Minus"
  | .plus => "Plus"
  | .semicolon => "Semicolon"
  | .slash => "Slash"
  | .star => "Star"
  | .bang => "Bang"
  | .bangEqual => "BangEqual"
  | .equal => "Equal"
  | .equalEqual => "EqualEqual"
  | .greater => "Greater"
  | .greaterEqual => "GreaterEqual"
  | .less => "Less"
  | .lessEqual => "LessEqual"
  | .identifier => "Identifier"
  | .string => "StringLiteral"
  | .number => "Number"
  | .kwAnd => "And"
  | .kwClass => "Class"
  | .kwElse => "Else"
  | .kwFalse => "False"
  | .kwFun => "Fun"
  | .kwFor => "For"
  | .kwIf => "If"
  | .kwNil => "Nil"
  | .kwOr => "Or"
  | .kwPrint => "Print"
  | .kwReturn => "Return"
  | .kwSuper => "Super"
  | .kwThis => "This"
  | .kwTrue => "True"
  | .kwVar => "Var"
  | .kwWhile => "While"
  | .eof => "EOF"

def keyword? : String → Option Kind
  | "and" => some .kwAnd
  | "class" => some .kwClass
  | "else" => some .kwElse
  | "false" => some .kwFalse
  | "fun" => some .kwFun
  | "for" => some .kwFor
  | "if" => some .kwIf
  | "nil" => some .kwNil
  | "or" => some .kwOr
  | "print" => some .kwPrint
  | "return" => some .kwReturn
  | "super" => some .kwSuper
  | "this" => some .kwThis
  | "true" => some .kwTrue
  | "var" => some .kwVar
  | "while" => some .kwWhile
  | _ => none

/-- The kinds at which reading resumes after a malformed statement. -/
def startsStatement : Kind → Bool
  | .kwClass | .kwFun | .kwVar | .kwFor | .kwIf | .kwWhile | .kwPrint | .kwReturn => true
  | _ => false

end Kind

structure Token where
  kind : Kind
  lexeme : String
  line : Nat
  literal : Option Value := none
  deriving Repr, Inhabited

namespace Token

def endOfSource (line : Nat) : Token := ⟨.eof, "", line, none⟩

def text (t : Token) : String :=
  t.kind.name ++ " " ++ t.lexeme ++ " " ++ (t.literal.map Value.text).getD "null"

/-- Where a message about this token says the problem is. -/
def location (t : Token) : String :=
  if t.kind = .eof then "at end" else "at '" ++ t.lexeme ++ "'"

end Token

end Lox
