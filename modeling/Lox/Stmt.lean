import Lox.Expr

set_option autoImplicit false

namespace Lox

inductive Stmt where
  | print (value : Expr)
  | expression (value : Expr)
  | declare (name : Token) (initial : Option Expr)
  | block (body : List Stmt)
  | ifThen (condition : Expr) (body : Stmt)
  | ifElse (condition : Expr) (body otherwise : Stmt)
  | loop (condition : Expr) (body : Stmt)
  deriving Repr, Inhabited

mutual

def Stmt.text : Stmt → String
  | .print value => "(print " ++ value.text ++ ")"
  | .expression value => "(; " ++ value.text ++ ")"
  | .declare name (some initial) => "(var " ++ name.lexeme ++ " " ++ initial.text ++ ")"
  | .declare name none => "(var " ++ name.lexeme ++ ")"
  | .block body => "(block" ++ Stmt.textAll body ++ ")"
  | .ifThen condition body => "(if " ++ condition.text ++ " " ++ body.text ++ ")"
  | .ifElse condition body otherwise =>
    "(if " ++ condition.text ++ " " ++ body.text ++ " " ++ otherwise.text ++ ")"
  | .loop condition body => "(while " ++ condition.text ++ " " ++ body.text ++ ")"

def Stmt.textAll : List Stmt → String
  | [] => ""
  | s :: rest => " " ++ s.text ++ Stmt.textAll rest

end

end Lox
