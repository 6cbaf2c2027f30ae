import Lox.Grammar.Statement

set_option autoImplicit false

namespace Lox

structure SyntaxError where
  token : Token
  problem : Grammar.Problem
  deriving Repr

def SyntaxError.text (e : SyntaxError) : String :=
  "[line " ++ toString e.token.line ++ "] Error " ++ e.token.location ++ ": " ++ e.problem.message

def Grammar.Fault.error (f : Fault) : SyntaxError := ⟨f.token, f.problem⟩

/-- All faults that were met, the one that stopped the reading last. -/
def Grammar.Outcome.faults {α : Type} : Outcome α → List Fault
  | .ok _ faults _ => faults
  | .stopped faults fault => faults ++ [fault]

/-- The program that the tokens up to the first end of source spell, or all that is wrong with them. -/
def parse (tokens : List Token) : Except (List SyntaxError) (List Stmt) :=
  match Grammar.declarations false tokens with
  | .ok program [] _ => .ok program
  | outcome => .error (outcome.faults.map Grammar.Fault.error)

end Lox
