import Lox.Segment

set_option autoImplicit false

namespace Lox

inductive LexicalProblem where
  | unexpectedCharacter
  | unterminatedString
  deriving DecidableEq, Repr

def LexicalProblem.message : LexicalProblem → String
  | .unexpectedCharacter => "Unexpected character."
  | .unterminatedString => "Unterminated string."

structure LexicalError where
  line : Nat
  problem : LexicalProblem
  deriving DecidableEq, Repr

def LexicalError.text (e : LexicalError) : String :=
  "[line " ++ toString e.line ++ "] Error: " ++ e.problem.message

structure Scan where
  tokens : List Token
  errors : List LexicalError
  deriving Repr, Inhabited

/-- The value a token denotes: a string without its quotes, a number as its digits read. -/
def Kind.literal? (kind : Kind) (lexeme : List Char) : Option Value :=
  match kind with
  | .string => some (.string (String.ofList (lexeme.drop 1).dropLast))
  | .number => some (.number (Number.read lexeme))
  | _ => none

/-- How often the line moves on within a segment: at a newline that stands alone, and at those inside a
string. -/
def Segment.newlines : Segment → Nat
  | .blank c => if c = '\n' then 1 else 0
  | .token .string lexeme => lexeme.count '\n'
  | .unclosed body => body.count '\n'
  | _ => 0

/-- Scans segments of which the first begins on `line`.  A segment counts for the line on which it
ends, so that a string over several lines stands on the line of its closing quote. -/
def Scan.ofSegments (line : Nat) : List Segment → Scan
  | [] => ⟨[.endOfSource line], []⟩
  | s :: rest =>
    let ending := line + s.newlines
    let later := ofSegments ending rest
    match s with
    | .token kind lexeme =>
      let token : Token := ⟨kind, String.ofList lexeme, ending, kind.literal? lexeme⟩
      { later with tokens := token :: later.tokens }
    | .stray _ => { later with errors := ⟨ending, .unexpectedCharacter⟩ :: later.errors }
    | .unclosed _ => { later with errors := ⟨ending, .unterminatedString⟩ :: later.errors }
    | .blank _ | .comment _ => later

def scan (source : String) : Scan := Scan.ofSegments 1 (segments source.toList)

end Lox
