import Lox.Machine
import Lox.Program
import Lox.Scan

set_option autoImplicit false

namespace Lox

inductive ReadFailure where
  | notFound
  | isDirectory
  | notDirectory
  | notText
  | other (reason : String)
  deriving DecidableEq, Repr

def ReadFailure.text : ReadFailure → String
  | .notFound => "No such file or directory (os error 2)"
  | .isDirectory => "Is a directory (os error 21)"
  | .notDirectory => "Not a directory (os error 20)"
  | .notText => "stream did not contain valid UTF-8"
  | .other reason => reason

def decodeText (bytes : ByteArray) : Except ReadFailure String :=
  match String.fromUTF8? bytes with
  | some text => .ok text
  | none => .error .notText

inductive Failure where
  | malformed (errors : Nat)
  | runtime (error : RuntimeError)
  | unreadable (reason : ReadFailure)
  deriving Repr

namespace Failure

def text : Failure → String
  | .malformed errors => toString errors ++ " syntax error(s)"
  | .runtime error => error.text
  | .unreadable reason => reason.text

def exitCode : Failure → Nat
  | .malformed _ => 65
  | .runtime _ => 70
  | .unreadable _ => 74

end Failure

namespace Sink

def report (sink : Sink) (line : Nat) (location message : String) : Sink :=
  let place := if location.isEmpty then "" else " " ++ location
  (sink.writeLine ("[line " ++ toString line ++ "] Error" ++ place ++ ": " ++ message)).1

def reportLexical (sink : Sink) (e : LexicalError) : Sink := sink.report e.line "" e.problem.message

def reportSyntax (sink : Sink) (e : SyntaxError) : Sink :=
  sink.report e.token.line e.token.location e.problem.message

def reportRuntime (sink : Sink) (e : RuntimeError) : Sink := (sink.writeLine e.text).1

end Sink

structure Session where
  machine : Machine
  err : Sink

/-- Computations in a session, which they may change even if they fail; no result when they were not
allowed enough steps. -/
abbrev Action := ExceptT Failure (StateT Session Option)

namespace Session

def start (out err : Sink) : Session := ⟨.start out, err⟩

def tokens (source : String) : Action (List Token) := fun s =>
  let scanned := scan source
  let s := { s with err := scanned.errors.foldl Sink.reportLexical s.err }
  if scanned.errors.isEmpty then some (.ok scanned.tokens, s)
  else some (.error (.malformed scanned.errors.length), s)

/-- The program a source spells.  What can be read of a source is parsed even if not all of it can be
read, so that all that is wrong with it is reported at once. -/
def compile (source : String) : Action (List Stmt) := fun s =>
  let scanned := scan source
  let err := scanned.errors.foldl Sink.reportLexical s.err
  match parse scanned.tokens with
  | .ok program =>
    if scanned.errors.isEmpty then some (.ok program, { s with err })
    else some (.error (.malformed scanned.errors.length), { s with err })
  | .error errors =>
    some (.error (.malformed (scanned.errors.length + errors.length)),
      { s with err := errors.foldl Sink.reportSyntax err })

def interpret (steps : Nat) (program : List Stmt) : Action Unit := fun s =>
  (Machine.interpret steps program s.machine).map fun
    | (.ok (), machine) => (.ok (), { s with machine })
    | (.error e, machine) => (.error (.runtime e), ⟨machine, s.err.reportRuntime e⟩)

def run (steps : Nat) (source : String) : Action Unit := do
  let program ← compile source
  interpret steps program

def runFile (steps : Nat) (contents : Except ReadFailure ByteArray) : Action Unit :=
  match contents.bind decodeText with
  | .ok source => run steps source
  | .error reason => throw (.unreadable reason)

end Session

end Lox
