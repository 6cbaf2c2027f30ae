import Lox.Prompt

set_option autoImplicit false

namespace Lox

inductive Request where
  | help
  | version
  | prompt
  | run (script : String)
  | listTokens (script : String)
  | listProgram (script : String)
  deriving DecidableEq, Repr

namespace Request

structure Pending where
  script : Option String := none
  tokens : Bool := false
  program : Bool := false
  deriving DecidableEq, Repr

namespace Pending

/-- At most one script can be given, and its name is not empty. -/
def addScript (p : Pending) (script : String) : Option Pending :=
  if p.script.isSome || script = "" then none else some { p with script }

/-- A listing needs a script, and only one of them can be asked for. -/
def finish : Pending → Option Request
  | ⟨some script, false, false⟩ => some (.run script)
  | ⟨some script, true, false⟩ => some (.listTokens script)
  | ⟨some script, false, true⟩ => some (.listProgram script)
  | ⟨none, false, false⟩ => some .prompt
  | _ => none

def readScripts (p : Pending) : List String → Option Request
  | [] => p.finish
  | script :: rest => do (← p.addScript script).readScripts rest

/-- Letters after a single dash: each is an option, and both that there are end the reading. -/
def readLetters : List Char → Option Request
  | 'h' :: _ => some .help
  | 'V' :: _ => some .version
  | _ => none

/-- Reads arguments from left to right, so that the first one that asks for help or is wrong decides. -/
def read (p : Pending) : List String → Option Request
  | [] => p.finish
  | argument :: rest =>
    match argument.toList with
    | ['-', '-'] => p.readScripts rest
    | '-' :: '-' :: name =>
      match String.ofList name with
      | "help" => some .help
      | "version" => some .version
      | "tokens" => if p.tokens then none else { p with tokens := true }.read rest
      | "ast" => if p.program then none else { p with program := true }.read rest
      | _ => none
    | '-' :: letter :: letters => readLetters (letter :: letters)
    | _ => do (← p.addScript argument).read rest

end Pending

def ofArguments (arguments : List String) : Option Request := Pending.read {} arguments

end Request

namespace CommandLine

def versionText : String := "treelox 0.1.0\n"

def helpText : String := String.join [
  "Run a Lox script, or start an interactive prompt when no script is given\n",
  "\n",
  "Usage: treelox [OPTIONS] [SCRIPT]\n",
  "\n",
  "Arguments:\n",
  "  [SCRIPT]  Script to run\n",
  "\n",
  "Options:\n",
  "      --tokens   Print the scanned tokens instead of running the script\n",
  "      --ast      Print the parsed program instead of running the script\n",
  "  -h, --help     Print help\n",
  "  -V, --version  Print version\n"]

def usageExitCode : Nat := 64

structure Response where
  exitCode : Nat
  out : ByteArray
  err : ByteArray

def Response.ofText (text : String) : Response := ⟨0, text.toUTF8, .empty⟩

def list (lines : List String) : Action Unit := fun s =>
  some (.ok (), { s with machine.out := lines.foldl (fun out line => (out.writeLine line).1) s.machine.out })

def listFile (contents : Except ReadFailure ByteArray) (view : String → Action (List String)) :
    Action Unit :=
  match contents.bind decodeText with
  | .ok source => do
    let lines ← view source
    list lines
  | .error reason => throw (.unreadable reason)

/-- What is said about a failure that has not been reported yet: only reading leaves that to do. -/
def complaint (context : String) : Failure → String
  | .unreadable reason => context ++ ": " ++ reason.text ++ "\n"
  | _ => ""

def respond (context : String) : Except Failure Unit × Session → Response
  | (.ok (), s) => ⟨0, s.machine.out.written, s.err.written⟩
  | (.error failure, s) =>
    ⟨failure.exitCode, s.machine.out.written, s.err.written ++ (complaint context failure).toUTF8⟩

def perform (context : String) (action : Action Unit) : Option Response :=
  (action (.start {} {})).map (respond context)

def prompting : String := "prompt failed"

def reading (script : String) : String := "failed to read " ++ script

/-- Runs the command.  `read` gives the contents of files, and `advice` what is said about arguments that
are out of order. -/
def run (advice : List String → String) (steps : Nat) (read : String → Except ReadFailure ByteArray)
    (stdin : ByteArray) (arguments : List String) : Option Response :=
  match Request.ofArguments arguments with
  | none => some ⟨usageExitCode, .empty, (advice arguments).toUTF8⟩
  | some .help => some (.ofText helpText)
  | some .version => some (.ofText versionText)
  | some .prompt => perform prompting (Prompt.run steps (Text.lines stdin.toList))
  | some (.run script) => perform (reading script) (Session.runFile steps (read script))
  | some (.listTokens script) => perform (reading script) <| listFile (read script) fun source => do
    let tokens ← Session.tokens source
    pure (tokens.map Token.text)
  | some (.listProgram script) => perform (reading script) <| listFile (read script) fun source => do
    let program ← Session.compile source
    pure (program.map Stmt.text)

end CommandLine

end Lox
