import Lox.CommandLine

set_option autoImplicit false

namespace Lox.Command

/-- More steps than any machine makes. -/
def unlimited : Nat := Nat.pow 2 62

def failureOf : IO.Error → ReadFailure
  | .noFileOrDirectory .. => .notFound
  | .inappropriateType _ code _ => if code = 21 then .isDirectory else .notDirectory
  | e => .other (toString e)

def readFile (path : String) : IO (Except ReadFailure ByteArray) := do
  try
    let contents ← IO.FS.readBinFile path
    return .ok contents
  catch e => return .error (failureOf e)

/-- The bytes up to and including the next line feed; none at the end of the input. -/
partial def readLine (stdin : IO.FS.Stream) (before : List UInt8) : IO (List UInt8) := do
  let next ← stdin.read 1
  match next.toList with
  | [] => return before.reverse
  | b :: _ => if b = 10 then return (b :: before).reverse else readLine stdin (b :: before)

def flush (s : Session) : IO Session := do
  let stdout ← IO.getStdout
  let stderr ← IO.getStderr
  stdout.write s.machine.out.written
  stdout.flush
  stderr.write s.err.written
  stderr.flush
  return { s with machine.out := {}, err := {} }

def deliver (response : CommandLine.Response) : IO UInt32 := do
  let stdout ← IO.getStdout
  let stderr ← IO.getStderr
  stdout.write response.out
  stderr.write response.err
  return response.exitCode.toUInt32

/-- The prompt, with each invitation handed over before a line is waited for. -/
partial def prompt (s : Session) : IO UInt32 := do
  let s ← flush (Prompt.invite s)
  let stdin ← IO.getStdin
  let line ← readLine stdin []
  match Text.lines line with
  | [] => return 0
  | line :: _ =>
    match Prompt.turn unlimited line s with
    | none => return 0
    | some (.next s) => prompt s
    | some (.over result s) => deliver (CommandLine.respond CommandLine.prompting (result, s))

def advice (_ : List String) : String := "For more information, try '--help'.\n"

def run (arguments : List String) : IO UInt32 := do
  match Request.ofArguments arguments with
  | some .prompt => prompt (.start {} {})
  | some (.run script) | some (.listTokens script) | some (.listProgram script) =>
    let contents ← readFile script
    answer fun _ => contents
  | _ => answer fun _ => .error .notFound
where
  answer (read : String → Except ReadFailure ByteArray) : IO UInt32 :=
    match CommandLine.run advice unlimited read .empty arguments with
    | none => return 0
    | some response => deliver response

end Lox.Command

def main (arguments : List String) : IO UInt32 := Lox.Command.run arguments
