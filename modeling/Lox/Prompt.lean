import Lox.Session
import Lox.Text

/-!
The prompt: an invitation, a line, its run, and so on until a line says `exit`, cannot be read as text,
or there are no more.  A line that is malformed or fails at run time does not end it.
-/

set_option autoImplicit false

namespace Lox.Prompt

def invitation : String := "> "

def isExit (line : String) : Bool := Text.trim line.toList = "exit".toList

def invite (s : Session) : Session :=
  { s with machine.out := (s.machine.out.write invitation.toUTF8).1 }

inductive Answer where
  | run (source : String)
  | leave
  | fail (reason : ReadFailure)

def Answer.ofLine (line : ByteArray) : Answer :=
  match decodeText line with
  | .error reason => .fail reason
  | .ok source => if isExit source then .leave else .run source

/-- What a line leads to: the next one, or the end. -/
inductive Turn where
  | next (s : Session)
  | over (result : Except Failure Unit) (s : Session)

def turn (steps : Nat) (line : List UInt8) (s : Session) : Option Turn :=
  match Answer.ofLine ⟨line.toArray⟩ with
  | .fail reason => some (.over (.error (.unreadable reason)) s)
  | .leave => some (.over (.ok ()) s)
  | .run source =>
    match Session.run steps source s with
    | none => none
    | some (.ok (), s) | some (.error (.malformed _), s) | some (.error (.runtime _), s) => some (.next s)
    | some (.error (.unreadable reason), s) => some (.over (.error (.unreadable reason)) s)

/-- Takes the lines that are left in turn, each after an invitation. -/
def run (steps : Nat) : List (List UInt8) → Action Unit
  | [] => fun s => some (.ok (), invite s)
  | line :: rest => fun s =>
    match turn steps line (invite s) with
    | none => none
    | some (.next s) => run steps rest s
    | some (.over result s) => some (result, s)

end Lox.Prompt
