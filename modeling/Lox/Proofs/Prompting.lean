import Mathlib
import Lox.CommandLine
import Lox.Proofs.Appending
import Lox.Proofs.Lines
import Lox.Proofs.Reporting
import Lox.Proofs.Truncation

set_option autoImplicit false

namespace Lox

def joined (parts : List ByteArray) : ByteArray := parts.foldr (· ++ ·) .empty

@[simp] theorem joined_nil : joined [] = .empty := rfl

@[simp] theorem joined_cons (part : ByteArray) (parts : List ByteArray) :
    joined (part :: parts) = part ++ joined parts := rfl

theorem Machine.room_interpret {steps : Nat} {program : List Stmt} {m after : Machine}
    {r : Except RuntimeError Unit} (hm : m.out.room = none)
    (h : Machine.interpret steps program m = some (r, after)) : after.out.room = none := by
  obtain ⟨⟨r', ended⟩, hx, heq⟩ := Option.map_eq_some_iff.mp h
  have hout := (Machine.executeAll_truncates steps program m r' ended hm hx).out
  cases r' <;> cases heq <;> exact congrArg Sink.room hout

namespace Session

def reportedBetween (before after : Session) : ByteArray :=
  after.err.written.extract before.err.written.size after.err.written.size

/-- What the run of a source left behind: its result, and what it printed and reported. -/
structure Trace where
  result : Except Failure Unit
  out : ByteArray
  err : ByteArray

/-- Runs the sources in order, whether they fail or not.  There is no result when one of them was not
allowed enough steps of execution. -/
def runInTurn (steps : Nat) : List String → Session → Option (List Trace × Session)
  | [], s => some ([], s)
  | source :: rest, s =>
    (run steps source s).bind fun (result, after) =>
      (runInTurn steps rest after).map fun (traces, last) =>
        (⟨result, printedBetween s after, reportedBetween s after⟩ :: traces, last)

def withOut (s : Session) (data : ByteArray) : Session :=
  { s with machine := { s.machine with out := ⟨data, none⟩ } }

theorem run_ne_unreadable {steps : Nat} {source : String} {s after : Session} {reason : ReadFailure} :
    run steps source s ≠ some (.error (.unreadable reason), after) := by
  rcases faultless_or_count_ne_zero source with ⟨he, program, hp⟩ | hcount
  · rw [run_of_faultless he hp, interpret]
    rcases Machine.interpret steps program s.machine with _ | ⟨_ | _, m⟩ <;> simp
  · rw [run_of_count_ne_zero hcount]
    simp

/-- What was printed before stays in front, and nothing else depends on it. -/
theorem run_withOut (steps : Nat) (source : String) (s : Session) (data : ByteArray) :
    run steps source (s.withOut data) = (run steps source (s.withOut .empty)).map
      fun (r, after) => (r, after.withOut (data ++ after.machine.out.written)) := by
  rcases faultless_or_count_ne_zero source with ⟨he, program, hp⟩ | hcount
  · have honto : (s.withOut data).machine = (s.withOut .empty).machine.onto data := by
      simp only [withOut, Machine.onto, ByteArray.append_empty]
    simp only [run_of_faultless he hp, interpret, honto, Machine.interpret_appends steps program data]
    rcases hx : Machine.interpret steps program (s.withOut .empty).machine with _ | ⟨r, after⟩
    · rfl
    · have hroom : after.out.room = none := Machine.room_interpret rfl hx
      have hafter : after.onto data = { after with out := ⟨data ++ after.out.written, none⟩ } := by
        simp only [Machine.onto, hroom]
      cases r <;> simp only [Option.map_some, hafter] <;> rfl
  · simp only [run_of_count_ne_zero hcount, Option.map_some, withOut, ByteArray.append_empty]

theorem printedBetween_withOut (s after : Session) (before data : ByteArray) :
    printedBetween (s.withOut before) (after.withOut (before ++ data)) = data := by
  have hsize : (before ++ data).size = before.size + data.size := ByteArray.size_append
  exact ByteArray.extract_append_eq_right rfl hsize

theorem err_runInTurn {steps : Nat} {sources : List String} {s last : Session} {traces : List Trace}
    (hs : s.err.room = none) (h : runInTurn steps sources s = some (traces, last)) :
    last.err = ⟨s.err.written ++ joined (traces.map Trace.err), none⟩ := by
  induction sources generalizing s traces with
  | nil =>
    cases h
    rw [List.map_nil, joined_nil, ByteArray.append_empty, ← hs]
  | cons source rest ih =>
    obtain ⟨⟨result, after⟩, hrun, hrest⟩ := Option.bind_eq_some_iff.mp h
    obtain ⟨⟨later, _⟩, hlater, heq⟩ := Option.map_eq_some_iff.mp hrest
    cases heq
    have herr := err_of_run hs hrun
    have hadded : after.err.written = s.err.written ++ reportedBetween s after := by
      have hsize := @ByteArray.size_append s.err.written (lines ((diagnose source).texts ++ runtimeTexts result))
      rw [reportedBetween, herr, ByteArray.extract_append_eq_right rfl hsize]
    have hroom : after.err.room = none := by rw [herr]
    rw [ih hroom hlater, hadded, List.map_cons, joined_cons, ByteArray.append_assoc]

end Session

namespace Prompt

/-- What becomes of lines at the prompt: the sources that are run, and the end. -/
inductive Reads : List (List UInt8) → List String → Except Failure Unit → Prop where
  | finished : Reads [] [] (.ok ())
  | left {line : List UInt8} {source : String} {rest : List (List UInt8)} :
      Spells line source → SaysExit source → Reads (line :: rest) [] (.ok ())
  | illegible {line : List UInt8} {rest : List (List UInt8)} :
      (∀ source, ¬Spells line source) → Reads (line :: rest) [] (.error (.unreadable .notText))
  | next {line : List UInt8} {source : String} {rest : List (List UInt8)} {sources : List String}
      {ending : Except Failure Unit} :
      Spells line source → ¬SaysExit source → Reads rest sources ending →
      Reads (line :: rest) (source :: sources) ending

theorem Answer.ofLine_of_spells {line : List UInt8} {source : String} (h : Spells line source) :
    Answer.ofLine ⟨line.toArray⟩ = if isExit source then .leave else .run source := by
  rw [ofLine, decodeText_eq_ok_iff.mpr h]

theorem Answer.ofLine_of_illegible {line : List UInt8} (h : ∀ source, ¬Spells line source) :
    Answer.ofLine ⟨line.toArray⟩ = .fail .notText := by
  cases hd : decodeText ⟨line.toArray⟩ with
  | ok source => exact absurd (decodeText_eq_ok_iff.mp hd) (h source)
  | error reason => rw [ofLine, hd, eq_notText_of_decodeText hd]

theorem exists_reads (ls : List (List UInt8)) : ∃ sources ending, Reads ls sources ending := by
  induction ls with
  | nil => exact ⟨[], .ok (), .finished⟩
  | cons line rest ih =>
    by_cases hspells : ∃ source, Spells line source
    · obtain ⟨source, hsource⟩ := hspells
      by_cases hexit : SaysExit source
      · exact ⟨[], .ok (), .left hsource hexit⟩
      · obtain ⟨sources, ending, hrest⟩ := ih
        exact ⟨source :: sources, ending, .next hsource hexit hrest⟩
    · exact ⟨[], _, .illegible fun source h => hspells ⟨source, h⟩⟩

/-- What the prompt writes to the output: an invitation before each run, and one more at the end. -/
def dialogue (traces : List Session.Trace) : ByteArray :=
  joined (traces.map fun t => invitation.toUTF8 ++ t.out) ++ invitation.toUTF8

theorem dialogue_cons (t : Session.Trace) (traces : List Session.Trace) :
    dialogue (t :: traces) = invitation.toUTF8 ++ t.out ++ dialogue traces := by
  simp only [dialogue, List.map_cons, joined_cons, ByteArray.append_assoc]

theorem turn_of_exit {line : List UInt8} {source : String} (hsource : Spells line source)
    (hexit : SaysExit source) (steps : Nat) (s : Session) : turn steps line s = some (.over (.ok ()) s) := by
  rw [turn, Answer.ofLine_of_spells hsource, if_pos (isExit_iff.mpr hexit)]

theorem turn_of_illegible {line : List UInt8} (hline : ∀ source, ¬Spells line source) (steps : Nat)
    (s : Session) : turn steps line s = some (.over (.error (.unreadable .notText)) s) := by
  rw [turn, Answer.ofLine_of_illegible hline]

/-- A line that is run is followed by the next one, whatever the result of its run. -/
theorem turn_of_spells {line : List UInt8} {source : String} (hsource : Spells line source)
    (hexit : ¬SaysExit source) (steps : Nat) (s : Session) :
    turn steps line s = (Session.run steps source s).map fun (_, after) => .next after := by
  rw [turn, Answer.ofLine_of_spells hsource, if_neg (mt isExit_iff.mp hexit)]
  dsimp only
  rcases hrun : Session.run steps source s with _ | ⟨failure | _, after⟩
  · rfl
  · cases failure with
    | malformed => rfl
    | runtime => rfl
    | unreadable reason => exact absurd hrun Session.run_ne_unreadable
  · rfl

theorem run_of_reads {ls : List (List UInt8)} {sources : List String} {ending : Except Failure Unit}
    (h : Reads ls sources ending) (steps : Nat) (s : Session) (before data : ByteArray) :
    run steps ls (s.withOut data) = (Session.runInTurn steps sources (s.withOut before)).map
      fun (traces, last) => (ending, last.withOut (data ++ dialogue traces)) := by
  induction h generalizing s before data with
  | finished => rfl
  | left hsource hexit =>
    simp only [run, turn_of_exit hsource hexit]
    rfl
  | illegible hline =>
    simp only [run, turn_of_illegible hline]
    rfl
  | next hsource hexit _ ih =>
    -- Both sides run the source from a session that differs only in what was printed before.
    have hinvite : invite (s.withOut data) = s.withOut (data ++ invitation.toUTF8) := rfl
    simp only [run, turn_of_spells hsource hexit, hinvite, Session.runInTurn,
      Session.run_withOut steps _ s (data ++ _), Session.run_withOut steps _ s before]
    rcases Session.run steps _ (s.withOut .empty) with _ | ⟨result, after⟩
    · rfl
    · simp only [Option.map_some, Option.bind_some, Option.map_map, Function.comp_def, dialogue_cons,
        Session.printedBetween_withOut, ih after (before ++ after.machine.out.written),
        ByteArray.append_assoc]

theorem Spells.unique {line : List UInt8} {source other : String} (h : Spells line source)
    (h' : Spells line other) : source = other :=
  String.toByteArray_inj.mp (h.trans h'.symm)

namespace Reads

variable {ls : List (List UInt8)} {sources : List String} {ending : Except Failure Unit}

theorem length_le (h : Reads ls sources ending) : sources.length ≤ ls.length := by
  induction h with
  | next _ _ _ ih => exact Nat.succ_le_succ ih
  | _ => exact Nat.zero_le _

theorem spells (h : Reads ls sources ending) : List.Forall₂ Spells (ls.take sources.length) sources := by
  induction h with
  | next hsource _ _ ih => exact .cons hsource ih
  | _ => exact .nil

theorem not_exit (h : Reads ls sources ending) : ∀ source ∈ sources, ¬SaysExit source := by
  induction h with
  | next _ hexit _ ih => exact List.forall_mem_cons.mpr ⟨hexit, ih⟩
  | _ => exact List.forall_mem_nil _

theorem exit (h : Reads ls sources ending) {line : List UInt8} {source : String}
    (hline : ls[sources.length]? = some line) (hsource : Spells line source) : SaysExit source := by
  induction h with
  | finished => cases hline
  | left hspells hexit =>
    cases hline
    exact hspells.unique hsource ▸ hexit
  | illegible hnone =>
    cases hline
    exact absurd hsource (hnone source)
  | next _ _ _ ih => exact ih hline

theorem ending_eq (h : Reads ls sources ending) :
    (∃ line, ls[sources.length]? = some line ∧ ∀ source, ¬Spells line source) ∧
        ending = .error (.unreadable .notText) ∨
      (¬∃ line, ls[sources.length]? = some line ∧ ∀ source, ¬Spells line source) ∧ ending = .ok () := by
  induction h with
  | finished => simp
  | @left line source rest hspells _ =>
    refine .inr ⟨?_, rfl⟩
    rintro ⟨_, hline, hnone⟩
    cases hline
    exact hnone source hspells
  | @illegible line rest hnone => exact .inl ⟨⟨line, rfl, hnone⟩, rfl⟩
  | next _ _ _ ih => exact ih

theorem respond_eq (h : Reads ls sources ending) : ∃ code complaint,
    ((∃ line, ls[sources.length]? = some line ∧ ∀ source, ¬Spells line source) ∧
        code = 74 ∧ complaint = "prompt failed: stream did not contain valid UTF-8\n" ∨
      (¬∃ line, ls[sources.length]? = some line ∧ ∀ source, ¬Spells line source) ∧
        code = 0 ∧ complaint = "") ∧
      ∀ (s : Session) out, CommandLine.respond CommandLine.prompting (ending, s.withOut out) =
        ⟨code, out, s.err.written ++ complaint.toUTF8⟩ := by
  rcases h.ending_eq with ⟨hillegible, rfl⟩ | ⟨hlegible, rfl⟩
  · exact ⟨74, _, .inl ⟨hillegible, rfl, rfl⟩, fun _ _ => rfl⟩
  · refine ⟨0, "", .inr ⟨hlegible, rfl, rfl⟩, ?_⟩
    intro s out
    simp [CommandLine.respond, Session.withOut]

end Reads

end Prompt

theorem CommandLine.run_prompt {stdin : ByteArray} {sources : List String} {ending : Except Failure Unit}
    (h : Prompt.Reads (Text.lines stdin.toList) sources ending) (advice : List String → String) (steps : Nat)
    (read : String → Except ReadFailure ByteArray) :
    CommandLine.run advice steps read stdin [] =
      (Session.runInTurn steps sources (Session.start {} {})).map fun (traces, last) =>
        respond prompting (ending, last.withOut (Prompt.dialogue traces)) := by
  have hprompt := Prompt.run_of_reads h steps (Session.start {} {}) .empty .empty
  simp only [ByteArray.empty_append] at hprompt
  have hperform : CommandLine.run advice steps read stdin [] =
      (Prompt.run steps (Text.lines stdin.toList) ((Session.start {} {}).withOut .empty)).map
        (respond prompting) := rfl
  rw [hperform, hprompt, Option.map_map]
  rfl

/-- The prompt cuts its input into lines and runs those before the first one that says `exit` or is not
text, in one session and whatever becomes of each.  Its output is what these runs print, each after an
invitation, and one more invitation; its messages are those of the runs and, if it stopped at a line that
is not text, one about that, and then it exits with 74. -/
theorem prompt_folds_runs (advice : List String → String) (steps : Nat)
    (read : String → Except ReadFailure ByteArray) (stdin : ByteArray) :
    ∃ ls m sources code complaint,
      (∀ other, Text.Splits stdin.toList other ↔ other = ls) ∧
      m ≤ ls.length ∧
      List.Forall₂ Prompt.Spells (ls.take m) sources ∧
      (∀ source ∈ sources, ¬Prompt.SaysExit source) ∧
      (∀ line source, ls[m]? = some line → Prompt.Spells line source → Prompt.SaysExit source) ∧
      ((∃ line, ls[m]? = some line ∧ ∀ source, ¬Prompt.Spells line source) ∧
          code = 74 ∧ complaint = "prompt failed: stream did not contain valid UTF-8\n" ∨
        (¬∃ line, ls[m]? = some line ∧ ∀ source, ¬Prompt.Spells line source) ∧
          code = 0 ∧ complaint = "") ∧
      CommandLine.run advice steps read stdin [] =
        (Session.runInTurn steps sources (Session.start {} {})).map fun (traces, _) =>
          ⟨code, joined (traces.map fun t => "> ".toUTF8 ++ t.out) ++ "> ".toUTF8,
            joined (traces.map Session.Trace.err) ++ complaint.toUTF8⟩ := by
  obtain ⟨sources, ending, hreads⟩ := Prompt.exists_reads (Text.lines stdin.toList)
  obtain ⟨code, complaint, hcode, hrespond⟩ := hreads.respond_eq
  refine ⟨Text.lines stdin.toList, sources.length, sources, code, complaint, fun _ => Text.splits_iff,
    hreads.length_le, hreads.spells, hreads.not_exit, fun _ _ => hreads.exit, hcode, ?_⟩
  rw [CommandLine.run_prompt hreads]
  rcases hx : Session.runInTurn steps sources (Session.start {} {}) with _ | ⟨traces, last⟩
  · rfl
  · have herr : last.err = ⟨.empty ++ joined (traces.map Session.Trace.err), none⟩ :=
      Session.err_runInTurn rfl hx
    rw [ByteArray.empty_append] at herr
    simp only [Option.map_some, hrespond, herr]
    rfl

end Lox
