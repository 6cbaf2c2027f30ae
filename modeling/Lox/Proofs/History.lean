import Lox.Proofs.Diagnostics

/-!
Histories of sessions: steps taken one after the other, going on after failures.  What a step does to the
machine does not depend on the messages before it, nor on what the sink makes of them, so that steps which
only report can be left out.
-/

set_option autoImplicit false

namespace Lox.Session

inductive Step where
  | run (source : String)
  | tokens (source : String)
  | compile (source : String)
  | runFile (contents : Except ReadFailure ByteArray)

inductive Answer where
  | done
  | listed (tokens : List Token)
  | compiled (program : List Stmt)
  deriving Repr

def Step.runs : Step → Bool
  | .run _ | .runFile _ => true
  | .tokens _ | .compile _ => false

def Step.perform (steps : Nat) : Step → Action Answer
  | .run source => do
    Session.run steps source
    pure .done
  | .tokens source => do
    let ts ← Session.tokens source
    pure (.listed ts)
  | .compile source => do
    let program ← Session.compile source
    pure (.compiled program)
  | .runFile contents => do
    Session.runFile steps contents
    pure .done

/-- What is seen of a step that was taken: its result and the bytes it printed. -/
structure Record where
  step : Step
  result : Except Failure Answer
  output : ByteArray

def printedBetween (before after : Session) : ByteArray :=
  after.machine.out.written.extract before.machine.out.written.size after.machine.out.written.size

/-- Takes the steps in order, whether they fail or not.  There is no result when one of them was not
allowed enough steps of execution. -/
def follow (steps : Nat) : List Step → Session → Option (List Record × Session)
  | [], s => some ([], s)
  | step :: rest, s =>
    (step.perform steps s).bind fun (result, after) =>
      (follow steps rest after).map fun (records, last) =>
        (⟨step, result, printedBetween s after⟩ :: records, last)

variable {α β : Type}

/-- Sinks that are related stay so when the same is written to both. -/
def KeptByWriting (R : Sink → Sink → Prop) : Prop :=
  ∀ a b data, R a b → R (a.write data).1 (b.write data).1

/-- The sessions differ at most in their messages, and the sinks of these are related. -/
structure Alike (R : Sink → Sink → Prop) (s s' : Session) : Prop where
  machine : s.machine = s'.machine
  err : R s.err s'.err

/-- In sessions that are alike the action has the same result, and they are alike afterwards. -/
def Respects (R : Sink → Sink → Prop) (x : Action α) : Prop :=
  ∀ s s', s.Alike R s' → Option.Rel (fun p q => p.1 = q.1 ∧ p.2.Alike R q.2) (x s) (x s')

variable {R : Sink → Sink → Prop}

theorem report_related (hR : KeptByWriting R) (d : Diagnostics) {a b : Sink} (h : R a b) :
    R (d.report a) (d.report b) := by
  have hlexical := List.foldl_rel (l := d.lexical) h fun e _ a b hab =>
    show R (a.reportLexical e) (b.reportLexical e) from hR a b _ hab
  exact List.foldl_rel hlexical fun e _ a b hab =>
    show R (a.reportSyntax e) (b.reportSyntax e) from hR a b _ hab

namespace Respects

theorem pure (a : α) : Respects R (Pure.pure a) :=
  fun _ _ h => .some ⟨rfl, h⟩

theorem throw (failure : Failure) : Respects R (throw failure : Action α) :=
  fun _ _ h => .some ⟨rfl, h⟩

theorem bind {x : Action α} {f : α → Action β} (hx : Respects R x) (hf : ∀ a, Respects R (f a)) :
    Respects R (x >>= f) := by
  intro s s' h
  have hfirst := hx s s' h
  rw [bind_apply, bind_apply]
  generalize x s = p at hfirst ⊢
  generalize x s' = q at hfirst ⊢
  cases hfirst with
  | none => exact .none
  | @some p q hpq =>
    obtain ⟨result, t⟩ := p
    obtain ⟨result', t'⟩ := q
    obtain ⟨heq, ht⟩ := hpq
    cases heq
    cases result with
    | error failure => exact .some ⟨rfl, ht⟩
    | ok a => exact hf a t t' ht

theorem compile (hR : KeptByWriting R) (source : String) : Respects R (Session.compile source) := by
  intro s s' h
  rcases faultless_or_count_ne_zero source with ⟨he, program, hp⟩ | hcount
  · rw [compile_of_faultless he hp, compile_of_faultless he hp]
    exact .some ⟨rfl, h⟩
  · rw [compile_of_count_ne_zero hcount, compile_of_count_ne_zero hcount]
    exact .some ⟨rfl, h.machine, report_related hR _ h.err⟩

theorem tokens (hR : KeptByWriting R) (source : String) : Respects R (Session.tokens source) := by
  intro s s' h
  have herr := report_related hR ⟨(scan source).errors, []⟩ h.err
  simp only [Session.tokens]
  split
  · exact .some ⟨rfl, h.machine, herr⟩
  · exact .some ⟨rfl, h.machine, herr⟩

theorem interpret (hR : KeptByWriting R) (steps : Nat) (program : List Stmt) :
    Respects R (Session.interpret steps program) := by
  intro s s' h
  simp only [Session.interpret, h.machine]
  rcases Machine.interpret steps program s'.machine with _ | ⟨e | _, after⟩
  · exact .none
  · exact .some ⟨rfl, rfl, hR _ _ _ h.err⟩
  · exact .some ⟨rfl, rfl, h.err⟩

theorem run (hR : KeptByWriting R) (steps : Nat) (source : String) : Respects R (Session.run steps source) :=
  (compile hR source).bind fun program => interpret hR steps program

theorem perform (hR : KeptByWriting R) (steps : Nat) (step : Step) : Respects R (step.perform steps) := by
  cases step with
  | run source => exact (run hR steps source).bind fun _ => pure _
  | tokens source => exact (tokens hR source).bind fun _ => pure _
  | compile source => exact (compile hR source).bind fun _ => pure _
  | runFile contents =>
    refine bind ?_ fun _ => pure _
    unfold Session.runFile
    split
    · exact run hR steps _
    · exact throw _

end Respects

theorem follow_respects (hR : KeptByWriting R) (steps : Nat) (l : List Step) {s s' : Session}
    (h : s.Alike R s') :
    Option.Rel (fun p q => p.1 = q.1 ∧ p.2.Alike R q.2) (follow steps l s) (follow steps l s') := by
  induction l generalizing s s' with
  | nil => exact .some ⟨rfl, h⟩
  | cons step rest ih =>
    have hstep := Respects.perform hR steps step s s' h
    simp only [follow]
    generalize step.perform steps s = p at hstep ⊢
    generalize step.perform steps s' = q at hstep ⊢
    cases hstep with
    | none => exact .none
    | @some p q hpq =>
      obtain ⟨result, after⟩ := p
      obtain ⟨result', after'⟩ := q
      obtain ⟨heq, hafter⟩ := hpq
      cases heq
      have hmachine : after.machine = after'.machine := hafter.machine
      have hprinted : printedBetween s after = printedBetween s' after' := by
        simp only [printedBetween, h.machine, hmachine]
      have hrest := ih hafter
      simp only [Option.bind_some, hprinted]
      generalize follow steps rest after = u at hrest ⊢
      generalize follow steps rest after' = v at hrest ⊢
      cases hrest with
      | none => exact .none
      | some huv => exact .some ⟨congrArg (List.cons _) huv.1, huv.2⟩

def recorded (r : Option (List Record × Session)) : Option (List Record × Machine) :=
  r.map fun (records, last) => (records, last.machine)

theorem recorded_follow_cons {steps : Nat} {step : Step} {s after : Session} {result : Except Failure Answer}
    (h : step.perform steps s = some (result, after)) (rest : List Step) :
    recorded (follow steps (step :: rest) s) = (recorded (follow steps rest after)).map
      fun (records, m) => (⟨step, result, printedBetween s after⟩ :: records, m) := by
  simp only [follow, h, Option.bind_some, recorded, Option.map_map]
  rfl

theorem recorded_follow_congr (steps : Nat) (l : List Step) {s s' : Session} (h : s.machine = s'.machine) :
    recorded (follow steps l s) = recorded (follow steps l s') := by
  have hany : KeptByWriting fun _ _ => True := fun _ _ _ _ => trivial
  have hrel := follow_respects hany steps l ⟨h, trivial⟩
  generalize follow steps l s = p at hrel ⊢
  generalize follow steps l s' = q at hrel ⊢
  cases hrel with
  | none => rfl
  | some hpq => simp only [recorded, Option.map_some, hpq.1, hpq.2.machine]

/-- Whether the step may do more than report: it runs a source that has no fault. -/
def Step.lasting : Step → Bool
  | .run source => (diagnose source).count = 0
  | .tokens _ | .compile _ => false
  | .runFile contents =>
    match contents.bind decodeText with
    | .ok source => (diagnose source).count = 0
    | .error _ => true

theorem Step.runFile_of_text {contents : Except ReadFailure ByteArray} {source : String}
    (h : contents.bind decodeText = .ok source) (steps : Nat) :
    (Step.runFile contents).perform steps = (Step.run source).perform steps ∧
      (Step.runFile contents).lasting = (Step.run source).lasting := by
  simp only [perform, Session.runFile, lasting, h, and_self]

theorem bind_pure_idle {x : Action α} {s t : Session} {r : Except Failure α} (h : x s = some (r, t))
    (f : α → β) : (do let a ← x; pure (f a) : Action β) s = some (r.map f, t) := by
  rw [bind_apply, h]
  cases r <;> rfl

theorem tokens_idle (source : String) (s : Session) :
    ∃ result err, tokens source s = some (result, { s with err }) := by
  unfold tokens
  dsimp only
  split
  · exact ⟨_, _, rfl⟩
  · exact ⟨_, _, rfl⟩

theorem compile_idle (source : String) (s : Session) :
    ∃ result err, compile source s = some (result, { s with err }) := by
  rcases faultless_or_count_ne_zero source with ⟨he, program, hp⟩ | hcount
  · exact ⟨_, s.err, compile_of_faultless he hp s⟩
  · exact ⟨_, _, compile_of_count_ne_zero hcount s⟩

theorem Step.perform_idle {step : Step} (h : step.lasting = false) (steps : Nat) (s : Session) :
    ∃ result err, step.perform steps s = some (result, { s with err }) := by
  have hrun : ∀ source, (Step.run source).lasting = false →
      ∃ result err, (Step.run source).perform steps s = some (result, { s with err }) := by
    intro source hl
    have hcount : (diagnose source).count ≠ 0 := by simpa [lasting] using hl
    exact ⟨_, _, bind_pure_idle (run_of_count_ne_zero hcount steps s) _⟩
  cases step with
  | run source => exact hrun source h
  | tokens source =>
    obtain ⟨result, err, hr⟩ := tokens_idle source s
    exact ⟨_, err, bind_pure_idle hr _⟩
  | compile source =>
    obtain ⟨result, err, hr⟩ := compile_idle source s
    exact ⟨_, err, bind_pure_idle hr _⟩
  | runFile contents =>
    cases hc : contents.bind decodeText with
    | error reason => simp [lasting, hc] at h
    | ok source =>
      obtain ⟨hperform, hlasting⟩ := runFile_of_text hc steps
      rw [hperform]
      exact hrun source (hlasting ▸ h)

/-- Without the steps that only report, the others have the same results, print the same and leave the
same machine. -/
theorem recorded_follow_lasting (steps : Nat) (l : List Step) (s : Session) :
    recorded (follow steps (l.filter Step.lasting) s) = (recorded (follow steps l s)).map
      fun (records, m) => (records.filter (·.step.lasting), m) := by
  induction l generalizing s with
  | nil => rfl
  | cons step rest ih =>
    cases hl : step.lasting with
    | false =>
      obtain ⟨result, err, hr⟩ := step.perform_idle hl steps s
      have hsame : recorded (follow steps rest { s with err }) = recorded (follow steps rest s) :=
        recorded_follow_congr steps rest rfl
      rw [List.filter_cons_of_neg (by simp [hl]), recorded_follow_cons hr, hsame, ih, Option.map_map]
      simp [Function.comp_def, hl]
    | true =>
      rw [List.filter_cons_of_pos hl]
      rcases hr : step.perform steps s with _ | ⟨result, after⟩
      · simp [follow, hr, recorded]
      · rw [recorded_follow_cons hr, recorded_follow_cons hr, ih, Option.map_map, Option.map_map]
        simp [Function.comp_def, hl]

end Lox.Session
