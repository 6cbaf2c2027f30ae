import Mathlib
import Lox.Proofs.History
import Lox.Proofs.Writing

set_option autoImplicit false

namespace Lox

theorem Token.isEmpty_location (t : Token) : t.location.isEmpty = false := by
  unfold Token.location
  split
  · decide
  · simp

namespace Sink

theorem report_of_location {location : String} (h : location.isEmpty = false) (sink : Sink) (line : Nat)
    (message : String) :
    sink.report line location message =
      (sink.writeLine ("[line " ++ toString line ++ "] Error " ++ location ++ ": " ++ message)).1 := by
  have hspace : "] Error " = "] Error" ++ " " := by decide
  simp only [report, h, Bool.false_eq_true, if_false, hspace, String.append_assoc]

theorem reportLexical_eq (sink : Sink) (e : LexicalError) :
    sink.reportLexical e = (sink.writeLine e.text).1 := by
  have hcolon : "] Error: " = "] Error" ++ "" ++ ": " := by decide
  simp only [reportLexical, report, LexicalError.text, hcolon, String.append_assoc]
  rfl

theorem reportSyntax_eq (sink : Sink) (e : SyntaxError) : sink.reportSyntax e = (sink.writeLine e.text).1 :=
  report_of_location e.token.isEmpty_location sink e.token.line e.problem.message

end Sink

def Diagnostics.texts (d : Diagnostics) : List String :=
  d.lexical.map LexicalError.text ++ d.syntactic.map SyntaxError.text

theorem diagnose_of_faultless {source : String} {program : List Stmt} (he : (scan source).errors = [])
    (hp : parse (scan source).tokens = .ok program) : diagnose source = ⟨[], []⟩ := by
  simp [diagnose, syntaxErrors, he, hp]

variable {s : Session}

theorem reportLexical_of_unlimited (h : s.err.room = none) (errors : List LexicalError) :
    errors.foldl Sink.reportLexical s.err =
      ⟨s.err.written ++ lines (errors.map LexicalError.text), none⟩ :=
  Sink.foldl_of_unlimited Sink.reportLexical_eq h errors

theorem Diagnostics.report_of_unlimited (h : s.err.room = none) (d : Diagnostics) :
    d.report s.err = ⟨s.err.written ++ lines d.texts, none⟩ := by
  rw [Diagnostics.report, reportLexical_of_unlimited h, Sink.foldl_of_unlimited Sink.reportSyntax_eq rfl,
    ByteArray.append_assoc, ← lines_append, Diagnostics.texts]

namespace Session

theorem tokens_of_unlimited (h : s.err.room = none) (source : String) :
    ∃ r, tokens source s = some (r,
        { s with err := ⟨s.err.written ++ lines ((scan source).errors.map LexicalError.text), none⟩ }) ∧
      ∀ failure, r = .error failure ↔
        failure = .malformed (scan source).errors.length ∧ (scan source).errors ≠ [] := by
  rw [← reportLexical_of_unlimited h]
  by_cases he : (scan source).errors = []
  · refine ⟨.ok (scan source).tokens, ?_, ?_⟩
    · simp [tokens, he]
    · simp [he]
  · refine ⟨.error (.malformed (scan source).errors.length), ?_, ?_⟩
    · simp [tokens, he]
    · intro failure
      simp only [Except.error.injEq, ne_eq, he, not_false_eq_true, and_true]
      exact eq_comm

theorem compile_of_unlimited (h : s.err.room = none) (source : String) :
    ∃ r, compile source s =
        some (r, { s with err := ⟨s.err.written ++ lines (diagnose source).texts, none⟩ }) ∧
      ∀ failure, r = .error failure ↔
        failure = .malformed (diagnose source).count ∧ 0 < (diagnose source).count := by
  rw [← Diagnostics.report_of_unlimited h]
  rcases faultless_or_count_ne_zero source with ⟨he, program, hp⟩ | hcount
  · rw [diagnose_of_faultless he hp]
    refine ⟨.ok program, compile_of_faultless he hp s, ?_⟩
    simp [Diagnostics.count]
  · refine ⟨_, compile_of_count_ne_zero hcount s, ?_⟩
    intro failure
    simp only [Except.error.injEq, Nat.pos_of_ne_zero hcount, and_true]
    exact eq_comm

theorem run_malformed_iff {source : String} {steps n : Nat} {after : Session} :
    run steps source s = some (.error (.malformed n), after) ↔
      n = (diagnose source).count ∧ 0 < (diagnose source).count ∧
        after = { s with err := (diagnose source).report s.err } := by
  rcases faultless_or_count_ne_zero source with ⟨he, program, hp⟩ | hcount
  · rw [run_of_faultless he hp, interpret, diagnose_of_faultless he hp]
    rcases Machine.interpret steps program s.machine with _ | ⟨_ | _, m⟩ <;> simp [Diagnostics.count]
  · rw [run_of_count_ne_zero hcount]
    simp only [Option.some.injEq, Prod.mk.injEq, Except.error.injEq, Failure.malformed.injEq,
      Nat.pos_of_ne_zero hcount, true_and]
    rw [eq_comm, @eq_comm _ after]

theorem lasting_run_iff {source : String} {steps : Nat} {r : Except Failure Unit} {after : Session}
    (h : run steps source s = some (r, after)) :
    (diagnose source).count = 0 ↔ ∀ n, r ≠ .error (.malformed n) := by
  constructor
  · intro hzero n hr
    rw [hr] at h
    have hpos := (run_malformed_iff.mp h).2.1
    omega
  · intro hr
    by_contra hcount
    rw [run_of_count_ne_zero hcount] at h
    cases h
    exact hr _ rfl

theorem Step.lasting_run {source : String} {steps : Nat} {r : Except Failure Answer} {after : Session}
    (h : (Step.run source).perform steps s = some (r, after)) :
    (Step.run source).lasting = true ↔ ∀ n, r ≠ .error (.malformed n) := by
  cases hr : Session.run steps source s with
  | none => simp [perform, bind_apply, hr] at h
  | some p =>
    obtain ⟨r', t⟩ := p
    rw [perform, bind_pure_idle hr] at h
    cases h
    have hcount := lasting_run_iff hr
    cases r' <;> simpa [lasting, Except.map] using hcount

/-- The steps that last are those that run a source without failing at the source itself. -/
theorem Step.lasting_iff {step : Step} {steps : Nat} {r : Except Failure Answer} {after : Session}
    (h : step.perform steps s = some (r, after)) :
    step.lasting = true ↔ step.runs = true ∧ ∀ n, r ≠ .error (.malformed n) := by
  cases step with
  | tokens source | compile source => simp [lasting, runs]
  | run source => simpa [runs] using lasting_run h
  | runFile contents =>
    cases hc : contents.bind decodeText with
    | ok source =>
      obtain ⟨hperform, hlasting⟩ := runFile_of_text hc steps
      rw [hperform] at h
      simpa [runs, hlasting] using lasting_run h
    | error reason =>
      have hr : Session.runFile steps contents s = some (.error (.unreadable reason), s) := by
        simp only [Session.runFile, hc]
        rfl
      rw [perform, bind_pure_idle hr] at h
      cases h
      simp [lasting, runs, hc, Except.map]

def runtimeTexts : Except Failure Unit → List String
  | .error (.runtime e) => [e.text]
  | .error (.malformed _) | .error (.unreadable _) | .ok _ => []

theorem err_of_interpret (h : s.err.room = none) {program : List Stmt} {steps : Nat}
    {r : Except Failure Unit} {after : Session} (hr : interpret steps program s = some (r, after)) :
    after.err = ⟨s.err.written ++ lines (runtimeTexts r), none⟩ := by
  obtain ⟨⟨r', m⟩, _, heq⟩ := Option.map_eq_some_iff.mp hr
  cases r' with
  | error e =>
    cases heq
    simp only [Sink.reportRuntime, Sink.writeLine_of_unlimited h, runtimeTexts]
  | ok =>
    cases heq
    rw [runtimeTexts, lines_nil, ByteArray.append_empty, ← h]

/-- After the messages about the source, a run adds at most that about the runtime error that ended it. -/
theorem err_of_run (h : s.err.room = none) {source : String} {steps : Nat} {r : Except Failure Unit}
    {after : Session} (hr : run steps source s = some (r, after)) :
    after.err = ⟨s.err.written ++ lines ((diagnose source).texts ++ runtimeTexts r), none⟩ := by
  rcases faultless_or_count_ne_zero source with ⟨he, program, hp⟩ | hcount
  · rw [run_of_faultless he hp] at hr
    rw [diagnose_of_faultless he hp]
    exact err_of_interpret h hr
  · rw [run_of_count_ne_zero hcount, Diagnostics.report_of_unlimited h] at hr
    cases hr
    rw [runtimeTexts, List.append_nil]

end Session

/-- All that is wrong with a source is reported, in the errors' own words and in order, and a source with
errors does nothing else.  So steps of a session that list or compile, or run a source with errors, can be
left out without a trace in the others. -/
theorem diagnostics_reported {s : Session} (hs : s.err.room = none) (source : String) :
    let d := diagnose source
    let reported : Sink := ⟨s.err.written ++ lines d.texts, none⟩
    (∀ sink e, Sink.reportLexical sink e = (sink.writeLine e.text).1) ∧
      (∀ sink e, Sink.reportSyntax sink e = (sink.writeLine e.text).1) ∧
      (∃ r, Session.compile source s = some (r, { s with err := reported }) ∧
        ∀ failure, r = .error failure ↔ failure = .malformed d.count ∧ 0 < d.count) ∧
      (∀ steps n after, Session.run steps source s = some (.error (.malformed n), after) ↔
        n = d.count ∧ 0 < d.count ∧ after = { s with err := reported }) ∧
      (∀ steps r after, Session.run steps source s = some (r, after) →
        after.err = ⟨s.err.written ++ lines (d.texts ++ Session.runtimeTexts r), none⟩) ∧
      (∃ r, Session.tokens source s = some (r,
          { s with err := ⟨s.err.written ++ lines (d.lexical.map LexicalError.text), none⟩ }) ∧
        ∀ failure, r = .error failure ↔ failure = .malformed d.lexical.length ∧ d.lexical ≠ []) ∧
      d.lexical.map LexicalError.text <+: d.texts ∧
      (∀ steps step start r after, Session.Step.perform steps step start = some (r, after) →
        (step.lasting = true ↔ step.runs = true ∧ ∀ n, r ≠ .error (.malformed n))) ∧
      ∀ steps l start,
        Session.recorded (Session.follow steps (l.filter Session.Step.lasting) start) =
          (Session.recorded (Session.follow steps l start)).map
            fun (records, m) => (records.filter (·.step.lasting), m) := by
  intro d reported
  have hreport : d.report s.err = reported := Diagnostics.report_of_unlimited hs d
  refine ⟨Sink.reportLexical_eq, Sink.reportSyntax_eq, Session.compile_of_unlimited hs source, ?_, ?_,
    Session.tokens_of_unlimited hs source, List.prefix_append _ _, ?_, Session.recorded_follow_lasting⟩
  · intro steps n after
    rw [← hreport]
    exact Session.run_malformed_iff
  · intro steps r after hr
    exact Session.err_of_run hs hr
  · intro steps step start r after hr
    exact Session.Step.lasting_iff hr

theorem diagnostics_reported_two_of_each :
    let source := "var = a; @\nprint (a; \""
    let s := Session.start {} {}
    s.err.room = none ∧
      Session.run 1 source s = some (.error (.malformed 4), { s with err := ⟨lines
        ["[line 1] Error: Unexpected character.",
          "[line 2] Error: Unterminated string.",
          "[line 1] Error at '=': Expect variable name.",
          "[line 2] Error at ';': Expect ')' after expression."], none⟩ }) := by
  intro source s
  have hdiagnose : diagnose source =
      ⟨[⟨1, .unexpectedCharacter⟩, ⟨2, .unterminatedString⟩],
        [⟨⟨.equal, "=", 1, none⟩, .variableName⟩, ⟨⟨.semicolon, ";", 2, none⟩, .afterGrouping⟩]⟩ := by cbv
  have hrun := (diagnostics_reported (s := s) rfl source).2.2.2.1 1 4
  rw [hdiagnose] at hrun
  refine ⟨rfl, (hrun _).mpr ⟨rfl, by decide, ?_⟩⟩
  have hempty : s.err.written = .empty := rfl
  rw [hempty, ByteArray.empty_append]
  rfl

/-- A run may add more than what is wrong with its source: here the source has no errors, but fails. -/
theorem run_reports_beyond_diagnostics :
    ¬∀ (s : Session) (source : String) (steps : Nat) (r : Except Failure Unit) (after : Session),
      s.err.room = none → Session.run steps source s = some (r, after) →
        after.err.written = s.err.written ++ lines (diagnose source).texts := by
  intro h
  have htexts : (diagnose "-nil;").texts = [] := by cbv
  have hrun : ∃ r after, Session.run 1 "-nil;" (Session.start {} {}) = some (r, after) ∧
      after.err.written = lines ["[line 1] Operand must be a number."] := by
    refine ⟨_, _, by with_unfolding_all rfl, ?_⟩
    with_unfolding_all rfl
  obtain ⟨r, after, hrun, hwritten⟩ := hrun
  have hexact := h _ _ _ _ _ rfl hrun
  rw [hwritten, htexts] at hexact
  exact absurd (congrArg ByteArray.size hexact) (by decide)

end Lox
