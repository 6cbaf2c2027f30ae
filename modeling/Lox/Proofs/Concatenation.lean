import Mathlib
import Lox.Proofs.Acceptance
import Lox.Proofs.Diagnostics
import Lox.Proofs.Seams

set_option autoImplicit false

namespace Lox

open Grammar Syntax

theorem parse_append {ts us : List Token} {program : List Stmt}
    (h : Declarations .nearest ts program) (hu : (current us).kind ≠ .kwElse) :
    parse (ts ++ us) = (parse us).map (program ++ ·) := by
  rw [parse, parse, declarations_complete h false us hu]
  obtain ⟨body, faults, rest, hd⟩ := declarations_eq_ok false us
  rw [hd]
  cases faults <;> rfl

section

variable {first second : String} {program : List Stmt}

theorem declarations_of_scan (h : parse (scan first).tokens = .ok program) :
    Declarations .nearest (scan first).tokens.dropLast program := by
  obtain ⟨init, last, htokens, hinit⟩ := exists_scan_eq first
  rw [htokens] at h ⊢
  rw [List.dropLast_concat]
  exact (parse_iff_derives hinit rfl program).mp h

theorem parse_concatenated (he : (scan first).errors = [])
    (hp : parse (scan first).tokens = .ok program)
    (hs : ∀ t, (scan second).tokens.head? = some t → t.kind ≠ .kwElse) :
    parse (scan (first ++ "\n" ++ second)).tokens =
      (renumberParsed (· + (1 + first.toList.count '\n')) (parse (scan second).tokens)).map
        (program ++ ·) := by
  have hcurrent : (current (scan second).tokens).kind ≠ .kwElse := by
    cases hts : (scan second).tokens with
    | nil => simp [current, Token.endOfSource]
    | cons t rest => exact hs t (by simp [hts])
  rw [← kind_current_map (· + (1 + first.toList.count '\n'))] at hcurrent
  rw [scan_append_newline he, parse_append (declarations_of_scan hp) hcurrent, parse_scan_map]

theorem diagnose_concatenated (he : (scan first).errors = [])
    (hp : parse (scan first).tokens = .ok program)
    (hs : ∀ t, (scan second).tokens.head? = some t → t.kind ≠ .kwElse) :
    diagnose (first ++ "\n" ++ second) =
      (diagnose second).renumber (· + (1 + first.toList.count '\n')) := by
  have hsyntax : syntaxErrors (scan (first ++ "\n" ++ second)).tokens =
      (syntaxErrors (scan second).tokens).map
        (SyntaxError.renumber (· + (1 + first.toList.count '\n'))) := by
    rw [syntaxErrors, syntaxErrors, parse_concatenated he hp hs]
    cases parse (scan second).tokens <;> rfl
  rw [diagnose, hsyntax, scan_append_newline he]
  rfl

end

/-- Two sources put together compile to the two programs put together, or fail with what is wrong with the
second one, and run as the two do one after the other. -/
theorem run_concatenated {first second : String} {p : List Stmt} {s : Session}
    (hfirst : Session.compile first s = some (.ok p, s))
    (hsecond : ∀ t, (scan second).tokens.head? = some t → t.kind ≠ .kwElse) :
    let k := 1 + first.toList.count '\n'
    let both := first ++ "\n" ++ second
    (∀ q, Session.compile second s = some (.ok q, s) →
        Session.compile both s = some (.ok (p ++ q.map (Stmt.renumber (· + k))), s)) ∧
      (∀ failure s', Session.compile second s = some (.error failure, s') →
        s' = { s with err := (diagnose second).report s.err } ∧
        diagnose both = (diagnose second).renumber (· + k) ∧
        Session.compile both s = some (.error failure, { s with err := (diagnose both).report s.err })) ∧
      ∀ q steps, Session.compile second s = some (.ok q, s) →
        match Session.run steps first s with
        | some (.ok (), between) =>
          Session.effect id (Session.run steps both s) =
            Session.effect (· + k) (Session.run steps second between)
        | failed => Session.run steps both s = failed := by
  intro k both
  obtain ⟨he, hp, _⟩ := Session.compile_eq_ok_iff.mp hfirst
  have hdiagnose : diagnose both = (diagnose second).renumber (· + k) :=
    diagnose_concatenated he hp hsecond
  have hboth : ∀ q, Session.compile second s = some (.ok q, s) →
      (scan both).errors = [] ∧
        parse (scan both).tokens = .ok (p ++ q.map (Stmt.renumber (· + k))) := by
    intro q hq
    obtain ⟨he', hp', _⟩ := Session.compile_eq_ok_iff.mp hq
    refine ⟨?_, ?_⟩
    · rw [scan_append_newline he, he']
      rfl
    · rw [parse_concatenated he hp hsecond, hp']
      rfl
  refine ⟨?_, ?_, ?_⟩
  · intro q hq
    obtain ⟨he', hp'⟩ := hboth q hq
    exact Session.compile_of_faultless he' hp' s
  · intro failure s' hq
    obtain ⟨hcount, hf, hs'⟩ := Session.compile_eq_error_iff.mp hq
    have hcount' : (diagnose both).count = (diagnose second).count := by
      rw [hdiagnose, Diagnostics.count_renumber]
    refine ⟨hs', hdiagnose, ?_⟩
    rw [Session.compile_of_count_ne_zero (hcount' ▸ hcount), hf, hcount']
  · intro q steps hq
    obtain ⟨he', hp', _⟩ := Session.compile_eq_ok_iff.mp hq
    obtain ⟨he'', hp''⟩ := hboth q hq
    rw [Session.run_of_faultless he'' hp'', Session.run_of_faultless he hp,
      Session.run_of_faultless he' hp', Session.interpret_append, Session.bind_apply]
    rcases Session.interpret steps p s with _ | ⟨_ | _, between⟩
    · rfl
    · rfl
    · exact Session.effect_interpret_map (· + k) steps q between

theorem run_concatenated_pending_if :
    let first := "if (nil) nil;\n// end"
    let second := "-nil;"
    let s := Session.start {} {}
    Session.compile first s = some (.ok [.ifThen (.literal .nil) (.expression (.literal .nil))], s) ∧
      (∀ t, (scan second).tokens.head? = some t → t.kind ≠ .kwElse) ∧
      Session.effect id (Session.run 3 (first ++ "\n" ++ second) s) =
        some (.error (.runtime (.typeMismatch ⟨.minus, "-", 3, none⟩ "Operand must be a number.")),
          s.machine) := by
  intro first second s
  have hscan : scan first = ⟨[⟨.kwIf, "if", 1, none⟩, ⟨.leftParen, "(", 1, none⟩, ⟨.kwNil, "nil", 1, none⟩,
      ⟨.rightParen, ")", 1, none⟩, ⟨.kwNil, "nil", 1, none⟩, ⟨.semicolon, ";", 1, none⟩,
      .endOfSource 2], []⟩ := by cbv
  have hscan' : scan second = ⟨[⟨.minus, "-", 1, none⟩, ⟨.kwNil, "nil", 1, none⟩,
      ⟨.semicolon, ";", 1, none⟩, .endOfSource 1], []⟩ := by cbv
  have hclean : (scan first).errors = [] := by rw [hscan]
  have hclean' : (scan second).errors = [] := by rw [hscan']
  have hparsed : parse (scan first).tokens =
      .ok [.ifThen (.literal .nil) (.expression (.literal .nil))] := by
    rw [hscan]
    cbv
  have hparsed' : parse (scan second).tokens =
      .ok [.expression (.unary ⟨.minus, "-", 1, none⟩ (.literal .nil))] := by
    rw [hscan']
    cbv
  have hfirst := Session.compile_of_faultless hclean hparsed s
  have hsecond : ∀ t, (scan second).tokens.head? = some t → t.kind ≠ .kwElse := by
    intro t ht
    rw [hscan'] at ht
    cases ht
    decide
  have hran : Session.run 3 first s = some (.ok (), s) := by
    rw [Session.run_of_faultless hclean hparsed]
    cbv
  have hrun := (run_concatenated hfirst hsecond).2.2 _ 3 (Session.compile_of_faultless hclean' hparsed' s)
  rw [hran] at hrun
  refine ⟨hfirst, hsecond, hrun.trans ?_⟩
  rw [Session.run_of_faultless hclean' hparsed', Session.effect_interpret]
  cbv

end Lox
