import Lox.Proofs.RenumberRun

set_option autoImplicit false

namespace Lox

structure Diagnostics where
  lexical : List LexicalError
  syntactic : List SyntaxError

namespace Diagnostics

def count (d : Diagnostics) : Nat := d.lexical.length + d.syntactic.length

/-- The sink after the messages have gone to it, those about single characters first. -/
def report (d : Diagnostics) (sink : Sink) : Sink :=
  d.syntactic.foldl Sink.reportSyntax (d.lexical.foldl Sink.reportLexical sink)

def renumber (g : Nat → Nat) (d : Diagnostics) : Diagnostics :=
  ⟨d.lexical.map (LexicalError.renumber g), d.syntactic.map (SyntaxError.renumber g)⟩

theorem count_renumber (g : Nat → Nat) (d : Diagnostics) : (d.renumber g).count = d.count := by
  simp [count, renumber]

end Diagnostics

def syntaxErrors (ts : List Token) : List SyntaxError :=
  match parse ts with
  | .ok _ => []
  | .error errors => errors

def diagnose (source : String) : Diagnostics := ⟨(scan source).errors, syntaxErrors (scan source).tokens⟩

theorem parse_error_ne_nil {ts : List Token} {errors : List SyntaxError}
    (h : parse ts = .error errors) : errors ≠ [] := by
  obtain ⟨body, faults, rest, hd⟩ := Grammar.declarations_eq_ok false ts
  rw [parse, hd] at h
  cases faults with
  | nil => cases h
  | cons f faults =>
    cases h
    exact List.cons_ne_nil _ _

theorem faultless_or_count_ne_zero (source : String) :
    ((scan source).errors = [] ∧ ∃ program, parse (scan source).tokens = .ok program) ∨
      (diagnose source).count ≠ 0 := by
  cases hp : parse (scan source).tokens with
  | error errors =>
    have hne := List.length_pos_iff.mpr (parse_error_ne_nil hp)
    refine .inr ?_
    simp only [diagnose, syntaxErrors, hp, Diagnostics.count]
    omega
  | ok program =>
    cases he : (scan source).errors with
    | nil => exact .inl ⟨rfl, program, rfl⟩
    | cons e errors => exact .inr (by simp [diagnose, syntaxErrors, hp, he, Diagnostics.count])

namespace Session

variable {source : String} {s s' : Session}

theorem compile_of_faultless {program : List Stmt} (he : (scan source).errors = [])
    (hp : parse (scan source).tokens = .ok program) (s : Session) :
    compile source s = some (.ok program, s) := by
  simp [compile, he, hp]

theorem compile_of_count_ne_zero (h : (diagnose source).count ≠ 0) (s : Session) :
    compile source s = some (.error (.malformed (diagnose source).count),
      { s with err := (diagnose source).report s.err }) := by
  cases hp : parse (scan source).tokens with
  | error errors => simp [compile, diagnose, syntaxErrors, hp, Diagnostics.count, Diagnostics.report]
  | ok program =>
    cases he : (scan source).errors with
    | nil => simp [diagnose, syntaxErrors, hp, he, Diagnostics.count] at h
    | cons e errors =>
      simp [compile, diagnose, syntaxErrors, hp, he, Diagnostics.count, Diagnostics.report]

theorem compile_eq_ok_iff {program : List Stmt} :
    compile source s = some (.ok program, s') ↔
      (scan source).errors = [] ∧ parse (scan source).tokens = .ok program ∧ s' = s := by
  constructor
  · intro h
    rcases faultless_or_count_ne_zero source with ⟨he, tree, hp⟩ | hcount
    · rw [compile_of_faultless he hp] at h
      cases h
      exact ⟨he, hp, rfl⟩
    · rw [compile_of_count_ne_zero hcount] at h
      cases h
  · intro h
    obtain ⟨he, hp, hs⟩ := h
    rw [compile_of_faultless he hp, hs]

theorem compile_eq_error_iff {failure : Failure} :
    compile source s = some (.error failure, s') ↔
      (diagnose source).count ≠ 0 ∧ failure = .malformed (diagnose source).count ∧
        s' = { s with err := (diagnose source).report s.err } := by
  constructor
  · intro h
    rcases faultless_or_count_ne_zero source with ⟨he, tree, hp⟩ | hcount
    · rw [compile_of_faultless he hp] at h
      cases h
    · rw [compile_of_count_ne_zero hcount] at h
      cases h
      exact ⟨hcount, rfl, rfl⟩
  · intro h
    obtain ⟨hcount, hf, hs⟩ := h
    rw [compile_of_count_ne_zero hcount, hf, hs]

end Session

theorem Machine.interpret_append (steps : Nat) (first second : List Stmt) :
    Machine.interpret steps (first ++ second) =
      (do Machine.interpret steps first; Machine.interpret steps second) := by
  have hall : Machine.executeAll steps (first ++ second) =
      (do Machine.executeAll steps first; Machine.executeAll steps second) := List.forM_append
  funext m
  simp only [Exec.bind_apply, Machine.interpret, hall]
  rcases Machine.executeAll steps first m with _ | ⟨_ | _, after⟩ <;> rfl

namespace Session

theorem bind_apply {α β : Type} (x : Action α) (f : α → Action β) (s : Session) :
    (x >>= f) s = match x s with
      | some (.ok a, s) => f a s
      | some (.error e, s) => some (.error e, s)
      | none => none := by
  simp only [bind, ExceptT.bind, ExceptT.mk, StateT.bind]
  rcases x s with _ | ⟨_ | a, s'⟩ <;> rfl

theorem interpret_append (steps : Nat) (first second : List Stmt) :
    interpret steps (first ++ second) = (do interpret steps first; interpret steps second) := by
  funext s
  simp only [bind_apply, interpret, Machine.interpret_append, Exec.bind_apply]
  rcases Machine.interpret steps first s.machine with _ | ⟨_ | _, after⟩ <;> rfl

theorem run_of_faultless {source : String} {program : List Stmt} (he : (scan source).errors = [])
    (hp : parse (scan source).tokens = .ok program) (steps : Nat) :
    run steps source = interpret steps program := by
  funext s
  simp only [run, bind_apply, compile_of_faultless he hp]

theorem run_of_count_ne_zero {source : String} (h : (diagnose source).count ≠ 0) (steps : Nat)
    (s : Session) :
    run steps source s = some (.error (.malformed (diagnose source).count),
      { s with err := (diagnose source).report s.err }) := by
  simp only [run, bind_apply, compile_of_count_ne_zero h]

/-- What is left of a run but for the messages: its result, a failure with its line renumbered, and the
machine. -/
def effect {α : Type} (g : Nat → Nat) (r : Option (Except Failure α × Session)) :
    Option (Except Failure α × Machine) :=
  r.map fun (r, s) => (r.mapError (Failure.renumber g), s.machine)

theorem effect_interpret (g : Nat → Nat) (steps : Nat) (program : List Stmt) (s : Session) :
    effect g (interpret steps program s) = (Machine.interpret steps program s.machine).map
      fun (r, after) => (r.mapError fun e => .runtime (e.renumber g), after) := by
  unfold interpret
  rcases Machine.interpret steps program s.machine with _ | ⟨_ | _, after⟩ <;> rfl

theorem effect_interpret_map (g : Nat → Nat) (steps : Nat) (program : List Stmt) (s : Session) :
    effect id (interpret steps (program.map (Stmt.renumber g)) s) =
      effect g (interpret steps program s) := by
  simp only [effect_interpret, Machine.interpret_renumber, Exec.renumber, RuntimeError.renumber_id]
  rcases Machine.interpret steps program s.machine with _ | ⟨_ | _, after⟩ <;> rfl

end Session

end Lox
