import Mathlib
import Lox.Proofs.Blame
import Lox.Proofs.History
import Lox.Proofs.LineNumbers
import Lox.Proofs.Lookups
import Lox.Proofs.WellFormed

set_option autoImplicit false

namespace Lox

open Grammar

theorem mem_of_syntaxErrors {ts : List Token} {last : Token} (hs : ∀ t ∈ ts, t.kind ≠ .eof)
    (hl : last.kind = .eof) {e : SyntaxError} (he : e ∈ syntaxErrors (ts ++ [last])) :
    e.token ∈ ts ++ [last] := by
  rw [syntaxErrors_eq] at he
  obtain ⟨f, hf, rfl⟩ := List.mem_map.mp he
  exact List.mem_of_getElem? (getElem?_position hs hl [] hf)

/-- The operator with which the node computes a value from those of all its operands. -/
def Expr.operator? : Expr → Option Token
  | .unary op _ | .binary op _ _ => some op
  | .literal _ | .var _ | .assign _ _ | .logical _ _ _ | .grouping _ => none

def Expr.operators : Expr → List Token
  | .literal _ | .var _ => []
  | .assign _ value => value.operators
  | .unary op operand => op :: operand.operators
  | .binary op left right => op :: (left.operators ++ right.operators)
  | .logical _ left right => left.operators ++ right.operators
  | .grouping inner => inner.operators

mutual

def Stmt.operators : Stmt → List Token
  | .print value | .expression value => value.operators
  | .declare _ none => []
  | .declare _ (some initial) => initial.operators
  | .block body => Stmt.operatorsIn body
  | .ifThen condition body | .loop condition body => condition.operators ++ body.operators
  | .ifElse condition body otherwise => condition.operators ++ (body.operators ++ otherwise.operators)

def Stmt.operatorsIn : List Stmt → List Token
  | [] => []
  | s :: rest => s.operators ++ Stmt.operatorsIn rest

end

section Operators

variable {ops : List Token}

theorem Expr.all_operators {e : Expr} (h : e.operators ⊆ ops) :
    e.All fun node => ∀ op ∈ node.operator?, op ∈ ops := by
  induction e with
  | literal | var => simp [All, operator?]
  | assign _ _ ih | grouping _ ih => simpa [All, operator?] using ih h
  | unary op operand ih =>
    obtain ⟨hop, hoperand⟩ := List.cons_subset.mp h
    simpa [All, operator?, hop] using ih hoperand
  | binary op left right ihl ihr =>
    obtain ⟨hop, hoperands⟩ := List.cons_subset.mp h
    obtain ⟨hleft, hright⟩ := List.append_subset.mp hoperands
    simpa [All, operator?, hop] using And.intro (ihl hleft) (ihr hright)
  | logical op left right ihl ihr =>
    obtain ⟨hleft, hright⟩ := List.append_subset.mp h
    simpa [All, operator?] using And.intro (ihl hleft) (ihr hright)

mutual

theorem Stmt.all_operators : ∀ {s : Stmt}, s.operators ⊆ ops →
    s.All (fun _ => True) fun node => ∀ op ∈ node.operator?, op ∈ ops
  | .print _, h | .expression _, h | .declare _ (some _), h => ⟨trivial, Expr.all_operators h⟩
  | .declare _ none, _ => trivial
  | .block _, h => ⟨trivial, Stmt.allIn_operators h⟩
  | .ifThen _ _, h | .loop _ _, h =>
    have ⟨hcondition, hbody⟩ := List.append_subset.mp h
    ⟨trivial, Expr.all_operators hcondition, Stmt.all_operators hbody⟩
  | .ifElse _ _ _, h =>
    have ⟨hcondition, hbranches⟩ := List.append_subset.mp h
    have ⟨hbody, hotherwise⟩ := List.append_subset.mp hbranches
    ⟨trivial, Expr.all_operators hcondition, Stmt.all_operators hbody, Stmt.all_operators hotherwise⟩

theorem Stmt.allIn_operators : ∀ {body : List Stmt}, Stmt.operatorsIn body ⊆ ops →
    Stmt.AllIn (fun _ => True) (fun node => ∀ op ∈ node.operator?, op ∈ ops) body
  | [], _ => trivial
  | _ :: _, h =>
    have ⟨hfirst, hrest⟩ := List.append_subset.mp h
    ⟨Stmt.all_operators hfirst, Stmt.allIn_operators hrest⟩

end

end Operators

/-- The error points to a token of the program: to an operator of it that is not defined for all operands,
or to a name. -/
def RuntimeError.PointsInto (ts : List Token) (program : List Stmt) : RuntimeError → Prop
  | .typeMismatch op _ =>
    op ∈ ts ∧ op ∈ Stmt.operatorsIn program ∧ op.kind ∉ [.bang, .equalEqual, .bangEqual]
  | .undefinedVariable name => name ∈ ts ∧ name.kind = .identifier
  | .output _ => True
  | .invalidUnary _ | .invalidBinary _ => False

section PointsInto

variable {ts : List Token} {program : List Stmt} {err : RuntimeError}

theorem RuntimeError.Concerns.pointsInto {op : Token} (h : err.Concerns op) (hvalid : err.isInvalid = false)
    (hmem : op ∈ ts) (hop : op ∈ Stmt.operatorsIn program) : err.PointsInto ts program := by
  cases h with
  | mismatch hkind => exact ⟨hmem, hop, hkind⟩
  | invalidUnary | invalidBinary => cases hvalid

theorem Expr.CanRaise.pointsInto {node : Expr} (he : node.CanRaise err) (h : node.WellFormedFrom (· ∈ ts))
    (hop : ∀ op ∈ node.operator?, op ∈ Stmt.operatorsIn program) : err.PointsInto ts program := by
  have hvalid := h.1.raises he
  cases node with
  | literal | logical | grouping => exact he.elim
  | var name | assign name =>
    cases he
    exact ⟨h.2, h.1⟩
  | unary op operand =>
    obtain ⟨v, hv⟩ := he
    exact (applyUnary_concerns hv).pointsInto hvalid h.2 (hop op rfl)
  | binary op left right =>
    obtain ⟨l, r, hlr⟩ := he
    exact (applyBinary_concerns hlr).pointsInto hvalid h.2 (hop op rfl)

theorem Machine.interpret_pointsInto (h : parse ts = .ok program) (steps : Nat) :
    (Machine.interpret steps program).Raises (·.PointsInto ts program) := by
  -- Each node is well-formed, and its operator is one of the whole program.
  have hformed := parse_wellFormedFrom h fun t (ht : t ∈ ts) => ht
  have hoperators := Stmt.allIn_operators (List.Subset.refl (Stmt.operatorsIn program))
  have hall := Stmt.AllIn.combine (fun _ hs _ => hs) (fun _ hn ho => And.intro hn ho) hformed hoperators
  exact Machine.interpret_raises (fun node hn err he => he.pointsInto hn.1 hn.2) trivial steps hall

end PointsInto

namespace Session

/-- The states that a session comes to, step by step and whether the steps fail or not. -/
inductive Reached : Session → Prop where
  | start (out err : Sink) : Reached (.start out err)
  | step {s after : Session} {steps : Nat} {step : Step} {result : Except Failure Answer} :
      Reached s → step.perform steps s = some (result, after) → Reached after

def Stays {α : Type} (x : Action α) : Prop :=
  ∀ s r after, s.machine.store.Hosts s.machine.current → x s = some (r, after) →
    after.machine.store.Hosts after.machine.current

namespace Stays

variable {α β : Type}

theorem idle {x : Action α} (h : ∀ s, ∃ result err, x s = some (result, { s with err })) : Stays x := by
  intro s r after hs hx
  obtain ⟨result, err, hr⟩ := h s
  rw [hr] at hx
  cases hx
  exact hs

theorem bind {x : Action α} {f : α → Action β} (hx : Stays x) (hf : ∀ a, Stays (f a)) : Stays (x >>= f) := by
  intro s r after hs h
  rw [bind_apply] at h
  rcases hr : x s with _ | ⟨e | a, mid⟩ <;> rw [hr] at h
  · cases h
  · cases h
    exact hx s _ _ hs hr
  · exact hf a mid r after (hx s _ mid hs hr) h

theorem pure (a : α) : Stays (Pure.pure a : Action α) := idle fun s => ⟨_, s.err, rfl⟩

theorem interpret (steps : Nat) (program : List Stmt) : Stays (Session.interpret steps program) := by
  intro s r after hs h
  obtain ⟨⟨r', m⟩, hm, heq⟩ := Option.map_eq_some_iff.mp h
  have hstays := Exec.Stays.interpret steps program s.machine r' m hs hm
  cases r' <;> cases heq <;> exact hstays

theorem run (steps : Nat) (source : String) : Stays (Session.run steps source) :=
  bind (idle (compile_idle source)) (interpret steps)

theorem perform (steps : Nat) (step : Step) : Stays (step.perform steps) := by
  cases step with
  | run source => exact (run steps source).bind fun _ => pure _
  | tokens source => exact bind (idle (tokens_idle source)) fun _ => pure _
  | compile source => exact bind (idle (compile_idle source)) fun _ => pure _
  | runFile contents =>
    refine bind ?_ fun _ => pure _
    unfold Session.runFile
    split
    · exact run steps _
    · exact idle fun s => ⟨_, s.err, rfl⟩

end Stays

theorem Reached.hosts {s : Session} (h : s.Reached) : s.machine.store.Hosts s.machine.current := by
  induction h with
  | start out err => exact ⟨.push none .empty (by simp), Nat.zero_lt_one⟩
  | step _ hstep ih => exact Stays.perform _ _ _ _ _ ih hstep

theorem run_runtime {steps : Nat} {source : String} {s after : Session} {error : RuntimeError}
    (h : run steps source s = some (.error (.runtime error), after)) :
    ∃ program ended, compile source s = some (.ok program, s) ∧ parse (scan source).tokens = .ok program ∧
      Machine.interpret steps program s.machine = some (.error error, ended) := by
  rcases faultless_or_count_ne_zero source with ⟨he, program, hp⟩ | hcount
  · rw [run_of_faultless he hp] at h
    obtain ⟨⟨r, ended⟩, hr, heq⟩ := Option.map_eq_some_iff.mp h
    cases r <;> cases heq
    exact ⟨program, ended, compile_of_faultless he hp s, hp, hr⟩
  · rw [run_of_count_ne_zero hcount] at h
    cases h

end Session

def Diagnostics.lines (d : Diagnostics) : List Nat :=
  d.lexical.map LexicalError.line ++ d.syntactic.map (·.token.line)

def RuntimeError.line? : RuntimeError → Option Nat
  | .typeMismatch t _ | .undefinedVariable t => some t.line
  | .output _ | .invalidUnary _ | .invalidBinary _ => none

theorem RuntimeError.PointsInto.exists_token {ts : List Token} {program : List Stmt} {error : RuntimeError}
    (h : error.PointsInto ts program) {line : Nat} (hline : line ∈ error.line?) :
    ∃ t ∈ ts, t.line = line := by
  cases error with
  | typeMismatch t message => exact ⟨t, h.1, Option.some.inj hline⟩
  | undefinedVariable t => exact ⟨t, h.1, Option.some.inj hline⟩
  | output | invalidUnary | invalidBinary => cases hline

theorem mem_of_syntactic {source : String} {e : SyntaxError} (he : e ∈ (diagnose source).syntactic) :
    e.token ∈ (scan source).tokens := by
  obtain ⟨init, last, htokens, hinit⟩ := exists_scan_eq source
  rw [diagnose, htokens] at he
  rw [htokens]
  exact mem_of_syntaxErrors hinit rfl he

theorem line_of_diagnose {source : String} {line : Nat} (h : line ∈ (diagnose source).lines) :
    1 ≤ line ∧ line ≤ lastLine source.toList := by
  rcases List.mem_append.mp h with h | h
  · obtain ⟨e, he, rfl⟩ := List.mem_map.mp h
    exact scan_error_line source he
  · obtain ⟨e, he, rfl⟩ := List.mem_map.mp h
    exact scan_token_line source (mem_of_syntactic he)

/-- Every error points into the source that caused it, in whichever state the session is.  What parsing
blames and all that its trees hold are tokens of the source.  So are those that a run ends at: an operator
of the program for which not all operands will do, or an identifier, the last name the run looked up and the
only one that at that moment no scope on the way outward bound.  So all lines that are reported are lines of
the source. -/
theorem errors_point_into_source {s : Session} (hs : s.Reached) (source : String) :
    let tokens := (scan source).tokens
    (∀ errors, parse tokens = .error errors → ∀ e ∈ errors, e.token ∈ tokens) ∧
      (∀ program after, Session.compile source s = some (.ok program, after) →
        Stmt.AllIn (Stmt.From (· ∈ tokens)) (Expr.From (· ∈ tokens)) program) ∧
      (∀ steps op message after,
        Session.run steps source s = some (.error (.runtime (.typeMismatch op message)), after) →
          ∃ program, Session.compile source s = some (.ok program, s) ∧ op ∈ tokens ∧
            op ∈ Stmt.operatorsIn program ∧ op.kind ∉ [.bang, .equalEqual, .bangEqual]) ∧
      (∀ steps name after,
        Session.run steps source s = some (.error (.runtime (.undefinedVariable name)), after) →
          ∃ program, Session.compile source s = some (.ok program, s) ∧ name ∈ tokens ∧
            name.kind = .identifier ∧
            ∃ earlier l path, Machine.lookups steps program s.machine = earlier ++ [l] ∧
              (∀ k ∈ earlier, k.found = true) ∧ l.name = name ∧ Chain l.store.links l.scope path ∧
              ∀ k ∈ path, l.store.binds k name.lexeme = false) ∧
      ∀ line, line ∈ (diagnose source).lines ∨ (∃ steps error after,
          Session.run steps source s = some (.error (.runtime error), after) ∧ line ∈ error.line?) →
        1 ≤ line ∧ line ≤ 1 + source.toList.count '\n' := by
  intro tokens
  refine ⟨?_, ?_, ?_, ?_, ?_⟩
  · intro errors hp e he
    have hsyntactic : (diagnose source).syntactic = errors := by
      rw [diagnose, syntaxErrors, hp]
    exact mem_of_syntactic (hsyntactic ▸ he)
  · intro program after h
    obtain ⟨-, hp, -⟩ := Session.compile_eq_ok_iff.mp h
    have hformed := parse_wellFormedFrom hp fun t (ht : t ∈ tokens) => ht
    exact Stmt.AllIn.combine (fun _ hs _ => hs.2) (fun _ he _ => he.2) hformed hformed
  · intro steps op message after h
    obtain ⟨program, ended, hcompile, hp, hrun⟩ := Session.run_runtime h
    exact ⟨program, hcompile, Machine.interpret_pointsInto hp steps _ _ _ hrun⟩
  · intro steps name after h
    obtain ⟨program, ended, hcompile, hp, hrun⟩ := Session.run_runtime h
    obtain ⟨hmem, hkind⟩ := Machine.interpret_pointsInto hp steps _ _ _ hrun
    exact ⟨program, hcompile, hmem, hkind, Machine.interpret_unbound hs.hosts hrun⟩
  · rintro line (h | ⟨steps, error, after, h, hline⟩)
    · exact line_of_diagnose h
    · obtain ⟨program, ended, -, hp, hrun⟩ := Session.run_runtime h
      obtain ⟨t, ht, rfl⟩ := (Machine.interpret_pointsInto hp steps _ _ _ hrun).exists_token hline
      exact scan_token_line source ht

theorem errors_point_into_source_in_block :
    let source := "\x7b\nb = a; \x7d"
    let name : Token := ⟨.identifier, "b", 2, none⟩
    let s : Session := ⟨⟨⟨#[⟨[("a", .nil)], none⟩]⟩, 0, {}⟩, {}⟩
    s.Reached ∧ ∃ program after,
      Session.run 3 source s = some (.error (.runtime (.undefinedVariable name)), after) ∧
      Session.compile source s = some (.ok program, s) ∧ name ∈ (scan source).tokens ∧
      (∃ earlier l path, Machine.lookups 3 program s.machine = earlier ++ [l] ∧ l.name = name ∧
        Chain l.store.links l.scope path ∧ ∀ k ∈ path, l.store.binds k "b" = false) ∧
      2 ≤ 1 + source.toList.count '\n' := by
  intro source name s
  -- The name `a` is found, from another source; `b` is assigned to in a block, and is not.
  have hscan : scan "var a;" = ⟨[⟨.kwVar, "var", 1, none⟩, ⟨.identifier, "a", 1, none⟩,
      ⟨.semicolon, ";", 1, none⟩, .endOfSource 1], []⟩ := by cbv
  have hparse : parse (scan "var a;").tokens = .ok [.declare ⟨.identifier, "a", 1, none⟩ none] := by
    rw [hscan]
    cbv
  have hfirst : Session.run 1 "var a;" (.start {} {}) = some (.ok (), s) := by
    rw [Session.run_of_faultless (by rw [hscan]) hparse]
    cbv
  have hstep : (Session.Step.run "var a;").perform 1 (.start {} {}) = some (.ok .done, s) :=
    Session.bind_pure_idle hfirst _
  have hs : s.Reached := .step (.start {} {}) hstep
  have hscan' : scan source = ⟨[⟨.leftBrace, "\x7b", 1, none⟩, name, ⟨.equal, "=", 2, none⟩,
      ⟨.identifier, "a", 2, none⟩, ⟨.semicolon, ";", 2, none⟩, ⟨.rightBrace, "\x7d", 2, none⟩,
      .endOfSource 2], []⟩ := by cbv
  have hparse' : parse (scan source).tokens =
      .ok [.block [.expression (.assign name (.var ⟨.identifier, "a", 2, none⟩))]] := by
    rw [hscan']
    cbv
  obtain ⟨after, hrun⟩ : ∃ after,
      Session.run 3 source s = some (.error (.runtime (.undefinedVariable name)), after) := by
    rw [Session.run_of_faultless (by rw [hscan']) hparse']
    exact ⟨_, by with_unfolding_all rfl⟩
  obtain ⟨-, -, -, hname, hlines⟩ := errors_point_into_source hs source
  obtain ⟨program, hcompile, hmem, -, earlier, l, path, htrace, -, hl, hpath, hunbound⟩ :=
    hname 3 name after hrun
  obtain ⟨-, hline⟩ := hlines 2 (.inr ⟨3, _, after, hrun, rfl⟩)
  exact ⟨hs, program, after, hrun, hcompile, hmem, ⟨earlier, l, path, htrace, hl, hpath, hunbound⟩, hline⟩

end Lox
