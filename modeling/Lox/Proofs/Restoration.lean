import Lox.Machine

set_option autoImplicit false

namespace Lox

/-- A property that all parts of statements have and that passes to what is put together from them. -/
structure Exec.Hereditary (P : {α : Type} → Exec α → Prop) : Prop where
  outOfSteps : P (Exec.outOfSteps : Exec Unit)
  pure : P (Pure.pure () : Exec Unit)
  bind {α β : Type} {x : Exec α} {f : α → Exec β} : P x → (∀ a, P (f a)) → P (x >>= f)
  eval (e : Expr) : P (Exec.eval e)
  print (value : Value) : P (Exec.print value)
  define (name : String) (value : Value) : P (Exec.define name value)
  inNewScope {x : Exec Unit} : P x → P (Exec.inNewScope x)

namespace Exec.Hereditary

variable {P : {α : Type} → Exec α → Prop}

theorem forM (h : Hereditary P) {f : Stmt → Exec Unit} (hf : ∀ s, P (f s)) (body : List Stmt) :
    P (body.forM f) := by
  induction body with
  | nil => exact h.pure
  | cons s rest ih => exact h.bind (hf s) fun _ => ih

theorem exec (h : Hereditary P) (steps : Nat) (s : Stmt) : P (s.exec steps) := by
  induction steps generalizing s with
  | zero => exact h.outOfSteps
  | succ steps ih =>
    cases s with
    | print value => exact h.bind (h.eval value) h.print
    | expression value => exact h.bind (h.eval value) fun _ => h.pure
    | declare name initial =>
      cases initial with
      | none => exact h.define name.lexeme .nil
      | some e => exact h.bind (h.eval e) fun v => h.define name.lexeme v
    | block body => exact h.inNewScope (h.forM ih body)
    | ifThen condition body =>
      refine h.bind (h.eval condition) fun c => ?_
      split
      · exact ih body
      · exact h.pure
    | ifElse condition body otherwise =>
      refine h.bind (h.eval condition) fun c => ?_
      split
      · exact ih body
      · exact ih otherwise
    | loop condition body =>
      refine h.bind (h.eval condition) fun c => ?_
      split
      · exact h.bind (ih body) fun _ => ih (.loop condition body)
      · exact h.pure

theorem executeAll (h : Hereditary P) (steps : Nat) (body : List Stmt) :
    P (Machine.executeAll steps body) :=
  h.forM (h.exec steps) body

end Exec.Hereditary

/-- However the computation ends, the machine is in the scope it was in. -/
def Exec.Restores {α : Type} (x : Exec α) : Prop :=
  ∀ m r m', x m = some (r, m') → m'.current = m.current

namespace Exec.Restores

variable {α β : Type}

theorem pure (a : α) : Restores (Pure.pure a) := by
  intro m r m' h
  cases h
  rfl

theorem bind {x : Exec α} {f : α → Exec β} (hx : x.Restores) (hf : ∀ a, (f a).Restores) :
    (x >>= f).Restores := by
  intro m r m' h
  rw [Exec.bind_apply] at h
  rcases hr : x m with _ | ⟨_ | a, mid⟩
  · rw [hr] at h
    cases h
  · rw [hr] at h
    cases h
    exact hx m _ _ hr
  · rw [hr] at h
    exact (hf a mid r m' h).trans (hx m _ _ hr)

theorem eval (e : Expr) : (Exec.eval e).Restores := by
  intro m r m' h
  cases h
  rfl

theorem print (value : Value) : (Exec.print value).Restores := by
  intro m r m' h
  unfold Exec.print at h
  split at h <;> cases h <;> rfl

theorem define (name : String) (value : Value) : (Exec.define name value).Restores := by
  intro m r m' h
  cases h
  rfl

theorem inScope (scope : Nat) (x : Exec α) : (Exec.inScope scope x).Restores := by
  intro m r m' h
  obtain ⟨_, _, heq⟩ := Option.map_eq_some_iff.mp h
  cases heq
  rfl

theorem inNewScope (x : Exec α) : (Exec.inNewScope x).Restores := by
  intro m r m' h
  obtain ⟨⟨r', inner⟩, hx, heq⟩ := Option.map_eq_some_iff.mp h
  cases heq
  have hback := inScope _ x _ _ _ hx
  exact hback

theorem outOfSteps : Restores (Exec.outOfSteps : Exec α) := by
  intro m r m' h
  cases h

theorem hereditary : Hereditary Restores where
  outOfSteps := .outOfSteps
  pure := .pure ()
  bind := .bind
  eval := .eval
  print := .print
  define := .define
  inNewScope := fun _ => .inNewScope _

end Exec.Restores

namespace Machine

/-- From the outermost scope, bringing a failed run back there changes nothing. -/
theorem interpret_eq_executeAll {m : Machine} (hm : m.current = globals) (steps : Nat)
    (program : List Stmt) : interpret steps program m = executeAll steps program m := by
  unfold interpret
  rcases hx : executeAll steps program m with _ | ⟨_ | _, after⟩
  · rfl
  · have hback : after.current = globals :=
      (Exec.Restores.hereditary.executeAll steps program m _ _ hx).trans hm
    rw [Option.map_some, ← hback]
  · rfl

inductive Call where
  | interpret (program : List Stmt)
  | execute (s : Stmt)
  | executeIn (scope : Nat) (body : List Stmt)
  | evaluate (e : Expr)
  | openScope (parent : Option Nat)

def Call.perform (steps : Nat) : Call → Exec Unit
  | .interpret program => Machine.interpret steps program
  | .execute s => s.exec steps
  | .executeIn scope body => Machine.executeIn steps scope body
  | .evaluate e => do
    let _ ← Exec.eval e
    pure ()
  | .openScope parent => fun m => some (.ok (), { m with store := m.store.push parent })

/-- The machines that calls lead to, one after the other and whether they fail or not. -/
inductive Reached (out : Sink) : Machine → Prop where
  | start : Reached out (Machine.start out)
  | call {m m' : Machine} {steps : Nat} {c : Call} {r : Except RuntimeError Unit} :
      Reached out m → c.perform steps m = some (r, m') → Reached out m'

theorem Call.current_perform {steps : Nat} {c : Call} {m m' : Machine} {r : Except RuntimeError Unit}
    (hm : m.current = globals) (h : c.perform steps m = some (r, m')) : m'.current = globals := by
  cases c with
  | interpret program =>
    rw [perform, interpret_eq_executeAll hm] at h
    exact (Exec.Restores.hereditary.executeAll steps program m r m' h).trans hm
  | execute s => exact (Exec.Restores.hereditary.exec steps s m r m' h).trans hm
  | executeIn scope body => exact (Exec.Restores.inScope scope _ m r m' h).trans hm
  | evaluate e => exact ((Exec.Restores.eval e).bind (fun _ => .pure ()) m r m' h).trans hm
  | openScope parent =>
    cases h
    exact hm

theorem Reached.current {out : Sink} {m : Machine} (h : Reached out m) : m.current = globals := by
  induction h with
  | start => rfl
  | call _ hcall ih => exact Call.current_perform ih hcall

end Machine

/-- Executing and evaluating leave the machine in the scope it was in, also when they fail.  So between the
calls of any sequence it is at the outermost scope, and coming back there after a failed run does nothing. -/
theorem current_scope_restored :
    (∀ (steps : Nat) (s : Stmt) (m m' : Machine) (r : Except RuntimeError Unit),
        s.exec steps m = some (r, m') → m'.current = m.current) ∧
      (∀ (steps scope : Nat) (body : List Stmt) (m m' : Machine) (r : Except RuntimeError Unit),
        Machine.executeIn steps scope body m = some (r, m') → m'.current = m.current) ∧
      (∀ (e : Expr) (m m' : Machine) (r : Except RuntimeError Value),
        Exec.eval e m = some (r, m') → m'.current = m.current) ∧
      ∀ (out : Sink) (m : Machine), Machine.Reached out m → m.current = Machine.globals ∧
        ∀ steps program, Machine.interpret steps program m = Machine.executeAll steps program m := by
  refine ⟨?_, ?_, ?_, ?_⟩
  · intro steps s m m' r h
    exact Exec.Restores.hereditary.exec steps s m r m' h
  · intro steps scope body m m' r h
    exact Exec.Restores.inScope scope _ m r m' h
  · intro e m m' r h
    exact Exec.Restores.eval e m r m' h
  · intro out m h
    exact ⟨h.current, Machine.interpret_eq_executeAll h.current⟩

theorem current_scope_restored_nested_failure :
    let b : Token := ⟨.identifier, "b", 1, none⟩
    let minus : Token := ⟨.minus, "-", 2, none⟩
    let failing := Stmt.block [.declare b none, .block [.expression (.assign b (.unary minus (.var b)))]]
    let m : Machine := ⟨⟨#[{}, { parent := some 0 }]⟩, 1, {}⟩
    let error : RuntimeError := .typeMismatch minus "Operand must be a number."
    (∃ m', failing.exec 3 m = some (.error error, m') ∧ m'.current = 1) ∧
      ∃ m', Machine.interpret 3 [failing] (.start {}) = some (.error error, m') ∧
        Machine.Reached {} m' ∧ m'.current = Machine.globals := by
  intro b minus failing m error
  obtain ⟨m', hrun⟩ : ∃ m', failing.exec 3 m = some (.error error, m') := ⟨_, by with_unfolding_all rfl⟩
  obtain ⟨ended, hcall⟩ : ∃ ended, Machine.interpret 3 [failing] (.start {}) = some (.error error, ended) :=
    ⟨_, by with_unfolding_all rfl⟩
  have hreached : Machine.Reached {} ended :=
    .call (c := .interpret [failing]) .start hcall
  exact ⟨⟨m', hrun, current_scope_restored.1 3 failing m m' _ hrun⟩,
    ended, hcall, hreached, (current_scope_restored.2.2.2 {} ended hreached).1⟩

end Lox
