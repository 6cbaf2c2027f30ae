import Mathlib
import Lox.Proofs.Acceptance
import Lox.Proofs.Restoration
import Lox.Proofs.Truncation
import Lox.Proofs.Wrapping

set_option autoImplicit false

namespace Lox

namespace Exec

def holds : Option Expr → Exec Bool
  | some e => do
    let v ← eval e
    pure v.truthy
  | none => pure true

def advance : Option Expr → Exec Unit
  | some e => do
    let _ ← eval e
    pure ()
  | none => pure ()

/-- As many turns as it takes, all in the current scope. -/
def turns (condition step : Option Expr) (body : Stmt) : Nat → Exec Unit
  | 0 => outOfSteps
  | steps + 1 => do
    if ← holds condition then
      body.exec steps
      advance step
      turns condition step body steps
    else pure ()

def counting (initial : Option Stmt) (condition step : Option Expr) (body : Stmt) (steps : Nat) :
    Exec Unit :=
  match initial with
  | some s => inNewScope do
    s.exec steps
    turns condition step body steps
  | none => turns condition step body steps

/-- However the computation ends, the machine is where it was, and all scopes opened on the way are closed. -/
def KeepsPlace {α : Type} (x : Exec α) : Prop :=
  ∀ m r after, x m = some (r, after) → after.current = m.current ∧ after.store.size = m.store.size

namespace KeepsPlace

variable {α β : Type}

theorem pure (a : α) : KeepsPlace (Pure.pure a) := by
  intro m r after h
  cases h
  exact ⟨rfl, rfl⟩

theorem bind {x : Exec α} {f : α → Exec β} (hx : x.KeepsPlace) (hf : ∀ a, (f a).KeepsPlace) :
    (x >>= f).KeepsPlace := by
  intro m r after h
  rw [Exec.bind_apply] at h
  rcases hr : x m with _ | ⟨_ | a, mid⟩
  · rw [hr] at h
    cases h
  · rw [hr] at h
    cases h
    exact hx m _ _ hr
  · rw [hr] at h
    obtain ⟨hcurrent, hsize⟩ := hx m _ _ hr
    obtain ⟨hcurrent', hsize'⟩ := hf a mid r after h
    exact ⟨hcurrent'.trans hcurrent, hsize'.trans hsize⟩

theorem eval (e : Expr) : (Exec.eval e).KeepsPlace := by
  intro m r after h
  cases h
  exact ⟨rfl, e.size_eval m.current m.store⟩

theorem hereditary : Hereditary KeepsPlace where
  outOfSteps := by
    intro m r after h
    cases h
  pure := pure ()
  bind := bind
  eval := eval
  print value := by
    intro m r after h
    unfold Exec.print at h
    split at h <;> cases h <;> exact ⟨rfl, rfl⟩
  define name value := by
    intro m r after h
    cases h
    exact ⟨rfl, Store.size_define _ _ _ _⟩
  inNewScope {x} hx := by
    intro m r after h
    refine ⟨Restores.inNewScope x m r after h, ?_⟩
    simp only [Exec.inNewScope, Exec.inScope, Option.map_map] at h
    obtain ⟨⟨r', inner⟩, hinner, heq⟩ := Option.map_eq_some_iff.mp h
    cases heq
    have hsize := (hx _ _ _ hinner).2
    rw [Store.size_push] at hsize
    exact (Store.size_pop _).trans (by rw [hsize]; rfl)

end KeepsPlace

/-- From machines whose current scope exists, `y` has every result of `x`. -/
def Covers {α : Type} (x y : Exec α) : Prop :=
  ∀ m result, m.current < m.store.size → x m = some result → y m = some result

namespace Covers

variable {α β : Type}

theorem of_refines {x y : Exec α} (h : x.Refines y) : x.Covers y := fun m result _ => h m result

theorem of_eq {x y : Exec α} (h : x = y) : x.Covers y := fun _ _ _ hx => h ▸ hx

theorem bind {x y : Exec α} {f g : α → Exec β} (h : x.Covers y) (hx : x.KeepsPlace)
    (hf : ∀ a, (f a).Covers (g a)) : (x >>= f).Covers (y >>= g) := by
  intro m result hm hr
  rw [Exec.bind_apply] at hr ⊢
  rcases he : x m with _ | ⟨_ | a, mid⟩
  · simp [he] at hr
  · rw [h m _ hm he]
    simpa [he] using hr
  · obtain ⟨hcurrent, hsize⟩ := hx m _ _ he
    rw [h m _ hm he]
    exact hf a mid result (by rw [hcurrent, hsize]; exact hm) (by simpa [he] using hr)

theorem inNewScope {x y : Exec α} (h : x.Covers y) : (Exec.inNewScope x).Covers (Exec.inNewScope y) := by
  intro m result _ hr
  simp only [Exec.inNewScope, Exec.inScope, Option.map_map] at hr ⊢
  obtain ⟨after, hx, rfl⟩ := Option.map_eq_some_iff.mp hr
  have hy := h _ _ (by simp) hx
  exact Option.map_eq_some_iff.mpr ⟨after, hy, rfl⟩

end Covers

theorem holds_bind {β : Type} (condition : Option Expr) (f : Bool → Exec β) :
    (eval (condition.getD (.literal (.boolean true))) >>= fun v => f v.truthy) = holds condition >>= f := by
  cases condition with
  | none => rfl
  | some e =>
    rw [holds, bind_assoc]
    simp only [pure_bind, Option.getD_some]

end Exec

def Stmt.turn (step : Option Expr) (body : Stmt) : Stmt :=
  match step with
  | some e => .block [body, .expression e]
  | none => body

theorem Stmt.counting_eq (initial : Option Stmt) (condition step : Option Expr) (body : Stmt) :
    Stmt.counting initial condition step body =
      let loop := .loop (condition.getD (.literal (.boolean true))) (.turn step body)
      match initial with
      | some s => .block [s, loop]
      | none => loop := by
  cases initial <;> cases step <;> rfl

section

variable {body : Stmt} (hbody : body.declared = [])

include hbody

theorem Stmt.forM_lockstep (e : Expr) (steps : Nat) (k p : Nat) :
    Exec.Lockstep k p p ([body, .expression e].forM (Stmt.exec steps))
      ([body, .expression e].forM (Stmt.exec steps)) := by
  refine .forM fun s hs => Stmt.exec_lockstep steps (.inl rfl) (.inr ?_)
  rcases List.mem_cons.mp hs with rfl | hs
  · exact hbody
  · rw [List.mem_singleton.mp hs]
    rfl

theorem Stmt.exec_turn (e : Expr) (steps : Nat) {m : Machine} (hm : m.current < m.store.size) :
    (Stmt.block [body, .expression e]).exec (steps + 1) m =
      (do body.exec steps; (Stmt.expression e).exec steps) m := by
  have hlist : [body, .expression e].forM (Stmt.exec steps) =
      (do body.exec steps; (Stmt.expression e).exec steps) :=
    congrArg (body.exec steps >>= ·) (funext fun _ => bind_pure_unit)
  rw [Stmt.exec, Exec.Lockstep.inNewScope_eq (Stmt.forM_lockstep hbody e steps) hm, hlist]

theorem Stmt.turn_covers (step : Option Expr) (steps : Nat) :
    ((Stmt.turn step body).exec steps).Covers (do body.exec steps; Exec.advance step) := by
  cases step with
  | none =>
    refine .of_eq ?_
    rw [Exec.advance, bind_pure_unit]
    rfl
  | some e =>
    intro m result hm hr
    cases steps with
    | zero => cases hr
    | succ steps =>
      rw [Stmt.turn, Stmt.exec_turn hbody e steps hm] at hr
      refine Exec.Refines.bind (body.exec_refines_succ steps) (fun _ => ?_) m result hr
      exact (Stmt.expression e).exec_refines_succ steps

theorem Stmt.covers_turn (step : Option Expr) (steps : Nat) :
    (do body.exec steps; Exec.advance step).Covers ((Stmt.turn step body).exec (steps + 2)) := by
  have hmore := body.exec_refines (Nat.le_add_right steps 2)
  cases step with
  | none =>
    rw [Exec.advance, bind_pure_unit]
    exact .of_refines hmore
  | some e =>
    intro m result hm hr
    rw [Stmt.turn, Stmt.exec_turn hbody e (steps + 1) hm]
    exact Exec.Refines.bind (body.exec_refines_succ steps) (fun _ => .refl _) m result hr

omit hbody in
theorem Stmt.exec_loop (condition step : Option Expr) (steps : Nat) :
    (Stmt.loop (condition.getD (.literal (.boolean true))) (.turn step body)).exec (steps + 1) =
      Exec.holds condition >>= fun go => if go then do
        (Stmt.turn step body).exec steps
        (Stmt.loop (condition.getD (.literal (.boolean true))) (.turn step body)).exec steps
      else pure () := by
  rw [← Exec.holds_bind, Stmt.exec]

omit hbody in
theorem Exec.turns_succ (condition step : Option Expr) (steps : Nat) :
    Exec.turns condition step body (steps + 1) =
      Exec.holds condition >>= fun go => if go then
        (do body.exec steps; Exec.advance step) >>= fun _ => Exec.turns condition step body steps
      else pure () := by
  simp only [Exec.turns, bind_assoc]

omit hbody in
theorem Exec.holds_keepsPlace (condition : Option Expr) : (Exec.holds condition).KeepsPlace := by
  cases condition with
  | none => exact .pure true
  | some e => exact .bind (.eval e) fun v => .pure _

omit hbody in
theorem Exec.advance_keepsPlace (step : Option Expr) : (Exec.advance step).KeepsPlace := by
  cases step with
  | none => exact .pure ()
  | some e => exact .bind (.eval e) fun v => .pure _

theorem Stmt.loop_covers (condition step : Option Expr) (steps : Nat) :
    ((Stmt.loop (condition.getD (.literal (.boolean true))) (.turn step body)).exec steps).Covers
      (Exec.turns condition step body steps) := by
  induction steps with
  | zero =>
    intro m result _ hr
    cases hr
  | succ steps ih =>
    rw [Stmt.exec_loop, Exec.turns_succ]
    refine .bind (.of_eq rfl) (Exec.holds_keepsPlace condition) fun go => ?_
    split
    · exact .bind (Stmt.turn_covers hbody step steps) (Exec.KeepsPlace.hereditary.exec steps _) fun _ => ih
    · exact .of_eq rfl

theorem Stmt.covers_loop (condition step : Option Expr) (steps : Nat) :
    (Exec.turns condition step body steps).Covers
      ((Stmt.loop (condition.getD (.literal (.boolean true))) (.turn step body)).exec (steps + 2)) := by
  -- The block takes a step, and so does the expression in it; turn after turn these are the same two.
  induction steps with
  | zero =>
    intro m result _ hr
    cases hr
  | succ steps ih =>
    have hplace := Exec.KeepsPlace.bind (Exec.KeepsPlace.hereditary.exec steps body)
      fun _ => Exec.advance_keepsPlace step
    rw [Stmt.exec_loop, Exec.turns_succ]
    refine .bind (.of_eq rfl) (Exec.holds_keepsPlace condition) fun go => ?_
    split
    · exact .bind (Stmt.covers_turn hbody step steps) hplace fun _ => ih
    · exact .of_eq rfl

end

/-- A counting loop ends, with a result and a machine, if and only if it does as it is written. -/
theorem Stmt.exec_counting_iff (initial : Option Stmt) (condition step : Option Expr) {body : Stmt}
    (hbody : body.declared = []) {m : Machine} (hm : m.current < m.store.size)
    (result : Except RuntimeError Unit × Machine) :
    (∃ steps, (Stmt.counting initial condition step body).exec steps m = some result) ↔
      ∃ steps, Exec.counting initial condition step body steps m = some result := by
  rw [Stmt.counting_eq]
  cases initial with
  | none =>
    constructor
    · rintro ⟨steps, h⟩
      exact ⟨steps, Stmt.loop_covers hbody condition step steps m result hm h⟩
    · rintro ⟨steps, h⟩
      exact ⟨steps + 2, Stmt.covers_loop hbody condition step steps m result hm h⟩
  | some s =>
    have hplace := fun steps => Exec.KeepsPlace.hereditary.exec steps s
    constructor
    · rintro ⟨steps, h⟩
      cases steps with
      | zero => cases h
      | succ steps =>
        refine ⟨steps, Exec.Covers.inNewScope ?_ m result hm h⟩
        refine .bind (.of_eq rfl) (hplace steps) fun _ => ?_
        rw [← bind_pure_unit (x := Exec.turns condition step body steps)]
        exact .bind (Stmt.loop_covers hbody condition step steps)
          (Exec.KeepsPlace.hereditary.exec steps _) fun _ => .of_eq rfl
    · rintro ⟨steps, h⟩
      refine ⟨steps + 3, Exec.Covers.inNewScope ?_ m result hm h⟩
      refine .bind (.of_refines (s.exec_refines (Nat.le_add_right steps 2))) (hplace steps) fun _ => ?_
      have hloop := Stmt.covers_loop hbody condition step steps
      rwa [← bind_pure_unit (x := Stmt.exec (steps + 2) _)] at hloop

namespace Syntax

theorem Simple.declared_eq_nil {ts : List Token} {s : Stmt} (h : Simple ts s) : s.declared = [] := by
  cases h
  rfl

theorem expansion_declared_eq_nil (initial : Option Stmt) (c : Expr) (step : Option Expr) {body : Stmt}
    (h : body.declared = []) : (expansion initial c step body).declared = [] := by
  cases initial <;> cases step
  · exact h
  all_goals rfl

theorem Statement.declared_eq_nil {rule : ElseRule} {dangling : Bool} {ts : List Token} {s : Stmt} :
    Statement rule dangling ts s → s.declared = []
  | .ifThen _ _ hb | .loop _ _ hb => hb.declared_eq_nil
  | .ifElse _ _ hb _ _ hos => List.append_eq_nil_iff.mpr ⟨hb.declared_eq_nil, hos.declared_eq_nil⟩
  | .counting _ _ hb => expansion_declared_eq_nil _ _ _ hb.declared_eq_nil
  | .print _ _ _ | .block _ _ _ => rfl
  | .simple hs => hs.declared_eq_nil

end Syntax

theorem Grammar.statement_for {word : Token} {ts rest : List Token} {s : Stmt} (hw : word.kind = .kwFor)
    (h : statement (word :: ts) = .ok s [] rest) :
    ∃ header us initial condition step body dangling, ts = header ++ us ++ rest ∧
      Syntax.Header header initial condition step ∧ Syntax.Statement .nearest dangling us body ∧
      s = Stmt.counting initial condition step body := by
  rw [statement_cons, hw] at h
  simp only [Outcome.andThen_eq_ok, Outcome.map_eq_ok] at h
  obtain ⟨c, mid, hc, body, hb, rfl⟩ := h
  obtain ⟨header, rfl, hheader⟩ := clauses_faithful _ _ _ hc
  obtain ⟨us, dangling, rfl, hbody⟩ := statement_sound hb
  exact ⟨header, us, c.initial, c.condition, c.step, body, dangling, by simp, hheader, hbody, rfl⟩

/-- A `for` that is read without fault runs, from every machine whose current scope exists, as it is
written: it ends if and only if that does, with the same result and the same machine.  The block around
the body and the step does what the two do without it, and its scope never holds a binding. -/
theorem for_runs_as_written {word : Token} {ts rest : List Token} {s : Stmt} (hw : word.kind = .kwFor)
    (h : Grammar.statement (word :: ts) = .ok s [] rest) :
    ∃ header us initial condition step body dangling, ts = header ++ us ++ rest ∧
      Syntax.Header header initial condition step ∧ Syntax.Statement .nearest dangling us body ∧
      ∀ m : Machine, m.current < m.store.size →
        (∀ r after, (∃ steps, s.exec steps m = some (r, after)) ↔
          ∃ steps, Exec.counting initial condition step body steps m = some (r, after)) ∧
        ∀ e, step = some e → ∀ steps,
          (Stmt.block [body, .expression e]).exec (steps + 1) m =
            (do body.exec steps; (Stmt.expression e).exec steps) m ∧
          ∀ r after, [body, .expression e].forM (Stmt.exec steps)
              { m with store := m.store.push (some m.current), current := m.store.size } =
                some (r, after) →
            after.store.scopes[m.store.size]? = some { bindings := [], parent := some m.current } := by
  obtain ⟨header, us, initial, condition, step, body, dangling, hts, hheader, hstatement, rfl⟩ :=
    Grammar.statement_for hw h
  have hbody := hstatement.declared_eq_nil
  refine ⟨header, us, initial, condition, step, body, dangling, hts, hheader, hstatement, ?_⟩
  intro m hm
  refine ⟨fun r after => Stmt.exec_counting_iff initial condition step hbody hm (r, after), ?_⟩
  intro e _ steps
  refine ⟨Stmt.exec_turn hbody e steps hm, fun r after hrun => ?_⟩
  exact Exec.Lockstep.unbound (Stmt.forM_lockstep hbody e steps) hm hrun

theorem for_runs_as_written_one_turn :
    let t : Kind → Token := fun kind => ⟨kind, "", 1, none⟩
    let i : Token := ⟨.identifier, "i", 1, none⟩
    let b : Token := ⟨.identifier, "b", 1, none⟩
    let source := [t .kwFor, t .leftParen, t .kwVar, i, t .equal, b, t .semicolon, i, t .semicolon, i,
      t .equal, b, t .rightParen, b, t .equal, t .kwNil, t .semicolon, t .eof]
    let s := Stmt.block [.declare i (some (.var b)), .loop (.var i)
      (.block [.expression (.assign b (.literal .nil)), .expression (.assign i (.var b))])]
    let m : Machine := ⟨⟨#[⟨[("b", .boolean true)], none⟩]⟩, Machine.globals, {}⟩
    (t .kwFor).kind = .kwFor ∧ Grammar.statement source = .ok s [] [t .eof] ∧ m.current < m.store.size ∧
      ∃ header us initial condition step body dangling, source = t .kwFor :: (header ++ us ++ [t .eof]) ∧
        Syntax.Header header initial condition step ∧ Syntax.Statement .nearest dangling us body ∧
        ∃ steps, Exec.counting initial condition step body steps m =
          some (.ok (), ⟨⟨#[⟨[("b", .nil)], none⟩]⟩, Machine.globals, {}⟩) := by
  intro t i b source s m
  -- One turn, after which the step makes the condition false.
  have hparse : Grammar.statement source = .ok s [] [t .eof] := by cbv
  have hm : m.current < m.store.size := by decide
  have hrun : s.exec 5 m = some (.ok (), ⟨⟨#[⟨[("b", .nil)], none⟩]⟩, Machine.globals, {}⟩) := by
    with_unfolding_all rfl
  obtain ⟨header, us, initial, condition, step, body, dangling, hts, hheader, hbody, hruns⟩ :=
    for_runs_as_written (show (t .kwFor).kind = .kwFor from rfl) hparse
  exact ⟨rfl, hparse, hm, header, us, initial, condition, step, body, dangling,
    congrArg (t .kwFor :: ·) hts, hheader, hbody, ((hruns m hm).1 _ _).mp ⟨5, hrun⟩⟩

end Lox
