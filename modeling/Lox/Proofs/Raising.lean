import Lox.Machine

set_option autoImplicit false

namespace Lox

/-- The property holds of the expression and of all expressions in it. -/
def Expr.All (P : Expr → Prop) : Expr → Prop
  | .literal value => P (.literal value)
  | .var name => P (.var name)
  | .assign name value => P (.assign name value) ∧ value.All P
  | .unary op operand => P (.unary op operand) ∧ operand.All P
  | .binary op left right => P (.binary op left right) ∧ left.All P ∧ right.All P
  | .logical op left right => P (.logical op left right) ∧ left.All P ∧ right.All P
  | .grouping inner => P (.grouping inner) ∧ inner.All P

mutual

/-- The first property holds of the statement and of all statements in it, the second of all expressions
in it. -/
def Stmt.All (P : Stmt → Prop) (Q : Expr → Prop) : Stmt → Prop
  | .print value => P (.print value) ∧ value.All Q
  | .expression value => P (.expression value) ∧ value.All Q
  | .declare name none => P (.declare name none)
  | .declare name (some initial) => P (.declare name (some initial)) ∧ initial.All Q
  | .block body => P (.block body) ∧ Stmt.AllIn P Q body
  | .ifThen condition body => P (.ifThen condition body) ∧ condition.All Q ∧ body.All P Q
  | .ifElse condition body otherwise =>
    P (.ifElse condition body otherwise) ∧ condition.All Q ∧ body.All P Q ∧ otherwise.All P Q
  | .loop condition body => P (.loop condition body) ∧ condition.All Q ∧ body.All P Q

def Stmt.AllIn (P : Stmt → Prop) (Q : Expr → Prop) : List Stmt → Prop
  | [] => True
  | s :: rest => s.All P Q ∧ Stmt.AllIn P Q rest

end

theorem Stmt.allIn_iff {P : Stmt → Prop} {Q : Expr → Prop} {body : List Stmt} :
    Stmt.AllIn P Q body ↔ ∀ s ∈ body, s.All P Q := by
  induction body with
  | nil => simp [Stmt.AllIn]
  | cons s rest ih => simp [Stmt.AllIn, ih]

/-- Whether the node can raise the error itself, whatever its operands are. -/
def Expr.CanRaise : Expr → RuntimeError → Prop
  | .var name, err => err = .undefinedVariable name
  | .assign name _, err => err = .undefinedVariable name
  | .unary op _, err => ∃ v, applyUnary op v = .error err
  | .binary op _ _, err => ∃ l r, applyBinary op l r = .error err
  | .literal _, _ | .logical _ _ _, _ | .grouping _, _ => False

variable {α β : Type} {R : RuntimeError → Prop} {P : Stmt → Prop} {Q : Expr → Prop}

def Eval.Raises (R : RuntimeError → Prop) (x : Eval α) : Prop :=
  ∀ st err after, x st = (.error err, after) → R err

namespace Eval.Raises

theorem pure (a : α) : Eval.Raises R (Pure.pure a) := by
  intro st err after h
  cases h

theorem bind {x : Eval α} {f : α → Eval β} (hx : x.Raises R) (hf : ∀ a, (f a).Raises R) :
    (x >>= f).Raises R := by
  intro st err after h
  rw [Eval.bind_apply] at h
  rcases hr : x st with ⟨_ | a, mid⟩
  · rw [hr] at h
    cases h
    exact hx st err after hr
  · rw [hr] at h
    exact hf a mid err after h

theorem ofExcept {r : Except RuntimeError α} (h : ∀ err, r = .error err → R err) :
    (Eval.ofExcept r).Raises R := by
  intro st err after hr
  cases hr
  exact h err rfl

theorem get (scope : Nat) {name : Token} (h : R (.undefinedVariable name)) :
    (Eval.get scope name).Raises R := by
  intro st err after hr
  simp only [Eval.get, Store.get] at hr
  cases hl : st.lookup scope name.lexeme with
  | none =>
    rw [hl] at hr
    cases hr
    exact h
  | some v =>
    rw [hl] at hr
    cases hr

theorem assign (scope : Nat) {name : Token} (value : Value) (h : R (.undefinedVariable name)) :
    (Eval.assign scope name value).Raises R := by
  intro st err after hr
  simp only [Eval.assign, Store.assign] at hr
  cases hk : st.resolve scope name.lexeme with
  | none =>
    rw [hk] at hr
    cases hr
    exact h
  | some k =>
    rw [hk] at hr
    cases hr

end Eval.Raises

theorem Expr.eval_raises (hQ : ∀ node, Q node → ∀ err, node.CanRaise err → R err) {e : Expr}
    (h : e.All Q) (scope : Nat) : (e.eval scope).Raises R := by
  induction e with
  | literal value => exact .pure value
  | var name => exact .get scope (hQ _ h _ rfl)
  | assign name value ih => exact .bind (ih h.2) fun v => .assign scope v (hQ _ h.1 _ rfl)
  | unary op operand ih =>
    refine .bind (ih h.2) fun v => ?_
    exact .ofExcept fun err he => hQ _ h.1 err ⟨v, he⟩
  | binary op left right ihl ihr =>
    refine .bind (ihl h.2.1) fun l => .bind (ihr h.2.2) fun r => ?_
    exact .ofExcept fun err he => hQ _ h.1 err ⟨l, r, he⟩
  | logical op left right ihl ihr =>
    refine .bind (ihl h.2.1) fun l => ?_
    split
    · exact .pure l
    · exact ihr h.2.2
  | grouping inner ih => exact ih h.2

def Exec.Raises (R : RuntimeError → Prop) (x : Exec α) : Prop :=
  ∀ m err after, x m = some (.error err, after) → R err

namespace Exec.Raises

theorem pure (a : α) : Exec.Raises R (Pure.pure a) := by
  intro m err after h
  cases h

theorem bind {x : Exec α} {f : α → Exec β} (hx : x.Raises R) (hf : ∀ a, (f a).Raises R) :
    (x >>= f).Raises R := by
  intro m err after h
  rw [Exec.bind_apply] at h
  rcases hr : x m with _ | ⟨_ | a, mid⟩
  · rw [hr] at h
    cases h
  · rw [hr] at h
    cases h
    exact hx m err after hr
  · rw [hr] at h
    exact hf a mid err after h

theorem eval (hQ : ∀ node, Q node → ∀ err, node.CanRaise err → R err) {e : Expr} (h : e.All Q) :
    (Exec.eval e).Raises R := by
  intro m err after hr
  rcases he : e.eval m.current m.store with ⟨r, store⟩
  simp only [Exec.eval, he] at hr
  cases hr
  exact Expr.eval_raises hQ h m.current m.store err store he

theorem print (value : Value) (h : R (.output Sink.full)) : (Exec.print value).Raises R := by
  intro m err after hr
  rcases hw : m.out.writeLine value.text with ⟨out, _ | _⟩
  · simp only [Exec.print, hw] at hr
    cases hr
    exact h
  · simp only [Exec.print, hw] at hr
    cases hr

theorem define (name : String) (value : Value) : (Exec.define name value).Raises R := by
  intro m err after h
  cases h

theorem inScope {x : Exec α} (h : x.Raises R) (scope : Nat) : (Exec.inScope scope x).Raises R := by
  intro m err after hr
  obtain ⟨⟨_, inner⟩, hx, heq⟩ := Option.map_eq_some_iff.mp hr
  cases heq
  exact h _ err inner hx

theorem inNewScope {x : Exec α} (h : x.Raises R) : (Exec.inNewScope x).Raises R := by
  intro m err after hr
  obtain ⟨⟨_, inner⟩, hx, heq⟩ := Option.map_eq_some_iff.mp hr
  cases heq
  exact h.inScope _ _ err inner hx

theorem forM {f : Stmt → Exec Unit} {body : List Stmt} (h : ∀ s ∈ body, (f s).Raises R) :
    (body.forM f).Raises R := by
  induction body with
  | nil => exact pure ()
  | cons s rest ih =>
    exact bind (h s List.mem_cons_self) fun _ => ih fun t ht => h t (List.mem_cons_of_mem s ht)

end Exec.Raises

section

variable (hQ : ∀ node, Q node → ∀ err, node.CanRaise err → R err) (hout : R (.output Sink.full))

include hQ hout

/-- An error that ends a statement was raised by one of its nodes or by the output. -/
theorem Stmt.exec_raises (steps : Nat) {s : Stmt} (h : s.All P Q) : (s.exec steps).Raises R := by
  induction steps generalizing s with
  | zero =>
    intro m err after hr
    cases hr
  | succ steps ih =>
    cases s with
    | print value => exact .bind (.eval hQ h.2) fun v => .print v hout
    | expression value => exact .bind (.eval hQ h.2) fun _ => .pure ()
    | declare name initial =>
      cases initial with
      | none => exact .define _ _
      | some e => exact .bind (.eval hQ h.2) fun v => .define _ v
    | block body => exact (Exec.Raises.forM fun t ht => ih (Stmt.allIn_iff.mp h.2 t ht)).inNewScope
    | ifThen condition body =>
      refine .bind (.eval hQ h.2.1) fun c => ?_
      split
      · exact ih h.2.2
      · exact .pure ()
    | ifElse condition body otherwise =>
      refine .bind (.eval hQ h.2.1) fun c => ?_
      split
      · exact ih h.2.2.1
      · exact ih h.2.2.2
    | loop condition body =>
      refine .bind (.eval hQ h.2.1) fun c => ?_
      split
      · exact .bind (ih h.2.2) fun _ => ih h
      · exact .pure ()

theorem Machine.executeAll_raises (steps : Nat) {program : List Stmt} (h : Stmt.AllIn P Q program) :
    (Machine.executeAll steps program).Raises R :=
  .forM fun s hs => Stmt.exec_raises hQ hout steps (Stmt.allIn_iff.mp h s hs)

theorem Machine.interpret_raises (steps : Nat) {program : List Stmt} (h : Stmt.AllIn P Q program) :
    (Machine.interpret steps program).Raises R := by
  intro m err after hr
  obtain ⟨⟨r, ended⟩, hx, heq⟩ := Option.map_eq_some_iff.mp hr
  cases r with
  | ok => cases heq
  | error e =>
    cases heq
    exact executeAll_raises hQ hout steps h m err ended hx

end

end Lox
