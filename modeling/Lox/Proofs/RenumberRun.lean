import Lox.Proofs.Renumber
import Lox.Session

set_option autoImplicit false

namespace Lox

def RuntimeError.renumber (g : Nat → Nat) : RuntimeError → RuntimeError
  | .typeMismatch op message => .typeMismatch (op.renumber g) message
  | .undefinedVariable name => .undefinedVariable (name.renumber g)
  | .output reason => .output reason
  | .invalidUnary op => .invalidUnary (op.renumber g)
  | .invalidBinary op => .invalidBinary (op.renumber g)

theorem RuntimeError.renumber_id (e : RuntimeError) : e.renumber id = e := by
  cases e <;> rfl

def Failure.renumber (g : Nat → Nat) : Failure → Failure
  | .malformed errors => .malformed errors
  | .runtime error => .runtime (error.renumber g)
  | .unreadable reason => .unreadable reason

variable {α β : Type} (g : Nat → Nat)

theorem applyUnary_renumber (op : Token) (operand : Value) :
    applyUnary (op.renumber g) operand = (applyUnary op operand).mapError (RuntimeError.renumber g) := by
  unfold applyUnary
  rw [Token.kind_renumber]
  cases op.kind with
  | minus => cases operand <;> rfl
  | _ => rfl

theorem onNumbers_renumber (op : Token) (f : Float → Float → Value) (left right : Value) :
    onNumbers (op.renumber g) f left right =
      (onNumbers op f left right).mapError (RuntimeError.renumber g) := by
  cases left <;> cases right <;> rfl

theorem applyBinary_renumber (op : Token) (left right : Value) :
    applyBinary (op.renumber g) left right =
      (applyBinary op left right).mapError (RuntimeError.renumber g) := by
  unfold applyBinary
  rw [Token.kind_renumber]
  cases op.kind with
  | plus => cases left <;> cases right <;> rfl
  | minus | star | slash | greater | greaterEqual | less | lessEqual =>
    exact onNumbers_renumber g op _ left right
  | _ => rfl

theorem Store.get_renumber (st : Store) (scope : Nat) (name : Token) :
    st.get scope (name.renumber g) = (st.get scope name).mapError (RuntimeError.renumber g) := by
  unfold Store.get
  rw [Token.lexeme_renumber]
  cases st.lookup scope name.lexeme <;> rfl

theorem Store.assign_renumber (st : Store) (scope : Nat) (name : Token) (value : Value) :
    st.assign scope (name.renumber g) value =
      (st.assign scope name value).mapError (RuntimeError.renumber g) := by
  unfold Store.assign
  rw [Token.lexeme_renumber]
  cases st.resolve scope name.lexeme <;> rfl

/-- The computation with the line of its failure renumbered. -/
def Eval.renumber (x : Eval α) : Eval α := fun st =>
  match x st with
  | (r, st) => (r.mapError (RuntimeError.renumber g), st)

namespace Eval

theorem renumber_bind (x : Eval α) (f : α → Eval β) :
    (x >>= f).renumber g = x.renumber g >>= fun a => (f a).renumber g := by
  funext st
  simp only [renumber, bind_apply]
  cases x st with
  | mk r st => cases r <;> rfl

theorem renumber_ofExcept (r : Except RuntimeError α) :
    (ofExcept r).renumber g = ofExcept (r.mapError (RuntimeError.renumber g)) := rfl

theorem renumber_assign (scope : Nat) (name : Token) (value : Value) :
    (assign scope name value).renumber g = assign scope (name.renumber g) value := by
  funext st
  simp only [renumber, assign, Store.assign_renumber]
  cases st.assign scope name value <;> rfl

end Eval

theorem Expr.eval_renumber (scope : Nat) (e : Expr) :
    (e.renumber g).eval scope = (e.eval scope).renumber g := by
  induction e with
  | literal value => rfl
  | var name =>
    funext st
    exact congrArg (·, st) (Store.get_renumber g st scope name)
  | assign name value ih =>
    simp only [Expr.renumber, Expr.eval, Eval.renumber_bind, ih, Eval.renumber_assign]
  | unary op operand ih =>
    simp only [Expr.renumber, Expr.eval, Eval.renumber_bind, ih, Eval.renumber_ofExcept,
      applyUnary_renumber]
  | binary op left right ihl ihr =>
    simp only [Expr.renumber, Expr.eval, Eval.renumber_bind, ihl, ihr, Eval.renumber_ofExcept,
      applyBinary_renumber]
  | logical op left right ihl ihr =>
    simp only [Expr.renumber, Expr.eval, Eval.renumber_bind, ihl, ihr, Token.kind_renumber]
    refine congrArg _ (funext fun l => ?_)
    split <;> rfl
  | grouping inner ih => exact ih

def Exec.renumber (x : Exec α) : Exec α := fun m =>
  (x m).map fun (r, after) => (r.mapError (RuntimeError.renumber g), after)

namespace Exec

theorem renumber_bind (x : Exec α) (f : α → Exec β) :
    (x >>= f).renumber g = x.renumber g >>= fun a => (f a).renumber g := by
  funext m
  simp only [renumber, bind_apply]
  rcases x m with _ | ⟨_ | a, after⟩ <;> rfl

theorem renumber_pure (a : α) : (pure a : Exec α).renumber g = pure a := rfl

theorem renumber_eval (e : Expr) : (eval e).renumber g = eval (e.renumber g) := by
  funext m
  simp only [renumber, eval, Expr.eval_renumber]
  rfl

theorem renumber_print (value : Value) : (print value).renumber g = print value := by
  funext m
  simp only [renumber, print]
  rcases m.out.writeLine value.text with ⟨out, _ | _⟩ <;> rfl

theorem renumber_inNewScope (x : Exec α) : (inNewScope x).renumber g = inNewScope (x.renumber g) := by
  funext m
  simp only [renumber, inNewScope, inScope, Option.map_map]
  rfl

theorem renumber_forM {f f' : Stmt → Exec Unit} {body : List Stmt}
    (h : ∀ s, f' (s.renumber g) = (f s).renumber g) :
    (body.map (Stmt.renumber g)).forM f' = (body.forM f).renumber g := by
  induction body with
  | nil => rfl
  | cons s rest ih =>
    calc (f' (s.renumber g) >>= fun _ => (rest.map (Stmt.renumber g)).forM f')
      _ = ((f s).renumber g >>= fun _ => (rest.forM f).renumber g) := by rw [h, ih]
      _ = (f s >>= fun _ => rest.forM f).renumber g := (renumber_bind g _ _).symm

end Exec

theorem Stmt.exec_renumber (steps : Nat) (s : Stmt) :
    (s.renumber g).exec steps = (s.exec steps).renumber g := by
  induction steps generalizing s with
  | zero => cases s <;> rfl
  | succ steps ih =>
    have branch : ∀ (c : Prop) [Decidable c] (x y : Exec Unit),
        (if c then x else y).renumber g = if c then x.renumber g else y.renumber g := by
      intro c _ x y
      split <;> rfl
    cases s with
    | print value =>
      simp only [Stmt.renumber, Stmt.exec, Exec.renumber_bind, Exec.renumber_eval, Exec.renumber_print]
    | expression value =>
      simp only [Stmt.renumber, Stmt.exec, Exec.renumber_bind, Exec.renumber_eval, Exec.renumber_pure]
    | declare name initial =>
      cases initial with
      | none => rfl
      | some e =>
        simp only [Stmt.renumber, Option.map_some, Stmt.exec, Exec.renumber_bind, Exec.renumber_eval]
        rfl
    | block body =>
      simp only [Stmt.renumber, Stmt.renumberAll_eq_map, Stmt.exec, Exec.renumber_inNewScope,
        Exec.renumber_forM g ih]
    | ifThen condition body =>
      simp only [Stmt.renumber, Stmt.exec, Exec.renumber_bind, Exec.renumber_eval, branch, ih,
        Exec.renumber_pure]
    | ifElse condition body otherwise =>
      simp only [Stmt.renumber, Stmt.exec, Exec.renumber_bind, Exec.renumber_eval, branch, ih]
    | loop condition body =>
      have hloop := ih (.loop condition body)
      simp only [Stmt.renumber] at hloop
      simp only [Stmt.renumber, Stmt.exec, Exec.renumber_bind, Exec.renumber_eval, branch, ih, hloop,
        Exec.renumber_pure]

theorem Machine.interpret_renumber (steps : Nat) (program : List Stmt) :
    Machine.interpret steps (program.map (Stmt.renumber g)) =
      (Machine.interpret steps program).renumber g := by
  funext m
  simp only [Machine.interpret, Machine.executeAll, Exec.renumber_forM g (Stmt.exec_renumber g steps)]
  unfold Exec.renumber Machine.interpret Machine.executeAll
  rcases program.forM (Stmt.exec steps) m with _ | ⟨_ | _, after⟩ <;> rfl

end Lox
