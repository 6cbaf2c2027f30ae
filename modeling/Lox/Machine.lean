import Lox.Sink
import Lox.Stmt
import Lox.Store

/-!
Running programs.  Evaluating an expression changes at most the store; executing a statement also prints
and moves between scopes.  Both keep what they have done when they fail.

A loop may run forever, so executing takes a number of steps it may use and has no result when they do
not suffice.  A result, once there is one, does not depend on how many steps were allowed.
-/

set_option autoImplicit false

namespace Lox

def applyUnary (op : Token) (operand : Value) : Except RuntimeError Value :=
  match op.kind, operand with
  | .bang, v => .ok (.boolean !v.truthy)
  | .minus, .number x => .ok (.number (-x))
  | .minus, _ => .error (.typeMismatch op "Operand must be a number.")
  | _, _ => .error (.invalidUnary op)

def onNumbers (op : Token) (f : Float → Float → Value) (left right : Value) :
    Except RuntimeError Value :=
  match left, right with
  | .number x, .number y => .ok (f x y)
  | _, _ => .error (.typeMismatch op "Operands must be numbers.")

def applyPlus (op : Token) (left right : Value) : Except RuntimeError Value :=
  match left, right with
  | .number x, .number y => .ok (.number (x + y))
  | .string s, .string t => .ok (.string (s ++ t))
  | _, _ => .error (.typeMismatch op "Operands must be two numbers or two strings.")

def applyBinary (op : Token) (left right : Value) : Except RuntimeError Value :=
  match op.kind with
  | .equalEqual => .ok (.boolean (left.equals right))
  | .bangEqual => .ok (.boolean !left.equals right)
  | .plus => applyPlus op left right
  | .minus => onNumbers op (fun x y => .number (x - y)) left right
  | .star => onNumbers op (fun x y => .number (x * y)) left right
  | .slash => onNumbers op (fun x y => .number (x / y)) left right
  | .greater => onNumbers op (fun x y => .boolean (y < x)) left right
  | .greaterEqual => onNumbers op (fun x y => .boolean (y ≤ x)) left right
  | .less => onNumbers op (fun x y => .boolean (x < y)) left right
  | .lessEqual => onNumbers op (fun x y => .boolean (x ≤ y)) left right
  | _ => .error (.invalidBinary op)

/-- Computations on a store, which they may change even if they fail. -/
abbrev Eval := ExceptT RuntimeError (StateM Store)

namespace Eval

def ofExcept {α : Type} (r : Except RuntimeError α) : Eval α := fun st => (r, st)

def get (scope : Nat) (name : Token) : Eval Value := fun st => (st.get scope name, st)

def assign (scope : Nat) (name : Token) (value : Value) : Eval Value := fun st =>
  match st.assign scope name value with
  | .ok st => (.ok value, st)
  | .error e => (.error e, st)

theorem bind_apply {α β : Type} (x : Eval α) (f : α → Eval β) (st : Store) :
    (x >>= f) st = match x st with
      | (.ok a, st) => f a st
      | (.error e, st) => (.error e, st) := by
  simp only [bind, ExceptT.bind, ExceptT.mk, StateT.bind]
  rcases x st with ⟨_ | a, st'⟩ <;> rfl

theorem pure_apply {α : Type} (a : α) (st : Store) : (pure a : Eval α) st = (.ok a, st) := rfl

end Eval

/-- The value of an expression, seen from the given scope.  Operands are evaluated from left to right,
and a logical operator evaluates the right one only if the left one does not decide. -/
def Expr.eval (scope : Nat) : Expr → Eval Value
  | .literal value => pure value
  | .var name => Eval.get scope name
  | .assign name value => do
    let v ← value.eval scope
    Eval.assign scope name v
  | .unary op operand => do
    let v ← operand.eval scope
    Eval.ofExcept (applyUnary op v)
  | .binary op left right => do
    let l ← left.eval scope
    let r ← right.eval scope
    Eval.ofExcept (applyBinary op l r)
  | .logical op left right => do
    let l ← left.eval scope
    if l.truthy = decide (op.kind = .kwOr) then pure l else right.eval scope
  | .grouping inner => inner.eval scope

structure Machine where
  store : Store
  /-- The scope in which statements are executed. -/
  current : Nat
  out : Sink

namespace Machine

def globals : Nat := 0

def start (out : Sink) : Machine := ⟨Store.push {} none, globals, out⟩

end Machine

/-- Computations on a machine, which they may change even if they fail; no result when they were not
allowed enough steps. -/
abbrev Exec := ExceptT RuntimeError (StateT Machine Option)

namespace Exec

variable {α β : Type}

theorem bind_apply (x : Exec α) (f : α → Exec β) (m : Machine) :
    (x >>= f) m = match x m with
      | some (.ok a, m) => f a m
      | some (.error e, m) => some (.error e, m)
      | none => none := by
  simp only [bind, ExceptT.bind, ExceptT.mk, StateT.bind]
  rcases x m with _ | ⟨_ | a, m'⟩ <;> rfl

theorem pure_apply (a : α) (m : Machine) : (pure a : Exec α) m = some (.ok a, m) := rfl

def outOfSteps : Exec α := fun _ => none

def eval (e : Expr) : Exec Value := fun m =>
  match e.eval m.current m.store with
  | (r, store) => some (r, { m with store })

def print (value : Value) : Exec Unit := fun m =>
  match m.out.writeLine value.text with
  | (out, true) => some (.ok (), { m with out })
  | (out, false) => some (.error (.output Sink.full), { m with out })

def define (name : String) (value : Value) : Exec Unit := fun m =>
  some (.ok (), { m with store := m.store.define m.current name value })

/-- Executes in another scope and comes back, also after a failure. -/
def inScope (scope : Nat) (body : Exec α) : Exec α := fun m =>
  (body { m with current := scope }).map fun (r, after) => (r, { after with current := m.current })

def inNewScope (body : Exec α) : Exec α := fun m =>
  (inScope m.store.size body { m with store := m.store.push (some m.current) }).map
    fun (r, after) => (r, { after with store := after.store.pop })

end Exec

/-- Executes a statement.  Each step that leads into a part of the statement, or once more around a loop,
uses up one of the allowed steps. -/
def Stmt.exec : Nat → Stmt → Exec Unit
  | 0, _ => Exec.outOfSteps
  | _ + 1, .print value => do
    let v ← Exec.eval value
    Exec.print v
  | _ + 1, .expression value => do
    let _ ← Exec.eval value
    pure ()
  | _ + 1, .declare name (some initial) => do
    let v ← Exec.eval initial
    Exec.define name.lexeme v
  | _ + 1, .declare name none => Exec.define name.lexeme .nil
  | steps + 1, .block body => Exec.inNewScope (body.forM (Stmt.exec steps))
  | steps + 1, .ifThen condition body => do
    let c ← Exec.eval condition
    if c.truthy then body.exec steps else pure ()
  | steps + 1, .ifElse condition body otherwise => do
    let c ← Exec.eval condition
    if c.truthy then body.exec steps else otherwise.exec steps
  | steps + 1, .loop condition body => do
    let c ← Exec.eval condition
    if c.truthy then do
      body.exec steps
      (Stmt.loop condition body).exec steps
    else pure ()

namespace Machine

def executeAll (steps : Nat) (body : List Stmt) : Exec Unit := body.forM (Stmt.exec steps)

def executeIn (steps : Nat) (scope : Nat) (body : List Stmt) : Exec Unit :=
  Exec.inScope scope (executeAll steps body)

/-- Runs a program.  A failure brings the machine back to the outermost scope. -/
def interpret (steps : Nat) (program : List Stmt) : Exec Unit := fun m =>
  (executeAll steps program m).map fun
    | (.ok (), after) => (.ok (), after)
    | (.error e, after) => (.error e, { after with current := globals })

end Machine

end Lox
