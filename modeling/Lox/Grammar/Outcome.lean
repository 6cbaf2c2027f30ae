import Lox.Token

/-!
Outcomes of reading a phrase off the front of a list of tokens.

A phrase that is read leaves the rest of the tokens.  On the way it may have met faults that do not stop
the reading; a fault that does stop it is kept apart.  Reading only ever moves forward, and `Reading`
keeps the proof of that with the outcome, so that the mutually recursive phrases of the grammar can be
defined by recursion on the number of tokens left.
-/

set_option autoImplicit false

namespace Lox.Grammar

inductive Problem where
  | variableName
  | afterDeclaration
  | beforeIfCondition
  | afterIfCondition
  | beforeWhileCondition
  | afterWhileCondition
  | beforeForClauses
  | afterForCondition
  | afterForClauses
  | afterPrinted
  | afterBlock
  | afterExpression
  | afterGrouping
  | expression
  | assignmentTarget
  deriving DecidableEq, Repr

def Problem.message : Problem → String
  | .variableName => "Expect variable name."
  | .afterDeclaration => "Expect ';' after variable declaration."
  | .beforeIfCondition => "Expect '(' after 'if'."
  | .afterIfCondition => "Expect ')' after if condition."
  | .beforeWhileCondition => "Expect '(' after 'while'."
  | .afterWhileCondition => "Expect ')' after condition."
  | .beforeForClauses => "Expect '(' after 'for'."
  | .afterForCondition => "Expect ';' after loop condition."
  | .afterForClauses => "Expect ')' after for clauses."
  | .afterPrinted => "Expect ';' after value."
  | .afterBlock => "Expect '\x7d' after block."
  | .afterExpression => "Expect ';' after expression."
  | .afterGrouping => "Expect ')' after expression."
  | .expression => "Expect expression."
  | .assignmentTarget => "Invalid assignment target."

/-- A problem and the tokens from the one it is blamed on to the end. -/
structure Fault where
  rest : List Token
  problem : Problem
  deriving Repr

/-- The token at the front.  Every list of tokens ends with one that is never consumed, so the default
is only for completeness. -/
def current (ts : List Token) : Token := ts.headD (.endOfSource 1)

def Fault.token (f : Fault) : Token := current f.rest

inductive Outcome (α : Type) where
  | ok (value : α) (faults : List Fault) (rest : List Token)
  | stopped (faults : List Fault) (fault : Fault)
  deriving Repr

namespace Outcome

variable {α β : Type}

def rest : Outcome α → List Token
  | .ok _ _ rest => rest
  | .stopped _ fault => fault.rest

def after (earlier : List Fault) : Outcome α → Outcome α
  | .ok value faults rest => .ok value (earlier ++ faults) rest
  | .stopped faults fault => .stopped (earlier ++ faults) fault

def andThen (o : Outcome α) (f : α → List Token → Outcome β) : Outcome β :=
  match o with
  | .ok value faults rest => (f value rest).after faults
  | .stopped faults fault => .stopped faults fault

def map (f : α → β) : Outcome α → Outcome β
  | .ok value faults rest => .ok (f value) faults rest
  | .stopped faults fault => .stopped faults fault

@[simp] theorem after_nil (o : Outcome α) : o.after [] = o := by
  cases o <;> rfl

@[simp] theorem andThen_ok (value : α) (faults : List Fault) (rest : List Token)
    (f : α → List Token → Outcome β) :
    (ok value faults rest).andThen f = (f value rest).after faults := rfl

@[simp] theorem andThen_stopped (faults : List Fault) (fault : Fault)
    (f : α → List Token → Outcome β) :
    (stopped faults fault).andThen f = .stopped faults fault := rfl

@[simp] theorem map_ok (f : α → β) (value : α) (faults : List Fault) (rest : List Token) :
    (ok value faults rest).map f = .ok (f value) faults rest := rfl

@[simp] theorem map_stopped (f : α → β) (faults : List Fault) (fault : Fault) :
    (stopped faults fault).map f = .stopped faults fault := rfl

/-- Reading moved forward within `ts`, and consumed at least one token if `strict` and it was not
stopped. -/
def Within (strict : Bool) (ts : List Token) : Outcome α → Prop
  | .ok _ _ rest => rest <:+ ts ∧ (strict = true → rest.length < ts.length)
  | .stopped _ fault => fault.rest <:+ ts

theorem Within.after {strict : Bool} {ts : List Token} {o : Outcome α} (h : o.Within strict ts)
    (earlier : List Fault) : (o.after earlier).Within strict ts := by
  cases o <;> exact h

theorem Within.map {strict : Bool} {ts : List Token} {o : Outcome α} (h : o.Within strict ts)
    (f : α → β) : (o.map f).Within strict ts := by
  cases o <;> exact h

theorem Within.trans {strict strict' : Bool} {ts rest : List Token} {o : Outcome α}
    (h : o.Within strict' rest) (hr : rest <:+ ts) (hs : strict = true → rest.length < ts.length) :
    o.Within strict ts := by
  cases o with
  | ok value faults left =>
    exact ⟨h.1.trans hr, fun s => Nat.lt_of_le_of_lt h.1.length_le (hs s)⟩
  | stopped faults fault => exact List.IsSuffix.trans h hr

theorem Within.relax {strict : Bool} {ts : List Token} {o : Outcome α} (h : o.Within strict ts) :
    o.Within false ts :=
  h.trans (List.suffix_refl ts) nofun

theorem Within.past {strict strict' : Bool} {ts : List Token} {o : Outcome α}
    (h : o.Within strict' ts) (t : Token) : o.Within strict (t :: ts) :=
  h.trans (List.suffix_cons t ts) fun _ => Nat.lt_succ_self _

theorem Within.andThen {strict strict' : Bool} {ts : List Token} {o : Outcome α}
    (h : o.Within strict ts) {f : α → List Token → Outcome β}
    (hf : ∀ value rest, (f value rest).Within strict' rest) : (o.andThen f).Within strict ts := by
  cases o with
  | ok value faults rest => exact ((hf value rest).trans h.1 h.2).after faults
  | stopped faults fault => exact h

end Outcome

def Reading (strict : Bool) (ts : List Token) (α : Type) : Type :=
  { o : Outcome α // o.Within strict ts }

namespace Reading

variable {α β : Type} {ts : List Token} {strict strict' : Bool}

def ok (value : α) (ts : List Token) : Reading false ts α :=
  ⟨.ok value [] ts, List.suffix_refl ts, nofun⟩

def stop (problem : Problem) (ts : List Token) : Reading strict ts α :=
  ⟨.stopped [] ⟨ts, problem⟩, List.suffix_refl ts⟩

def map (f : α → β) (r : Reading strict ts α) : Reading strict ts β :=
  ⟨r.val.map f, r.property.map f⟩

/-- Puts the token `t`, consumed before, in front of what was read. -/
def past (t : Token) (r : Reading strict' ts α) : Reading strict (t :: ts) α :=
  ⟨r.val, r.property.past t⟩

def relax (r : Reading strict ts α) : Reading false ts α :=
  ⟨r.val, r.property.relax⟩

/-- Goes on with the rest, which the continuation learns to lie within `ts`. -/
def andThen (r : Reading strict ts α)
    (f : (value : α) → (rest : List Token) → rest <:+ ts →
      (strict = true → rest.length < ts.length) → Reading strict' rest β) :
    Reading strict ts β :=
  match r with
  | ⟨.ok value faults rest, h⟩ =>
    ⟨(f value rest h.1 h.2).val.after faults, ((f value rest h.1 h.2).property.trans h.1 h.2).after faults⟩
  | ⟨.stopped faults fault, h⟩ => ⟨.stopped faults fault, h⟩

@[simp] theorem val_ok (value : α) (ts : List Token) : (ok value ts).val = .ok value [] ts := rfl

@[simp] theorem val_stop (problem : Problem) (ts : List Token) :
    (stop problem ts : Reading strict ts α).val = .stopped [] ⟨ts, problem⟩ := rfl

@[simp] theorem val_map (f : α → β) (r : Reading strict ts α) : (r.map f).val = r.val.map f := rfl

@[simp] theorem val_past (t : Token) (r : Reading strict' ts α) :
    (r.past t : Reading strict (t :: ts) α).val = r.val := rfl

@[simp] theorem val_relax (r : Reading strict ts α) : r.relax.val = r.val := rfl

theorem val_andThen {r : Reading strict ts α}
    {f : (value : α) → (rest : List Token) → rest <:+ ts →
      (strict = true → rest.length < ts.length) → Reading strict' rest β}
    {g : α → List Token → Outcome β} (h : ∀ value rest hr hs, (f value rest hr hs).val = g value rest) :
    (r.andThen f).val = r.val.andThen g := by
  obtain ⟨o, ho⟩ := r
  cases o with
  | ok value faults rest => exact congrArg (Outcome.after faults) (h value rest ho.1 ho.2)
  | stopped faults fault => rfl

end Reading

end Lox.Grammar
