import Lox.Stmt
import Lox.Grammar.Expression

set_option autoImplicit false

namespace Lox

/-- A counting loop in terms of the other statements.  The counter lives in a scope around the loop, and
a missing condition holds always. -/
def Stmt.counting (initial : Option Stmt) (condition step : Option Expr) (body : Stmt) : Stmt :=
  let turn := match step with
    | some e => .block [body, .expression e]
    | none => body
  let loop := .loop (condition.getD (.literal (.boolean true))) turn
  match initial with
  | some s => .block [s, loop]
  | none => loop

namespace Grammar

/-- Where reading resumes after a fault: past the next semicolon or before the next word that begins a
statement, whichever comes first.  At least one token is given up, but never the last one. -/
def resume : List Token → List Token
  | [] => []
  | t :: rest =>
    if t.kind = .eof then t :: rest
    else if t.kind = .semicolon || (current rest).kind.startsStatement then rest
    else resume rest

theorem resume_suffix (ts : List Token) : resume ts <:+ ts := by
  induction ts with
  | nil => exact List.suffix_refl _
  | cons t rest ih =>
    unfold resume
    repeat' split
    · exact List.suffix_refl _
    · exact List.suffix_cons _ _
    · exact ih.trans (List.suffix_cons _ _)

theorem resume_cons_suffix {t : Token} (h : t.kind ≠ .eof) (rest : List Token) :
    resume (t :: rest) <:+ rest := by
  rw [resume, if_neg h]
  split
  · exact List.suffix_refl _
  · exact resume_suffix rest

namespace Outcome

variable {α : Type}

/-- Gives up a phrase at which reading stopped and resumes after it. -/
def recovered : Outcome α → Outcome (Option α)
  | .ok value faults rest => .ok (some value) faults rest
  | .stopped faults fault => .ok none (faults ++ [fault]) (resume fault.rest)

theorem recovered_eq_ok (o : Outcome α) :
    ∃ value faults rest, o.recovered = .ok value faults rest := by
  cases o <;> exact ⟨_, _, _, rfl⟩

theorem recovered_within {strict : Bool} {t : Token} {ts : List Token} {o : Outcome α}
    (ht : t.kind ≠ .eof) (h : o.Within true (t :: ts)) : o.recovered.Within strict (t :: ts) := by
  cases o with
  | ok value faults rest => exact ⟨h.1, fun _ => h.2 rfl⟩
  | stopped faults fault =>
    suffices hs : resume fault.rest <:+ ts from
      ⟨hs.trans (List.suffix_cons t ts), fun _ => Nat.lt_succ_of_le hs.length_le⟩
    rcases List.suffix_cons_iff.mp h with heq | hs
    · rw [heq]
      exact resume_cons_suffix ht ts
    · exact (resume_suffix _).trans hs

end Outcome

def simple (ts : List Token) : Outcome Stmt :=
  (expression ts).andThen fun value rest =>
    (expect .semicolon .afterExpression rest).map fun _ => .expression value

theorem simple_within (ts : List Token) : (simple ts).Within true ts :=
  (expression_within ts).andThen fun _ rest => (expect_within _ _ rest).map _

def printed (ts : List Token) : Outcome Stmt :=
  (expression ts).andThen fun value rest =>
    (expect .semicolon .afterPrinted rest).map fun _ => .print value

theorem printed_within (ts : List Token) : (printed ts).Within true ts :=
  (expression_within ts).andThen fun _ rest => (expect_within _ _ rest).map _

def optional (ending : Kind) (ts : List Token) : Outcome (Option Expr) :=
  if (current ts).kind = ending then .ok none [] ts else (expression ts).map some

theorem optional_within (ending : Kind) (ts : List Token) : (optional ending ts).Within false ts := by
  unfold optional
  split
  · exact ⟨List.suffix_refl ts, fun h => Bool.noConfusion h⟩
  · exact (expression_within ts).relax.map _

def initializer (ts : List Token) : Outcome (Option Expr) :=
  match ts with
  | equal :: rest => if equal.kind = .equal then (expression rest).map some else .ok none [] ts
  | [] => .ok none [] []

theorem initializer_within (ts : List Token) : (initializer ts).Within false ts := by
  unfold initializer
  repeat' split
  · exact ((expression_within _).map _).past _
  · exact ⟨List.suffix_refl _, fun h => Bool.noConfusion h⟩
  · exact ⟨List.suffix_refl _, fun h => Bool.noConfusion h⟩

def variableAfter (ts : List Token) : Outcome Stmt :=
  (expect .identifier .variableName ts).andThen fun name rest =>
    (initializer rest).andThen fun initial rest =>
      (expect .semicolon .afterDeclaration rest).map fun _ => .declare name initial

theorem variableAfter_within (ts : List Token) : (variableAfter ts).Within true ts :=
  (expect_within _ _ ts).andThen fun _ rest => (initializer_within rest).andThen fun _ rest =>
    (expect_within _ _ rest).map _

def condition (before after : Problem) (ts : List Token) : Outcome Expr :=
  (expect .leftParen before ts).andThen fun _ rest =>
    (expression rest).andThen fun value rest =>
      (expect .rightParen after rest).map fun _ => value

theorem condition_within (before after : Problem) (ts : List Token) :
    (condition before after ts).Within true ts :=
  (expect_within _ _ ts).andThen fun _ rest => (expression_within rest).andThen fun _ rest =>
    (expect_within _ _ rest).map _

structure Clauses where
  initial : Option Stmt
  condition : Option Expr
  step : Option Expr

def initialClause (ts : List Token) : Outcome (Option Stmt) :=
  match ts with
  | t :: rest =>
    if t.kind = .semicolon then .ok none [] rest
    else if t.kind = .kwVar then (variableAfter rest).map some
    else (simple ts).map some
  | [] => (simple ts).map some

theorem initialClause_within (ts : List Token) : (initialClause ts).Within true ts := by
  unfold initialClause
  repeat' split
  · exact ⟨List.suffix_cons _ _, fun _ => Nat.lt_succ_self _⟩
  · exact ((variableAfter_within _).map _).past _
  · exact (simple_within _).map _
  · exact (simple_within _).map _

def clauses (ts : List Token) : Outcome Clauses :=
  (expect .leftParen .beforeForClauses ts).andThen fun _ rest =>
    (initialClause rest).andThen fun initial rest =>
      (optional .semicolon rest).andThen fun condition rest =>
        (expect .semicolon .afterForCondition rest).andThen fun _ rest =>
          (optional .rightParen rest).andThen fun step rest =>
            (expect .rightParen .afterForClauses rest).map fun _ => ⟨initial, condition, step⟩

theorem clauses_within (ts : List Token) : (clauses ts).Within true ts :=
  (expect_within _ _ ts).andThen fun _ rest => (initialClause_within rest).andThen fun _ rest =>
    (optional_within _ rest).andThen fun _ rest => (expect_within _ _ rest).andThen fun _ rest =>
      (optional_within _ rest).andThen fun _ rest => (expect_within _ _ rest).map _

namespace Reading

mutual

def statement (ts : List Token) : Reading true ts Stmt :=
  match ts with
  | t :: rest =>
    match t.kind with
    | .kwIf =>
      (andThen ⟨condition .beforeIfCondition .afterIfCondition rest, condition_within _ _ rest⟩
        fun condition rest _ _ => (statement rest).andThen fun body rest _ _ =>
          match rest with
          | word :: after =>
            if word.kind = .kwElse then ((statement after).map (.ifElse condition body)).past word
            else ok (.ifThen condition body) (word :: after)
          | [] => ok (.ifThen condition body) []).past t
    | .kwWhile =>
      (andThen ⟨condition .beforeWhileCondition .afterWhileCondition rest, condition_within _ _ rest⟩
        fun condition rest _ _ => (statement rest).map (.loop condition)).past t
    | .kwFor =>
      (andThen ⟨clauses rest, clauses_within rest⟩
        fun c rest _ _ => (statement rest).map (.counting c.initial c.condition c.step)).past t
    | .kwPrint => past t ⟨printed rest, printed_within rest⟩
    | .leftBrace =>
      ((declarations true rest).andThen fun body rest _ _ =>
        (expect .rightBrace .afterBlock rest).map fun _ => .block body).past t
    | _ => ⟨simple (t :: rest), simple_within _⟩
  | [] => ⟨simple [], simple_within _⟩
termination_by 3 * ts.length
decreasing_by all_goals simp only [List.length_cons] at *; grind

def declaration (t : Token) (rest : List Token) (h : t.kind ≠ .eof) :
    Reading true (t :: rest) (Option Stmt) :=
  let one : Reading true (t :: rest) Stmt :=
    if t.kind = .kwVar then past t ⟨variableAfter rest, variableAfter_within rest⟩
    else statement (t :: rest)
  ⟨one.val.recovered, Outcome.recovered_within h one.property⟩
termination_by 3 * (t :: rest).length + 1

/-- Declarations up to the end, or up to the brace that ends the enclosing block. -/
def declarations (inBlock : Bool) (ts : List Token) : Reading false ts (List Stmt) :=
  match ts with
  | t :: rest =>
    if h : t.kind = .eof then ok [] (t :: rest)
    else if inBlock && t.kind = .rightBrace then ok [] (t :: rest)
    else
      ((declaration t rest h).andThen fun first rest _ _ =>
        (declarations inBlock rest).map (first.toList ++ ·)).relax
  | [] => ok [] []
termination_by 3 * ts.length + 2
decreasing_by all_goals simp only [List.length_cons] at *; grind

end

end Reading

def statement (ts : List Token) : Outcome Stmt := (Reading.statement ts).val

def declarations (inBlock : Bool) (ts : List Token) : Outcome (List Stmt) :=
  (Reading.declarations inBlock ts).val

/-- A declaration that begins with `t`, or nothing where it had to be given up. -/
def declaration (t : Token) (rest : List Token) : Outcome (Option Stmt) :=
  (if t.kind = .kwVar then variableAfter rest else statement (t :: rest)).recovered

def alternative (condition : Expr) (body : Stmt) (ts : List Token) : Outcome Stmt :=
  match ts with
  | word :: rest =>
    if word.kind = .kwElse then (statement rest).map (.ifElse condition body)
    else .ok (.ifThen condition body) [] (word :: rest)
  | [] => .ok (.ifThen condition body) [] []

theorem statement_within (ts : List Token) : (statement ts).Within true ts :=
  (Reading.statement ts).property

theorem declarations_within (inBlock : Bool) (ts : List Token) :
    (declarations inBlock ts).Within false ts :=
  (Reading.declarations inBlock ts).property

theorem val_declaration (t : Token) (rest : List Token) (h : t.kind ≠ .eof) :
    (Reading.declaration t rest h).val = declaration t rest := by
  rw [Reading.declaration, declaration]
  split <;> rfl

theorem declaration_within {t : Token} (h : t.kind ≠ .eof) (rest : List Token) :
    (declaration t rest).Within true (t :: rest) :=
  val_declaration t rest h ▸ (Reading.declaration t rest h).property

theorem statement_nil : statement [] = simple [] := by
  rw [statement, Reading.statement]

theorem statement_cons (t : Token) (rest : List Token) :
    statement (t :: rest) =
      match t.kind with
      | .kwIf => (condition .beforeIfCondition .afterIfCondition rest).andThen fun c rest =>
        (statement rest).andThen fun body rest => alternative c body rest
      | .kwWhile => (condition .beforeWhileCondition .afterWhileCondition rest).andThen fun c rest =>
        (statement rest).map (.loop c)
      | .kwFor => (clauses rest).andThen fun c rest =>
        (statement rest).map (.counting c.initial c.condition c.step)
      | .kwPrint => printed rest
      | .leftBrace => (declarations true rest).andThen fun body rest =>
        (expect .rightBrace .afterBlock rest).map fun _ => .block body
      | _ => simple (t :: rest) := by
  rw [statement, Reading.statement]
  cases t.kind with
  | kwIf =>
    rw [Reading.val_past]
    refine Reading.val_andThen fun c rest _ _ => ?_
    refine Reading.val_andThen fun body rest _ _ => ?_
    rcases rest with _ | ⟨word, after⟩
    · rfl
    · dsimp only [alternative]
      split <;> rfl
  | kwWhile | kwFor | leftBrace =>
    rw [Reading.val_past]
    exact Reading.val_andThen fun _ _ _ _ => rfl
  | _ => rfl

theorem declarations_nil (inBlock : Bool) : declarations inBlock [] = .ok [] [] [] := by
  rw [declarations, Reading.declarations, Reading.val_ok]

theorem declarations_cons (inBlock : Bool) (t : Token) (rest : List Token) :
    declarations inBlock (t :: rest) =
      if t.kind = .eof ∨ (inBlock = true ∧ t.kind = .rightBrace) then .ok [] [] (t :: rest)
      else (declaration t rest).andThen fun first rest =>
        (declarations inBlock rest).map (first.toList ++ ·) := by
  rw [declarations, Reading.declarations]
  by_cases he : t.kind = .eof
  · simp [he]
  · by_cases hb : inBlock = true ∧ t.kind = .rightBrace
    · simp [hb]
    · simp only [he, hb, or_self, ↓reduceIte, ↓reduceDIte]
      rw [if_neg (by simpa using hb), Reading.val_relax, ← val_declaration t rest he]
      exact Reading.val_andThen fun _ _ _ _ => rfl

/-- Reading declarations never stops: what cannot be read is noted and given up. -/
theorem declarations_eq_ok (inBlock : Bool) (ts : List Token) :
    ∃ body faults rest, declarations inBlock ts = .ok body faults rest := by
  induction hn : ts.length using Nat.strongRecOn generalizing ts with
  | ind n ih =>
    cases ts with
    | nil => exact ⟨_, _, _, declarations_nil inBlock⟩
    | cons t rest =>
      rw [declarations_cons]
      split
      · exact ⟨_, _, _, rfl⟩
      · rename_i h
        obtain ⟨first, faults, left, hd⟩ : ∃ first faults left, declaration t rest = .ok first faults left :=
          Outcome.recovered_eq_ok _
        have hw := declaration_within (fun he => h (.inl he)) rest
        rw [hd] at hw ⊢
        obtain ⟨body, more, after, hb⟩ := ih _ (hn ▸ hw.2 rfl) left rfl
        rw [Outcome.andThen_ok, hb]
        exact ⟨_, _, _, rfl⟩

end Grammar

end Lox
