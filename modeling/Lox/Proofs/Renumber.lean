import Lox.Proofs.Consumption
import Lox.Scan

set_option autoImplicit false

namespace Lox

def Token.renumber (g : Nat → Nat) (t : Token) : Token := { t with line := g t.line }

namespace Token

variable (g : Nat → Nat) (t : Token)

@[simp] theorem kind_renumber : (t.renumber g).kind = t.kind := by cases t; rfl

@[simp] theorem lexeme_renumber : (t.renumber g).lexeme = t.lexeme := rfl

@[simp] theorem literal_renumber : (t.renumber g).literal = t.literal := rfl

end Token

def Expr.renumber (g : Nat → Nat) : Expr → Expr
  | .literal value => .literal value
  | .var name => .var (name.renumber g)
  | .assign name value => .assign (name.renumber g) (value.renumber g)
  | .unary op operand => .unary (op.renumber g) (operand.renumber g)
  | .binary op left right => .binary (op.renumber g) (left.renumber g) (right.renumber g)
  | .logical op left right => .logical (op.renumber g) (left.renumber g) (right.renumber g)
  | .grouping inner => .grouping (inner.renumber g)

mutual

def Stmt.renumber (g : Nat → Nat) : Stmt → Stmt
  | .print value => .print (value.renumber g)
  | .expression value => .expression (value.renumber g)
  | .declare name initial => .declare (name.renumber g) (initial.map (Expr.renumber g))
  | .block body => .block (Stmt.renumberAll g body)
  | .ifThen condition body => .ifThen (condition.renumber g) (body.renumber g)
  | .ifElse condition body otherwise =>
    .ifElse (condition.renumber g) (body.renumber g) (otherwise.renumber g)
  | .loop condition body => .loop (condition.renumber g) (body.renumber g)

def Stmt.renumberAll (g : Nat → Nat) : List Stmt → List Stmt
  | [] => []
  | s :: rest => s.renumber g :: Stmt.renumberAll g rest

end

theorem Stmt.renumberAll_eq_map (g : Nat → Nat) (body : List Stmt) :
    Stmt.renumberAll g body = body.map (Stmt.renumber g) := by
  induction body with
  | nil => rfl
  | cons s rest ih => simp [renumberAll, ih]

theorem Stmt.renumber_counting (g : Nat → Nat) (initial : Option Stmt) (condition step : Option Expr)
    (body : Stmt) :
    (Stmt.counting initial condition step body).renumber g =
      Stmt.counting (initial.map (Stmt.renumber g)) (condition.map (Expr.renumber g))
        (step.map (Expr.renumber g)) (body.renumber g) := by
  cases initial <;> cases condition <;> cases step <;> rfl

def LexicalError.renumber (g : Nat → Nat) (e : LexicalError) : LexicalError :=
  { e with line := g e.line }

def SyntaxError.renumber (g : Nat → Nat) (e : SyntaxError) : SyntaxError :=
  { e with token := e.token.renumber g }

namespace Grammar

variable {α β α' β' : Type} (g : Nat → Nat)

def Fault.renumber (f : Fault) : Fault := { f with rest := f.rest.map (Token.renumber g) }

def Clauses.renumber (c : Clauses) : Clauses :=
  ⟨c.initial.map (Stmt.renumber g), c.condition.map (Expr.renumber g), c.step.map (Expr.renumber g)⟩

namespace Outcome

/-- Renumbers the lines of the tokens left, and those of what was read with the given function. -/
def renumber (p : α → α') : Outcome α → Outcome α'
  | .ok value faults rest =>
    .ok (p value) (faults.map (Fault.renumber g)) (rest.map (Token.renumber g))
  | .stopped faults fault => .stopped (faults.map (Fault.renumber g)) (fault.renumber g)

variable {g}

theorem renumber_after (p : α → α') (o : Outcome α) (earlier : List Fault) :
    (o.after earlier).renumber g p = (o.renumber g p).after (earlier.map (Fault.renumber g)) := by
  cases o <;> simp [after, renumber]

theorem renumber_andThen {p : α → α'} {q : β → β'} {o : Outcome α} {f : α → List Token → Outcome β}
    {f' : α' → List Token → Outcome β'}
    (h : ∀ value faults rest, o = .ok value faults rest →
      f' (p value) (rest.map (Token.renumber g)) = (f value rest).renumber g q) :
    (o.renumber g p).andThen f' = (o.andThen f).renumber g q := by
  cases o with
  | ok value faults rest =>
    rw [andThen_ok, renumber_after, ← h value faults rest rfl]
    rfl
  | stopped faults fault => rfl

theorem renumber_map {p : α → α'} {q : β → β'} {f : α → β} {f' : α' → β'}
    (h : ∀ value, f' (p value) = q (f value)) (o : Outcome α) :
    (o.renumber g p).map f' = (o.map f).renumber g q := by
  cases o with
  | ok value faults rest => simp [renumber, h]
  | stopped faults fault => rfl

end Outcome

theorem kind_current_map (ts : List Token) :
    (current (ts.map (Token.renumber g))).kind = (current ts).kind := by
  cases ts <;> rfl

theorem resume_map (ts : List Token) :
    resume (ts.map (Token.renumber g)) = (resume ts).map (Token.renumber g) := by
  induction ts with
  | nil => rfl
  | cons t rest ih =>
    by_cases he : t.kind = .eof
    · simp [resume, he]
    · by_cases hs : t.kind = .semicolon ∨ (current rest).kind.startsStatement = true
      · simp [resume, he, hs, kind_current_map]
      · simp [resume, he, hs, kind_current_map, ih]

theorem expect_map (kind : Kind) (problem : Problem) (ts : List Token) :
    expect kind problem (ts.map (Token.renumber g)) =
      (expect kind problem ts).renumber g (Token.renumber g) := by
  cases ts with
  | nil => rfl
  | cons t rest =>
    by_cases hk : t.kind = kind
    · simp [expect, hk, Outcome.renumber]
    · simp [expect, hk, Outcome.renumber, Fault.renumber]

theorem assignTo_map (target : Expr) (equal : List Token) (value : Expr) (rest : List Token) :
    assignTo (target.renumber g) (equal.map (Token.renumber g)) (value.renumber g)
        (rest.map (Token.renumber g)) =
      (assignTo target equal value rest).renumber g (Expr.renumber g) := by
  cases target <;> rfl

theorem primary_map (ts : List Token)
    (ih : ∀ us, us.length < ts.length →
      expression (us.map (Token.renumber g)) = (expression us).renumber g (Expr.renumber g)) :
    primary (ts.map (Token.renumber g)) = (primary ts).renumber g (Expr.renumber g) := by
  cases ts with
  | nil => simp [primary_nil, Outcome.renumber, Fault.renumber]
  | cons t rest =>
    simp only [List.map_cons, primary_cons, Token.kind_renumber, Token.literal_renumber]
    cases t.kind with
    | leftParen =>
      rw [ih rest (Nat.lt_succ_self _)]
      refine Outcome.renumber_andThen fun inner faults left _ => ?_
      rw [expect_map]
      exact Outcome.renumber_map (fun _ => by rfl) _
    | _ => rfl

theorem join_renumber (level : Level) (op : Token) (left right : Expr) :
    level.join (op.renumber g) (left.renumber g) (right.renumber g) =
      (level.join op left right).renumber g := by
  cases level <;> rfl

theorem chain_map (level : Level) (left : Expr) (ts : List Token)
    (ihT : ∀ us, us.length < ts.length → tier level.tighter (us.map (Token.renumber g)) =
      (tier level.tighter us).renumber g (Expr.renumber g))
    (ihC : ∀ us, us.length < ts.length → ∀ left,
      chain level (left.renumber g) (us.map (Token.renumber g)) =
        (chain level left us).renumber g (Expr.renumber g)) :
    chain level (left.renumber g) (ts.map (Token.renumber g)) =
      (chain level left ts).renumber g (Expr.renumber g) := by
  cases ts with
  | nil => simp [chain_nil, Outcome.renumber]
  | cons op rest =>
    by_cases ho : level.hasOperator op.kind = true
    · simp only [List.map_cons, chain_cons, Token.kind_renumber, ho, ↓reduceIte]
      rw [ihT rest (Nat.lt_succ_self _)]
      refine Outcome.renumber_andThen fun right faults left' ht => ?_
      have hw := tier_within level.tighter rest
      rw [ht] at hw
      rw [join_renumber]
      exact ihC left' (Nat.lt_succ_of_le hw.1.length_le) _
    · simp [chain_cons, ho, Outcome.renumber]

theorem expression_map (ts : List Token) :
    expression (ts.map (Token.renumber g)) = (expression ts).renumber g (Expr.renumber g) := by
  refine expression_induction
    (E := fun ts => expression (ts.map (Token.renumber g)) =
      (expression ts).renumber g (Expr.renumber g))
    (U := fun ts => unary (ts.map (Token.renumber g)) = (unary ts).renumber g (Expr.renumber g))
    (P := fun ts => primary (ts.map (Token.renumber g)) = (primary ts).renumber g (Expr.renumber g))
    (T := fun level ts => tier level (ts.map (Token.renumber g)) =
      (tier level ts).renumber g (Expr.renumber g))
    (C := fun level left ts => chain level (left.renumber g) (ts.map (Token.renumber g)) =
      (chain level left ts).renumber g (Expr.renumber g))
    (primary_map g) ?unary ?tightest (chain_map g) ?tier ?assignment ts
  case unary =>
    intro ts hp ih
    cases ts with
    | nil => simpa only [List.map_nil, unary_nil] using hp
    | cons op rest =>
      by_cases ho : (op.kind = .bang || op.kind = .minus) = true
      · simp only [List.map_cons, unary_cons, Token.kind_renumber, ho, ↓reduceIte]
        rw [ih rest (Nat.lt_succ_self _)]
        exact Outcome.renumber_map (fun _ => by rfl) _
      · simp only [List.map_cons, unary_cons, Token.kind_renumber, ho]
        exact hp
  case tightest =>
    intro ts hu
    simpa only [tier_none] using hu
  case tier =>
    intro level ts ht ih
    simp only [tier_some]
    rw [ht]
    refine Outcome.renumber_andThen fun left faults rest hl => ?_
    have hw := tier_within level.tighter ts
    rw [hl] at hw
    exact ih rest (hw.2 rfl) left
  case assignment =>
    intro ts ht ih
    rw [expression_eq, expression_eq, ht]
    refine Outcome.renumber_andThen fun target faults rest hl => ?_
    have hw := tier_within (some .or) ts
    rw [hl] at hw
    cases rest with
    | nil => rfl
    | cons equal after =>
      by_cases he : equal.kind = .equal
      · simp only [List.map_cons, Token.kind_renumber, he, ↓reduceIte]
        rw [ih after (Nat.lt_of_succ_lt (hw.2 rfl))]
        exact Outcome.renumber_andThen fun value _ left _ => assignTo_map g target (equal :: after) value left
      · simp [he, Outcome.renumber]

theorem simple_map (ts : List Token) :
    simple (ts.map (Token.renumber g)) = (simple ts).renumber g (Stmt.renumber g) := by
  rw [simple, simple, expression_map]
  refine Outcome.renumber_andThen fun value faults rest _ => ?_
  rw [expect_map]
  exact Outcome.renumber_map (fun _ => by rfl) _

theorem printed_map (ts : List Token) :
    printed (ts.map (Token.renumber g)) = (printed ts).renumber g (Stmt.renumber g) := by
  rw [printed, printed, expression_map]
  refine Outcome.renumber_andThen fun value faults rest _ => ?_
  rw [expect_map]
  exact Outcome.renumber_map (fun _ => by rfl) _

theorem optional_map (ending : Kind) (ts : List Token) :
    optional ending (ts.map (Token.renumber g)) =
      (optional ending ts).renumber g (Option.map (Expr.renumber g)) := by
  by_cases he : (current ts).kind = ending
  · simp [optional, kind_current_map, he, Outcome.renumber]
  · simp only [optional, kind_current_map, he, ↓reduceIte, expression_map]
    exact Outcome.renumber_map (fun _ => by rfl) _

theorem initializer_map (ts : List Token) :
    initializer (ts.map (Token.renumber g)) =
      (initializer ts).renumber g (Option.map (Expr.renumber g)) := by
  cases ts with
  | nil => rfl
  | cons equal rest =>
    by_cases he : equal.kind = .equal
    · simp only [List.map_cons, initializer, Token.kind_renumber, he, ↓reduceIte, expression_map]
      exact Outcome.renumber_map (fun _ => by rfl) _
    · simp [initializer, he, Outcome.renumber]

theorem variableAfter_map (ts : List Token) :
    variableAfter (ts.map (Token.renumber g)) = (variableAfter ts).renumber g (Stmt.renumber g) := by
  rw [variableAfter, variableAfter, expect_map]
  refine Outcome.renumber_andThen fun name faults rest _ => ?_
  rw [initializer_map]
  refine Outcome.renumber_andThen fun initial faults rest _ => ?_
  rw [expect_map]
  exact Outcome.renumber_map (fun _ => by rfl) _

theorem condition_map (before after : Problem) (ts : List Token) :
    condition before after (ts.map (Token.renumber g)) =
      (condition before after ts).renumber g (Expr.renumber g) := by
  rw [condition, condition, expect_map]
  refine Outcome.renumber_andThen fun paren faults rest _ => ?_
  rw [expression_map]
  refine Outcome.renumber_andThen fun value faults rest _ => ?_
  rw [expect_map]
  exact Outcome.renumber_map (fun _ => by rfl) _

theorem initialClause_map (ts : List Token) :
    initialClause (ts.map (Token.renumber g)) =
      (initialClause ts).renumber g (Option.map (Stmt.renumber g)) := by
  cases ts with
  | nil =>
    have hs : (simple []).map some = ((simple []).renumber g (Stmt.renumber g)).map some :=
      congrArg (Outcome.map some) (simple_map g [])
    simp only [List.map_nil, initialClause]
    exact hs.trans (Outcome.renumber_map (fun _ => by rfl) _)
  | cons t rest =>
    by_cases hs : t.kind = .semicolon
    · simp [initialClause, hs, Outcome.renumber]
    · by_cases hv : t.kind = .kwVar
      · simp only [List.map_cons, initialClause, Token.kind_renumber, hv, reduceCtorEq, ↓reduceIte,
          variableAfter_map]
        exact Outcome.renumber_map (fun _ => by rfl) _
      · simp only [List.map_cons, initialClause, Token.kind_renumber, hs, hv, ↓reduceIte]
        rw [← List.map_cons, simple_map]
        exact Outcome.renumber_map (fun _ => by rfl) _

theorem clauses_map (ts : List Token) :
    clauses (ts.map (Token.renumber g)) = (clauses ts).renumber g (Clauses.renumber g) := by
  rw [clauses, clauses, expect_map]
  refine Outcome.renumber_andThen fun paren faults rest _ => ?_
  rw [initialClause_map]
  refine Outcome.renumber_andThen fun initial faults rest _ => ?_
  rw [optional_map]
  refine Outcome.renumber_andThen fun condition faults rest _ => ?_
  rw [expect_map]
  refine Outcome.renumber_andThen fun semicolon faults rest _ => ?_
  rw [optional_map]
  refine Outcome.renumber_andThen fun step faults rest _ => ?_
  rw [expect_map]
  exact Outcome.renumber_map (fun _ => by rfl) _

theorem alternative_map (condition : Expr) (body : Stmt) (ts : List Token)
    (ih : ∀ us, us.length < ts.length →
      statement (us.map (Token.renumber g)) = (statement us).renumber g (Stmt.renumber g)) :
    alternative (condition.renumber g) (body.renumber g) (ts.map (Token.renumber g)) =
      (alternative condition body ts).renumber g (Stmt.renumber g) := by
  cases ts with
  | nil => rfl
  | cons word rest =>
    by_cases he : word.kind = .kwElse
    · simp only [List.map_cons, alternative, Token.kind_renumber, he, ↓reduceIte]
      rw [ih rest (Nat.lt_succ_self _)]
      exact Outcome.renumber_map (fun _ => by rfl) _
    · simp [alternative, he, Outcome.renumber, Stmt.renumber]

theorem recovered_renumber (p : α → α') (o : Outcome α) :
    (o.renumber g p).recovered = o.recovered.renumber g (Option.map p) := by
  cases o with
  | ok value faults rest => rfl
  | stopped faults fault => simp [Outcome.recovered, Outcome.renumber, Fault.renumber, resume_map]

theorem statement_map (ts : List Token)
    (ihS : ∀ us, us.length < ts.length →
      statement (us.map (Token.renumber g)) = (statement us).renumber g (Stmt.renumber g))
    (ihD : ∀ us, us.length < ts.length → declarations true (us.map (Token.renumber g)) =
      (declarations true us).renumber g (List.map (Stmt.renumber g))) :
    statement (ts.map (Token.renumber g)) = (statement ts).renumber g (Stmt.renumber g) := by
  cases ts with
  | nil =>
    rw [List.map_nil, statement_nil]
    exact simple_map g []
  | cons t rest =>
    have hrest : ∀ {value : Expr} {faults : List Fault} {left : List Token} {before after : Problem},
        condition before after rest = .ok value faults left → left.length < (t :: rest).length := by
      intro value faults left before after h
      have hw := condition_within before after rest
      rw [h] at hw
      exact Nat.lt_succ_of_le hw.1.length_le
    simp only [List.map_cons, statement_cons, Token.kind_renumber]
    cases t.kind with
    | kwIf =>
      rw [condition_map]
      refine Outcome.renumber_andThen fun c faults left hc => ?_
      rw [ihS left (hrest hc)]
      refine Outcome.renumber_andThen fun body faults after hb => ?_
      have hw := statement_within left
      rw [hb] at hw
      exact alternative_map g c body after fun us hu =>
        ihS us (Nat.lt_trans hu (Nat.lt_trans (hw.2 rfl) (hrest hc)))
    | kwWhile =>
      dsimp only
      rw [condition_map]
      refine Outcome.renumber_andThen fun c faults left hc => ?_
      rw [ihS left (hrest hc)]
      exact Outcome.renumber_map (fun _ => by rfl) _
    | kwFor =>
      rw [clauses_map]
      refine Outcome.renumber_andThen fun c faults left hc => ?_
      have hw := clauses_within rest
      rw [hc] at hw
      rw [ihS left (Nat.lt_succ_of_le hw.1.length_le)]
      exact Outcome.renumber_map (fun body => (Stmt.renumber_counting g _ _ _ body).symm) _
    | kwPrint => exact printed_map g rest
    | leftBrace =>
      rw [ihD rest (Nat.lt_succ_self _)]
      refine Outcome.renumber_andThen fun body faults left _ => ?_
      rw [expect_map]
      refine Outcome.renumber_map (fun _ => ?_) _
      rw [Stmt.renumber, Stmt.renumberAll_eq_map]
    | _ => exact simple_map g (t :: rest)

theorem declaration_map (t : Token) (rest : List Token)
    (ih : statement ((t :: rest).map (Token.renumber g)) =
      (statement (t :: rest)).renumber g (Stmt.renumber g)) :
    declaration (t.renumber g) (rest.map (Token.renumber g)) =
      (declaration t rest).renumber g (Option.map (Stmt.renumber g)) := by
  by_cases hv : t.kind = .kwVar
  · simp only [declaration, Token.kind_renumber, hv, ↓reduceIte, variableAfter_map]
    exact recovered_renumber g _ _
  · simp only [declaration, Token.kind_renumber, hv, ↓reduceIte]
    rw [← List.map_cons, ih]
    exact recovered_renumber g _ _

theorem declarations_map (inBlock : Bool) (ts : List Token) :
    declarations inBlock (ts.map (Token.renumber g)) =
      (declarations inBlock ts).renumber g (List.map (Stmt.renumber g)) := by
  refine (statement_induction
    (S := fun ts => statement (ts.map (Token.renumber g)) =
      (statement ts).renumber g (Stmt.renumber g))
    (D := fun inBlock ts => declarations inBlock (ts.map (Token.renumber g)) =
      (declarations inBlock ts).renumber g (List.map (Stmt.renumber g)))
    (statement_map g) ?_ ts).2 inBlock
  intro inBlock ts hs ih
  cases ts with
  | nil => simp [declarations_nil, Outcome.renumber]
  | cons t rest =>
    by_cases he : t.kind = .eof ∨ (inBlock = true ∧ t.kind = .rightBrace)
    · simp [declarations_cons, he, Outcome.renumber]
    · simp only [List.map_cons, declarations_cons, Token.kind_renumber, he, ↓reduceIte]
      rw [declaration_map g t rest hs]
      refine Outcome.renumber_andThen fun first faults left hd => ?_
      have hw := declaration_within (fun h => he (.inl h)) rest
      rw [hd] at hw
      rw [ih left (hw.2 rfl)]
      refine Outcome.renumber_map (fun body => ?_) _
      cases first <;> simp

theorem Fault.error_renumber {f : Fault} (h : f.rest ≠ []) :
    (f.renumber g).error = f.error.renumber g := by
  obtain ⟨rest, problem⟩ := f
  cases rest with
  | nil => exact absurd rfl h
  | cons t rest => rfl

theorem map_error_renumber {faults : List Fault} (h : ∀ f ∈ faults, f.rest ≠ []) :
    (faults.map (Fault.renumber g)).map Fault.error =
      (faults.map Fault.error).map (SyntaxError.renumber g) := by
  simp only [List.map_map]
  exact List.map_congr_left fun f hf => Fault.error_renumber g (h f hf)

end Grammar

def renumberParsed (g : Nat → Nat) : Except (List SyntaxError) (List Stmt) →
    Except (List SyntaxError) (List Stmt)
  | .ok program => .ok (program.map (Stmt.renumber g))
  | .error errors => .error (errors.map (SyntaxError.renumber g))

theorem parse_map (g : Nat → Nat) {ts : List Token} {last : Token} (hl : last.kind = .eof)
    (hm : last ∈ ts) : parse (ts.map (Token.renumber g)) = renumberParsed g (parse ts) := by
  obtain ⟨body, faults, rest, h⟩ := Grammar.declarations_eq_ok false ts
  have hkeeps := Grammar.declarations_keeps (Grammar.persistent_mem hl) false hm
  rw [h] at hkeeps
  have herrors := Grammar.map_error_renumber g fun f hf => List.ne_nil_of_mem (hkeeps.1 f hf)
  rw [parse, parse, Grammar.declarations_map, h]
  cases faults with
  | nil => rfl
  | cons f faults => exact congrArg Except.error herrors

end Lox
