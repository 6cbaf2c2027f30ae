import Lox.Proofs.Descent

/-!
What all readers have in common.  Every reader is put together from a few parts: leave the tokens as they
are, stop, decide by the token at the front, take it off, go on with another reader.  A property that
passes through these parts is shared by all readers; which tokens may be taken off is left open, since the
readers of expressions take fewer kinds than those of statements.
-/

set_option autoImplicit false

namespace Lox.Grammar

abbrev Reader (α : Type) := List Token → Outcome α

def inExpression : Kind → Bool
  | .leftParen | .rightParen | .minus | .plus | .slash | .star | .bang | .bangEqual | .equal
  | .equalEqual | .greater | .greaterEqual | .less | .lessEqual | .identifier | .string | .number
  | .kwAnd | .kwFalse | .kwNil | .kwOr | .kwTrue => true
  | _ => false

theorem Level.inExpression_of_hasOperator {level : Level} {kind : Kind} (h : level.hasOperator kind) :
    inExpression kind := by
  revert h
  cases level <;> cases kind <;> decide

/-- A property of readers at a list of tokens that the parts of readers have and that passes to what is put
together from them, where tokens of the kinds in `K` may be taken off. -/
structure Hereditary (K : Kind → Prop) (P : {α : Type} → Reader α → List Token → Prop) : Prop where
  ok {α : Type} (value : α) (ts : List Token) : P (fun us => .ok value [] us) ts
  stop {α : Type} {problem : Problem} (h : problem ≠ .assignmentTarget) (ts : List Token) :
    P (fun us => (.stopped [] ⟨us, problem⟩ : Outcome α)) ts
  congr {α : Type} {r s : Reader α} {ts : List Token} :
    (∀ us, us.head? = ts.head? → r us = s us) → P s ts → P r ts
  past {α : Type} {r s : Reader α} {t : Token} {ts : List Token} :
    K t.kind → (∀ us, r (t :: us) = s us) → P s ts → P r (t :: ts)
  andThen {α β : Type} {r : Reader α} {f : α → Reader β} {ts : List Token} :
    P r ts → (∀ value faults rest, r ts = .ok value faults rest → P (f value) rest) →
      P (fun us => (r us).andThen f) ts
  /-- A target that is no name is a fault at the equals sign, noted once the value has been read. -/
  blame {r : Reader Expr} {equal : Token} {ts : List Token} (target : Expr) :
    equal.kind = .equal → K equal.kind → (∀ us, r (equal :: us) = (expression us).andThen fun _ left =>
      .ok target [⟨equal :: us, .assignmentTarget⟩] left) → P expression ts → P r (equal :: ts)

/-- The property passes to a reader that gives up what it could not read. -/
def Recoverable (P : {α : Type} → Reader α → List Token → Prop) : Prop :=
  ∀ {α : Type} {r : Reader α} {t : Token} {ts : List Token}, t.kind ≠ .eof → P r (t :: ts) →
    P (fun us => (r us).recovered) (t :: ts)

theorem eq_cons_of_head? {t : Token} {ts us : List Token} (h : us.head? = (t :: ts).head?) :
    us = t :: us.tail := by
  cases us with
  | nil => cases h
  | cons u us =>
    cases h
    rfl

theorem eq_nil_of_head? {us : List Token} (h : us.head? = ([] : List Token).head?) : us = [] :=
  List.head?_eq_none_iff.mp h

theorem current_of_head? {ts us : List Token} (h : us.head? = ts.head?) : current us = current ts := by
  rw [current, current, List.headD_eq_head?_getD, List.headD_eq_head?_getD, h]

theorem Outcome.map_eq_andThen {α β : Type} (o : Outcome α) (f : α → β) :
    o.map f = o.andThen fun value rest => .ok (f value) [] rest := by
  cases o <;> simp [Outcome.after]

theorem assignTo_cases (target : Expr) : (∃ name, target = .var name) ∨
    ∀ equal value rest, assignTo target equal value rest =
      .ok target [⟨equal, .assignmentTarget⟩] rest := by
  cases target with
  | var name => exact .inl ⟨name, rfl⟩
  | _ => exact .inr fun _ _ _ => rfl

namespace Hereditary

variable {K : Kind → Prop} {P : {α : Type} → Reader α → List Token → Prop}

theorem nil (h : Hereditary K P) {α : Type} {r s : Reader α} (hs : P s []) (hrs : r [] = s []) : P r [] :=
  h.congr (fun us hu => by rw [eq_nil_of_head? hu, hrs]) hs

theorem front (h : Hereditary K P) {α : Type} {r s : Reader α} {t : Token} {ts : List Token}
    (hrs : ∀ us, r (t :: us) = s (t :: us)) (hs : P s (t :: ts)) : P r (t :: ts) :=
  h.congr (fun us hu => by rw [eq_cons_of_head? hu, hrs]) hs

theorem map (h : Hereditary K P) {α β : Type} {r : Reader α} {ts : List Token} (hr : P r ts)
    (f : α → β) : P (fun us => (r us).map f) ts :=
  h.congr (fun _ _ => Outcome.map_eq_andThen _ f) (h.andThen hr fun value _ rest _ => h.ok (f value) rest)

theorem expect (h : Hereditary K P) {kind : Kind} (hk : K kind) {problem : Problem}
    (hp : problem ≠ .assignmentTarget) (ts : List Token) : P (Grammar.expect kind problem) ts := by
  cases ts with
  | nil => exact h.nil (h.stop hp []) rfl
  | cons t rest =>
    by_cases ht : t.kind = kind
    · exact h.past (ht ▸ hk) (fun us => expect_cons ht problem us) (h.ok t rest)
    · exact h.front (fun us => by simp [Grammar.expect, ht]) (h.stop hp _)

section Expressions

variable (h : Hereditary K P) (hK : ∀ kind, inExpression kind → K kind)

include h hK

theorem primary (ts : List Token) (ih : ∀ us, us.length < ts.length → P Grammar.expression us) :
    P Grammar.primary ts := by
  cases ts with
  | nil => exact h.nil (h.stop (by decide) []) primary_nil
  | cons t rest =>
    have taken : ∀ {s : Reader Expr}, inExpression t.kind → (∀ us, Grammar.primary (t :: us) = s us) →
        P s rest → P Grammar.primary (t :: rest) := fun hk => h.past (hK _ hk)
    cases hk : t.kind with
    | kwFalse | kwTrue | kwNil | number | string | identifier =>
      exact taken (hk ▸ rfl) (fun us => by rw [primary_cons, hk]) (h.ok _ rest)
    | leftParen =>
      refine taken (hk ▸ rfl) (fun us => by rw [primary_cons, hk]) ?_
      refine h.andThen (ih rest (Nat.lt_succ_self _)) fun inner _ after _ => ?_
      exact h.map (h.expect (hK _ rfl) (by decide) after) _
    | _ => exact h.front (fun us => by rw [primary_cons, hk]) (h.stop (by decide) _)

theorem unary (ts : List Token) (hp : P Grammar.primary ts)
    (ih : ∀ us, us.length < ts.length → P Grammar.unary us) : P Grammar.unary ts := by
  cases ts with
  | nil => exact h.nil hp unary_nil
  | cons op rest =>
    by_cases ho : op.kind = .bang || op.kind = .minus
    · have hk : K op.kind := by
        rcases (Bool.or_eq_true _ _).mp ho with ho | ho <;> rw [of_decide_eq_true ho] <;> exact hK _ rfl
      exact h.past hk (fun us => by rw [unary_cons, if_pos ho]) (h.map (ih rest (Nat.lt_succ_self _)) _)
    · exact h.front (fun us => by rw [unary_cons, if_neg ho]) hp

theorem chain (level : Level) (left : Expr) (ts : List Token)
    (ht : ∀ us, us.length < ts.length → P (Grammar.tier level.tighter) us)
    (ih : ∀ us, us.length < ts.length → ∀ left, P (Grammar.chain level left) us) :
    P (Grammar.chain level left) ts := by
  cases ts with
  | nil => exact h.nil (h.ok left []) (chain_nil level left)
  | cons op rest =>
    by_cases ho : level.hasOperator op.kind
    · refine h.past (hK _ (Level.inExpression_of_hasOperator ho)) (fun us => by rw [chain_cons, if_pos ho]) ?_
      refine h.andThen (ht rest (Nat.lt_succ_self _)) fun right faults after hr => ?_
      have hw := tier_within level.tighter rest
      rw [hr] at hw
      exact ih after (Nat.lt_succ_of_lt (hw.2 rfl)) _
    · exact h.front (fun us => by rw [chain_cons, if_neg ho]) (h.ok left _)

theorem assignment (ts : List Token) (ht : P (Grammar.tier (some .or)) ts)
    (ih : ∀ us, us.length < ts.length → P Grammar.expression us) : P Grammar.expression ts := by
  refine h.congr (fun us _ => expression_eq us) (h.andThen ht fun target faults rest ho => ?_)
  cases rest with
  | nil => exact h.nil (h.ok target []) rfl
  | cons equal after =>
    by_cases he : equal.kind = .equal
    · have hw := tier_within (some .or) ts
      rw [ho] at hw
      have hvalue := ih after (Nat.lt_of_succ_lt (hw.2 rfl))
      have hk : K equal.kind := hK _ (he ▸ rfl)
      rcases assignTo_cases target with ⟨name, rfl⟩ | hblame
      · refine h.past (s := fun us => (Grammar.expression us).andThen fun value left =>
          .ok (.assign name value) [] left) hk (fun us => by simp only [he, if_true, assignTo]) ?_
        exact h.andThen hvalue fun value _ left _ => h.ok (Expr.assign name value) left
      · exact h.blame target he hk (fun us => by simp only [he, if_true, hblame]) hvalue
    · exact h.front (fun us => by simp only [he, if_false]) (h.ok target _)

theorem descent (ts : List Token) :
    P Grammar.expression ts ∧ P Grammar.unary ts ∧ P Grammar.primary ts ∧
      (∀ level, P (Grammar.tier level) ts) ∧ ∀ level left, P (Grammar.chain level left) ts := by
  refine descent_induction (E := P Grammar.expression) (T := fun level => P (Grammar.tier level))
    (C := fun level left => P (Grammar.chain level left)) (h.primary hK) (h.unary hK) ?_ (h.chain hK) ?_
    (h.assignment hK) ts
  · intro ts hu
    exact h.congr (fun us _ => tier_none us) hu
  · intro level ts ht hc
    refine h.congr (fun us _ => tier_some level us) (h.andThen ht fun left faults rest hl => ?_)
    have hw := tier_within level.tighter ts
    rw [hl] at hw
    exact hc rest (hw.2 rfl) left

theorem expression (ts : List Token) : P Grammar.expression ts := (h.descent hK ts).1

theorem initializer (ts : List Token) : P Grammar.initializer ts := by
  cases ts with
  | nil => exact h.nil (h.ok none []) rfl
  | cons equal rest =>
    by_cases he : equal.kind = .equal
    · exact h.past (hK _ (he ▸ rfl)) (fun us => by simp only [Grammar.initializer, he, if_true])
        (h.map (h.expression hK rest) some)
    · exact h.front (fun us => by simp only [Grammar.initializer, he, if_false]) (h.ok none _)

theorem optional (ending : Kind) (ts : List Token) : P (Grammar.optional ending) ts := by
  by_cases he : (current ts).kind = ending
  · refine h.congr (fun us hu => ?_) (h.ok none ts)
    rw [Grammar.optional, current_of_head? hu, if_pos he]
  · refine h.congr (fun us hu => ?_) (h.map (h.expression hK ts) some)
    rw [Grammar.optional, current_of_head? hu, if_neg he]

end Expressions

section Statements

variable (h : Hereditary K P) (hK : ∀ kind, kind ≠ .eof → K kind)

omit h in
include hK in
theorem inExpression_taken (kind : Kind) (hk : inExpression kind) : K kind :=
  hK kind (by rintro rfl; cases hk)

include h hK

theorem simple (ts : List Token) : P Grammar.simple ts :=
  h.andThen (h.expression (inExpression_taken hK) ts) fun _ _ rest _ =>
    h.map (h.expect (hK _ (by decide)) (by decide) rest) _

theorem printed (ts : List Token) : P Grammar.printed ts :=
  h.andThen (h.expression (inExpression_taken hK) ts) fun _ _ rest _ =>
    h.map (h.expect (hK _ (by decide)) (by decide) rest) _

theorem variableAfter (ts : List Token) : P Grammar.variableAfter ts :=
  h.andThen (h.expect (hK _ (by decide)) (by decide) ts) fun _ _ rest _ =>
    h.andThen (h.initializer (inExpression_taken hK) rest) fun _ _ rest _ =>
      h.map (h.expect (hK _ (by decide)) (by decide) rest) _

theorem condition {before after : Problem} (hb : before ≠ .assignmentTarget)
    (ha : after ≠ .assignmentTarget) (ts : List Token) : P (Grammar.condition before after) ts :=
  h.andThen (h.expect (hK _ (by decide)) hb ts) fun _ _ rest _ =>
    h.andThen (h.expression (inExpression_taken hK) rest) fun _ _ rest _ =>
      h.map (h.expect (hK _ (by decide)) ha rest) _

theorem initialClause (ts : List Token) : P Grammar.initialClause ts := by
  cases ts with
  | nil => exact h.nil (h.map (h.simple hK []) some) rfl
  | cons t rest =>
    by_cases hs : t.kind = .semicolon
    · exact h.past (hK _ (by simp [hs])) (fun us => by simp only [Grammar.initialClause, hs, if_true])
        (h.ok none rest)
    · by_cases hv : t.kind = .kwVar
      · exact h.past (hK _ (by simp [hv])) (fun us => by simp [Grammar.initialClause, hv])
          (h.map (h.variableAfter hK rest) some)
      · exact h.front (fun us => by simp only [Grammar.initialClause, hs, hv, if_false])
          (h.map (h.simple hK _) some)

theorem clauses (ts : List Token) : P Grammar.clauses ts :=
  h.andThen (h.expect (hK _ (by decide)) (by decide) ts) fun _ _ rest _ =>
    h.andThen (h.initialClause hK rest) fun _ _ rest _ =>
      h.andThen (h.optional (inExpression_taken hK) .semicolon rest) fun _ _ rest _ =>
        h.andThen (h.expect (hK _ (by decide)) (by decide) rest) fun _ _ rest _ =>
          h.andThen (h.optional (inExpression_taken hK) .rightParen rest) fun _ _ rest _ =>
            h.map (h.expect (hK _ (by decide)) (by decide) rest) _

theorem alternative (c : Expr) (body : Stmt) (ts : List Token)
    (ih : ∀ us, us.length < ts.length → P Grammar.statement us) :
    P (Grammar.alternative c body) ts := by
  cases ts with
  | nil => exact h.nil (h.ok _ []) rfl
  | cons word rest =>
    by_cases hw : word.kind = .kwElse
    · exact h.past (hK _ (by simp [hw])) (fun us => by simp only [Grammar.alternative, hw, if_true])
        (h.map (ih rest (Nat.lt_succ_self _)) (.ifElse c body))
    · exact h.front (fun us => by simp only [Grammar.alternative, hw, if_false])
        (h.ok (.ifThen c body) _)

theorem statement_of_block (ts : List Token) (ih : ∀ us, us.length < ts.length → P Grammar.statement us)
    (hblock : ∀ t rest, ts = t :: rest → t.kind = .leftBrace → P Grammar.statement (t :: rest)) :
    P Grammar.statement ts := by
  cases ts with
  | nil => exact h.nil (h.simple hK []) statement_nil
  | cons t rest =>
    have taken : ∀ {s : Reader Stmt}, t.kind ≠ .eof → (∀ us, Grammar.statement (t :: us) = s us) →
        P s rest → P Grammar.statement (t :: rest) := fun hk => h.past (hK _ hk)
    cases hk : t.kind with
    | kwIf =>
      refine taken (by simp [hk]) (fun us => by rw [statement_cons, hk]) ?_
      refine h.andThen (h.condition hK (by decide) (by decide) rest) fun c faults mid hc => ?_
      have hw := condition_within .beforeIfCondition .afterIfCondition rest
      rw [hc] at hw
      have hmid : mid.length < (t :: rest).length := Nat.lt_succ_of_lt (hw.2 rfl)
      refine h.andThen (ih mid hmid) fun body faults' more hb => ?_
      have hw' := statement_within mid
      rw [hb] at hw'
      have hmore := hw'.2 rfl
      exact h.alternative hK c body more fun us hu => ih us (by omega)
    | kwWhile =>
      refine taken (by simp [hk]) (fun us => by rw [statement_cons, hk]) ?_
      refine h.andThen (h.condition hK (by decide) (by decide) rest) fun c faults mid hc => ?_
      have hw := condition_within .beforeWhileCondition .afterWhileCondition rest
      rw [hc] at hw
      exact h.map (ih mid (Nat.lt_succ_of_lt (hw.2 rfl))) _
    | kwFor =>
      refine taken (by simp [hk]) (fun us => by rw [statement_cons, hk]) ?_
      refine h.andThen (h.clauses hK rest) fun c faults mid hc => ?_
      have hw := clauses_within rest
      rw [hc] at hw
      exact h.map (ih mid (Nat.lt_succ_of_lt (hw.2 rfl))) _
    | kwPrint => exact taken (by simp [hk]) (fun us => by rw [statement_cons, hk]) (h.printed hK rest)
    | leftBrace => exact hblock t rest rfl hk
    | _ => exact h.front (fun us => by rw [statement_cons, hk]) (h.simple hK _)

theorem statement_step (ts : List Token) (ih : ∀ us, us.length < ts.length → P Grammar.statement us)
    (ihd : ∀ us, us.length < ts.length → P (Grammar.declarations true) us) : P Grammar.statement ts := by
  refine h.statement_of_block hK ts ih ?_
  rintro t rest rfl hk
  refine h.past (hK _ (by simp [hk])) (fun us => by rw [statement_cons, hk]) ?_
  refine h.andThen (ihd rest (Nat.lt_succ_self _)) fun body faults mid _ => ?_
  exact h.map (h.expect (hK _ (by decide)) (by decide) mid) _

end Statements

end Hereditary

/-- What begins with the token at the front, before it is given up if it cannot be read. -/
def attempt : Reader Stmt
  | t :: rest => if t.kind = .kwVar then variableAfter rest else statement (t :: rest)
  | [] => statement []

theorem declaration_eq (t : Token) (rest : List Token) :
    declaration t rest = (attempt (t :: rest)).recovered := rfl

namespace Hereditary

variable {K : Kind → Prop} {P : {α : Type} → Reader α → List Token → Prop} (h : Hereditary K P)
  (hK : ∀ kind, kind ≠ .eof → K kind)

include h hK

theorem attempt_step (ts : List Token) (hs : P Grammar.statement ts) : P attempt ts := by
  cases ts with
  | nil => exact h.nil hs rfl
  | cons t rest =>
    by_cases hv : t.kind = .kwVar
    · exact h.past (hK _ (by simp [hv])) (fun us => by simp only [attempt, hv, if_true])
        (h.variableAfter hK rest)
    · exact h.front (fun us => by simp only [attempt, hv, if_false]) hs

variable (hR : Recoverable P)

include hR

theorem declarations_step (inBlock : Bool) (ts : List Token) (hs : P Grammar.statement ts)
    (ih : ∀ us, us.length < ts.length → P (Grammar.declarations inBlock) us) :
    P (Grammar.declarations inBlock) ts := by
  cases ts with
  | nil => exact h.nil (h.ok [] []) (declarations_nil inBlock)
  | cons t rest =>
    by_cases hend : t.kind = .eof ∨ (inBlock = true ∧ t.kind = .rightBrace)
    · exact h.front (fun us => by rw [declarations_cons, if_pos hend]) (h.ok [] _)
    · have ht : t.kind ≠ .eof := fun heq => hend (.inl heq)
      refine h.front (s := fun us => (attempt us).recovered.andThen fun first rest =>
        (Grammar.declarations inBlock rest).map (first.toList ++ ·)) (fun us => ?_) ?_
      · rw [declarations_cons, if_neg hend, declaration_eq]
      · refine h.andThen (hR ht (h.attempt_step hK _ hs)) fun first faults more hf => ?_
        have hw := declaration_within ht rest
        rw [declaration_eq, hf] at hw
        exact h.map (ih more (hw.2 rfl)) _

theorem statements (ts : List Token) :
    P Grammar.statement ts ∧ ∀ inBlock, P (Grammar.declarations inBlock) ts :=
  statement_induction (D := fun inBlock => P (Grammar.declarations inBlock)) (h.statement_step hK)
    (h.declarations_step hK hR) ts

theorem statement (ts : List Token) : P Grammar.statement ts := (h.statements hK hR ts).1

theorem declarations (inBlock : Bool) (ts : List Token) : P (Grammar.declarations inBlock) ts :=
  (h.statements hK hR ts).2 inBlock

end Hereditary

end Lox.Grammar
