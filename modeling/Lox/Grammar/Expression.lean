import Lox.Expr
import Lox.Grammar.Outcome

/-!
The grammar of expressions, loosest first:

    assignment  →  IDENTIFIER "=" assignment | or
    or          →  and ( "or" and )*
    and         →  equality ( "and" equality )*
    equality    →  comparison ( ( "!=" | "==" ) comparison )*
    comparison  →  term ( ( ">" | ">=" | "<" | "<=" ) term )*
    term        →  factor ( ( "-" | "+" ) factor )*
    factor      →  unary ( ( "/" | "*" ) unary )*
    unary       →  ( "!" | "-" ) unary | primary
    primary     →  literal | IDENTIFIER | "(" assignment ")"

The target of an assignment is read as an expression first; one that is no name is a fault, but reading
goes on.  The functions in `Reading` carry the proof that they move forward; those without it, and the
equations of the grammar that they satisfy, stand at the end.
-/

set_option autoImplicit false

namespace Lox.Grammar

/-- The levels of binary operators, which all associate to the left. -/
inductive Level where
  | or | and | equality | comparison | term | factor
  deriving DecidableEq, Repr

namespace Level

def hasOperator : Level → Kind → Bool
  | .or, k => k = .kwOr
  | .and, k => k = .kwAnd
  | .equality, k => k = .bangEqual || k = .equalEqual
  | .comparison, k => k = .greater || k = .greaterEqual || k = .less || k = .lessEqual
  | .term, k => k = .minus || k = .plus
  | .factor, k => k = .slash || k = .star

/-- The level of the operands; those of the tightest level are unary expressions. -/
def tighter : Level → Option Level
  | .or => some .and
  | .and => some .equality
  | .equality => some .comparison
  | .comparison => some .term
  | .term => some .factor
  | .factor => none

def join : Level → Token → Expr → Expr → Expr
  | .or, op, left, right => .logical op left right
  | .and, op, left, right => .logical op left right
  | _, op, left, right => .binary op left right

/-- How many levels are as tight or tighter; below the tightest there are none. -/
def rank : Option Level → Nat
  | some .or => 6
  | some .and => 5
  | some .equality => 4
  | some .comparison => 3
  | some .term => 2
  | some .factor => 1
  | none => 0

theorem rank_tighter_lt (l : Level) : rank l.tighter < rank (some l) := by
  cases l <;> decide

theorem rank_le_six (l : Option Level) : rank l ≤ 6 := by
  rcases l with _ | l
  · decide
  · cases l <;> decide

end Level

def expect (kind : Kind) (problem : Problem) (ts : List Token) : Outcome Token :=
  match ts with
  | t :: rest => if t.kind = kind then .ok t [] rest else .stopped [] ⟨t :: rest, problem⟩
  | [] => .stopped [] ⟨[], problem⟩

/-- The outcome once `equal` and a value have been read after `target`. -/
def assignTo (target : Expr) (equal : List Token) (value : Expr) (rest : List Token) : Outcome Expr :=
  match target with
  | .var name => .ok (.assign name value) [] rest
  | _ => .ok target [⟨equal, .assignmentTarget⟩] rest

namespace Reading

def expect (kind : Kind) (problem : Problem) (ts : List Token) : Reading true ts Token :=
  ⟨Grammar.expect kind problem ts, by
    unfold Grammar.expect
    repeat' split
    · exact ⟨List.suffix_cons _ _, fun _ => Nat.lt_succ_self _⟩
    · exact List.suffix_refl _
    · exact List.suffix_refl _⟩

def assignTo (target : Expr) (equal : List Token) (value : Expr) (rest : List Token) :
    Reading false rest Expr :=
  ⟨Grammar.assignTo target equal value rest, by
    unfold Grammar.assignTo
    split <;> exact ⟨List.suffix_refl _, nofun⟩⟩

mutual

def assignment (ts : List Token) : Reading true ts Expr :=
  (tier (some .or) ts).andThen fun target rest _ shorter =>
    match rest, shorter with
    | equal :: after, _ =>
      if equal.kind = .equal then
        ((assignment after).andThen fun value left _ _ =>
          assignTo target (equal :: after) value left).past equal
      else ok target (equal :: after)
    | [], _ => ok target []
termination_by 10 * ts.length + 9
decreasing_by
  · have := Level.rank_le_six (some .or)
    omega
  · have := ‹true = true → _› rfl
    simp only [List.length_cons] at this
    omega

/-- Reads at a level, or below all levels. -/
def tier (level : Option Level) (ts : List Token) : Reading true ts Expr :=
  match level with
  | some level => (tier level.tighter ts).andThen fun left rest _ _ => chain level left rest
  | none => unary ts
termination_by 10 * ts.length + Level.rank level + 2
decreasing_by
  · have := Level.rank_tighter_lt level
    omega
  · rename_i shorter
    have := shorter rfl
    omega
  · simp only [Level.rank]
    omega

/-- Goes on with operators of the level and their right operands. -/
def chain (level : Level) (left : Expr) (ts : List Token) : Reading false ts Expr :=
  match ts with
  | op :: rest =>
    if level.hasOperator op.kind then
      ((tier level.tighter rest).andThen fun right after _ _ =>
        chain level (level.join op left right) after).past op
    else ok left (op :: rest)
  | [] => ok left []
termination_by 10 * ts.length
decreasing_by
  · have := Level.rank_le_six level.tighter
    simp only [List.length_cons]
    omega
  · rename_i shorter
    have := shorter rfl
    simp only [List.length_cons]
    omega

def unary (ts : List Token) : Reading true ts Expr :=
  match ts with
  | op :: rest =>
    if op.kind = .bang || op.kind = .minus then ((unary rest).map (.unary op)).past op
    else primary (op :: rest)
  | [] => primary []
termination_by 10 * ts.length + 1
decreasing_by all_goals simp only [List.length_cons, List.length_nil]; omega

def primary (ts : List Token) : Reading true ts Expr :=
  match ts with
  | t :: rest =>
    match t.kind with
    | .kwFalse => (ok (.literal (.boolean false)) rest).past t
    | .kwTrue => (ok (.literal (.boolean true)) rest).past t
    | .kwNil => (ok (.literal .nil) rest).past t
    | .number | .string => (ok (.literal (t.literal.getD .nil)) rest).past t
    | .identifier => (ok (.var t) rest).past t
    | .leftParen =>
      ((assignment rest).andThen fun inner after _ _ =>
        (expect .rightParen .afterGrouping after).map fun _ => .grouping inner).past t
    | _ => stop .expression (t :: rest)
  | [] => stop .expression []
termination_by 10 * ts.length
decreasing_by
  simp only [List.length_cons]
  omega

end

end Reading

def expression (ts : List Token) : Outcome Expr := (Reading.assignment ts).val

def tier (level : Option Level) (ts : List Token) : Outcome Expr := (Reading.tier level ts).val

def chain (level : Level) (left : Expr) (ts : List Token) : Outcome Expr :=
  (Reading.chain level left ts).val

def unary (ts : List Token) : Outcome Expr := (Reading.unary ts).val

def primary (ts : List Token) : Outcome Expr := (Reading.primary ts).val

theorem expect_within (kind : Kind) (problem : Problem) (ts : List Token) :
    (expect kind problem ts).Within true ts :=
  (Reading.expect kind problem ts).property

theorem expression_within (ts : List Token) : (expression ts).Within true ts :=
  (Reading.assignment ts).property

theorem expression_eq (ts : List Token) :
    expression ts = (tier (some .or) ts).andThen fun target rest =>
      match rest with
      | equal :: after =>
        if equal.kind = .equal then
          (expression after).andThen fun value left => assignTo target (equal :: after) value left
        else .ok target [] (equal :: after)
      | [] => .ok target [] [] := by
  rw [expression, Reading.assignment]
  refine Reading.val_andThen fun target rest _ shorter => ?_
  rcases rest with _ | ⟨equal, after⟩
  · rfl
  · by_cases h : equal.kind = .equal
    · simp only [h, ↓reduceIte, Reading.val_past]
      exact Reading.val_andThen fun _ _ _ _ => rfl
    · simp only [h, ↓reduceIte, Reading.val_ok]

theorem tier_none (ts : List Token) : tier none ts = unary ts := by
  rw [tier, Reading.tier, unary]

theorem tier_some (level : Level) (ts : List Token) :
    tier (some level) ts = (tier level.tighter ts).andThen fun left rest => chain level left rest := by
  rw [tier, Reading.tier]
  exact Reading.val_andThen fun _ _ _ _ => rfl

theorem chain_nil (level : Level) (left : Expr) : chain level left [] = .ok left [] [] := by
  rw [chain, Reading.chain, Reading.val_ok]

theorem chain_cons (level : Level) (left : Expr) (op : Token) (rest : List Token) :
    chain level left (op :: rest) =
      if level.hasOperator op.kind then
        (tier level.tighter rest).andThen fun right after =>
          chain level (level.join op left right) after
      else .ok left [] (op :: rest) := by
  rw [chain, Reading.chain]
  split
  · rw [Reading.val_past]
    exact Reading.val_andThen fun _ _ _ _ => rfl
  · rfl

theorem unary_nil : unary [] = primary [] := by
  rw [unary, Reading.unary, primary]

theorem unary_cons (op : Token) (rest : List Token) :
    unary (op :: rest) =
      if op.kind = .bang || op.kind = .minus then (unary rest).map (.unary op)
      else primary (op :: rest) := by
  rw [unary, Reading.unary]
  split <;> rfl

theorem primary_nil : primary [] = .stopped [] ⟨[], .expression⟩ := by
  rw [primary, Reading.primary, Reading.val_stop]

theorem primary_cons (t : Token) (rest : List Token) :
    primary (t :: rest) =
      match t.kind with
      | .kwFalse => .ok (.literal (.boolean false)) [] rest
      | .kwTrue => .ok (.literal (.boolean true)) [] rest
      | .kwNil => .ok (.literal .nil) [] rest
      | .number | .string => .ok (.literal (t.literal.getD .nil)) [] rest
      | .identifier => .ok (.var t) [] rest
      | .leftParen => (expression rest).andThen fun inner after =>
        (expect .rightParen .afterGrouping after).map fun _ => .grouping inner
      | _ => .stopped [] ⟨t :: rest, .expression⟩ := by
  rw [primary, Reading.primary]
  split <;> try rfl
  rw [Reading.val_past]
  exact Reading.val_andThen fun _ _ _ _ => rfl

end Lox.Grammar
