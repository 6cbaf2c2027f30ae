import Lox.Program

set_option autoImplicit false

namespace Lox.Syntax

inductive Phrase where
  | assignment | logicOr | logicAnd | equality | comparison | term | factor | unary | primary
  deriving DecidableEq, Repr

inductive Spells : Phrase → List Token → Expr → Prop where
  | assign {name equal : Token} {ts : List Token} {value : Expr} :
      name.kind = .identifier → equal.kind = .equal → Spells .assignment ts value →
      Spells .assignment (name :: equal :: ts) (.assign name value)
  | ofLogicOr {ts : List Token} {e : Expr} : Spells .logicOr ts e → Spells .assignment ts e
  | logicOr {ls rs : List Token} {op : Token} {l r : Expr} :
      Spells .logicOr ls l → op.kind = .kwOr → Spells .logicAnd rs r →
      Spells .logicOr (ls ++ op :: rs) (.logical op l r)
  | ofLogicAnd {ts : List Token} {e : Expr} : Spells .logicAnd ts e → Spells .logicOr ts e
  | logicAnd {ls rs : List Token} {op : Token} {l r : Expr} :
      Spells .logicAnd ls l → op.kind = .kwAnd → Spells .equality rs r →
      Spells .logicAnd (ls ++ op :: rs) (.logical op l r)
  | ofEquality {ts : List Token} {e : Expr} : Spells .equality ts e → Spells .logicAnd ts e
  | equality {ls rs : List Token} {op : Token} {l r : Expr} :
      Spells .equality ls l → op.kind ∈ [.bangEqual, .equalEqual] → Spells .comparison rs r →
      Spells .equality (ls ++ op :: rs) (.binary op l r)
  | ofComparison {ts : List Token} {e : Expr} : Spells .comparison ts e → Spells .equality ts e
  | comparison {ls rs : List Token} {op : Token} {l r : Expr} :
      Spells .comparison ls l → op.kind ∈ [.greater, .greaterEqual, .less, .lessEqual] →
      Spells .term rs r → Spells .comparison (ls ++ op :: rs) (.binary op l r)
  | ofTerm {ts : List Token} {e : Expr} : Spells .term ts e → Spells .comparison ts e
  | term {ls rs : List Token} {op : Token} {l r : Expr} :
      Spells .term ls l → op.kind ∈ [.minus, .plus] → Spells .factor rs r →
      Spells .term (ls ++ op :: rs) (.binary op l r)
  | ofFactor {ts : List Token} {e : Expr} : Spells .factor ts e → Spells .term ts e
  | factor {ls rs : List Token} {op : Token} {l r : Expr} :
      Spells .factor ls l → op.kind ∈ [.slash, .star] → Spells .unary rs r →
      Spells .factor (ls ++ op :: rs) (.binary op l r)
  | ofUnary {ts : List Token} {e : Expr} : Spells .unary ts e → Spells .factor ts e
  | unary {op : Token} {ts : List Token} {e : Expr} :
      op.kind ∈ [.bang, .minus] → Spells .unary ts e → Spells .unary (op :: ts) (.unary op e)
  | ofPrimary {ts : List Token} {e : Expr} : Spells .primary ts e → Spells .unary ts e
  | literal {t : Token} :
      t.kind ∈ [.number, .string] → Spells .primary [t] (.literal (t.literal.getD .nil))
  | truth {t : Token} : t.kind = .kwTrue → Spells .primary [t] (.literal (.boolean true))
  | falsity {t : Token} : t.kind = .kwFalse → Spells .primary [t] (.literal (.boolean false))
  | nothing {t : Token} : t.kind = .kwNil → Spells .primary [t] (.literal .nil)
  | variable {t : Token} : t.kind = .identifier → Spells .primary [t] (.var t)
  | grouping {left right : Token} {ts : List Token} {e : Expr} :
      left.kind = .leftParen → Spells .assignment ts e → right.kind = .rightParen →
      Spells .primary (left :: ts ++ [right]) (.grouping e)

inductive Optional : List Token → Option Expr → Prop where
  | absent : Optional [] none
  | present {ts : List Token} {e : Expr} : Spells .assignment ts e → Optional ts (some e)

inductive Variable : List Token → Stmt → Prop where
  | bare {word name stop : Token} :
      word.kind = .kwVar → name.kind = .identifier → stop.kind = .semicolon →
      Variable [word, name, stop] (.declare name none)
  | initialized {word name equal stop : Token} {ts : List Token} {e : Expr} :
      word.kind = .kwVar → name.kind = .identifier → equal.kind = .equal → Spells .assignment ts e →
      stop.kind = .semicolon →
      Variable (word :: name :: equal :: ts ++ [stop]) (.declare name (some e))

inductive Simple : List Token → Stmt → Prop where
  | expression {stop : Token} {ts : List Token} {e : Expr} :
      Spells .assignment ts e → stop.kind = .semicolon → Simple (ts ++ [stop]) (.expression e)

inductive Initial : List Token → Option Stmt → Prop where
  | absent {stop : Token} : stop.kind = .semicolon → Initial [stop] none
  | variable {ts : List Token} {s : Stmt} : Variable ts s → Initial ts (some s)
  | simple {ts : List Token} {s : Stmt} : Simple ts s → Initial ts (some s)

inductive Condition : List Token → Expr → Prop where
  | parenthesized {left right : Token} {ts : List Token} {e : Expr} :
      left.kind = .leftParen → Spells .assignment ts e → right.kind = .rightParen →
      Condition (left :: ts ++ [right]) e

inductive Header : List Token → Option Stmt → Option Expr → Option Expr → Prop where
  | parenthesized {left stop right : Token} {is cs ss : List Token} {initial : Option Stmt}
      {condition step : Option Expr} :
      left.kind = .leftParen → Initial is initial → Optional cs condition →
      stop.kind = .semicolon → Optional ss step → right.kind = .rightParen →
      Header (left :: is ++ cs ++ stop :: ss ++ [right]) initial condition step

/-- The loop that a `for` stands for, once its condition is settled. -/
def expansion : Option Stmt → Expr → Option Expr → Stmt → Stmt
  | none, c, none, body => .loop c body
  | none, c, some step, body => .loop c (.block [body, .expression step])
  | some s, c, none, body => .block [s, .loop c body]
  | some s, c, some step, body => .block [s, .loop c (.block [body, .expression step])]

/-- Which of the `if`s before it that lack an `else` an `else` may belong to. -/
inductive ElseRule where
  | any | nearest
  deriving DecidableEq, Repr

mutual

/-- The flag tells whether the statement ends with an `if` that lacks an `else`. -/
inductive Statement (rule : ElseRule) : Bool → List Token → Stmt → Prop where
  | ifThen {word : Token} {cs bs : List Token} {c : Expr} {body : Stmt} {dangling : Bool} :
      word.kind = .kwIf → Condition cs c → Statement rule dangling bs body →
      Statement rule true (word :: cs ++ bs) (.ifThen c body)
  | ifElse {word other : Token} {cs bs os : List Token} {c : Expr} {body otherwise : Stmt}
      {inner dangling : Bool} :
      word.kind = .kwIf → Condition cs c → Statement rule inner bs body →
      (rule = .nearest → inner = false) → other.kind = .kwElse →
      Statement rule dangling os otherwise →
      Statement rule dangling (word :: cs ++ bs ++ other :: os) (.ifElse c body otherwise)
  | loop {word : Token} {cs bs : List Token} {c : Expr} {body : Stmt} {dangling : Bool} :
      word.kind = .kwWhile → Condition cs c → Statement rule dangling bs body →
      Statement rule dangling (word :: cs ++ bs) (.loop c body)
  | counting {word : Token} {cs bs : List Token} {initial : Option Stmt} {c step : Option Expr}
      {body : Stmt} {dangling : Bool} :
      word.kind = .kwFor → Header cs initial c step → Statement rule dangling bs body →
      Statement rule dangling (word :: cs ++ bs)
        (expansion initial (c.getD (.literal (.boolean true))) step body)
  | print {word stop : Token} {ts : List Token} {e : Expr} :
      word.kind = .kwPrint → Spells .assignment ts e → stop.kind = .semicolon →
      Statement rule false (word :: ts ++ [stop]) (.print e)
  | block {left right : Token} {ts : List Token} {body : List Stmt} :
      left.kind = .leftBrace → Declarations rule ts body → right.kind = .rightBrace →
      Statement rule false (left :: ts ++ [right]) (.block body)
  | simple {ts : List Token} {s : Stmt} : Simple ts s → Statement rule false ts s

inductive Declarations (rule : ElseRule) : List Token → List Stmt → Prop where
  | nil : Declarations rule [] []
  | variable {ts us : List Token} {s : Stmt} {body : List Stmt} :
      Variable ts s → Declarations rule us body → Declarations rule (ts ++ us) (s :: body)
  | statement {ts us : List Token} {s : Stmt} {body : List Stmt} {dangling : Bool} :
      Statement rule dangling ts s → Declarations rule us body →
      Declarations rule (ts ++ us) (s :: body)

end

end Lox.Syntax
