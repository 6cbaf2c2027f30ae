import Lox.Proofs.Soundness

set_option autoImplicit false

namespace Lox.Grammar

open Syntax

@[simp] theorem current_cons (t : Token) (ts : List Token) : current (t :: ts) = t := rfl

theorem Level.operator_unique {level l : Level} {kind : Kind} (h : level.hasOperator kind)
    (hl : l.hasOperator kind) : l = level := by
  cases level <;> cases l <;> simp_all [hasOperator] <;> grind

/-- No operator of the level or a tighter one comes next. -/
def Ends (level : Option Level) (rest : List Token) : Prop :=
  ∀ l : Level, Level.rank (some l) ≤ Level.rank level → l.hasOperator (current rest).kind = false

theorem Ends.tighter {level : Level} {rest : List Token} (h : Ends (some level) rest) :
    Ends level.tighter rest := by
  intro l hl
  have hr := Level.rank_tighter_lt level
  exact h l (by omega)

theorem ends_of_operator {level : Level} {op : Token} (h : level.hasOperator op.kind)
    (rest : List Token) : Ends level.tighter (op :: rest) := by
  intro l hl
  have hr := Level.rank_tighter_lt level
  cases ho : l.hasOperator op.kind with
  | false => exact ho
  | true =>
    have heq := Level.operator_unique h ho
    subst heq
    omega

theorem chain_of_ends {level : Level} {rest : List Token} (h : Ends (some level) rest) (e : Expr) :
    chain level e rest = .ok e [] rest := by
  cases rest with
  | nil => exact chain_nil level e
  | cons op after =>
    have ho : level.hasOperator op.kind = false := h level (Nat.le_refl _)
    rw [chain_cons, ho]
    rfl

/-- The tokens are read as the phrase, whatever follows them.  At a level, reading then goes on with the
operators of that level. -/
def Reads : Phrase → List Token → Expr → Prop
  | .assignment, ts, e => ∀ rest, (current rest).kind ≠ .equal → Ends (some .or) rest →
      expression (ts ++ rest) = .ok e [] rest
  | .logicOr, ts, e => ∀ rest, Ends (some .and) rest → tier (some .or) (ts ++ rest) = chain .or e rest
  | .logicAnd, ts, e => ∀ rest, Ends (some .equality) rest →
      tier (some .and) (ts ++ rest) = chain .and e rest
  | .equality, ts, e => ∀ rest, Ends (some .comparison) rest →
      tier (some .equality) (ts ++ rest) = chain .equality e rest
  | .comparison, ts, e => ∀ rest, Ends (some .term) rest →
      tier (some .comparison) (ts ++ rest) = chain .comparison e rest
  | .term, ts, e => ∀ rest, Ends (some .factor) rest →
      tier (some .term) (ts ++ rest) = chain .term e rest
  | .factor, ts, e => ∀ rest, Ends none rest → tier (some .factor) (ts ++ rest) = chain .factor e rest
  | .unary, ts, e | .primary, ts, e => ∀ rest, unary (ts ++ rest) = .ok e [] rest

theorem reads_phrase {level : Level} {ts : List Token} {e : Expr} :
    Reads (Level.phrase (some level)) ts e ↔ ∀ rest, Ends level.tighter rest →
      tier (some level) (ts ++ rest) = chain level e rest := by
  cases level <;> exact Iff.rfl

theorem tier_of_reads (level : Option Level) {ts rest : List Token} {e : Expr}
    (h : Reads (Level.phrase level) ts e) (hr : Ends level rest) :
    tier level (ts ++ rest) = .ok e [] rest := by
  cases level with
  | none => rw [tier_none, h rest]
  | some level => rw [reads_phrase.mp h rest hr.tighter, chain_of_ends hr]

theorem reads_of_tighter (level : Level) {ts : List Token} {e : Expr}
    (h : Reads (Level.phrase level.tighter) ts e) : Reads (Level.phrase (some level)) ts e := by
  rw [reads_phrase]
  intro rest hr
  rw [tier_some, tier_of_reads _ h hr, Outcome.andThen_ok, Outcome.after_nil]

theorem reads_join (level : Level) {op : Token} {ls rs : List Token} {l r : Expr}
    (hl : Reads (Level.phrase (some level)) ls l) (ho : level.hasOperator op.kind)
    (hr : Reads (Level.phrase level.tighter) rs r) :
    Reads (Level.phrase (some level)) (ls ++ op :: rs) (level.join op l r) := by
  rw [reads_phrase] at hl ⊢
  intro rest hrest
  have hop := hl (op :: (rs ++ rest)) (ends_of_operator ho _)
  rw [List.append_assoc, List.cons_append, hop, chain_cons, if_pos ho, tier_of_reads _ hr hrest,
    Outcome.andThen_ok, Outcome.after_nil]

theorem reads_tier {ts : List Token} {e : Expr} (h : Reads .unary ts e) :
    Reads .logicOr ts e :=
  reads_of_tighter .or <| reads_of_tighter .and <| reads_of_tighter .equality <|
    reads_of_tighter .comparison <| reads_of_tighter .term <| reads_of_tighter .factor h

theorem reads_single {t : Token} {e : Expr} (hb : t.kind ≠ .bang) (hm : t.kind ≠ .minus)
    (h : ∀ rest, primary (t :: rest) = .ok e [] rest) : Reads .primary [t] e := by
  intro rest
  simp [unary_cons, hb, hm, h]

theorem reads_variable {t : Token} (h : t.kind = .identifier) : Reads .primary [t] (.var t) :=
  reads_single (by simp [h]) (by simp [h]) fun rest => by simp [primary_cons, h]

theorem ends_of_kind {t : Token} (h : ∀ l : Level, l.hasOperator t.kind = false) (level : Option Level)
    (rest : List Token) : Ends level (t :: rest) :=
  fun l _ => h l

theorem expression_of_reads {ts : List Token} {e : Expr} (h : Reads .assignment ts e) {t : Token}
    (ht : t.kind = .semicolon ∨ t.kind = .rightParen) (rest : List Token) :
    expression (ts ++ t :: rest) = .ok e [] (t :: rest) := by
  refine h (t :: rest) ?_ (ends_of_kind (fun l => ?_) _ rest)
  · rcases ht with ht | ht <;> simp [ht]
  · rcases ht with ht | ht <;> cases l <;> simp [ht, Level.hasOperator]

theorem spells_reads {p : Phrase} {ts : List Token} {e : Expr} (h : Spells p ts e) : Reads p ts e := by
  induction h with
  | @assign name equal ts value hn he _ ih =>
    intro rest hq hends
    have hequal : Ends (some .or) (equal :: (ts ++ rest)) :=
      ends_of_kind (fun l => by cases l <;> simp [he, Level.hasOperator]) _ _
    have hname := tier_of_reads (some .or) (reads_tier (reads_variable hn)) hequal
    rw [List.cons_append, List.cons_append, expression_eq, ← List.singleton_append, hname]
    simp [he, ih rest hq hends, assignTo]
  | @ofLogicOr ts e _ ih =>
    intro rest hq hends
    rw [expression_eq, tier_of_reads (some .or) ih hends]
    cases rest with
    | nil => rfl
    | cons t after =>
      have ht : t.kind ≠ .equal := hq
      simp [ht]
  | logicOr _ ho _ hl hr => exact reads_join .or hl (by simp [ho, Level.hasOperator]) hr
  | logicAnd _ ho _ hl hr => exact reads_join .and hl (by simp [ho, Level.hasOperator]) hr
  | equality _ ho _ hl hr => exact reads_join .equality hl (by simpa [Level.hasOperator] using ho) hr
  | comparison _ ho _ hl hr =>
    exact reads_join .comparison hl (by simpa [Level.hasOperator, or_assoc] using ho) hr
  | term _ ho _ hl hr => exact reads_join .term hl (by simpa [Level.hasOperator] using ho) hr
  | factor _ ho _ hl hr => exact reads_join .factor hl (by simpa [Level.hasOperator] using ho) hr
  | ofLogicAnd _ ih => exact reads_of_tighter .or ih
  | ofEquality _ ih => exact reads_of_tighter .and ih
  | ofComparison _ ih => exact reads_of_tighter .equality ih
  | ofTerm _ ih => exact reads_of_tighter .comparison ih
  | ofFactor _ ih => exact reads_of_tighter .term ih
  | ofUnary _ ih => exact reads_of_tighter .factor ih
  | unary ho _ ih =>
    intro rest
    rw [List.cons_append, unary_cons, if_pos (by simpa using ho), ih rest, Outcome.map_ok]
  | ofPrimary _ ih => exact ih
  | @literal t ht =>
    have hk : t.kind = .number ∨ t.kind = .string := by simpa using ht
    rcases hk with hk | hk
    all_goals exact reads_single (by simp [hk]) (by simp [hk]) fun rest => by simp [primary_cons, hk]
  | truth hk | falsity hk | nothing hk =>
    exact reads_single (by simp [hk]) (by simp [hk]) fun rest => by simp [primary_cons, hk]
  | «variable» hk => exact reads_variable hk
  | grouping hl _ hr ih =>
    intro rest
    have hclose := expression_of_reads ih (.inr hr) rest
    simp [unary_cons, primary_cons, hl, hclose, expect_cons hr]

theorem expression_complete {ts : List Token} {e : Expr} (h : Spells .assignment ts e) {t : Token}
    (ht : t.kind = .semicolon ∨ t.kind = .rightParen) (rest : List Token) :
    expression (ts ++ t :: rest) = .ok e [] (t :: rest) :=
  expression_of_reads (spells_reads h) ht rest

def startsExpression (kind : Kind) : Bool :=
  kind ∈ [.bang, .minus, .number, .string, .kwTrue, .kwFalse, .kwNil, .identifier, .leftParen]

theorem spells_head {p : Phrase} {ts : List Token} {e : Expr} (h : Spells p ts e) :
    ∃ t us, ts = t :: us ∧ startsExpression t.kind := by
  induction h with
  | assign hn _ _ _ => exact ⟨_, _, rfl, by simp [startsExpression, hn]⟩
  | ofLogicOr _ ih | ofLogicAnd _ ih | ofEquality _ ih | ofComparison _ ih | ofTerm _ ih
  | ofFactor _ ih | ofUnary _ ih | ofPrimary _ ih => exact ih
  | logicOr _ _ _ ih _ | logicAnd _ _ _ ih _ | equality _ _ _ ih _ | comparison _ _ _ ih _
  | term _ _ _ ih _ | factor _ _ _ ih _ =>
    obtain ⟨t, us, rfl, ht⟩ := ih
    exact ⟨t, _, rfl, ht⟩
  | unary ho _ _ =>
    refine ⟨_, _, rfl, ?_⟩
    simp only [List.mem_cons, List.not_mem_nil, or_false] at ho
    rcases ho with ho | ho <;> simp [startsExpression, ho]
  | literal ht =>
    refine ⟨_, _, rfl, ?_⟩
    simp only [List.mem_cons, List.not_mem_nil, or_false] at ht
    rcases ht with ht | ht <;> simp [startsExpression, ht]
  | truth hk | falsity hk | nothing hk | «variable» hk => exact ⟨_, _, rfl, by simp [startsExpression, hk]⟩
  | grouping hl _ _ _ => exact ⟨_, _, rfl, by simp [startsExpression, hl]⟩

theorem simple_complete {ts : List Token} {s : Stmt} (h : Simple ts s) (rest : List Token) :
    simple (ts ++ rest) = .ok s [] rest := by
  cases h with
  | expression he hs =>
    have := expression_complete he (.inl hs) rest
    simp [simple, this, expect_cons hs]

theorem simple_head {ts : List Token} {s : Stmt} (h : Simple ts s) :
    ∃ t us, ts = t :: us ∧ startsExpression t.kind := by
  cases h with
  | expression he _ =>
    obtain ⟨t, us, rfl, ht⟩ := spells_head he
    exact ⟨t, _, rfl, ht⟩

theorem variable_head {ts : List Token} {s : Stmt} (h : Variable ts s) :
    ∃ t us, ts = t :: us ∧ t.kind = .kwVar := by
  cases h with
  | bare hw _ _ => exact ⟨_, _, rfl, hw⟩
  | initialized hw _ _ _ _ => exact ⟨_, _, rfl, hw⟩

theorem variableAfter_complete {word : Token} {ts : List Token} {s : Stmt}
    (h : Variable (word :: ts) s) (rest : List Token) : variableAfter (ts ++ rest) = .ok s [] rest := by
  cases h with
  | bare _ hn hs => simp [variableAfter, initializer, expect_cons hn, expect_cons hs, hs]
  | initialized _ hn hq he hs =>
    have := expression_complete he (.inl hs) rest
    simp [variableAfter, initializer, expect_cons hn, hq, this, expect_cons hs]

theorem optional_complete {ts : List Token} {e : Option Expr} (h : Optional ts e) {t : Token}
    (ht : t.kind = .semicolon ∨ t.kind = .rightParen) (rest : List Token) :
    optional t.kind (ts ++ t :: rest) = .ok e [] (t :: rest) := by
  cases h with
  | absent => simp [optional]
  | present he =>
    obtain ⟨u, us, rfl, hu⟩ := spells_head he
    have hne : u.kind ≠ t.kind := by
      intro heq
      rw [heq] at hu
      rcases ht with ht | ht <;> simp [startsExpression, ht] at hu
    have := expression_complete he ht rest
    rw [List.cons_append] at this ⊢
    simp [optional, hne, this]

theorem condition_complete {ts : List Token} {e : Expr} (h : Condition ts e) (before after : Problem)
    (rest : List Token) : condition before after (ts ++ rest) = .ok e [] rest := by
  cases h with
  | parenthesized hl he hr =>
    have := expression_complete he (.inr hr) rest
    simp [condition, expect_cons hl, this, expect_cons hr]

theorem initialClause_complete {ts : List Token} {initial : Option Stmt} (h : Initial ts initial)
    (rest : List Token) : initialClause (ts ++ rest) = .ok initial [] rest := by
  cases h with
  | absent hs => simp [initialClause, hs]
  | «variable» hv =>
    obtain ⟨word, us, rfl, hw⟩ := variable_head hv
    simp [initialClause, hw, variableAfter_complete hv rest]
  | simple hs =>
    have hcomplete := simple_complete hs rest
    obtain ⟨u, us, rfl, hu⟩ := simple_head hs
    have hsemi : u.kind ≠ .semicolon := by
      intro heq
      simp [startsExpression, heq] at hu
    have hvar : u.kind ≠ .kwVar := by
      intro heq
      simp [startsExpression, heq] at hu
    rw [List.cons_append] at hcomplete ⊢
    simp [initialClause, hsemi, hvar, hcomplete]

theorem clauses_complete {ts : List Token} {initial : Option Stmt} {c step : Option Expr}
    (h : Header ts initial c step) (rest : List Token) :
    clauses (ts ++ rest) = .ok ⟨initial, c, step⟩ [] rest := by
  obtain ⟨hl, hi, hc, hs, ht, hr⟩ := h
  have hoc := fun us => optional_complete hc (.inl hs) us
  have hot := fun us => optional_complete ht (.inr hr) us
  simp only [hs, hr] at hoc hot
  simp [clauses, expect_cons hl, initialClause_complete hi, hoc, expect_cons hs, hot, expect_cons hr]

def startsDeclaration (kind : Kind) : Bool :=
  startsExpression kind || kind ∈ [.kwVar, .kwIf, .kwWhile, .kwFor, .kwPrint, .leftBrace]

theorem statement_head {rule : ElseRule} {dangling : Bool} {ts : List Token} {s : Stmt}
    (h : Statement rule dangling ts s) :
    ∃ t us, ts = t :: us ∧ startsDeclaration t.kind ∧ t.kind ≠ .kwVar := by
  cases h with
  | ifThen hw _ _ | ifElse hw _ _ _ _ _ | loop hw _ _ | counting hw _ _ | print hw _ _
  | block hw _ _ => exact ⟨_, _, rfl, by simp [startsDeclaration, hw], by simp [hw]⟩
  | simple hs =>
    obtain ⟨t, us, rfl, ht⟩ := simple_head hs
    refine ⟨t, us, rfl, by simp [startsDeclaration, ht], ?_⟩
    intro heq
    simp [startsExpression, heq] at ht

theorem declarations_head {rule : ElseRule} {ts : List Token} {body : List Stmt}
    (h : Declarations rule ts body) {rest : List Token} (hr : (current rest).kind ≠ .kwElse) :
    (current (ts ++ rest)).kind ≠ .kwElse := by
  cases h with
  | nil => exact hr
  | «variable» hv _ =>
    obtain ⟨t, us, rfl, ht⟩ := variable_head hv
    simp [ht]
  | statement hs _ =>
    obtain ⟨t, us, rfl, ht, -⟩ := statement_head hs
    intro heq
    simp only [List.cons_append, current_cons] at heq
    simp [startsDeclaration, startsExpression, heq] at ht

theorem declarations_step (inBlock : Bool) {t : Token} {us rest : List Token} {s : Stmt}
    (ht : startsDeclaration t.kind)
    (h : (if t.kind = .kwVar then variableAfter us else statement (t :: us)) = .ok s [] rest) :
    declarations inBlock (t :: us) = (declarations inBlock rest).map (s :: ·) := by
  have hend : ¬(t.kind = .eof ∨ (inBlock = true ∧ t.kind = .rightBrace)) := by
    intro hend
    rcases hend with heq | ⟨-, heq⟩ <;> simp [startsDeclaration, startsExpression, heq] at ht
  rw [declarations_cons, if_neg hend, declaration, h]
  simp [Outcome.recovered]

mutual

theorem statement_complete {dangling : Bool} {ts : List Token} {s : Stmt} :
    Statement .nearest dangling ts s → ∀ rest, (dangling = true → (current rest).kind ≠ .kwElse) →
    statement (ts ++ rest) = .ok s [] rest
  | .ifThen hw hc hb, rest, hd => by
    have hbody := statement_complete hb rest fun _ => hd rfl
    cases rest with
    | nil => simp_all [statement_cons, condition_complete hc, alternative]
    | cons t after =>
      have ht : t.kind ≠ .kwElse := hd rfl
      simp [statement_cons, hw, condition_complete hc, hbody, alternative, ht]
  | @Statement.ifElse _ word other cs bs os c body otherwise inner dangling hw hc hb hi ho hos, rest, hd => by
    have hbody := statement_complete hb (other :: os ++ rest) (by simp [hi rfl])
    rw [List.cons_append] at hbody
    simp [statement_cons, hw, condition_complete hc, hbody, alternative, ho,
      statement_complete hos rest hd]
  | .loop hw hc hb, rest, hd => by
    simp [statement_cons, hw, condition_complete hc, statement_complete hb rest hd]
  | .counting hw hc hb, rest, hd => by
    simp [statement_cons, hw, clauses_complete hc, statement_complete hb rest hd, expansion_eq]
  | .print hw he hs, rest, _ => by
    simp [statement_cons, hw, printed, expression_complete he (.inl hs), expect_cons hs]
  | @Statement.block _ left right us body hl hb hr, rest, _ => by
    have hclose : declarations true (right :: rest) = .ok [] [] (right :: rest) := by
      simp [declarations_cons, hr]
    have hbody := declarations_complete hb true (right :: rest) (by simp [hr])
    rw [hclose, Outcome.map_ok, List.append_nil] at hbody
    simp [statement_cons, hl, hbody, expect_cons hr]
  | .simple hs, rest, _ => by
    have hcomplete := simple_complete hs rest
    obtain ⟨t, us, rfl, ht⟩ := simple_head hs
    rw [List.cons_append] at hcomplete ⊢
    rw [statement_cons]
    cases hk : t.kind with
    | kwIf | kwWhile | kwFor | kwPrint | leftBrace => simp [startsExpression, hk] at ht
    | _ => exact hcomplete

/-- After declarations, what follows is read as if it stood alone. -/
theorem declarations_complete {ts : List Token} {body : List Stmt} :
    Declarations .nearest ts body → ∀ inBlock rest, (current rest).kind ≠ .kwElse →
    declarations inBlock (ts ++ rest) = (declarations inBlock rest).map (body ++ ·)
  | .nil, inBlock, rest, _ => by
    obtain ⟨later, faults, left, h⟩ := declarations_eq_ok inBlock rest
    simp [h]
  | @Declarations.variable _ us vs s later hv hb, inBlock, rest, hr => by
    have hlater := declarations_complete hb inBlock rest hr
    obtain ⟨t, us, rfl, ht⟩ := variable_head hv
    have hfirst := variableAfter_complete hv (vs ++ rest)
    have hstep := declarations_step inBlock (t := t) (s := s) (by simp [startsDeclaration, ht])
      (by simpa [ht] using hfirst)
    rw [List.append_assoc, List.cons_append, hstep, hlater, Outcome.map_map]
    rfl
  | @Declarations.statement _ us vs s later dangling hs hb, inBlock, rest, hr => by
    have hlater := declarations_complete hb inBlock rest hr
    have hfirst := statement_complete hs (vs ++ rest) fun _ => declarations_head hb hr
    obtain ⟨t, us, rfl, ht, hv⟩ := statement_head hs
    have hstep := declarations_step inBlock (t := t) (s := s) ht (by simpa [hv] using hfirst)
    rw [List.append_assoc, List.cons_append, hstep, hlater, Outcome.map_map]
    rfl

end

end Lox.Grammar
