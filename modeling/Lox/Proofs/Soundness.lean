import Lox.Proofs.Descent
import Lox.Proofs.Syntax

/-!
What is read without fault is a phrase of the grammar, and the tree that comes out is the tree of its
derivation.
-/

set_option autoImplicit false

namespace Lox.Grammar

open Syntax

def Level.phrase : Option Level → Phrase
  | some .or => .logicOr
  | some .and => .logicAnd
  | some .equality => .equality
  | some .comparison => .comparison
  | some .term => .term
  | some .factor => .factor
  | none => .unary

theorem spells_of_tighter (level : Level) {ts : List Token} {e : Expr}
    (h : Spells (Level.phrase level.tighter) ts e) : Spells (Level.phrase (some level)) ts e := by
  cases level with
  | or => exact .ofLogicAnd h
  | and => exact .ofEquality h
  | equality => exact .ofComparison h
  | comparison => exact .ofTerm h
  | term => exact .ofFactor h
  | factor => exact .ofUnary h

theorem spells_join (level : Level) {op : Token} {ls rs : List Token} {l r : Expr}
    (hl : Spells (Level.phrase (some level)) ls l) (ho : level.hasOperator op.kind)
    (hr : Spells (Level.phrase level.tighter) rs r) :
    Spells (Level.phrase (some level)) (ls ++ op :: rs) (level.join op l r) := by
  cases level with
  | or => exact .logicOr hl (by simpa [Level.hasOperator] using ho) hr
  | and => exact .logicAnd hl (by simpa [Level.hasOperator] using ho) hr
  | equality => exact .equality hl (by simpa [Level.hasOperator] using ho) hr
  | comparison => exact .comparison hl (by simpa [Level.hasOperator, or_assoc] using ho) hr
  | term => exact .term hl (by simpa [Level.hasOperator] using ho) hr
  | factor => exact .factor hl (by simpa [Level.hasOperator] using ho) hr

/-- Only a bare name stands for a variable, so that a target is one. -/
theorem spells_var {p : Phrase} {ts : List Token} {name : Token} (h : Spells p ts (.var name)) :
    ts = [name] ∧ name.kind = .identifier := by
  generalize he : Expr.var name = e at h
  induction h with
  | «variable» hk =>
    cases he
    exact ⟨rfl, hk⟩
  | ofLogicOr _ ih | ofLogicAnd _ ih | ofEquality _ ih | ofComparison _ ih | ofTerm _ ih
  | ofFactor _ ih | ofUnary _ ih | ofPrimary _ ih => exact ih he
  | _ => cases he

/-- Where the outcome is without fault, what was consumed stands for the value. -/
def Faithful {α : Type} (R : List Token → α → Prop) (ts : List Token) (o : Outcome α) : Prop :=
  ∀ value rest, o = .ok value [] rest → ∃ used, ts = used ++ rest ∧ R used value

theorem primary_faithful (ts : List Token)
    (ih : ∀ us, us.length < ts.length → Faithful (Spells .assignment) us (expression us)) :
    Faithful (Spells .primary) ts (primary ts) := by
  intro e rest h
  cases ts with
  | nil => simp [primary_nil] at h
  | cons t after =>
    rw [primary_cons] at h
    cases hk : t.kind with
    | kwFalse =>
      simp only [hk] at h
      cases h
      exact ⟨[t], rfl, .falsity hk⟩
    | kwTrue =>
      simp only [hk] at h
      cases h
      exact ⟨[t], rfl, .truth hk⟩
    | kwNil =>
      simp only [hk] at h
      cases h
      exact ⟨[t], rfl, .nothing hk⟩
    | number | string =>
      simp only [hk] at h
      cases h
      exact ⟨[t], rfl, .literal (by simp [hk])⟩
    | identifier =>
      simp only [hk] at h
      cases h
      exact ⟨[t], rfl, .variable hk⟩
    | leftParen =>
      simp only [hk] at h
      obtain ⟨inner, left, hi, h⟩ := Outcome.andThen_eq_ok.mp h
      obtain ⟨close, hc, rfl⟩ := Outcome.map_eq_ok.mp h
      obtain ⟨rfl, hr⟩ := expect_eq_ok hc
      obtain ⟨used, rfl, hs⟩ := ih after (Nat.lt_succ_self _) inner _ hi
      exact ⟨t :: used ++ [close], by simp, .grouping hk hs hr⟩
    | _ => simp [hk] at h

theorem unary_faithful (ts : List Token) (hp : Faithful (Spells .primary) ts (primary ts))
    (ih : ∀ us, us.length < ts.length → Faithful (Spells .unary) us (unary us)) :
    Faithful (Spells .unary) ts (unary ts) := by
  intro e rest h
  cases ts with
  | nil =>
    rw [unary_nil] at h
    obtain ⟨used, hu, hs⟩ := hp e rest h
    exact ⟨used, hu, .ofPrimary hs⟩
  | cons op after =>
    rw [unary_cons] at h
    by_cases ho : op.kind = .bang || op.kind = .minus
    · rw [if_pos ho] at h
      obtain ⟨operand, hu, rfl⟩ := Outcome.map_eq_ok.mp h
      obtain ⟨used, rfl, hs⟩ := ih after (Nat.lt_succ_self _) operand rest hu
      exact ⟨op :: used, rfl, .unary (by simpa using ho) hs⟩
    · rw [if_neg ho] at h
      obtain ⟨used, hu, hs⟩ := hp e rest h
      exact ⟨used, hu, .ofPrimary hs⟩

def ChainFaithful (level : Level) (left : Expr) (ts : List Token) : Prop :=
  ∀ before, Spells (Level.phrase (some level)) before left → ∀ e rest,
    chain level left ts = .ok e [] rest →
      ∃ used, ts = used ++ rest ∧ Spells (Level.phrase (some level)) (before ++ used) e

theorem chain_faithful (level : Level) (left : Expr) (ts : List Token)
    (ht : ∀ us, us.length < ts.length →
      Faithful (Spells (Level.phrase level.tighter)) us (tier level.tighter us))
    (ih : ∀ us, us.length < ts.length → ∀ left, ChainFaithful level left us) :
    ChainFaithful level left ts := by
  intro before hb e rest h
  cases ts with
  | nil =>
    rw [chain_nil] at h
    cases h
    exact ⟨[], rfl, by simpa using hb⟩
  | cons op after =>
    rw [chain_cons] at h
    by_cases ho : level.hasOperator op.kind
    · rw [if_pos ho] at h
      obtain ⟨right, more, hr, hc⟩ := Outcome.andThen_eq_ok.mp h
      have hm := tier_within level.tighter after
      rw [hr] at hm
      have hlt : more.length < (op :: after).length := Nat.lt_succ_of_lt (hm.2 rfl)
      obtain ⟨used, rfl, hs⟩ := ht after (Nat.lt_succ_self _) right more hr
      obtain ⟨used', rfl, hs'⟩ := ih more hlt _ _ (spells_join level hb ho hs) e rest hc
      exact ⟨op :: used ++ used', by simp, by simpa using hs'⟩
    · rw [if_neg ho] at h
      cases h
      exact ⟨[], rfl, by simpa using hb⟩

theorem tier_faithful (level : Level) (ts : List Token)
    (ht : Faithful (Spells (Level.phrase level.tighter)) ts (tier level.tighter ts))
    (hc : ∀ us, us.length < ts.length → ∀ left, ChainFaithful level left us) :
    Faithful (Spells (Level.phrase (some level))) ts (tier (some level) ts) := by
  intro e rest h
  rw [tier_some] at h
  obtain ⟨left, more, hl, hr⟩ := Outcome.andThen_eq_ok.mp h
  have hm := tier_within level.tighter ts
  rw [hl] at hm
  obtain ⟨used, rfl, hs⟩ := ht left more hl
  obtain ⟨used', rfl, hs'⟩ := hc more (hm.2 rfl) left used (spells_of_tighter level hs) e rest hr
  exact ⟨used ++ used', by simp, hs'⟩

theorem assignment_faithful (ts : List Token) (ht : Faithful (Spells .logicOr) ts (tier (some .or) ts))
    (ih : ∀ us, us.length < ts.length → Faithful (Spells .assignment) us (expression us)) :
    Faithful (Spells .assignment) ts (expression ts) := by
  intro e rest h
  rw [expression_eq] at h
  obtain ⟨target, more, ho, hr⟩ := Outcome.andThen_eq_ok.mp h
  have hm := tier_within (some .or) ts
  rw [ho] at hm
  obtain ⟨used, rfl, hs⟩ := ht target more ho
  cases more with
  | nil =>
    cases hr
    exact ⟨used, rfl, .ofLogicOr hs⟩
  | cons equal after =>
    by_cases he : equal.kind = .equal
    · simp only [he, if_true] at hr
      obtain ⟨value, left, hv, ha⟩ := Outcome.andThen_eq_ok.mp hr
      obtain ⟨used', rfl, hs'⟩ := ih after (Nat.lt_of_succ_lt (hm.2 rfl)) value left hv
      cases target with
      | var name =>
        obtain ⟨rfl, hn⟩ := spells_var hs
        cases ha
        exact ⟨name :: equal :: used', by simp, .assign hn he hs'⟩
      | _ => simp [assignTo] at ha
    · simp only [he, if_false] at hr
      cases hr
      exact ⟨used, rfl, .ofLogicOr hs⟩

theorem expression_faithful (ts : List Token) : Faithful (Spells .assignment) ts (expression ts) := by
  refine expression_induction (E := fun ts => Faithful (Spells .assignment) ts (expression ts))
    (T := fun level ts => Faithful (Spells (Level.phrase level)) ts (tier level ts))
    primary_faithful unary_faithful ?_ chain_faithful tier_faithful assignment_faithful ts
  intro ts h
  rw [tier_none]
  exact h

theorem simple_faithful (ts : List Token) : Faithful Simple ts (simple ts) := by
  intro s rest h
  simp only [simple, Outcome.andThen_eq_ok, Outcome.map_eq_ok] at h
  obtain ⟨e, _, he, stop, hc, rfl⟩ := h
  obtain ⟨rfl, hk⟩ := expect_eq_ok hc
  obtain ⟨used, rfl, hs⟩ := expression_faithful ts e _ he
  exact ⟨used ++ [stop], by simp, .expression hs hk⟩

theorem initializer_eq_ok {ts rest : List Token} {initial : Option Expr}
    (h : initializer ts = .ok initial [] rest) :
    (initial = none ∧ ts = rest) ∨ ∃ equal used e, equal.kind = .equal ∧ initial = some e ∧
      ts = equal :: used ++ rest ∧ Spells .assignment used e := by
  cases ts with
  | nil =>
    cases h
    exact .inl ⟨rfl, rfl⟩
  | cons equal after =>
    by_cases hk : equal.kind = .equal
    · simp only [initializer, hk, if_true] at h
      obtain ⟨e, he, rfl⟩ := Outcome.map_eq_ok.mp h
      obtain ⟨used, rfl, hs⟩ := expression_faithful after e _ he
      exact .inr ⟨equal, used, e, hk, rfl, rfl, hs⟩
    · simp only [initializer, hk, if_false] at h
      cases h
      exact .inl ⟨rfl, rfl⟩

theorem variableAfter_faithful {word : Token} (hw : word.kind = .kwVar) (ts : List Token) :
    Faithful Variable (word :: ts) (variableAfter ts) := by
  intro s rest h
  simp only [variableAfter, Outcome.andThen_eq_ok, Outcome.map_eq_ok] at h
  obtain ⟨name, _, hn, initial, _, hi, stop, hc, rfl⟩ := h
  obtain ⟨rfl, hnk⟩ := expect_eq_ok hn
  obtain ⟨rfl, hk⟩ := expect_eq_ok hc
  rcases initializer_eq_ok hi with ⟨rfl, rfl⟩ | ⟨equal, used, e, he, rfl, rfl, hs⟩
  · exact ⟨[word, name, stop], rfl, .bare hw hnk hk⟩
  · exact ⟨word :: name :: equal :: used ++ [stop], by simp, .initialized hw hnk he hs hk⟩

theorem optional_faithful (ending : Kind) (ts : List Token) :
    Faithful Optional ts (optional ending ts) := by
  intro e rest h
  by_cases hk : (current ts).kind = ending
  · simp only [optional, hk, if_true] at h
    cases h
    exact ⟨[], rfl, .absent⟩
  · simp only [optional, hk, if_false] at h
    obtain ⟨e, he, rfl⟩ := Outcome.map_eq_ok.mp h
    obtain ⟨used, rfl, hs⟩ := expression_faithful ts e _ he
    exact ⟨used, rfl, .present hs⟩

theorem condition_faithful (before after : Problem) (ts : List Token) :
    Faithful Condition ts (condition before after ts) := by
  intro e rest h
  simp only [condition, Outcome.andThen_eq_ok, Outcome.map_eq_ok] at h
  obtain ⟨left, _, hl, value, _, he, right, hr, rfl⟩ := h
  obtain ⟨rfl, hlk⟩ := expect_eq_ok hl
  obtain ⟨rfl, hrk⟩ := expect_eq_ok hr
  obtain ⟨used, rfl, hs⟩ := expression_faithful _ value _ he
  exact ⟨left :: used ++ [right], by simp, .parenthesized hlk hs hrk⟩

theorem initialClause_faithful (ts : List Token) : Faithful Initial ts (initialClause ts) := by
  have hsimple : ∀ us, Faithful Initial us ((simple us).map some) := by
    intro us initial rest h
    obtain ⟨s, hs, rfl⟩ := Outcome.map_eq_ok.mp h
    obtain ⟨used, hu, hd⟩ := simple_faithful us s rest hs
    exact ⟨used, hu, .simple hd⟩
  cases ts with
  | nil => exact hsimple []
  | cons t after =>
    unfold initialClause
    by_cases ht : t.kind = .semicolon
    · intro initial rest h
      simp only [ht, if_true] at h
      cases h
      exact ⟨[t], rfl, .absent ht⟩
    · by_cases hv : t.kind = .kwVar
      · intro initial rest h
        simp only [hv, if_true, reduceCtorEq, if_false] at h
        obtain ⟨s, hs, rfl⟩ := Outcome.map_eq_ok.mp h
        obtain ⟨used, hu, hd⟩ := variableAfter_faithful hv after s rest hs
        exact ⟨used, hu, .variable hd⟩
      · simp only [ht, hv, if_false]
        exact hsimple (t :: after)

theorem clauses_faithful (ts : List Token) :
    Faithful (fun used c => Header used c.initial c.condition c.step) ts (clauses ts) := by
  intro c rest h
  simp only [clauses, Outcome.andThen_eq_ok, Outcome.map_eq_ok] at h
  obtain ⟨left, _, hl, initial, _, hi, condition, _, hc, stop, _, hs, step, _, ht, right, hr, rfl⟩ := h
  obtain ⟨rfl, hlk⟩ := expect_eq_ok hl
  obtain ⟨is, rfl, hid⟩ := initialClause_faithful _ _ _ hi
  obtain ⟨cs, rfl, hcd⟩ := optional_faithful _ _ _ _ hc
  obtain ⟨rfl, hsk⟩ := expect_eq_ok hs
  obtain ⟨ss, rfl, hsd⟩ := optional_faithful _ _ _ _ ht
  obtain ⟨rfl, hrk⟩ := expect_eq_ok hr
  exact ⟨left :: is ++ cs ++ stop :: ss ++ [right], by simp, .parenthesized hlk hid hcd hsk hsd hrk⟩

theorem expansion_eq (initial : Option Stmt) (c step : Option Expr) (body : Stmt) :
    Stmt.counting initial c step body =
      expansion initial (c.getD (.literal (.boolean true))) step body := by
  cases initial <;> cases step <;> rfl

/-- A statement that ends with an `if` without `else` is not followed by one. -/
def StatementFaithful (ts : List Token) : Prop :=
  ∀ s rest, statement ts = .ok s [] rest → ∃ used dangling, ts = used ++ rest ∧
    Statement .nearest dangling used s ∧ (dangling = true → (current rest).kind ≠ .kwElse)

theorem alternative_faithful {c : Expr} {body s : Stmt} {word : Token} {cs bs ts rest : List Token}
    {dangling : Bool} (hw : word.kind = .kwIf) (hc : Condition cs c)
    (hb : Statement .nearest dangling bs body) (hd : dangling = true → (current ts).kind ≠ .kwElse)
    (ih : ∀ us, us.length < ts.length → StatementFaithful us)
    (h : alternative c body ts = .ok s [] rest) :
    ∃ used d, ts = used ++ rest ∧ Statement .nearest d (word :: cs ++ bs ++ used) s ∧
      (d = true → (current rest).kind ≠ .kwElse) := by
  cases ts with
  | nil =>
    cases h
    exact ⟨[], true, rfl, by simpa using .ifThen hw hc hb, fun _ => by simp [current, Token.endOfSource]⟩
  | cons other after =>
    by_cases ho : other.kind = .kwElse
    · simp only [alternative, ho, if_true] at h
      obtain ⟨otherwise, hs, rfl⟩ := Outcome.map_eq_ok.mp h
      obtain ⟨used, d, rfl, hos, hrest⟩ := ih after (Nat.lt_succ_self _) otherwise rest hs
      have hf : dangling = false := by
        cases dangling with
        | false => rfl
        | true => exact absurd ho (hd rfl)
      exact ⟨other :: used, d, rfl, .ifElse hw hc hb (fun _ => hf) ho hos, hrest⟩
    · simp only [alternative, ho, if_false] at h
      cases h
      exact ⟨[], true, rfl, by simpa using .ifThen hw hc hb, fun _ => ho⟩

theorem length_lt_cons_append (t : Token) (ts us : List Token) :
    us.length < (t :: (ts ++ us)).length := by
  simp only [List.length_cons, List.length_append]
  omega

theorem statement_faithful (ts : List Token)
    (ih : ∀ us, us.length < ts.length → StatementFaithful us)
    (ihd : ∀ us, us.length < ts.length →
      Faithful (Declarations .nearest) us (declarations true us)) : StatementFaithful ts := by
  intro s rest h
  have hsimple : ∀ us, simple us = .ok s [] rest → ∃ used dangling, us = used ++ rest ∧
      Statement .nearest dangling used s ∧ (dangling = true → (current rest).kind ≠ .kwElse) := by
    intro us hs
    obtain ⟨used, hu, hd⟩ := simple_faithful us s rest hs
    exact ⟨used, false, hu, .simple hd, fun h => Bool.noConfusion h⟩
  cases ts with
  | nil => exact hsimple [] (statement_nil ▸ h)
  | cons t after =>
    rw [statement_cons] at h
    cases hk : t.kind with
    | kwIf =>
      simp only [hk, Outcome.andThen_eq_ok] at h
      obtain ⟨c, mid, hc, body, more, hb, ha⟩ := h
      obtain ⟨cs, rfl, hcd⟩ := condition_faithful _ _ _ _ _ hc
      have hmid := length_lt_cons_append t cs mid
      obtain ⟨bs, dangling, rfl, hbd, hd⟩ := ih mid hmid body more hb
      have hshort : ∀ us, us.length < more.length → StatementFaithful us := by
        intro us hu
        refine ih us ?_
        simp only [List.length_cons, List.length_append]
        omega
      obtain ⟨used, d, rfl, hs, hrest⟩ := alternative_faithful hk hcd hbd hd hshort ha
      exact ⟨t :: cs ++ bs ++ used, d, by simp, hs, hrest⟩
    | kwWhile =>
      simp only [hk, Outcome.andThen_eq_ok, Outcome.map_eq_ok] at h
      obtain ⟨c, mid, hc, body, hb, rfl⟩ := h
      obtain ⟨cs, rfl, hcd⟩ := condition_faithful _ _ _ _ _ hc
      have hmid := length_lt_cons_append t cs mid
      obtain ⟨bs, dangling, rfl, hbd, hd⟩ := ih mid hmid body rest hb
      exact ⟨t :: cs ++ bs, dangling, by simp, .loop hk hcd hbd, hd⟩
    | kwFor =>
      simp only [hk, Outcome.andThen_eq_ok, Outcome.map_eq_ok] at h
      obtain ⟨c, mid, hc, body, hb, rfl⟩ := h
      obtain ⟨cs, rfl, hcd⟩ := clauses_faithful _ _ _ hc
      have hmid := length_lt_cons_append t cs mid
      obtain ⟨bs, dangling, rfl, hbd, hd⟩ := ih mid hmid body rest hb
      rw [expansion_eq]
      exact ⟨t :: cs ++ bs, dangling, by simp, .counting hk hcd hbd, hd⟩
    | kwPrint =>
      simp only [hk, printed, Outcome.andThen_eq_ok, Outcome.map_eq_ok] at h
      obtain ⟨e, mid, he, stop, hc, rfl⟩ := h
      obtain ⟨rfl, hstop⟩ := expect_eq_ok hc
      obtain ⟨used, rfl, hs⟩ := expression_faithful _ _ _ he
      exact ⟨t :: used ++ [stop], false, by simp, .print hk hs hstop, fun h => Bool.noConfusion h⟩
    | leftBrace =>
      simp only [hk, Outcome.andThen_eq_ok, Outcome.map_eq_ok] at h
      obtain ⟨body, mid, hb, close, hc, rfl⟩ := h
      obtain ⟨rfl, hclose⟩ := expect_eq_ok hc
      obtain ⟨used, rfl, hs⟩ := ihd after (Nat.lt_succ_self _) body _ hb
      exact ⟨t :: used ++ [close], false, by simp, .block hk hs hclose, fun h => Bool.noConfusion h⟩
    | _ =>
      simp only [hk] at h
      exact hsimple (t :: after) h

theorem declarations_faithful (inBlock : Bool) (ts : List Token) (hs : StatementFaithful ts)
    (ih : ∀ us, us.length < ts.length →
      Faithful (Declarations .nearest) us (declarations inBlock us)) :
    Faithful (Declarations .nearest) ts (declarations inBlock ts) := by
  intro body rest h
  cases ts with
  | nil =>
    rw [declarations_nil] at h
    cases h
    exact ⟨[], rfl, .nil⟩
  | cons t after =>
    rw [declarations_cons] at h
    by_cases hend : t.kind = .eof ∨ (inBlock = true ∧ t.kind = .rightBrace)
    · rw [if_pos hend] at h
      cases h
      exact ⟨[], rfl, .nil⟩
    · rw [if_neg hend] at h
      simp only [declaration, Outcome.andThen_eq_ok, Outcome.map_eq_ok,
        Outcome.recovered_eq_ok_iff] at h
      obtain ⟨_, more, ⟨first, hf, rfl⟩, later, hl, rfl⟩ := h
      by_cases hv : t.kind = .kwVar
      · rw [if_pos hv] at hf
        have hm := variableAfter_within after
        rw [hf] at hm
        obtain ⟨used, hu, hd⟩ := variableAfter_faithful hv after first more hf
        obtain ⟨used', rfl, hd'⟩ := ih more (Nat.lt_succ_of_lt (hm.2 rfl)) later rest hl
        exact ⟨used ++ used', by simp [hu], .variable hd hd'⟩
      · rw [if_neg hv] at hf
        have hm := statement_within (t :: after)
        rw [hf] at hm
        obtain ⟨used, dangling, hu, hd, -⟩ := hs first more hf
        obtain ⟨used', rfl, hd'⟩ := ih more (hm.2 rfl) later rest hl
        exact ⟨used ++ used', by simp [hu], .statement hd hd'⟩

theorem statements_faithful (ts : List Token) :
    StatementFaithful ts ∧ ∀ inBlock, Faithful (Declarations .nearest) ts (declarations inBlock ts) :=
  statement_induction (D := fun inBlock us =>
    Faithful (Declarations .nearest) us (declarations inBlock us))
    statement_faithful declarations_faithful ts

theorem statement_sound {ts rest : List Token} {s : Stmt} (h : statement ts = .ok s [] rest) :
    ∃ used dangling, ts = used ++ rest ∧ Statement .nearest dangling used s := by
  obtain ⟨used, dangling, hts, hs, -⟩ := (statements_faithful ts).1 s rest h
  exact ⟨used, dangling, hts, hs⟩

theorem declarations_sound {inBlock : Bool} {ts rest : List Token} {body : List Stmt}
    (h : declarations inBlock ts = .ok body [] rest) :
    ∃ used, ts = used ++ rest ∧ Declarations .nearest used body :=
  (statements_faithful ts).2 inBlock body rest h

end Lox.Grammar
