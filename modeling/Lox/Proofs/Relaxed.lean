import Lox.Proofs.Completeness
import Lox.Proofs.Locality

/-!
The grammar with any expression for the target of an assignment, without trees.  A phrase of it is read
with no fault but bad targets.  An `else` may belong to any `if` before it; the reader gives it to the
nearest one, and the `if`s further out then find what follows instead, so that the tokens are read to
the same end.
-/

set_option autoImplicit false

namespace Lox.Relaxed

open Syntax (Phrase)

def tighter : Phrase → Phrase
  | .assignment => .logicOr
  | .logicOr => .logicAnd
  | .logicAnd => .equality
  | .equality => .comparison
  | .comparison => .term
  | .term => .factor
  | .factor => .unary
  | .unary | .primary => .primary

def operators : Phrase → List Kind
  | .logicOr => [.kwOr]
  | .logicAnd => [.kwAnd]
  | .equality => [.bangEqual, .equalEqual]
  | .comparison => [.greater, .greaterEqual, .less, .lessEqual]
  | .term => [.minus, .plus]
  | .factor => [.slash, .star]
  | .assignment | .unary | .primary => []

inductive Spells : Phrase → List Token → Prop where
  | assign {equal : Token} {ls rs : List Token} :
      Spells .logicOr ls → equal.kind = .equal → Spells .assignment rs →
      Spells .assignment (ls ++ equal :: rs)
  | binary {p : Phrase} {op : Token} {ls rs : List Token} :
      Spells p ls → op.kind ∈ operators p → Spells (tighter p) rs → Spells p (ls ++ op :: rs)
  | operand {p : Phrase} {ts : List Token} : Spells (tighter p) ts → Spells p ts
  | unary {op : Token} {ts : List Token} :
      op.kind ∈ [.bang, .minus] → Spells .unary ts → Spells .unary (op :: ts)
  | atom {t : Token} :
      t.kind ∈ [.number, .string, .kwTrue, .kwFalse, .kwNil, .identifier] → Spells .primary [t]
  | grouping {left right : Token} {ts : List Token} :
      left.kind = .leftParen → Spells .assignment ts → right.kind = .rightParen →
      Spells .primary (left :: ts ++ [right])

inductive Optional : List Token → Prop where
  | absent : Optional []
  | present {ts : List Token} : Spells .assignment ts → Optional ts

inductive Variable : List Token → Prop where
  | bare {word name stop : Token} :
      word.kind = .kwVar → name.kind = .identifier → stop.kind = .semicolon → Variable [word, name, stop]
  | initialized {word name equal stop : Token} {ts : List Token} :
      word.kind = .kwVar → name.kind = .identifier → equal.kind = .equal → Spells .assignment ts →
      stop.kind = .semicolon → Variable (word :: name :: equal :: ts ++ [stop])

inductive Simple : List Token → Prop where
  | expression {stop : Token} {ts : List Token} :
      Spells .assignment ts → stop.kind = .semicolon → Simple (ts ++ [stop])

inductive Initial : List Token → Prop where
  | absent {stop : Token} : stop.kind = .semicolon → Initial [stop]
  | variable {ts : List Token} : Variable ts → Initial ts
  | simple {ts : List Token} : Simple ts → Initial ts

inductive Condition : List Token → Prop where
  | parenthesized {left right : Token} {ts : List Token} :
      left.kind = .leftParen → Spells .assignment ts → right.kind = .rightParen →
      Condition (left :: ts ++ [right])

inductive Header : List Token → Prop where
  | parenthesized {left stop right : Token} {is cs ss : List Token} :
      left.kind = .leftParen → Initial is → Optional cs → stop.kind = .semicolon → Optional ss →
      right.kind = .rightParen → Header (left :: is ++ cs ++ stop :: ss ++ [right])

mutual

inductive Statement : List Token → Prop where
  | ifThen {word : Token} {cs bs : List Token} :
      word.kind = .kwIf → Condition cs → Statement bs → Statement (word :: cs ++ bs)
  | ifElse {word other : Token} {cs bs os : List Token} :
      word.kind = .kwIf → Condition cs → Statement bs → other.kind = .kwElse → Statement os →
      Statement (word :: cs ++ bs ++ other :: os)
  | loop {word : Token} {cs bs : List Token} :
      word.kind = .kwWhile → Condition cs → Statement bs → Statement (word :: cs ++ bs)
  | counting {word : Token} {cs bs : List Token} :
      word.kind = .kwFor → Header cs → Statement bs → Statement (word :: cs ++ bs)
  | print {word stop : Token} {ts : List Token} :
      word.kind = .kwPrint → Spells .assignment ts → stop.kind = .semicolon →
      Statement (word :: ts ++ [stop])
  | block {left right : Token} {ts : List Token} :
      left.kind = .leftBrace → Program ts → right.kind = .rightBrace → Statement (left :: ts ++ [right])
  | simple {ts : List Token} : Simple ts → Statement ts

inductive Program : List Token → Prop where
  | nil : Program []
  | variable {ts us : List Token} : Variable ts → Program us → Program (ts ++ us)
  | statement {ts us : List Token} : Statement ts → Program us → Program (ts ++ us)

end

end Lox.Relaxed

namespace Lox.Grammar

open Syntax (Phrase)
open Relaxed

/-- The phrase is read up to `goal`, with no fault but bad targets. -/
def Outcome.Passes {α : Type} (goal : List Token) (o : Outcome α) : Prop :=
  ∃ value faults, o = .ok value faults goal ∧ ∀ f ∈ faults, f.problem = .assignmentTarget

namespace Outcome.Passes

variable {α β : Type} {o : Outcome α} {mid goal : List Token}

theorem ok (value : α) (goal : List Token) : (Outcome.ok value [] goal).Passes goal :=
  ⟨value, [], rfl, List.forall_mem_nil _⟩

theorem andThen {g : α → Reader β} (h : o.Passes mid) (hg : ∀ value, (g value mid).Passes goal) :
    (o.andThen g).Passes goal := by
  obtain ⟨value, faults, rfl, hfaults⟩ := h
  obtain ⟨result, more, hmore, hmild⟩ := hg value
  refine ⟨result, faults ++ more, ?_, ?_⟩
  · rw [Outcome.andThen_ok, hmore]
    rfl
  · exact List.forall_mem_append.mpr ⟨hfaults, hmild⟩

theorem map (h : o.Passes goal) (f : α → β) : (o.map f).Passes goal := by
  obtain ⟨value, faults, rfl, hfaults⟩ := h
  exact ⟨f value, faults, rfl, hfaults⟩

theorem first_eq_none (h : o.Passes goal) : o.first serious = none := by
  obtain ⟨value, faults, rfl, hfaults⟩ := h
  exact List.find?_eq_none.mpr fun f hf => by simp [serious, hfaults f hf]

end Outcome.Passes

theorem expect_passes {kind : Kind} {t : Token} (h : t.kind = kind) (problem : Problem)
    (rest : List Token) : (expect kind problem (t :: rest)).Passes rest := by
  rw [expect_cons h]
  exact .ok t rest

/-- At a level, reading goes on with the operators of that level after the phrase. -/
def ReadsAt : Option Level → List Token → Prop
  | none, ts => ∀ rest, (unary (ts ++ rest)).Passes rest
  | some level, ts => ∀ rest goal, Ends level.tighter rest → (∀ e, (chain level e rest).Passes goal) →
      (tier (some level) (ts ++ rest)).Passes goal

theorem tier_passes (level : Option Level) {ts rest : List Token} (h : ReadsAt level ts)
    (hr : Ends level rest) : (tier level (ts ++ rest)).Passes rest := by
  cases level with
  | none =>
    rw [tier_none]
    exact h rest
  | some level =>
    refine h rest rest hr.tighter fun e => ?_
    rw [chain_of_ends hr]
    exact .ok e rest

theorem readsAt_of_tighter (level : Level) {ts : List Token} (h : ReadsAt level.tighter ts) :
    ReadsAt (some level) ts := by
  intro rest goal hr hchain
  rw [tier_some]
  exact (tier_passes _ h hr).andThen hchain

theorem readsAt_join (level : Level) {op : Token} {ls rs : List Token} (hl : ReadsAt (some level) ls)
    (ho : level.hasOperator op.kind) (hr : ReadsAt level.tighter rs) :
    ReadsAt (some level) (ls ++ op :: rs) := by
  intro rest goal hrest hchain
  rw [List.append_assoc, List.cons_append]
  refine hl _ goal (ends_of_operator ho _) fun e => ?_
  rw [chain_cons, if_pos ho]
  exact (tier_passes _ hr hrest).andThen fun r => hchain _

def ReadsAs : Phrase → List Token → Prop
  | .assignment, ts => ∀ rest, (current rest).kind ≠ .equal → Ends (some .or) rest →
      (expression (ts ++ rest)).Passes rest
  | .logicOr, ts => ReadsAt (some .or) ts
  | .logicAnd, ts => ReadsAt (some .and) ts
  | .equality, ts => ReadsAt (some .equality) ts
  | .comparison, ts => ReadsAt (some .comparison) ts
  | .term, ts => ReadsAt (some .term) ts
  | .factor, ts => ReadsAt (some .factor) ts
  | .unary, ts | .primary, ts => ReadsAt none ts

theorem expression_passes {ts : List Token} (h : ReadsAs .assignment ts) {t : Token}
    (ht : t.kind = .semicolon ∨ t.kind = .rightParen) (rest : List Token) :
    (expression (ts ++ t :: rest)).Passes (t :: rest) := by
  refine h (t :: rest) ?_ (ends_of_kind (fun l => ?_) _ rest)
  · rcases ht with ht | ht <;> simp [ht]
  · rcases ht with ht | ht <;> cases l <;> simp [ht, Level.hasOperator]

theorem assignTo_passes (target : Expr) (equal : List Token) (value : Expr) (rest : List Token) :
    (assignTo target equal value rest).Passes rest := by
  rcases assignTo_cases target with ⟨name, rfl⟩ | hblame
  · exact .ok _ rest
  · rw [hblame]
    exact ⟨target, _, rfl, List.forall_mem_singleton.mpr rfl⟩

theorem readsAs_operand {p : Phrase} {ts : List Token} (h : ReadsAs (tighter p) ts) : ReadsAs p ts := by
  cases p with
  | assignment =>
    intro rest hq hends
    rw [expression_eq]
    refine (tier_passes (some .or) h hends).andThen fun target => ?_
    cases rest with
    | nil => exact .ok target []
    | cons t after =>
      have ht : t.kind ≠ .equal := hq
      simp only [ht, if_false]
      exact .ok target _
  | logicOr => exact readsAt_of_tighter .or h
  | logicAnd => exact readsAt_of_tighter .and h
  | equality => exact readsAt_of_tighter .equality h
  | comparison => exact readsAt_of_tighter .comparison h
  | term => exact readsAt_of_tighter .term h
  | factor => exact readsAt_of_tighter .factor h
  | unary | primary => exact h

theorem readsAs_binary {p : Phrase} {op : Token} {ls rs : List Token} (ho : op.kind ∈ operators p)
    (hl : ReadsAs p ls) (hr : ReadsAs (tighter p) rs) : ReadsAs p (ls ++ op :: rs) := by
  cases p with
  | assignment | unary | primary => cases ho
  | logicOr => exact readsAt_join .or hl (by simpa [Level.hasOperator, operators] using ho) hr
  | logicAnd => exact readsAt_join .and hl (by simpa [Level.hasOperator, operators] using ho) hr
  | equality => exact readsAt_join .equality hl (by simpa [Level.hasOperator, operators] using ho) hr
  | comparison =>
    exact readsAt_join .comparison hl (by simpa [Level.hasOperator, operators, or_assoc] using ho) hr
  | term => exact readsAt_join .term hl (by simpa [Level.hasOperator, operators] using ho) hr
  | factor => exact readsAt_join .factor hl (by simpa [Level.hasOperator, operators] using ho) hr

theorem readsAs_atom {t : Token}
    (h : t.kind ∈ [.number, .string, .kwTrue, .kwFalse, .kwNil, .identifier]) : ReadsAs .primary [t] := by
  intro rest
  simp only [List.mem_cons, List.not_mem_nil, or_false] at h
  rw [List.singleton_append, unary_cons]
  rcases h with h | h | h | h | h | h
  all_goals
    simp only [h, reduceCtorEq, decide_false, Bool.or_self, Bool.false_eq_true, if_false, primary_cons]
    exact .ok _ rest

theorem spells_passes {p : Phrase} {ts : List Token} (h : Relaxed.Spells p ts) : ReadsAs p ts := by
  induction h with
  | @assign equal ls rs _ he _ hl hr =>
    intro rest hq hends
    have hequal : Ends (some .or) (equal :: (rs ++ rest)) :=
      ends_of_kind (fun l => by cases l <;> simp [he, Level.hasOperator]) _ _
    rw [List.append_assoc, List.cons_append, expression_eq]
    refine (tier_passes (some .or) hl hequal).andThen fun target => ?_
    simp only [he, if_true]
    exact (hr rest hq hends).andThen fun value => assignTo_passes target _ value rest
  | binary _ ho _ hl hr => exact readsAs_binary ho hl hr
  | operand _ ih => exact readsAs_operand ih
  | unary ho _ ih =>
    intro rest
    rw [List.cons_append, unary_cons, if_pos (by simpa using ho)]
    exact (ih rest).map _
  | atom ht => exact readsAs_atom ht
  | @grouping left right ts hl _ hr ih =>
    intro rest
    have hclose := expression_passes ih (.inr hr) rest
    rw [List.append_assoc, List.cons_append, List.singleton_append, unary_cons]
    simp only [hl, reduceCtorEq, decide_false, Bool.or_self, Bool.false_eq_true, if_false, primary_cons]
    exact hclose.andThen fun inner => (expect_passes hr _ rest).map _

theorem relaxed_head {p : Phrase} {ts : List Token} (h : Relaxed.Spells p ts) :
    ∃ t us, ts = t :: us ∧ startsExpression t.kind := by
  induction h with
  | assign _ _ _ ih _ | binary _ _ _ ih _ =>
    obtain ⟨t, us, rfl, ht⟩ := ih
    exact ⟨t, _, rfl, ht⟩
  | operand _ ih => exact ih
  | unary ho _ _ =>
    refine ⟨_, _, rfl, ?_⟩
    simp only [List.mem_cons, List.not_mem_nil, or_false] at ho
    rcases ho with ho | ho <;> simp [startsExpression, ho]
  | atom ht =>
    refine ⟨_, _, rfl, ?_⟩
    simp only [List.mem_cons, List.not_mem_nil, or_false] at ht
    rcases ht with ht | ht | ht | ht | ht | ht <;> simp [startsExpression, ht]
  | grouping hl _ _ _ => exact ⟨_, _, rfl, by simp [startsExpression, hl]⟩

theorem simple_passes {ts : List Token} (h : Relaxed.Simple ts) (rest : List Token) :
    (simple (ts ++ rest)).Passes rest := by
  cases h with
  | @expression stop us he hs =>
    rw [List.append_assoc, List.singleton_append]
    exact (expression_passes (spells_passes he) (.inl hs) rest).andThen fun _ =>
      (expect_passes hs _ rest).map _

theorem relaxed_simple_head {ts : List Token} (h : Relaxed.Simple ts) :
    ∃ t us, ts = t :: us ∧ startsExpression t.kind := by
  cases h with
  | expression he _ =>
    obtain ⟨t, us, rfl, ht⟩ := relaxed_head he
    exact ⟨t, _, rfl, ht⟩

theorem relaxed_variable_head {ts : List Token} (h : Relaxed.Variable ts) :
    ∃ t us, ts = t :: us ∧ t.kind = .kwVar := by
  cases h with
  | bare hw _ _ => exact ⟨_, _, rfl, hw⟩
  | initialized hw _ _ _ _ => exact ⟨_, _, rfl, hw⟩

theorem variableAfter_passes {word : Token} {ts : List Token} (h : Relaxed.Variable (word :: ts))
    (rest : List Token) : (variableAfter (ts ++ rest)).Passes rest := by
  cases h with
  | @bare _ name stop _ hn hs =>
    have hinitial : (initializer (stop :: rest)).Passes (stop :: rest) := by
      rw [initializer, if_neg (by simp [hs])]
      exact .ok none _
    refine (expect_passes hn _ (stop :: rest)).andThen fun name => ?_
    exact hinitial.andThen fun _ => (expect_passes hs _ rest).map _
  | @initialized _ name equal stop us _ hn hq he hs =>
    have hinitial : (initializer (equal :: (us ++ stop :: rest))).Passes (stop :: rest) := by
      rw [initializer, if_pos hq]
      exact (expression_passes (spells_passes he) (.inl hs) rest).map some
    simp only [List.append_eq, List.cons_append, List.append_assoc, List.nil_append]
    refine (expect_passes hn _ _).andThen fun name => ?_
    exact hinitial.andThen fun _ => (expect_passes hs _ rest).map _

theorem optional_passes {ts : List Token} (h : Relaxed.Optional ts) {t : Token} {ending : Kind}
    (ht : t.kind = ending) (hk : ending = .semicolon ∨ ending = .rightParen) (rest : List Token) :
    (optional ending (ts ++ t :: rest)).Passes (t :: rest) := by
  cases h with
  | absent =>
    rw [List.nil_append, optional, current_cons, if_pos ht]
    exact .ok none _
  | present he =>
    have hpasses := expression_passes (spells_passes he) (ht ▸ hk) rest
    obtain ⟨u, us, rfl, hu⟩ := relaxed_head he
    have hne : u.kind ≠ ending := by
      rintro rfl
      rcases hk with hk | hk <;> simp [startsExpression, hk] at hu
    rw [List.cons_append] at hpasses ⊢
    rw [optional, current_cons, if_neg hne]
    exact hpasses.map some

theorem condition_passes {ts : List Token} (h : Relaxed.Condition ts) (before after : Problem)
    (rest : List Token) : (condition before after (ts ++ rest)).Passes rest := by
  cases h with
  | parenthesized hl he hr =>
    rw [List.append_assoc, List.cons_append, List.singleton_append]
    refine (expect_passes hl _ _).andThen fun _ => ?_
    exact (expression_passes (spells_passes he) (.inr hr) rest).andThen fun _ =>
      (expect_passes hr _ rest).map _

theorem initialClause_passes {ts : List Token} (h : Relaxed.Initial ts) (rest : List Token) :
    (initialClause (ts ++ rest)).Passes rest := by
  cases h with
  | absent hs =>
    rw [List.singleton_append, initialClause, if_pos hs]
    exact .ok none rest
  | «variable» hv =>
    obtain ⟨word, us, rfl, hw⟩ := relaxed_variable_head hv
    rw [List.cons_append, initialClause, if_neg (by simp [hw]), if_pos hw]
    exact (variableAfter_passes hv rest).map some
  | simple hs =>
    have hpasses := simple_passes hs rest
    obtain ⟨u, us, rfl, hu⟩ := relaxed_simple_head hs
    have hsemi : u.kind ≠ .semicolon := fun heq => by simp [startsExpression, heq] at hu
    have hvar : u.kind ≠ .kwVar := fun heq => by simp [startsExpression, heq] at hu
    rw [List.cons_append] at hpasses ⊢
    rw [initialClause, if_neg hsemi, if_neg hvar]
    exact hpasses.map some

theorem clauses_passes {ts : List Token} (h : Relaxed.Header ts) (rest : List Token) :
    (clauses (ts ++ rest)).Passes rest := by
  obtain ⟨hl, hi, hc, hs, ht, hr⟩ := h
  simp only [List.append_assoc, List.cons_append, List.nil_append]
  refine (expect_passes hl _ _).andThen fun _ => ?_
  refine (initialClause_passes hi _).andThen fun _ => ?_
  refine (optional_passes hc hs (.inl rfl) _).andThen fun _ => ?_
  refine (expect_passes hs _ _).andThen fun _ => ?_
  refine (optional_passes ht hr (.inr rfl) rest).andThen fun _ => ?_
  exact (expect_passes hr _ rest).map _

/-- So many `if`s, the innermost first, each look for an `else` of their own between the two lists. -/
inductive Absorbs : Nat → List Token → List Token → Prop where
  | none (rest : List Token) : Absorbs 0 rest rest
  | next {n : Nat} {rest mid goal : List Token} : Absorbs n rest mid →
      (∀ c body, (alternative c body mid).Passes goal) → Absorbs (n + 1) rest goal

namespace Absorbs

theorem of_ne_else {rest : List Token} (h : (current rest).kind ≠ .kwElse) (n : Nat) :
    Absorbs n rest rest := by
  induction n with
  | zero => exact .none rest
  | succ n ih =>
    refine .next ih fun c body => ?_
    cases rest with
    | nil => exact .ok _ []
    | cons t after =>
      have ht : t.kind ≠ .kwElse := h
      rw [alternative, if_neg ht]
      exact .ok _ _

theorem split {m n : Nat} {rest goal : List Token} (h : Absorbs (m + n) rest goal) :
    ∃ mid, Absorbs m rest mid ∧ Absorbs n mid goal := by
  induction n generalizing goal with
  | zero => exact ⟨goal, h, .none goal⟩
  | succ n ih =>
    cases h with
    | next h hlast =>
      obtain ⟨mid, hm, hn⟩ := ih h
      exact ⟨mid, hm, .next hn hlast⟩

theorem cons {n : Nat} {rest mid goal : List Token}
    (hfirst : ∀ c body, (alternative c body rest).Passes mid) (h : Absorbs n mid goal) :
    Absorbs (n + 1) rest goal := by
  induction h with
  | none mid => exact .next (.none rest) hfirst
  | next _ hlast ih => exact .next (ih hfirst) hlast

end Absorbs

theorem relaxed_statement_head {ts : List Token} (h : Relaxed.Statement ts) :
    ∃ t us, ts = t :: us ∧ startsDeclaration t.kind ∧ t.kind ≠ .kwVar := by
  cases h with
  | ifThen hw _ _ | ifElse hw _ _ _ _ | loop hw _ _ | counting hw _ _ | print hw _ _
  | block hw _ _ => exact ⟨_, _, rfl, by simp [startsDeclaration, hw], by simp [hw]⟩
  | simple hs =>
    obtain ⟨t, us, rfl, ht⟩ := relaxed_simple_head hs
    refine ⟨t, us, rfl, by simp [startsDeclaration, ht], ?_⟩
    intro heq
    simp [startsExpression, heq] at ht

theorem program_head {ts : List Token} (h : Program ts) {rest : List Token}
    (hr : (current rest).kind ≠ .kwElse) : (current (ts ++ rest)).kind ≠ .kwElse := by
  cases h with
  | nil => exact hr
  | «variable» hv _ =>
    obtain ⟨t, us, rfl, ht⟩ := relaxed_variable_head hv
    simp [ht]
  | statement hs _ =>
    obtain ⟨t, us, rfl, ht, -⟩ := relaxed_statement_head hs
    intro heq
    simp only [List.cons_append, current_cons] at heq
    simp [startsDeclaration, startsExpression, heq] at ht

theorem declarations_passes (inBlock : Bool) {t : Token} {us rest goal : List Token}
    (ht : startsDeclaration t.kind) (h : (attempt (t :: us)).Passes rest)
    (hrest : (declarations inBlock rest).Passes goal) :
    (declarations inBlock (t :: us)).Passes goal := by
  have hend : ¬(t.kind = .eof ∨ (inBlock = true ∧ t.kind = .rightBrace)) := by
    intro hend
    rcases hend with heq | ⟨-, heq⟩ <;> simp [startsDeclaration, startsExpression, heq] at ht
  obtain ⟨s, faults, hs, hfaults⟩ := h
  have hd : (declaration t us).Passes rest := by
    rw [declaration_eq, hs]
    exact ⟨some s, faults, rfl, hfaults⟩
  rw [declarations_cons, if_neg hend]
  exact hd.andThen fun first => hrest.map _

mutual

theorem statement_passes {ts : List Token} : Relaxed.Statement ts → ∃ n, ∀ rest goal,
    Absorbs n rest goal → (statement (ts ++ rest)).Passes goal
  | @Relaxed.Statement.ifThen word cs bs hw hc hb => by
    obtain ⟨n, hbody⟩ := statement_passes hb
    refine ⟨n + 1, fun rest goal h => ?_⟩
    cases h with
    | next h hlast =>
      rw [List.append_assoc, List.cons_append, statement_cons, hw]
      exact (condition_passes hc _ _ _).andThen fun c => (hbody rest _ h).andThen (hlast c)
  | @Relaxed.Statement.ifElse word other cs bs os hw hc hb ho hos => by
    obtain ⟨n, hbody⟩ := statement_passes hb
    obtain ⟨m, hother⟩ := statement_passes hos
    refine ⟨m + n, fun rest goal h => ?_⟩
    obtain ⟨mid, hm, hn⟩ := h.split
    have helse : ∀ c body, (alternative c body (other :: (os ++ rest))).Passes mid := by
      intro c body
      rw [alternative, if_pos ho]
      exact (hother rest mid hm).map _
    -- The `else` goes to the innermost `if` of the body that lacks one, or to this one if there is none.
    obtain ⟨last, habsorbed, hlast⟩ : ∃ last, Absorbs n (other :: (os ++ rest)) last ∧
        ∀ c body, (alternative c body last).Passes goal := by
      cases hn with
      | none => exact ⟨_, .none _, helse⟩
      | next h hlast => exact ⟨_, .cons helse h, hlast⟩
    simp only [List.append_assoc, List.cons_append]
    rw [statement_cons, hw]
    exact (condition_passes hc _ _ _).andThen fun c => (hbody _ last habsorbed).andThen (hlast c)
  | @Relaxed.Statement.loop word cs bs hw hc hb => by
    obtain ⟨n, hbody⟩ := statement_passes hb
    refine ⟨n, fun rest goal h => ?_⟩
    rw [List.append_assoc, List.cons_append, statement_cons, hw]
    exact (condition_passes hc _ _ _).andThen fun c => (hbody rest goal h).map _
  | @Relaxed.Statement.counting word cs bs hw hc hb => by
    obtain ⟨n, hbody⟩ := statement_passes hb
    refine ⟨n, fun rest goal h => ?_⟩
    rw [List.append_assoc, List.cons_append, statement_cons, hw]
    exact (clauses_passes hc _).andThen fun c => (hbody rest goal h).map _
  | @Relaxed.Statement.print word stop us hw he hs => by
    refine ⟨0, fun rest goal h => ?_⟩
    cases h
    rw [List.append_assoc, List.cons_append, List.singleton_append, statement_cons, hw]
    exact (expression_passes (spells_passes he) (.inl hs) rest).andThen fun _ =>
      (expect_passes hs _ rest).map _
  | @Relaxed.Statement.block left right us hl hb hr => by
    refine ⟨0, fun rest goal h => ?_⟩
    cases h
    have hclose : (declarations true (right :: rest)).Passes (right :: rest) := by
      rw [declarations_cons, if_pos (.inr ⟨rfl, hr⟩)]
      exact .ok [] _
    have hbody := program_passes hb true (right :: rest) _ (by simp [hr]) hclose
    rw [List.append_assoc, List.cons_append, List.singleton_append, statement_cons, hl]
    exact hbody.andThen fun body => (expect_passes hr _ rest).map _
  | .simple hs => by
    refine ⟨0, fun rest goal h => ?_⟩
    cases h
    have hpasses := simple_passes hs rest
    obtain ⟨t, us, rfl, ht⟩ := relaxed_simple_head hs
    rw [List.cons_append] at hpasses ⊢
    rw [statement_cons]
    cases hk : t.kind with
    | kwIf | kwWhile | kwFor | kwPrint | leftBrace => simp [startsExpression, hk] at ht
    | _ => exact hpasses

theorem program_passes {ts : List Token} : Program ts → ∀ inBlock rest goal,
    (current rest).kind ≠ .kwElse → (declarations inBlock rest).Passes goal →
      (declarations inBlock (ts ++ rest)).Passes goal
  | .nil, _, _, _, _, hrest => hrest
  | @Program.variable us vs hv hp, inBlock, rest, goal, hr, hrest => by
    have hlater := program_passes hp inBlock rest goal hr hrest
    obtain ⟨t, us, rfl, ht⟩ := relaxed_variable_head hv
    rw [List.append_assoc]
    refine declarations_passes inBlock (by simp [startsDeclaration, ht]) ?_ hlater
    rw [List.append_eq, attempt, if_pos ht]
    exact variableAfter_passes hv (vs ++ rest)
  | @Program.statement us vs hs hp, inBlock, rest, goal, hr, hrest => by
    have hlater := program_passes hp inBlock rest goal hr hrest
    obtain ⟨n, hstatement⟩ := statement_passes hs
    have hfirst := hstatement (vs ++ rest) _ (.of_ne_else (program_head hp hr) n)
    obtain ⟨t, us, rfl, ht, hv⟩ := relaxed_statement_head hs
    rw [List.append_assoc]
    refine declarations_passes inBlock ht ?_ hlater
    rw [List.append_eq, attempt, if_neg hv]
    exact hfirst

end

end Lox.Grammar
