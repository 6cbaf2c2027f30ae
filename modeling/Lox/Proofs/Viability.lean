import Mathlib
import Lox.Proofs.Cursor
import Lox.Proofs.Diagnostics
import Lox.Proofs.Relaxed

/-!
The first fault that is not a bad target lies at the first token that cannot be right.  Wherever a reader
stands, what it has read can still be completed to a phrase.  So the tokens before a fault can be completed
to a program; and since a reader does not see beyond the token it blames, a program that begins with that
token as well would be blamed for it too.
-/

set_option autoImplicit false

namespace Lox

namespace Grammar

open Syntax (Phrase)
open Relaxed (Program)

variable {α β : Type}

/-- Either a phrase of the language is read off, or what stands before the first fault that is not a bad
target can be completed to one. -/
structure Outcome.Viable (L : List Token → Prop) (ts : List Token) (o : Outcome α) : Prop where
  whole : o.first serious = none → ∃ value faults rest used, o = .ok value faults rest ∧
    ts = used ++ rest ∧ L used
  front : ∀ f, o.first serious = some f → ∃ used more, ts = used ++ f.rest ∧ L (used ++ more)

namespace Outcome.Viable

variable {L A : List Token → Prop} {ts : List Token} {o : Outcome α}

theorem of_passes (h : o.Passes ts) (hL : L []) : o.Viable L ts where
  whole _ := by
    obtain ⟨value, faults, ho, -⟩ := h
    exact ⟨value, faults, ts, [], ho, rfl, hL⟩
  front f hf := by
    rw [h.first_eq_none] at hf
    cases hf

theorem stop {problem : Problem} (hp : serious problem) {word : List Token} (hL : L word)
    (ts : List Token) : (Outcome.stopped [] ⟨ts, problem⟩ : Outcome α).Viable L ts := by
  have hfirst : (Outcome.stopped [] ⟨ts, problem⟩ : Outcome α).first serious = some ⟨ts, problem⟩ := by
    simp [Outcome.first, Outcome.faults, hp]
  constructor
  · intro hnone
    rw [hfirst] at hnone
    cases hnone
  · intro f hf
    rw [hfirst] at hf
    cases hf
    exact ⟨[], word, rfl, hL⟩

theorem mono (h : o.Viable A ts) (hAL : ∀ us, A us → L us) : o.Viable L ts where
  whole hnone := by
    obtain ⟨value, faults, rest, used, ho, hts, hA⟩ := h.whole hnone
    exact ⟨value, faults, rest, used, ho, hts, hAL used hA⟩
  front f hf := by
    obtain ⟨used, more, hts, hA⟩ := h.front f hf
    exact ⟨used, more, hts, hAL _ hA⟩

theorem past {t : Token} (h : o.Viable (fun us => L (t :: us)) ts) : o.Viable L (t :: ts) where
  whole hnone := by
    obtain ⟨value, faults, rest, used, ho, rfl, hL⟩ := h.whole hnone
    exact ⟨value, faults, rest, t :: used, ho, rfl, hL⟩
  front f hf := by
    obtain ⟨used, more, hts, hL⟩ := h.front f hf
    exact ⟨t :: used, more, congrArg (t :: ·) hts, hL⟩

theorem map (h : o.Viable L ts) (g : α → β) : (o.map g).Viable L ts where
  whole hnone := by
    rw [first_map] at hnone
    obtain ⟨value, faults, rest, used, rfl, hts, hL⟩ := h.whole hnone
    exact ⟨g value, faults, rest, used, rfl, hts, hL⟩
  front f hf := by
    rw [first_map] at hf
    exact h.front f hf

theorem recovered (h : o.Viable L ts) : o.recovered.Viable L ts where
  whole hnone := by
    rw [first_recovered] at hnone
    obtain ⟨value, faults, rest, used, rfl, hts, hL⟩ := h.whole hnone
    exact ⟨some value, faults, rest, used, rfl, hts, hL⟩
  front f hf := by
    rw [first_recovered] at hf
    exact h.front f hf

/-- After a phrase `used` of `A`, what is to be read is what completes `used` to a phrase of `L`. -/
theorem andThen (h : o.Viable A ts) {g : α → Reader β}
    (hcompletes : ∀ used, A used → ∃ more, L (used ++ more))
    (hg : ∀ value faults rest, o = .ok value faults rest → ∀ used, A used →
      (g value rest).Viable (fun us => L (used ++ us)) rest) : (o.andThen g).Viable L ts := by
  cases hfirst : o.first serious with
  | some f =>
    obtain ⟨used, more, hts, hA⟩ := h.front f hfirst
    obtain ⟨later, hL⟩ := hcompletes _ hA
    have hthen := first_andThen_of_some (g := g) hfirst
    constructor
    · intro hnone
      rw [hthen] at hnone
      cases hnone
    · intro f' hf'
      rw [hthen] at hf'
      cases hf'
      exact ⟨used, more ++ later, hts, by rwa [← List.append_assoc]⟩
  | none =>
    obtain ⟨value, faults, rest, used, rfl, rfl, hA⟩ := h.whole hfirst
    have hrest := hg value faults rest rfl used hA
    have hthen : ((Outcome.ok value faults rest).andThen g).first serious =
        (g value rest).first serious := by
      have hnone : faults.find? (serious ·.problem) = none := hfirst
      rw [andThen_ok, first_after, hnone, Option.none_or]
    constructor
    · intro hnone
      obtain ⟨result, later, left, word, ho, rfl, hL⟩ := hrest.whole (hthen ▸ hnone)
      refine ⟨result, faults ++ later, left, used ++ word, ?_, (List.append_assoc _ _ _).symm, hL⟩
      rw [andThen_ok, ho]
      rfl
    · intro f hf
      obtain ⟨word, more, hword, hL⟩ := hrest.front f (hthen ▸ hf)
      refine ⟨used ++ word, more, ?_, ?_⟩
      · rw [hword, List.append_assoc]
      · rwa [List.append_assoc]

end Outcome.Viable

def sample (kind : Kind) : Token := ⟨kind, "", 1, none⟩

theorem expect_viable {L : List Token → Prop} {kind : Kind} {problem : Problem} (hp : serious problem)
    (hL : ∀ t, t.kind = kind → L [t]) (ts : List Token) : (expect kind problem ts).Viable L ts := by
  cases ts with
  | nil => exact .stop hp (hL (sample kind) rfl) []
  | cons t rest =>
    by_cases ht : t.kind = kind
    · rw [expect_cons ht]
      exact .past (.of_passes (.ok t rest) (hL t ht))
    · rw [expect, if_neg ht]
      exact .stop hp (hL (sample kind) rfl) _

section Expressions

open Relaxed

theorem spells_of_primary {ts : List Token} (h : Spells .primary ts) (p : Phrase) : Spells p ts := by
  have hunary : Spells .unary ts := .operand h
  have hfactor : Spells .factor ts := .operand hunary
  have hterm : Spells .term ts := .operand hfactor
  have hcomparison : Spells .comparison ts := .operand hterm
  have hequality : Spells .equality ts := .operand hcomparison
  have hand : Spells .logicAnd ts := .operand hequality
  have hor : Spells .logicOr ts := .operand hand
  cases p with
  | assignment => exact .operand hor
  | _ => assumption

theorem spells_sample (p : Phrase) : Spells p [sample .identifier] :=
  spells_of_primary (.atom (by decide)) p

theorem tighter_phrase (level : Level) :
    tighter (Level.phrase (some level)) = Level.phrase level.tighter := by
  cases level <;> rfl

theorem mem_operators {level : Level} {kind : Kind} (h : level.hasOperator kind) :
    kind ∈ operators (Level.phrase (some level)) := by
  revert h
  cases level <;> cases kind <;> decide

theorem spells_tier {level : Level} {ts : List Token} (h : Spells (Level.phrase level.tighter) ts) :
    Spells (Level.phrase (some level)) ts :=
  .operand (tighter_phrase level ▸ h)

theorem primary_viable (ts : List Token)
    (ih : ∀ us, us.length < ts.length → (expression us).Viable (Spells .assignment) us) :
    (primary ts).Viable (Spells .primary) ts := by
  cases ts with
  | nil =>
    rw [primary_nil]
    exact .stop rfl (spells_sample .primary) []
  | cons t rest =>
    rw [primary_cons]
    cases hk : t.kind with
    | kwFalse | kwTrue | kwNil | number | string | identifier =>
      exact .past (.of_passes (.ok _ rest) (.atom (by simp [hk])))
    | leftParen =>
      refine .past ((ih rest (Nat.lt_succ_self _)).andThen ?_ fun inner _ after _ used hused => ?_)
      · intro used hused
        exact ⟨[sample .rightParen], .grouping hk hused rfl⟩
      · exact .map (expect_viable rfl (fun right hr => .grouping hk hused hr) after) _
    | _ => exact .stop rfl (spells_sample .primary) _

theorem unary_viable (ts : List Token) (hp : (primary ts).Viable (Spells .primary) ts)
    (ih : ∀ us, us.length < ts.length → (unary us).Viable (Spells .unary) us) :
    (unary ts).Viable (Spells .unary) ts := by
  cases ts with
  | nil =>
    rw [unary_nil]
    exact hp.mono fun us hus => .operand hus
  | cons op rest =>
    rw [unary_cons]
    split
    · rename_i ho
      refine .past (.map ((ih rest (Nat.lt_succ_self _)).mono fun us hus => ?_) _)
      exact .unary (by simpa using ho) hus
    · exact hp.mono fun us hus => .operand hus

def Extends (p : Phrase) (us : List Token) : Prop := ∀ ls, Spells p ls → Spells p (ls ++ us)

theorem extends_nil (p : Phrase) : Extends p [] := fun ls h => by rwa [List.append_nil]

theorem extends_operator {level : Level} {op : Token} {rs us : List Token}
    (ho : level.hasOperator op.kind) (hr : Spells (Level.phrase level.tighter) rs)
    (hu : Extends (Level.phrase (some level)) us) :
    Extends (Level.phrase (some level)) (op :: (rs ++ us)) := by
  intro ls hl
  have hlonger := hu _ (.binary hl (mem_operators ho) (tighter_phrase level ▸ hr))
  rwa [List.append_assoc, List.cons_append] at hlonger

theorem chain_viable (level : Level) (left : Expr) (ts : List Token)
    (ht : ∀ us, us.length < ts.length →
      (tier level.tighter us).Viable (Spells (Level.phrase level.tighter)) us)
    (ih : ∀ us, us.length < ts.length → ∀ left,
      (chain level left us).Viable (Extends (Level.phrase (some level))) us) :
    (chain level left ts).Viable (Extends (Level.phrase (some level))) ts := by
  cases ts with
  | nil =>
    rw [chain_nil]
    exact .of_passes (.ok left []) (extends_nil _)
  | cons op rest =>
    rw [chain_cons]
    split
    · rename_i ho
      refine .past ((ht rest (Nat.lt_succ_self _)).andThen ?_ fun right faults after hr used hused => ?_)
      · intro used hused
        exact ⟨[], extends_operator ho hused (extends_nil _)⟩
      · have hw := tier_within level.tighter rest
        rw [hr] at hw
        exact (ih after (Nat.lt_succ_of_lt (hw.2 rfl)) _).mono fun us => extends_operator ho hused
    · exact .of_passes (.ok left _) (extends_nil _)

theorem tier_viable (level : Level) (ts : List Token)
    (ht : (tier level.tighter ts).Viable (Spells (Level.phrase level.tighter)) ts)
    (hc : ∀ us, us.length < ts.length → ∀ left,
      (chain level left us).Viable (Extends (Level.phrase (some level))) us) :
    (tier (some level) ts).Viable (Spells (Level.phrase (some level))) ts := by
  rw [tier_some]
  refine ht.andThen (fun used hused => ⟨[], ?_⟩) fun left faults rest hl used hused => ?_
  · rw [List.append_nil]
    exact spells_tier hused
  · have hw := tier_within level.tighter ts
    rw [hl] at hw
    exact (hc rest (hw.2 rfl) left).mono fun us hus => hus used (spells_tier hused)

theorem assignment_viable (ts : List Token)
    (ht : (tier (some .or) ts).Viable (Spells .logicOr) ts)
    (ih : ∀ us, us.length < ts.length → (expression us).Viable (Spells .assignment) us) :
    (expression ts).Viable (Spells .assignment) ts := by
  rw [expression_eq]
  have halone : ∀ {used}, Spells .logicOr used → Spells .assignment (used ++ []) := by
    intro used hused
    rw [List.append_nil]
    exact .operand hused
  refine ht.andThen (fun used hused => ⟨[], halone hused⟩) fun target faults rest ho used hused => ?_
  cases rest with
  | nil => exact .of_passes (.ok target []) (halone hused)
  | cons equal after =>
    by_cases he : equal.kind = .equal
    · have hw := tier_within (some .or) ts
      rw [ho] at hw
      simp only [he, if_true]
      refine .past ((ih after (Nat.lt_of_succ_lt (hw.2 rfl))).andThen ?_ fun value _ left _ more hmore => ?_)
      · intro more hmore
        exact ⟨[], by simpa using Spells.assign hused he hmore⟩
      · exact .of_passes (assignTo_passes target _ value left) (by simpa using Spells.assign hused he hmore)
    · simp only [he, if_false]
      exact .of_passes (.ok target _) (halone hused)

theorem expression_viable (ts : List Token) : (expression ts).Viable (Spells .assignment) ts := by
  refine expression_induction (E := fun ts => (expression ts).Viable (Spells .assignment) ts)
    (T := fun level ts => (tier level ts).Viable (Spells (Level.phrase level)) ts)
    (C := fun level left ts => (chain level left ts).Viable (Extends (Level.phrase (some level))) ts)
    primary_viable unary_viable ?_ chain_viable tier_viable assignment_viable ts
  intro ts hu
  rw [tier_none]
  exact hu

end Expressions

section Statements

open Relaxed

theorem simple_viable (ts : List Token) : (simple ts).Viable Simple ts := by
  refine (expression_viable ts).andThen (fun used hused => ⟨[sample .semicolon], ?_⟩) ?_
  · exact .expression hused rfl
  · intro value _ rest _ used hused
    exact .map (expect_viable rfl (fun stop hs => .expression hused hs) rest) _

theorem initializer_viable {L : List Token → Prop} (hnone : L [])
    (hsome : ∀ equal rs, equal.kind = .equal → Spells .assignment rs → L (equal :: rs))
    (ts : List Token) : (initializer ts).Viable L ts := by
  cases ts with
  | nil => exact .of_passes (.ok none []) hnone
  | cons equal rest =>
    by_cases he : equal.kind = .equal
    · rw [initializer, if_pos he]
      exact .past (.map ((expression_viable rest).mono fun us => hsome equal us he) _)
    · rw [initializer, if_neg he]
      exact .of_passes (.ok none _) hnone

theorem variableAfter_viable {word : Token} (hw : word.kind = .kwVar) (ts : List Token) :
    (variableAfter ts).Viable (fun us => Variable (word :: us)) ts := by
  refine (expect_viable (L := fun us => ∃ name, name.kind = .identifier ∧ us = [name]) rfl
    (fun name hn => ⟨name, hn, rfl⟩) ts).andThen ?_ ?_
  · rintro _ ⟨name, hn, rfl⟩
    exact ⟨[sample .semicolon], .bare hw hn rfl⟩
  rintro _ _ rest _ _ ⟨name, hn, rfl⟩
  -- An initializer is what lacks only a semicolon.
  refine (initializer_viable (L := fun us => ∀ stop, stop.kind = .semicolon →
    Variable (word :: name :: (us ++ [stop]))) ?_ ?_ rest).andThen ?_ ?_
  · intro stop hs
    exact .bare hw hn hs
  · intro equal rs he hr stop hs
    exact .initialized hw hn he hr hs
  · intro used hused
    exact ⟨[sample .semicolon], hused _ rfl⟩
  · intro _ _ rest _ used hused
    exact .map (expect_viable rfl (fun stop hs => hused stop hs) rest) _

theorem condition_viable {before after : Problem} (hb : serious before) (ha : serious after)
    (ts : List Token) : (condition before after ts).Viable Condition ts := by
  refine (expect_viable (L := fun us => ∃ left, left.kind = .leftParen ∧ us = [left]) hb
    (fun left hl => ⟨left, hl, rfl⟩) ts).andThen ?_ ?_
  · rintro _ ⟨left, hl, rfl⟩
    have hname : Spells .assignment [sample .identifier] := spells_sample _
    exact ⟨[sample .identifier, sample .rightParen], .parenthesized hl hname rfl⟩
  rintro _ _ rest _ _ ⟨left, hl, rfl⟩
  refine (expression_viable rest).andThen (fun used hused => ⟨[sample .rightParen], ?_⟩) ?_
  · exact .parenthesized hl hused rfl
  · intro _ _ rest _ used hused
    exact .map (expect_viable ha (fun right hr => .parenthesized hl hused hr) rest) _

theorem initialClause_viable (ts : List Token) : (initialClause ts).Viable Initial ts := by
  have hsimple : ∀ ts, ((simple ts).map some).Viable Initial ts := fun ts =>
    .map ((simple_viable ts).mono fun us hus => .simple hus) _
  cases ts with
  | nil => exact hsimple []
  | cons t rest =>
    rw [initialClause]
    split
    · rename_i hs
      exact .past (.of_passes (.ok none rest) (.absent hs))
    · split
      · rename_i hv
        exact .past (.map ((variableAfter_viable hv rest).mono fun us hus => .variable hus) _)
      · exact hsimple _

theorem optional_viable (ending : Kind) (ts : List Token) : (optional ending ts).Viable Optional ts := by
  rw [optional]
  split
  · exact .of_passes (.ok none ts) .absent
  · exact .map ((expression_viable ts).mono fun us hus => .present hus) _

theorem clauses_viable (ts : List Token) : (clauses ts).Viable Header ts := by
  have hstop : (sample .semicolon).kind = .semicolon := rfl
  have hclose : (sample .rightParen).kind = .rightParen := rfl
  refine (expect_viable (L := fun us => ∃ left, left.kind = .leftParen ∧ us = [left]) rfl
    (fun left hl => ⟨left, hl, rfl⟩) ts).andThen ?_ ?_
  · rintro _ ⟨left, hl, rfl⟩
    exact ⟨_, .parenthesized hl (.absent hstop) .absent hstop .absent hclose⟩
  rintro _ _ rest _ _ ⟨left, hl, rfl⟩
  refine (initialClause_viable rest).andThen (fun is hi => ?_) fun _ _ rest _ is hi => ?_
  · exact ⟨_, by simpa using Header.parenthesized hl hi .absent hstop .absent hclose⟩
  refine (optional_viable .semicolon rest).andThen (fun cs hc => ?_) fun _ _ rest _ cs hc => ?_
  · exact ⟨_, by simpa using Header.parenthesized hl hi hc hstop .absent hclose⟩
  refine (expect_viable (L := fun us => ∃ stop, stop.kind = .semicolon ∧ us = [stop]) rfl
    (fun stop hs => ⟨stop, hs, rfl⟩) rest).andThen ?_ ?_
  · rintro _ ⟨stop, hs, rfl⟩
    exact ⟨_, by simpa using Header.parenthesized hl hi hc hs .absent hclose⟩
  rintro _ _ rest _ _ ⟨stop, hs, rfl⟩
  refine (optional_viable .rightParen rest).andThen (fun ss ht => ?_) fun _ _ rest _ ss ht => ?_
  · exact ⟨_, by simpa using Header.parenthesized hl hi hc hs ht hclose⟩
  · refine .map (expect_viable rfl (fun right hr => ?_) rest) _
    simpa using Header.parenthesized hl hi hc hs ht hr

theorem statement_sample : Statement [sample .identifier, sample .semicolon] := by
  have hname : Spells .assignment [sample .identifier] := spells_sample _
  exact .simple (.expression hname rfl)

theorem alternative_viable {L : List Token → Prop} (hnone : L [])
    (hsome : ∀ other os, other.kind = .kwElse → Statement os → L (other :: os)) (c : Expr) (body : Stmt)
    (ts : List Token) (ih : ∀ us, us.length < ts.length → (statement us).Viable Statement us) :
    (alternative c body ts).Viable L ts := by
  cases ts with
  | nil => exact .of_passes (.ok _ []) hnone
  | cons other rest =>
    rw [alternative]
    split
    · rename_i ho
      exact .past (.map ((ih rest (Nat.lt_succ_self _)).mono fun us => hsome other us ho) _)
    · exact .of_passes (.ok _ _) hnone

theorem statement_viable (ts : List Token)
    (ih : ∀ us, us.length < ts.length → (statement us).Viable Statement us)
    (ihd : ∀ us, us.length < ts.length → (declarations true us).Viable Program us) :
    (statement ts).Viable Statement ts := by
  have hsimple : ∀ ts, (simple ts).Viable Statement ts := fun ts =>
    (simple_viable ts).mono fun us hus => .simple hus
  cases ts with
  | nil =>
    rw [statement_nil]
    exact hsimple []
  | cons word rest =>
    rw [statement_cons]
    cases hk : word.kind with
    | kwIf =>
      refine .past ((condition_viable rfl rfl rest).andThen ?_ fun c _ mid hc cs hcs => ?_)
      · intro cs hcs
        exact ⟨_, .ifThen hk hcs statement_sample⟩
      have hw := condition_within .beforeIfCondition .afterIfCondition rest
      rw [hc] at hw
      have hmid : mid.length < (word :: rest).length := Nat.lt_succ_of_lt (hw.2 rfl)
      refine (ih mid hmid).andThen ?_ fun body _ more hb bs hbs => ?_
      · intro bs hbs
        exact ⟨[], by simpa using Statement.ifThen hk hcs hbs⟩
      have hw' := statement_within mid
      rw [hb] at hw'
      have hmore := hw'.2 rfl
      refine alternative_viable ?_ ?_ c body more fun us hu => ih us (by omega)
      · simpa using Statement.ifThen hk hcs hbs
      · intro other os ho hos
        simpa using Statement.ifElse hk hcs hbs ho hos
    | kwWhile =>
      refine .past ((condition_viable rfl rfl rest).andThen ?_ fun c _ mid hc cs hcs => ?_)
      · intro cs hcs
        exact ⟨_, .loop hk hcs statement_sample⟩
      · have hw := condition_within .beforeWhileCondition .afterWhileCondition rest
        rw [hc] at hw
        exact .map ((ih mid (Nat.lt_succ_of_lt (hw.2 rfl))).mono fun bs hbs => .loop hk hcs hbs) _
    | kwFor =>
      refine .past ((clauses_viable rest).andThen ?_ fun c _ mid hc cs hcs => ?_)
      · intro cs hcs
        exact ⟨_, .counting hk hcs statement_sample⟩
      · have hw := clauses_within rest
        rw [hc] at hw
        exact .map ((ih mid (Nat.lt_succ_of_lt (hw.2 rfl))).mono fun bs hbs => .counting hk hcs hbs) _
    | kwPrint =>
      refine .past ((expression_viable rest).andThen ?_ fun value _ mid _ es hes => ?_)
      · intro es hes
        exact ⟨[sample .semicolon], .print hk hes rfl⟩
      · exact .map (expect_viable rfl (fun stop hs => .print hk hes hs) mid) _
    | leftBrace =>
      refine .past ((ihd rest (Nat.lt_succ_self _)).andThen ?_ fun body _ mid _ bs hbs => ?_)
      · intro bs hbs
        exact ⟨[sample .rightBrace], .block hk hbs rfl⟩
      · exact .map (expect_viable rfl (fun right hr => .block hk hbs hr) mid) _
    | _ => exact hsimple _

theorem attempt_viable (ts : List Token) (hs : (statement ts).Viable Statement ts) :
    (attempt ts).Viable (fun us => ∀ vs, Program vs → Program (us ++ vs)) ts := by
  have hstatement := hs.mono (L := fun us => ∀ vs, Program vs → Program (us ++ vs))
    fun us hus vs hvs => .statement hus hvs
  cases ts with
  | nil => exact hstatement
  | cons t rest =>
    rw [attempt]
    split
    · rename_i hv
      exact .past ((variableAfter_viable hv rest).mono fun us hus vs hvs => .variable hus hvs)
    · exact hstatement

theorem declarations_viable_step (inBlock : Bool) (ts : List Token)
    (hs : (statement ts).Viable Statement ts)
    (ih : ∀ us, us.length < ts.length → (declarations inBlock us).Viable Program us) :
    (declarations inBlock ts).Viable Program ts := by
  cases ts with
  | nil =>
    rw [declarations_nil]
    exact .of_passes (.ok [] []) .nil
  | cons t rest =>
    rw [declarations_cons]
    split
    · exact .of_passes (.ok [] _) .nil
    · rename_i hend
      have ht : t.kind ≠ .eof := fun heq => hend (.inl heq)
      rw [declaration_eq]
      refine (attempt_viable _ hs).recovered.andThen ?_ fun first _ more hf used hused => ?_
      · intro used hused
        exact ⟨[], hused [] .nil⟩
      · have hw := declaration_within ht rest
        rw [declaration_eq, hf] at hw
        exact .map ((ih more (hw.2 rfl)).mono fun vs hvs => hused vs hvs) _

theorem declarations_viable (inBlock : Bool) (ts : List Token) :
    (declarations inBlock ts).Viable Program ts :=
  (statement_induction (S := fun ts => (statement ts).Viable Statement ts)
    (D := fun inBlock ts => (declarations inBlock ts).Viable Program ts) statement_viable
    declarations_viable_step ts).2 inBlock

end Statements

end Grammar

open Grammar
open Relaxed (Program)

theorem syntaxErrors_eq (ts : List Token) :
    syntaxErrors ts = (declarations false ts).faults.map Fault.error := by
  obtain ⟨program, faults, rest, hd⟩ := declarations_eq_ok false ts
  rw [syntaxErrors, parse_of_declarations hd, hd, Outcome.faults]
  cases faults <;> rfl

theorem first_of_program {ts : List Token} (h : Program ts) {last : Token} (hl : last.kind = .eof) :
    (declarations false (ts ++ [last])).first serious = none := by
  have hend : (declarations false [last]).Passes [last] := by
    rw [declarations_cons, if_pos (.inl hl)]
    exact .ok [] _
  exact (program_passes h false [last] [last] (by simp [hl]) hend).first_eq_none

section

variable {ts : List Token} {last : Token} (hs : ∀ t ∈ ts, t.kind ≠ .eof) (hl : last.kind = .eof)

include hs hl

theorem program_iff_first : Program ts ↔ (declarations false (ts ++ [last])).first serious = none := by
  refine ⟨fun h => first_of_program h hl, fun hnone => ?_⟩
  obtain ⟨program, faults, hd, -⟩ := declarations_to_end hs hl []
  obtain ⟨_, _, rest, used, ho, hts, hused⟩ := (declarations_viable false (ts ++ [last])).whole hnone
  rw [hd] at ho
  cases ho
  rwa [List.append_cancel_right hts]

variable {f : Fault} (hf : (declarations false (ts ++ [last])).first serious = some f)

include hf

theorem first_position : ∃ p, p ≤ ts.length ∧ f.rest = (ts ++ [last]).drop p := by
  obtain ⟨program, faults, hd, hfaults⟩ := declarations_to_end hs hl []
  rw [hd] at hf
  obtain ⟨p, -, hp, hrest⟩ := hfaults f (List.mem_of_find?_eq_some hf)
  exact ⟨p, hp, hrest⟩

omit hs hl in
theorem completed_before_first {p : Nat} (hp : p ≤ ts.length) (hrest : f.rest = (ts ++ [last]).drop p) :
    ∃ more, Program (ts.take p ++ more) := by
  obtain ⟨used, more, hts, hmore⟩ := (declarations_viable false (ts ++ [last])).front f hf
  have htake : (ts ++ [last]).take p = ts.take p := List.take_append_of_le_length hp
  have hcut : used ++ f.rest = ts.take p ++ f.rest := by
    rw [← hts, hrest, ← htake, List.take_append_drop]
  exact ⟨more, List.append_cancel_right hcut ▸ hmore⟩

omit hs hl in
/-- Whatever follows the token at the first fault, reading would come to the same fault. -/
theorem not_program_from_first {p : Nat} (hp : p < ts.length) (hrest : f.rest = (ts ++ [last]).drop p)
    (more : List Token) : ¬Program (ts.take (p + 1) ++ more) := by
  intro hprogram
  have hnone := first_of_program hprogram (show (sample .eof).kind = .eof from rfl)
  have hne : ts.take (p + 1) ≠ [] := by
    rw [← List.length_pos_iff, List.length_take]
    omega
  have hlocal := declarations_local serious rfl (ts.drop (p + 1) ++ [last]) (more ++ [sample .eof]) hne false
  rw [← List.append_assoc, List.take_append_drop, ← List.append_assoc] at hlocal
  have hbehind : (ts.drop (p + 1) ++ [last]).length < f.rest.length := by
    rw [hrest, List.length_append, List.length_drop, List.length_drop, List.length_append]
    simp only [List.length_singleton]
    omega
  rw [hlocal.fault f hf hbehind] at hnone
  cases hnone

end

/-- Apart from bad targets, a parse finds fault with exactly those tokens that are no program of the relaxed
grammar.  The first such fault lies at the first token that cannot be right: what stands before it can be
completed to a program, but not together with it; where it lies at the end of the source, the tokens could
go on to a program, but are none. -/
theorem parse_blames_first_offence {ts : List Token} {last : Token} (hs : ∀ t ∈ ts, t.kind ≠ .eof)
    (hl : last.kind = .eof) :
    let input := ts ++ [last]
    let faults := (declarations false input).faults
    syntaxErrors input = faults.map Fault.error ∧
      ((∀ e ∈ syntaxErrors input, e.problem.message = "Invalid assignment target.") ↔ Program ts) ∧
      ∀ f, faults.find? (fun f => f.problem.message ≠ "Invalid assignment target.") = some f →
        ∃ p, p ≤ ts.length ∧ f.rest = input.drop p ∧ input[p]? = some f.error.token ∧
          (∃ more, Program (ts.take p ++ more)) ∧
          (p < ts.length → ∀ more, ¬Program (ts.take (p + 1) ++ more)) ∧
          (p = ts.length → ¬Program ts) := by
  intro input faults
  refine ⟨syntaxErrors_eq input, ?_, ?_⟩
  · rw [program_iff_first hs hl, syntaxErrors_eq, Outcome.first, List.find?_eq_none]
    simp only [List.forall_mem_map, serious_eq_message, ne_eq, decide_eq_true_eq, not_not]
    exact Iff.rfl
  · intro f hf
    have hfirst : (declarations false input).first serious = some f := by
      simpa only [Outcome.first, serious_eq_message] using hf
    obtain ⟨p, hp, hrest⟩ := first_position hs hl hfirst
    refine ⟨p, hp, hrest, ?_, completed_before_first hfirst hp hrest,
      fun hlt => not_program_from_first hfirst hlt hrest, fun _ hprogram => ?_⟩
    · have hlt : p < input.length := by
        rw [List.length_append, List.length_singleton]
        omega
      rw [Fault.error, Fault.token, hrest, List.drop_eq_getElem_cons hlt, List.getElem?_eq_getElem hlt]
      rfl
    · rw [first_of_program hprogram hl] at hfirst
      cases hfirst

theorem parse_blames_first_offence_open_grouping :
    let t : Kind → Token := fun kind => ⟨kind, "?", 0, none⟩
    let source := [.number, .equal, .identifier, .semicolon, .kwPrint, .leftParen, .identifier, .semicolon,
      .identifier].map t
    (∀ u ∈ source, u.kind ≠ .eof) ∧ (t .eof).kind = .eof ∧ ¬Program source ∧
      (∃ more, Program (source.take 7 ++ more)) ∧ ∀ more, ¬Program (source.take 8 ++ more) := by
  intro t source
  -- The bad target is no reason to stop; the semicolon inside the parentheses is.
  have hs : ∀ u ∈ source, u.kind ≠ .eof := by decide
  obtain ⟨herrors, hprogram, hoffence⟩ := parse_blames_first_offence hs (show (t .eof).kind = .eof from rfl)
  have hfaults : (declarations false (source ++ [t .eof])).faults =
      [⟨source.tail ++ [t .eof], .assignmentTarget⟩, ⟨(source ++ [t .eof]).drop 7, .afterGrouping⟩,
        ⟨[t .eof], .afterExpression⟩] := by cbv
  rw [hfaults] at herrors hoffence
  obtain ⟨p, hp, hrest, -, hbefore, hafter, -⟩ := hoffence ⟨(source ++ [t .eof]).drop 7, .afterGrouping⟩ rfl
  have hlength := congrArg List.length hrest
  rw [List.length_drop, List.length_drop, List.length_append] at hlength
  obtain rfl : p = 7 := by
    have : source.length = 9 := rfl
    simp only [List.length_singleton] at hlength
    omega
  refine ⟨hs, rfl, ?_, hbefore, hafter (by decide)⟩
  rw [← hprogram, herrors]
  decide

end Lox
