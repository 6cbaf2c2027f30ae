import Mathlib
import Lox.Proofs.Locality

set_option autoImplicit false

namespace Lox

namespace Grammar

/-- The readers, each with what it is given besides the tokens. -/
inductive Task where
  | token (kind : Kind) (problem : Problem) (taken : kind ≠ .eof) (stops : problem ≠ .assignmentTarget)
  | primary
  | unary
  | tier (level : Option Level)
  | chain (level : Level) (left : Expr)
  | expression
  | simple
  | printed
  | optional (ending : Kind)
  | initializer
  | variableAfter
  | ifCondition
  | whileCondition
  | initialClause
  | clauses
  | alternative (condition : Expr) (body : Stmt)
  | statement
  | declarations (inBlock : Bool)

def Task.read : Task → Reader Unit
  | .token kind problem _ _, ts => (expect kind problem ts).map fun _ => ()
  | .primary, ts => (Grammar.primary ts).map fun _ => ()
  | .unary, ts => (Grammar.unary ts).map fun _ => ()
  | .tier level, ts => (Grammar.tier level ts).map fun _ => ()
  | .chain level left, ts => (Grammar.chain level left ts).map fun _ => ()
  | .expression, ts => (Grammar.expression ts).map fun _ => ()
  | .simple, ts => (Grammar.simple ts).map fun _ => ()
  | .printed, ts => (Grammar.printed ts).map fun _ => ()
  | .optional ending, ts => (Grammar.optional ending ts).map fun _ => ()
  | .initializer, ts => (Grammar.initializer ts).map fun _ => ()
  | .variableAfter, ts => (Grammar.variableAfter ts).map fun _ => ()
  | .ifCondition, ts => (condition .beforeIfCondition .afterIfCondition ts).map fun _ => ()
  | .whileCondition, ts => (condition .beforeWhileCondition .afterWhileCondition ts).map fun _ => ()
  | .initialClause, ts => (Grammar.initialClause ts).map fun _ => ()
  | .clauses, ts => (Grammar.clauses ts).map fun _ => ()
  | .alternative condition body, ts => (Grammar.alternative condition body ts).map fun _ => ()
  | .statement, ts => (Grammar.statement ts).map fun _ => ()
  | .declarations inBlock, ts => (Grammar.declarations inBlock ts).map fun _ => ()

theorem Hereditary.task {K : Kind → Prop} {P : {α : Type} → Reader α → List Token → Prop}
    (h : Hereditary K P) (hK : ∀ kind, kind ≠ .eof → K kind) (hR : Recoverable P) (task : Task)
    (ts : List Token) : P task.read ts := by
  obtain ⟨hexpression, hunary, hprimary, htier, hchain⟩ := h.descent (inExpression_taken hK) ts
  cases task with
  | token kind problem taken stops => exact h.map (h.expect (hK kind taken) stops ts) _
  | primary => exact h.map hprimary _
  | unary => exact h.map hunary _
  | tier level => exact h.map (htier level) _
  | chain level left => exact h.map (hchain level left) _
  | expression => exact h.map hexpression _
  | simple => exact h.map (h.simple hK ts) _
  | printed => exact h.map (h.printed hK ts) _
  | optional ending => exact h.map (h.optional (inExpression_taken hK) ending ts) _
  | initializer => exact h.map (h.initializer (inExpression_taken hK) ts) _
  | variableAfter => exact h.map (h.variableAfter hK ts) _
  | ifCondition | whileCondition => exact h.map (h.condition hK (by decide) (by decide) ts) _
  | initialClause => exact h.map (h.initialClause hK ts) _
  | clauses => exact h.map (h.clauses hK ts) _
  | alternative condition body =>
    exact h.map (h.alternative hK condition body ts fun us _ => h.statement hK hR us) _
  | statement => exact h.map (h.statement hK hR ts) _
  | declarations inBlock => exact h.map (h.declarations hK hR inBlock ts) _

def Between (input : List Token) (i n : Nat) (ts : List Token) : Prop :=
  ∃ j, i ≤ j ∧ j ≤ n ∧ ts = input.drop j

section

variable {ts : List Token} {last : Token} {rest : List Token} (hs : ∀ t ∈ ts, t.kind ≠ .eof)
  (hl : last.kind = .eof)

include hl in
theorem between_closed (i : Nat) : Closed (· ≠ .eof) (Between (ts ++ last :: rest) i ts.length) := by
  rintro t us ht ⟨j, hij, hj, heq⟩
  -- Only the end of the source stands at the last of these positions.
  have hne : j ≠ ts.length := by
    rintro rfl
    rw [List.drop_left] at heq
    cases heq
    exact ht hl
  have hlt : j < ts.length := Nat.lt_of_le_of_ne hj hne
  refine ⟨j + 1, by omega, by omega, ?_⟩
  rw [← List.tail_drop, ← heq, List.tail_cons]

include hl in
theorem keeps_between {α : Type} {r : Reader α} {i : Nat} (hi : i ≤ ts.length)
    (h : Moves (· ≠ .eof) r ((ts ++ last :: rest).drop i)) :
    (r ((ts ++ last :: rest).drop i)).Keeps (Between (ts ++ last :: rest) i ts.length) :=
  h _ (between_closed hl i) ⟨i, Nat.le_refl i, hi, rfl⟩

theorem moves_declaration (t : Token) (us : List Token) (ht : t.kind ≠ .eof) :
    Moves (· ≠ .eof) (fun vs => (attempt vs).recovered) (t :: us) := by
  have h := moves_hereditary (· ≠ .eof)
  have hR : Recoverable (Moves (· ≠ .eof)) := moves_recoverable fun _ hk => hk
  exact hR ht (h.attempt_step (fun _ hk => hk) _ (h.statement (fun _ hk => hk) hR _))

include hs hl in
theorem declaration_forward {i : Nat} (hi : i < ts.length) :
    ∃ first faults j, i < j ∧ j ≤ ts.length ∧
      declaration ts[i] ((ts ++ last :: rest).drop (i + 1)) =
        .ok first faults ((ts ++ last :: rest).drop j) := by
  have hne : ts[i].kind ≠ .eof := hs _ (List.getElem_mem hi)
  have hdrop : (ts ++ last :: rest).drop i = ts[i] :: (ts ++ last :: rest).drop (i + 1) := by
    rw [List.drop_eq_getElem_cons (by simp; omega), List.getElem_append_left hi]
  obtain ⟨first, faults, left, hd⟩ : ∃ first faults left,
      declaration ts[i] ((ts ++ last :: rest).drop (i + 1)) = .ok first faults left :=
    Outcome.recovered_eq_ok _
  have hkeeps := keeps_between hl (Nat.le_of_lt hi) (hdrop ▸ moves_declaration _ _ hne)
  have hwithin := declaration_within hne ((ts ++ last :: rest).drop (i + 1))
  rw [hd] at hwithin
  rw [hdrop, ← declaration_eq, hd] at hkeeps
  obtain ⟨j, -, hj, rfl⟩ := hkeeps.2
  have hlength := hwithin.2 rfl
  rw [← hdrop, List.length_drop, List.length_drop] at hlength
  exact ⟨first, faults, j, by omega, hj, hd⟩

include hs hl in
/-- Reading a program ends just before the end of the source, which it sees. -/
theorem declarations_to_end (rest : List Token) : ∃ program faults,
    declarations false (ts ++ last :: rest) = .ok program faults (last :: rest) ∧
      ∀ f ∈ faults, Between (ts ++ last :: rest) 0 ts.length f.rest := by
  obtain ⟨program, faults, left, hd⟩ := declarations_eq_ok false (ts ++ last :: rest)
  have hmoves := (moves_hereditary (· ≠ .eof)).declarations (fun _ hk => hk)
    (moves_recoverable fun _ hk => hk) false (ts ++ last :: rest)
  have hkeeps := keeps_between hl (Nat.zero_le _) hmoves
  rw [List.drop_zero, hd] at hkeeps
  obtain ⟨hfaults, j, -, hj, hleft⟩ := hkeeps
  have hend := declarations_end hd
  simp only [Bool.false_eq_true, false_and, or_false] at hend
  have heq : j = ts.length := by
    refine Nat.le_antisymm hj (Nat.not_lt.mp fun hlt => ?_)
    rw [hleft, List.drop_eq_getElem_cons (by simp; omega), List.getElem_append_left hlt] at hend
    exact hs _ (List.getElem_mem hlt) hend
  rw [hleft, heq, List.drop_left] at hd
  exact ⟨program, faults, hd, hfaults⟩

end

end Grammar

open Grammar

theorem parse_of_declarations {ts rest : List Token} {program : List Stmt} {faults : List Fault}
    (h : declarations false ts = .ok program faults rest) :
    parse ts = if (faults.map Fault.error).isEmpty then .ok program
      else .error (faults.map Fault.error) := by
  rw [parse, h]
  cases faults <;> rfl

theorem parse_append_end {ts : List Token} {last : Token} (hs : ∀ t ∈ ts, t.kind ≠ .eof)
    (hl : last.kind = .eof) (rest : List Token) : parse (ts ++ last :: rest) = parse (ts ++ [last]) := by
  obtain ⟨program, faults, hd, hfaults⟩ := declarations_to_end hs hl rest
  have hlong : ∀ f ∈ faults, rest.length < f.rest.length := by
    intro f hf
    obtain ⟨j, -, hj, heq⟩ := hfaults f hf
    rw [heq, List.length_drop, List.length_append, List.length_cons]
    omega
  have hlocal := declarations_local (fun _ => false) rfl rest [] (x := ts ++ [last]) (by simp) false
  rw [List.append_nil, List.append_assoc, List.singleton_append, hd] at hlocal
  have hshort := hlocal.whole (by simp [Outcome.first, Outcome.faults]) (Nat.lt_succ_self _)
  have herrors : (faults.map (Fault.graft rest [])).map Fault.error = faults.map Fault.error := by
    rw [List.map_map]
    refine List.map_congr_left fun f hf => ?_
    exact Fault.error_graft (hlong f hf) []
  rw [parse_of_declarations hd, parse_of_declarations hshort, herrors]

/-- Every reader that starts at or before the first end of source ends, and blames, between where it starts
and there; a declaration at any earlier position moves forward, whether it can be read or not; a parse ends
at the first end of source, and gives what it gives without anything behind. -/
theorem parse_stays_inside {ts : List Token} {last : Token} (hs : ∀ t ∈ ts, t.kind ≠ .eof)
    (hl : last.kind = .eof) (rest : List Token) :
    let input := ts ++ last :: rest
    (∀ (task : Task) i, i ≤ ts.length → Between input i ts.length (task.read (input.drop i)).rest ∧
        ∀ f ∈ (task.read (input.drop i)).faults, Between input i ts.length f.rest) ∧
      (∀ i, (h : i < ts.length) → ∃ first faults j, i < j ∧ j ≤ ts.length ∧
        declaration ts[i] (input.drop (i + 1)) = .ok first faults (input.drop j)) ∧
      (∃ program faults, declarations false input = .ok program faults (input.drop ts.length)) ∧
      parse input = parse (ts ++ [last]) := by
  intro input
  refine ⟨?_, ?_, ?_, parse_append_end hs hl rest⟩
  · intro task i hi
    have hmoves := (moves_hereditary (· ≠ .eof)).task (fun _ hk => hk)
      (moves_recoverable fun _ hk => hk) task (input.drop i)
    have hkeeps := keeps_between hl hi hmoves
    exact ⟨hkeeps.of_rest, fun f hf => hkeeps.of_mem_faults hf⟩
  · intro i hi
    exact declaration_forward hs hl hi
  · obtain ⟨program, faults, hd, -⟩ := declarations_to_end hs hl rest
    exact ⟨program, faults, hd.trans (by rw [List.drop_left])⟩

theorem parse_stays_inside_unclosed_block :
    let t : Kind → Token := fun kind => ⟨kind, "?", 0, none⟩
    let source := [.leftBrace, .leftParen, .semicolon, .identifier].map t
    let behind := [.rightBrace, .semicolon].map t
    (∀ u ∈ source, u.kind ≠ .eof) ∧ (t .eof).kind = .eof ∧
      (∃ first faults j, 1 < j ∧ j ≤ 4 ∧
        declaration (t .leftParen) ([.semicolon, .identifier, .eof].map t ++ behind) =
          .ok first faults ((source ++ t .eof :: behind).drop j)) ∧
      parse (source ++ t .eof :: behind) = .error [⟨t .semicolon, .expression⟩,
        ⟨t .eof, .afterExpression⟩, ⟨t .eof, .afterBlock⟩] := by
  intro t source behind
  -- The block is never closed: that is found at the end of the source, with the brace just behind.
  have hs : ∀ u ∈ source, u.kind ≠ .eof := by decide
  have hinside := parse_stays_inside hs (show (t .eof).kind = .eof from rfl) behind
  have halone : parse (source ++ [t .eof]) = .error [⟨t .semicolon, .expression⟩,
      ⟨t .eof, .afterExpression⟩, ⟨t .eof, .afterBlock⟩] := by cbv
  exact ⟨hs, rfl, hinside.2.1 1 (by decide), hinside.2.2.2.trans halone⟩

end Lox
