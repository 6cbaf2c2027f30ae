import Lox.Proofs.Completeness
import Lox.Proofs.Consumption

set_option autoImplicit false

namespace Lox.Syntax

/-- An `else` after a statement that ends with an `if` without one goes to the innermost such `if`. -/
theorem Statement.attach {other : Token} {os : List Token} {otherwise : Stmt} {last : Bool}
    (ho : other.kind = .kwElse) (hos : Statement .nearest last os otherwise) {dangling : Bool}
    {bs : List Token} {body : Stmt} : Statement .nearest dangling bs body → dangling = true →
    ∃ d s, Statement .nearest d (bs ++ other :: os) s
  | @Statement.ifThen _ _ _ _ _ _ inner hw hc hb, _ => by
    by_cases hi : inner = true
    · obtain ⟨_, _, h⟩ := Statement.attach ho hos hb hi
      have hif := Statement.ifThen hw hc h
      exact ⟨true, _, by simpa using hif⟩
    · exact ⟨last, _, .ifElse hw hc hb (fun _ => Bool.eq_false_iff.mpr hi) ho hos⟩
  | .ifElse hw hc hb hi ho' hos', hd => by
    obtain ⟨_, _, h⟩ := Statement.attach ho hos hos' hd
    have hif := Statement.ifElse hw hc hb hi ho' h
    exact ⟨_, _, by simpa using hif⟩
  | .loop hw hc hb, hd => by
    obtain ⟨_, _, h⟩ := Statement.attach ho hos hb hd
    have hloop := Statement.loop hw hc h
    exact ⟨_, _, by simpa using hloop⟩
  | .counting hw hc hb, hd => by
    obtain ⟨_, _, h⟩ := Statement.attach ho hos hb hd
    have hloop := Statement.counting hw hc h
    exact ⟨_, _, by simpa using hloop⟩
  | .print .., hd | .block .., hd | .simple .., hd => Bool.noConfusion hd

mutual

theorem Statement.nearest {dangling : Bool} {ts : List Token} {s : Stmt} :
    Statement .any dangling ts s → ∃ d s', Statement .nearest d ts s'
  | .ifThen hw hc hb => by
    obtain ⟨_, _, h⟩ := hb.nearest
    exact ⟨_, _, .ifThen hw hc h⟩
  | .ifElse hw hc hb _ ho hos => by
    obtain ⟨inner, _, h⟩ := hb.nearest
    obtain ⟨_, _, hos⟩ := hos.nearest
    cases inner with
    | false => exact ⟨_, _, .ifElse hw hc h (fun _ => rfl) ho hos⟩
    | true =>
      obtain ⟨_, _, h'⟩ := Statement.attach ho hos h rfl
      have hif := Statement.ifThen hw hc h'
      exact ⟨_, _, by simpa using hif⟩
  | .loop hw hc hb => by
    obtain ⟨_, _, h⟩ := hb.nearest
    exact ⟨_, _, .loop hw hc h⟩
  | .counting hw hc hb => by
    obtain ⟨_, _, h⟩ := hb.nearest
    exact ⟨_, _, .counting hw hc h⟩
  | .print hw he hs => ⟨_, _, .print hw he hs⟩
  | .block hl hb hr => by
    obtain ⟨_, h⟩ := hb.nearest
    exact ⟨_, _, .block hl h hr⟩
  | .simple hs => ⟨_, _, .simple hs⟩

theorem Declarations.nearest {ts : List Token} {body : List Stmt} :
    Declarations .any ts body → ∃ b, Declarations .nearest ts b
  | .nil => ⟨_, .nil⟩
  | .variable hv hb => by
    obtain ⟨_, h⟩ := hb.nearest
    exact ⟨_, .variable hv h⟩
  | .statement hs hb => by
    obtain ⟨_, _, h⟩ := hs.nearest
    obtain ⟨_, h'⟩ := hb.nearest
    exact ⟨_, .statement h h'⟩

end

mutual

theorem Statement.any {rule : ElseRule} {dangling : Bool} {ts : List Token} {s : Stmt} :
    Statement rule dangling ts s → Statement .any dangling ts s
  | .ifThen hw hc hb => .ifThen hw hc hb.any
  | .ifElse hw hc hb _ ho hos => .ifElse hw hc hb.any nofun ho hos.any
  | .loop hw hc hb => .loop hw hc hb.any
  | .counting hw hc hb => .counting hw hc hb.any
  | .print hw he hs => .print hw he hs
  | .block hl hb hr => .block hl hb.any hr
  | .simple hs => .simple hs

theorem Declarations.any {rule : ElseRule} {ts : List Token} {body : List Stmt} :
    Declarations rule ts body → Declarations .any ts body
  | .nil => .nil
  | .variable hv hb => .variable hv hb.any
  | .statement hs hb => .statement hs.any hb.any

end

end Lox.Syntax

namespace Lox

open Grammar Syntax

theorem parse_eq_ok_iff {ts : List Token} {program : List Stmt} :
    parse ts = .ok program ↔ ∃ rest, declarations false ts = .ok program [] rest := by
  obtain ⟨body, faults, rest, h⟩ := declarations_eq_ok false ts
  rw [parse, h]
  cases faults with
  | nil => simp
  | cons => simp

theorem declarations_sound_of_end {ts : List Token} {last : Token} {program : List Stmt}
    {rest : List Token} (hs : ∀ t ∈ ts, t.kind ≠ .eof) (hl : last.kind = .eof)
    (h : declarations false (ts ++ [last]) = .ok program [] rest) :
    Declarations .nearest ts program := by
  have hmem : last ∈ ts ++ [last] := by simp
  have hkeeps := declarations_keeps (persistent_mem hl) false hmem
  rw [h] at hkeeps
  have hend := declarations_end h
  simp only [Bool.false_eq_true, false_and, or_false] at hend
  obtain ⟨used, hused, hd⟩ := declarations_sound h
  obtain ⟨t, after, rfl⟩ := List.exists_cons_of_ne_nil (List.ne_nil_of_mem hkeeps.2)
  have hsplit : used = ts ∧ t :: after = [last] := by
    rcases List.append_eq_append_iff.mp hused with ⟨more, hm, hlast⟩ | ⟨more, hm, hrest⟩
    · cases more with
      | nil => exact ⟨by simpa using hm, hlast.symm⟩
      | cons m ms => simp at hlast
    · cases more with
      | nil => exact ⟨by simpa using hm.symm, by simpa using hrest⟩
      | cons m ms =>
        have ht : t = m := (List.cons.inj hrest).1
        exact absurd hend (hs _ (by simp [hm, ht]))
  exact hsplit.1 ▸ hd

theorem declarations_of_end {ts : List Token} {last : Token} {program : List Stmt}
    (hl : last.kind = .eof) (h : Declarations .nearest ts program) :
    declarations false (ts ++ [last]) = .ok program [] [last] := by
  rw [declarations_complete h false [last] (by simp [hl]), declarations_cons, if_pos (.inl hl),
    Outcome.map_ok, List.append_nil]

theorem parse_iff_derives {ts : List Token} {last : Token} (hs : ∀ t ∈ ts, t.kind ≠ .eof)
    (hl : last.kind = .eof) (program : List Stmt) :
    parse (ts ++ [last]) = .ok program ↔ Declarations .nearest ts program := by
  rw [parse_eq_ok_iff]
  constructor
  · intro h
    obtain ⟨rest, h⟩ := h
    exact declarations_sound_of_end hs hl h
  · intro h
    exact ⟨[last], declarations_of_end hl h⟩

theorem declarations_unique {ts : List Token} {p q : List Stmt} (hp : Declarations .nearest ts p)
    (hq : Declarations .nearest ts q) : p = q := by
  have hend : (Token.endOfSource 1).kind = .eof := rfl
  have h := declarations_of_end hend hp
  rw [declarations_of_end hend hq] at h
  cases h
  rfl

/-- Parsing accepts a list of tokens if and only if the grammar derives it, and then returns the tree of
the one derivation in which each `else` goes to the nearest `if` that lacks one. -/
theorem parse_accepts_grammar {ts : List Token} {last : Token} (hs : ∀ t ∈ ts, t.kind ≠ .eof)
    (hl : last.kind = .eof) :
    (∀ program, parse (ts ++ [last]) = .ok program ↔ Declarations .nearest ts program) ∧
      ((∃ program, parse (ts ++ [last]) = .ok program) ↔ ∃ program, Declarations .any ts program) ∧
      ∀ p q, Declarations .nearest ts p → Declarations .nearest ts q → p = q := by
  refine ⟨parse_iff_derives hs hl, ?_, fun p q => declarations_unique⟩
  constructor
  · intro h
    obtain ⟨program, h⟩ := h
    exact ⟨program, ((parse_iff_derives hs hl program).mp h).any⟩
  · intro h
    obtain ⟨program, h⟩ := h
    obtain ⟨tree, h⟩ := h.nearest
    exact ⟨tree, (parse_iff_derives hs hl tree).mpr h⟩

theorem parse_accepts_grammar_nested_if :
    let t : Kind → Token := fun kind => ⟨kind, "", 1, none⟩
    let source := [.kwIf, .leftParen, .identifier, .rightParen, .kwIf, .leftParen, .identifier,
      .rightParen, .identifier, .semicolon, .kwElse, .identifier, .equal, .minus, .identifier,
      .semicolon].map t
    let a := Expr.var (t .identifier)
    (∀ u ∈ source, u.kind ≠ .eof) ∧ (t .eof).kind = .eof ∧ parse (source ++ [t .eof]) =
      .ok [.ifThen a (.ifElse a (.expression a)
        (.expression (.assign (t .identifier) (.unary (t .minus) a))))] := by
  intro t source a
  have hs : ∀ u ∈ source, u.kind ≠ .eof := by decide
  have hk : ∀ kind, (t kind).kind = kind := fun _ => rfl
  have lift : ∀ {ts e}, Spells .unary ts e → Spells .assignment ts e := fun h =>
    .ofLogicOr (.ofLogicAnd (.ofEquality (.ofComparison (.ofTerm (.ofFactor (.ofUnary h))))))
  have ha := Spells.variable (hk .identifier)
  have hop : (t .minus).kind ∈ [.bang, .minus] := by simp [hk]
  have hminus := Spells.unary hop (.ofPrimary ha)
  have hassign := Spells.assign (hk .identifier) (hk .equal) (lift hminus)
  have hcondition := Condition.parenthesized (hk .leftParen) (lift (.ofPrimary ha)) (hk .rightParen)
  have hthen : Statement .nearest _ _ _ :=
    .simple (.expression (lift (.ofPrimary ha)) (hk .semicolon))
  have helse : Statement .nearest _ _ _ := .simple (.expression hassign (hk .semicolon))
  have hinner := Statement.ifElse (hk .kwIf) hcondition hthen (fun _ => rfl) (hk .kwElse) helse
  have houter := Declarations.statement (.ifThen (hk .kwIf) hcondition hinner) .nil
  exact ⟨hs, rfl, ((parse_accepts_grammar hs rfl).1 _).mpr houter⟩

end Lox
